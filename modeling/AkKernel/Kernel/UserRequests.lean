import AkKernel.Kernel.Execve
import AkKernel.Kernel.Mappings
import AkKernel.Mem.Confine

/-!
# What a task asks the kernel for

A task has an executable loaded, moves its break, maps memory and writes to it. None of
these requests is checked against `KZERO`; as long as their addresses happen to be below it,
and below the page under it that the kernel's stack is in, they leave the kernel's range and
the memory of others alone.
-/

set_option autoImplicit false

namespace AkKernel

open Programs Runs

section Checked
variable {α : Type}

/-- `m`, when `addr` is below `KZERO` and below the kernel's stack. -/
def checked {σ : Type} (addr : Word) (m : Prog Fault σ α) : Prog Fault σ α :=
  if addr < kStackPage then m else throw .badPointer

def loadByteLow (addr : Word) : KernM UInt8 := checked addr (loadByte addr)
def storeByteLow (addr : Word) (b : UInt8) : KernM Unit := checked addr (storeByte addr b)

def memcpyLow (dest src : Word) (n : Nat) : KernM Unit :=
  upTo (fun i => do
    let b ← loadByteLow (src + BitVec.ofNat 32 i)
    storeByteLow (dest + BitVec.ofNat 32 i) b) n

def memsetLow (dest : Word) (b : UInt8) (n : Nat) : KernM Unit :=
  upTo (fun i => storeByteLow (dest + BitVec.ofNat 32 i) b) n

def loadWordLow (addr : Word) : KernM Word := do
  let b0 ← loadByteLow addr
  let b1 ← loadByteLow (addr + 1#32)
  let b2 ← loadByteLow (addr + 2#32)
  let b3 ← loadByteLow (addr + 3#32)
  pure (b3.toBitVec ++ b2.toBitVec ++ b1.toBitVec ++ b0.toBitVec)

def pgAllocRangeLow (cur : Task) (fuel : Nat) (start limit : Word) : MemM Unit :=
  forPages (fun page => checked page (pgAlloc cur page)) fuel start (limit + pageSize)

def elfLoadSegmentLow (fuel : Nat) (elfData segment brk : Word) : KernM Word := do
  let type ← loadWordLow segment
  if type ≠ ptLoad then pure brk
  else
    let baseAddr ← loadWordLow (segment + 8#32)
    let memsz ← loadWordLow (segment + 20#32)
    let limAddr := baseAddr + memsz
    let _ ← loadWordLow (segment + 24#32)
    onMem fun cur => pgAllocRangeLow cur fuel baseAddr limAddr
    let offset ← loadWordLow (segment + 4#32)
    let filesz ← loadWordLow (segment + 16#32)
    memcpyLow baseAddr (elfData + offset) filesz.toNat
    let filesz ← loadWordLow (segment + 16#32)
    let memsz ← loadWordLow (segment + 20#32)
    memsetLow (baseAddr + filesz) 0 (memsz - filesz).toNat
    pure (if brk < limAddr then limAddr else brk)

def elfLoadLoopLow (fuel : Nat) (elfData phdr : Word) : Nat → Nat → Word → KernM Word
  | 0, _, brk => pure brk
  | rounds + 1, i, brk => do
    let brk ← elfLoadSegmentLow fuel elfData (phdr + BitVec.ofNat 32 (32 * i)) brk
    elfLoadLoopLow fuel elfData phdr rounds (i + 1) brk

/-- `elf_load`, stopped at the first address that is read, written or mapped in the kernel's
stack or above `KZERO`. -/
def elfLoadLow (fuel : Nat) (elfData phdr : Word) (numSegments : Nat) : KernM Unit := do
  let brk ← elfLoadLoopLow fuel elfData phdr numSegments 0 0#32
  setCur fun t => { t with brk := brk }

theorem checked_agrees {σ : Type} (addr : Word) (m : Prog Fault σ α) : Agrees (checked addr m) m :=
  Agrees.guard m _ _

theorem memcpyLow_agrees (dest src : Word) (n : Nat) :
    Agrees (memcpyLow dest src n) (memcpy dest src n) := by
  apply Agrees.upTo
  intro i
  exact (checked_agrees _ _).bind fun b => checked_agrees _ _

theorem memsetLow_agrees (dest : Word) (b : UInt8) (n : Nat) :
    Agrees (memsetLow dest b n) (memset dest b n) := Agrees.upTo (fun _ => checked_agrees _ _) n

theorem loadWordLow_agrees (addr : Word) : Agrees (loadWordLow addr) (loadWord addr) :=
  (checked_agrees _ _).bind fun _ => (checked_agrees _ _).bind fun _ =>
    (checked_agrees _ _).bind fun _ => (checked_agrees _ _).bind fun _ => Agrees.refl _

theorem forPages_agrees {σ : Type} {body body' : Word → Prog Fault σ Unit}
    (h : ∀ page, Agrees (body page) (body' page)) (fuel : Nat) (start limit : Word) :
    Agrees (forPages body fuel start limit) (forPages body' fuel start limit) := by
  induction fuel generalizing start with
  | zero => exact Agrees.refl _
  | succ fuel ih =>
    apply Agrees.ite
    · exact (h start).bind fun _ => ih (start + pageSize)
    · exact Agrees.refl _

theorem onMem_agrees {m m' : Task → MemM α} (h : ∀ cur, Agrees (m cur) (m' cur)) :
    Agrees (onMem m) (onMem m') := by
  rintro s ⟨a, s'⟩ hrun
  obtain ⟨mem, hm, hs'⟩ := onMem_eq_ok.mp hrun
  exact onMem_eq_ok.mpr ⟨mem, h _ _ _ hm, hs'⟩

theorem elfLoadSegmentLow_agrees (fuel : Nat) (elfData segment brk : Word) :
    Agrees (elfLoadSegmentLow fuel elfData segment brk) (elfLoadSegment fuel elfData segment brk) := by
  refine (loadWordLow_agrees _).bind fun type => ?_
  refine Agrees.ite (Agrees.refl _) ?_
  refine (loadWordLow_agrees _).bind fun baseAddr => ?_
  refine (loadWordLow_agrees _).bind fun memsz => ?_
  refine (loadWordLow_agrees _).bind fun _ => ?_
  refine (onMem_agrees fun cur => ?_).bind fun _ => ?_
  · exact forPages_agrees (fun page => checked_agrees page _) fuel _ _
  refine (loadWordLow_agrees _).bind fun offset => ?_
  refine (loadWordLow_agrees _).bind fun filesz => ?_
  refine (memcpyLow_agrees _ _ _).bind fun _ => ?_
  refine (loadWordLow_agrees _).bind fun filesz => ?_
  refine (loadWordLow_agrees _).bind fun memsz => ?_
  exact (memsetLow_agrees _ _ _).bind fun _ => Agrees.refl _

theorem elfLoadLoopLow_agrees (fuel : Nat) (elfData phdr : Word) (rounds i : Nat) (brk : Word) :
    Agrees (elfLoadLoopLow fuel elfData phdr rounds i brk)
      (elfLoadLoop fuel elfData phdr rounds i brk) := by
  induction rounds generalizing i brk with
  | zero => exact Agrees.refl _
  | succ rounds ih => exact (elfLoadSegmentLow_agrees _ _ _ _).bind fun brk => ih (i + 1) brk

theorem elfLoadLow_agrees (fuel : Nat) (elfData phdr : Word) (numSegments : Nat) :
    Agrees (elfLoadLow fuel elfData phdr numSegments) (elfLoad fuel elfData phdr numSegments) :=
  (elfLoadLoopLow_agrees _ _ _ _ _ _).bind fun _ => Agrees.refl _

end Checked

/-- What a task asks the kernel for, or does to its memory between that. `load` is `elf_load`
of the image at `elfData`. -/
inductive MemRequest where
  | load (elfData phdr : Word) (numSegments : Nat)
  | brk (addr : Word)
  | mmap (length flags : Word)
  | store (addr : Word) (b : UInt8)
deriving DecidableEq, Repr

def MemRequest.exec (fuel : Nat) : MemRequest → KernM Unit
  | .load elfData phdr numSegments => elfLoad fuel elfData phdr numSegments
  | .brk addr => do let _ ← sysBrk fuel addr
  | .mmap length flags => do let _ ← sysMmapPgoff fuel length flags
  | .store addr b => storeByte addr b

/-- Every address that the request reads, writes, maps or unmaps is below `KZERO`, and below the
page of the kernel's stack, on which the request runs. -/
def MemRequest.Low (fuel : Nat) (s : Kern) : MemRequest → Prop
  | .load elfData phdr numSegments => ∃ r, elfLoadLow fuel elfData phdr numSegments s = .ok r
  | .brk addr => ∀ v, (MemOp.brk s.proc.cur.brk addr).Touches s.proc.cur s.mem.1 v → v < kStackPage
  | .mmap length _ => ∀ v, (MemOp.allocRange s.proc.cur.mmapbrk
      (s.proc.cur.mmapbrk + length + pageSize)).Touches s.proc.cur s.mem.1 v → v < kStackPage
  | .store addr _ => addr < kStackPage

def RequestStep (s : Kern) (lbl : MemRequest × Unit) (s' : Kern) : Prop :=
  ∃ fuel, lbl.1.Low fuel s ∧ lbl.1.exec fuel s = .ok ((), s')

structure LowState (s : Kern) : Prop extends MapInv s where
  low : LowPages s.mem.1 (dirs s.proc)

/-- The running task's directory is the one that is loaded. -/
def Loaded (s : Kern) : Prop := s.proc.cr3 = s.proc.cur.pgd

/-- What the requests of the task that runs in `s₀` keep. -/
structure Held (s₀ s : Kern) : Prop where
  tasks : SameTasks s₀.proc s.proc
  tmp : s.mem.2 = s₀.mem.2
  confine : Confine (dirs s₀.proc) (frameNo s₀.proc.cur.pgd) s₀.mem.1 s.mem.1

section Requests
variable {α : Type} {s₀ s s' : Kern} {addr : Word}

theorem LowState.held (h : LowState s) : Held s s :=
  ⟨SameTasks.refl _, rfl, h.low.confine h.init⟩

theorem Held.ready (h : Held s₀ s) (h₀ : LowState s₀) : Ready [] 6 s.mem.2 := by
  rw [h.tmp]
  exact h₀.tmp

theorem Held.call (h : Held s₀ s) (h₀ : LowState s₀) {m : MemOp} {fuel : Nat} {r : Word} {c' : Phys}
    {p' : Proc} (hlow : ∀ v, m.Touches s.proc.cur s.mem.1 v → v < kZero)
    (hrun : m.runDirect s.proc.cur fuel s.mem.1 = .ok (r, c')) (hsame : SameTasks s.proc p') :
    Held s₀ { s with proc := p', mem := (c', s.mem.2) } := by
  have hpgd := h.tasks.cur_pgd
  refine ⟨h.tasks.trans hsame, h.tmp, ?_⟩
  have hd : frameNo s.proc.cur.pgd ∈ dirs s₀.proc := by
    rw [hpgd]
    exact h₀.runner.cur_mem
  have hkeep : Keeper s.proc.cur (fun v => v < kZero)
      (Confine (dirs s₀.proc) (frameNo s.proc.cur.pgd) s₀.mem.1) := Confine.keeper hd
  rw [hpgd] at hkeep
  exact hkeep.run hlow h.confine hrun

theorem Held.effect (h : Held s₀ s) (h₀ : LowState s₀) {op : KOp} {m : MemOp}
    (hop : op.memOp s.proc = some m) (hnone : op.copies s.proc = none)
    (hlow : ∀ v, m.Touches s.proc.cur s.mem.1 v → v < kZero) (he : KEffect s op s') :
    Held s₀ s' := by
  cases he with
  | call _ m' fuel r c' p' hop' hrun hsame =>
    have hm : m' = m := Option.some.inj (hop'.symm.trans hop)
    rw [hm] at hrun
    exact h.call h₀ hlow hrun hsame
  | copy _ dest a c' hc _ =>
    rw [hnone] at hc
    cases hc
  | _ => cases hop

theorem faultDest_low {p : Proc} (ha : addr < kZero) : faultDest p addr = none := by
  apply if_neg
  intro hk
  have hr : kZero ≤ addr ∧ addr < kTmpMem := by simpa [pgIsKernel] using hk
  exact BitVec.not_lt.mpr hr.1 ha

theorem Held.fault (h : Held s₀ s) (h₀ : LowState s₀) (ha : addr < kZero)
    (hrun : pgFault addr s = .ok ((), s')) : Held s₀ s' := by
  have hop : (KOp.fault addr).memOp s.proc = some (.fault addr) := if_pos (faultDest_low ha)
  refine h.effect h₀ hop ?_ ?_ (pgFault_effect (h.ready h₀) hrun)
  · simp only [KOp.copies, faultDest_low ha, Option.map_none]
  · intro v hv
    rw [hv]
    exact ha

theorem Held.access (h : Held s₀ s) (h₀ : LowState s₀) (ha : addr < kZero) {n : Nat}
    (hrun : access addr s = .ok (n, s')) : Held s₀ s' ∧ walk s' addr = some n := by
  unfold AkKernel.access at hrun
  split at hrun
  · rename_i m hw
    cases hrun
    exact ⟨h, hw⟩
  · split at hrun
    · cases hrun
    · rename_i u t hf
      split at hrun
      · rename_i m hw
        cases hrun
        exact ⟨h.fault h₀ ha hf, hw⟩
      · cases hrun

theorem Held.walk_own (h : Held s₀ s) (hl : Loaded s₀) (ha : addr < kZero)
    {n : Nat} (hw : walk s addr = some n) :
    ∃ t, translate s.mem.1 (frameNo s₀.proc.cur.pgd) addr = some t ∧ t.1 = n := by
  have htmp : ¬ kTmpMem ≤ addr := by
    intro ht
    exact BitVec.not_lt.mpr (BitVec.le_trans (by decide) ht) ha
  have hcr3 : s.proc.cr3 = s₀.proc.cur.pgd := h.tasks.cr3.trans hl
  unfold walk at hw
  rw [if_neg htmp, hcr3] at hw
  exact Option.map_eq_some_iff.mp hw

theorem preserves_checked {I : Kern → Prop} {m : KernM α}
    (h : addr < kZero → Preserves I m) : Preserves I (checked addr m) :=
  Preserves.ite (fun hlt => h (lt_kZero_of_below hlt)) fun _ => preserves_throw _

/-- What faults, stores and new pages below `KZERO` keep, and a break that is moved. -/
structure LowKept (I : Kern → Prop) : Prop where
  fault : ∀ addr, addr < kZero → Preserves I (pgFault addr)
  store : ∀ addr b, addr < kZero → Preserves I (storeByte addr b)
  alloc : ∀ addr, addr < kZero → Preserves I (onMem fun cur => pgAlloc cur addr)
  brk : ∀ brk, Preserves I (setCur fun t => { t with brk := brk })

section LowKept
variable {I : Kern → Prop}

theorem preserves_access (h : Preserves I (pgFault addr)) : Preserves I (access addr) := by
  intro s n s' hs hrun
  unfold AkKernel.access at hrun
  split at hrun
  · cases hrun
    exact hs
  · split at hrun
    · cases hrun
    · rename_i u t hf
      have ht := h s u t hs hf
      split at hrun
      · cases hrun
        exact ht
      · cases hrun

theorem LowKept.loadByteLow (h : LowKept I) (addr : Word) : Preserves I (loadByteLow addr) := by
  apply preserves_checked
  intro ha
  apply (preserves_access (h.fault addr ha)).bind
  intro n s b s' hs hrun
  cases hrun
  exact hs

theorem LowKept.storeByteLow (h : LowKept I) (addr : Word) (b : UInt8) :
    Preserves I (storeByteLow addr b) := preserves_checked fun ha => h.store addr b ha

theorem LowKept.loadWordLow (h : LowKept I) (addr : Word) : Preserves I (loadWordLow addr) :=
  (h.loadByteLow _).bind fun _ => (h.loadByteLow _).bind fun _ =>
    (h.loadByteLow _).bind fun _ => (h.loadByteLow _).bind fun _ => preserves_pure _

theorem LowKept.memcpyLow (h : LowKept I) (dest src : Word) (n : Nat) :
    Preserves I (memcpyLow dest src n) := by
  apply Preserves.upTo
  intro i
  exact (h.loadByteLow _).bind fun b => h.storeByteLow _ b

theorem LowKept.memsetLow (h : LowKept I) (dest : Word) (b : UInt8) (n : Nat) :
    Preserves I (memsetLow dest b n) := Preserves.upTo (fun _ => h.storeByteLow _ b) n

/-- Every round maps a page below `KZERO`. -/
theorem LowKept.pgAllocRangeLow (h : LowKept I) (fuel : Nat) (start limit : Word) :
    Preserves I (onMem fun cur => pgAllocRangeLow cur fuel start limit) := by
  intro s u s' hs hrun
  obtain ⟨mem, hm, rfl⟩ := onMem_eq_ok.mp hrun
  refine forPages_keeps (I := fun m => I { s with mem := m }) hs ?_ hm
  intro v m m' _ hi hbody
  unfold checked at hbody
  split at hbody
  · rename_i hv
    exact h.alloc v (lt_kZero_of_below hv) { s with mem := m } () _ hi (onMem_eq_ok.mpr ⟨m', hbody, rfl⟩)
  · cases hbody

theorem LowKept.elfLoadSegmentLow (h : LowKept I) (fuel : Nat) (elfData segment brk : Word) :
    Preserves I (elfLoadSegmentLow fuel elfData segment brk) := by
  refine (h.loadWordLow _).bind fun type => ?_
  refine Preserves.ite (fun _ => preserves_pure _) fun _ => ?_
  refine (h.loadWordLow _).bind fun baseAddr => ?_
  refine (h.loadWordLow _).bind fun memsz => ?_
  refine (h.loadWordLow _).bind fun _ => ?_
  refine (h.pgAllocRangeLow fuel _ _).bind fun _ => ?_
  refine (h.loadWordLow _).bind fun offset => ?_
  refine (h.loadWordLow _).bind fun filesz => ?_
  refine (h.memcpyLow _ _ _).bind fun _ => ?_
  refine (h.loadWordLow _).bind fun filesz => ?_
  refine (h.loadWordLow _).bind fun memsz => ?_
  exact (h.memsetLow _ _ _).bind fun _ => preserves_pure _

theorem LowKept.elfLoadLoopLow (h : LowKept I) (fuel : Nat) (elfData phdr : Word)
    (rounds i : Nat) (brk : Word) :
    Preserves I (elfLoadLoopLow fuel elfData phdr rounds i brk) := by
  induction rounds generalizing i brk with
  | zero => exact preserves_pure _
  | succ rounds ih => exact (h.elfLoadSegmentLow _ _ _ _).bind fun brk => ih (i + 1) brk

theorem LowKept.elfLoadLow (h : LowKept I) (fuel : Nat) (elfData phdr : Word)
    (numSegments : Nat) : Preserves I (elfLoadLow fuel elfData phdr numSegments) :=
  (h.elfLoadLoopLow _ _ _ _ _ _).bind fun brk => h.brk brk

end LowKept

theorem held_storeByte (h₀ : LowState s₀) (hl : Loaded s₀) (ha : addr < kZero) (b : UInt8) :
    Preserves (Held s₀) (storeByte addr b) := by
  intro s u s' h hrun
  obtain ⟨n, s₁, hacc, hrun⟩ := bind_ok.mp hrun
  obtain ⟨s₂, s₃, hget, hrun⟩ := bind_ok.mp hrun
  cases hget
  cases hrun
  obtain ⟨h₁, hw⟩ := h.access h₀ ha hacc
  obtain ⟨t, ht, hn⟩ := h₁.walk_own hl ha hw
  have hd := h₀.runner.cur_mem
  obtain ⟨hne, hp, hframe⟩ := h₁.confine.walk_page hd ha ht
  refine ⟨h₁.tasks, h₁.tmp, ?_⟩
  exact h₁.confine.store hd (addrPde_lt_iff.mpr ha) hne (addrPte_lt addr) hp (hframe.trans hn) _ _

theorem held_lowKept (h₀ : LowState s₀) (hl : Loaded s₀) : LowKept (Held s₀) := by
  refine ⟨?_, fun addr b ha => held_storeByte h₀ hl ha b, ?_, ?_⟩
  · intro addr ha s u s' h hrun
    exact h.fault h₀ ha hrun
  · intro addr ha s u s' h hrun
    have hexec : (KOp.alloc addr).exec 0 s = .ok ((), s') := hrun
    have heffect := KOp.exec_effect (h.ready h₀) hexec
    refine h.effect h₀ (m := .alloc addr) rfl rfl ?_ heffect
    intro v hv
    rw [hv]
    exact ha
  · intro brk s u s' h hrun
    cases hrun
    exact ⟨h.tasks.trans (sameTasks_setTask rfl rfl), h.tmp, h.confine⟩

theorem Held.step (h : Held s₀ s) (h₀ : LowState s₀) (hl : Loaded s₀)
    {lbl : MemRequest × Unit} (hs : RequestStep s lbl s') : Held s₀ s' := by
  obtain ⟨fuel, hlow, hex⟩ := hs
  cases hr : lbl.1 with
  | load elfData phdr numSegments =>
    rw [hr] at hlow hex
    obtain ⟨⟨u, t⟩, hload⟩ := hlow
    -- the load that is stopped was not stopped, so it is the one that was made
    have hsame := elfLoadLow_agrees fuel elfData phdr numSegments s _ hload
    rw [MemRequest.exec, hsame] at hex
    cases hex
    exact (held_lowKept h₀ hl).elfLoadLow fuel elfData phdr numSegments s _ s' h hload
  | brk addr =>
    rw [hr] at hlow hex
    obtain ⟨b, s₁, h1, h2⟩ := bind_ok.mp hex
    cases h2
    have hop : (KOp.brk addr).memOp s.proc = some (.brk s.proc.cur.brk addr) := rfl
    exact h.effect h₀ hop rfl (fun v hv => lt_kZero_of_below (hlow v hv))
      (sysBrk_effect (h.ready h₀) h1)
  | mmap length flags =>
    rw [hr] at hlow hex
    obtain ⟨b, s₁, h1, h2⟩ := bind_ok.mp hex
    cases h2
    have hop : (KOp.mmap length flags).memOp s.proc = some (.allocRange s.proc.cur.mmapbrk
      (s.proc.cur.mmapbrk + length + pageSize)) := rfl
    exact h.effect h₀ hop rfl (fun v hv => lt_kZero_of_below (hlow v hv))
      (sysMmapPgoff_effect (h.ready h₀) h1)
  | store addr b =>
    rw [hr] at hlow hex
    exact held_storeByte h₀ hl (lt_kZero_of_below hlow) b s () s' h hex

theorem LowState.sameDirs (h : LowState s) {p' : Proc} (hm : MapInv { s with proc := p' })
    (hs : SameDirs s.proc p') : LowState { s with proc := p' } := by
  refine ⟨hm, ?_⟩
  rw [hs.dirs_eq]
  exact h.low

theorem LowState.effect (h : LowState s) {op : KOp} (he : KEffect s op s') : LowState s' := by
  have hmap := h.toMapInv.effect he
  cases he with
  | enter task _ => exact h.sameDirs hmap (sameDirs_taskEnter s.proc task)
  | enterKernel => exact h.sameDirs hmap (sameDirs_enterKernel s.proc)
  | leaveKernel => exact h.sameDirs hmap (sameDirs_leaveKernel s.proc)
  | fork pgd c' clone p' hclone hfork =>
    have hd := h.runner.cr3_mem
    refine ⟨hmap, ?_⟩
    rw [taskFork_dirs hfork]
    exact h.low.clone hd (pgCloneDir_effect h.init (h.mapped.used hd) hclone)
  | call _ m fuel r c' p' hop hrun hsame =>
    refine ⟨hmap, ?_⟩
    rw [hsame.dirs_eq]
    exact ((LowPages.keeper h.runner.cur_mem).run (fun _ _ => trivial) ⟨h.init, h.low⟩ hrun).2
  | copy _ dest a c' hop hrun =>
    have hk := h.runner.kernel_mem
    obtain ⟨hne, -, hed⟩ := pgCopyMapping_ok h.init (h.mapped.dirUsed _ hk) hrun
    exact ⟨hmap, h.low.copied hk (h.runner.copies_mem hop) (addrPde_lt a) (addrPte_lt a) hne hed⟩

theorem Held.lowState (h : Held s₀ s) (h₀ : LowState s₀) : LowState s := by
  have hs := h.tasks
  refine ⟨⟨h₀.runner.sameTasks hs, ?_, h.ready h₀, h.confine.init, ?_⟩, ?_⟩
  · intro hu
    rw [hs.userTask] at hu
    rw [hs.cr3, hs.cur_pgd]
    exact h₀.noCallYet hu
  · rw [hs.dirs_eq]
    exact h.confine.mapped
  · rw [hs.dirs_eq]
    exact h.confine.toLowPages

end Requests

/-- What happens in the system: a call that changes mappings, a request of the running task,
or a write to memory that is in no directory and no table. -/
inductive SystemOp where
  | call (op : KOp)
  | request (r : MemRequest)
  | write (n i : Nat) (w : Word)

def SystemStep (s : Kern) (lbl : SystemOp × Unit) (s' : Kern) : Prop :=
  match lbl.1 with
  | .call op => KStep s (op, ()) s'
  | .request r => Loaded s ∧ RequestStep s (r, ()) s'
  | .write n i w => PlainFrame s.mem.1 (dirs s.proc) n ∧
      s' = { s with mem := (s.mem.1.setWord n i w, s.mem.2) }

/-- The pages of the kernel's stack are neither `KernelPageDir` nor one of its tables. -/
def BootStack (c : Phys) (d : Nat) : Prop :=
  ∀ j, j < 1024 → Present (tableWord c d 767 j) → PlainFrame c {d} (frameNo (tableWord c d 767 j))

/-- From `s` on, no address of the kernel was mapped, unmapped or mapped to something else in
any directory, and nothing was written but frames of the running task and frames that were
free and have been taken. -/
structure Confined (s s' : Kern) : Prop where
  mappings : ∀ t, t < s.proc.ntasks → ∀ a, kZero ≤ a →
    translate s'.mem.1 (frameNo (s'.proc.task t).pgd) a =
      translate s.mem.1 (frameNo (s.proc.task t).pgd) a
  tmp : s'.mem.2 = s.mem.2
  contents : ∀ t, t < s.proc.ntasks → ∀ a, kZero ≤ a → ∀ r,
    translate s.mem.1 (frameNo (s.proc.task t).pgd) a = some r →
    ¬ Own s.mem.1 (frameNo s.proc.cur.pgd) r.1 → r.1 ∉ s.mem.1.free →
    loadVia s'.mem.1 (frameNo (s'.proc.task t).pgd) a =
      loadVia s.mem.1 (frameNo (s.proc.task t).pgd) a
  frames : ∀ n, s'.mem.1.mem n ≠ s.mem.1.mem n →
    Own s.mem.1 (frameNo s.proc.cur.pgd) n ∨ n ∈ s.mem.1.free ∧ n ∉ s'.mem.1.free

section Runs
variable {s s' s₀ : Kern}

theorem Held.confined (h : Held s₀ s) : Confined s₀ s := by
  have hmap : ∀ t, t < s₀.proc.ntasks → ∀ a, kZero ≤ a →
      translate s.mem.1 (frameNo (s.proc.task t).pgd) a =
        translate s₀.mem.1 (frameNo (s₀.proc.task t).pgd) a := by
    intro t ht a ha
    rw [h.tasks.pgd]
    exact h.confine.translate_eq ⟨t, ht, rfl⟩ ha
  refine ⟨hmap, h.tmp, ?_, h.confine.written⟩
  intro t ht a ha r hr hown hfree
  have hsame : s.mem.1.mem r.1 = s₀.mem.1.mem r.1 := by
    by_contra hne
    rcases h.confine.written r.1 hne with ho | hf
    · exact hown ho
    · exact hfree hf.1
  unfold loadVia
  rw [hmap t ht a ha, hr, Option.map_some, Option.map_some, hsame]

theorem LowState.step (h : LowState s) {lbl : SystemOp × Unit} (hs : SystemStep s lbl s') :
    LowState s' := by
  unfold SystemStep at hs
  split at hs
  · obtain ⟨-, fuel, hex⟩ := hs
    exact h.effect (KOp.exec_effect h.tmp hex)
  · obtain ⟨hl, hreq⟩ := hs
    exact (h.held.step h hl hreq).lowState h
  · obtain ⟨hn, hs'⟩ := hs
    have hlow := h.low.store hn
    rw [hs']
    exact ⟨⟨h.runner, h.noCallYet, h.tmp, h.init, (hlow _ _).mapped⟩, hlow _ _⟩

theorem Booted.lowState (h : Booted s) (hstack : BootStack s.mem.1 (frameNo s.proc.cr3)) :
    LowState s := by
  refine ⟨h.mapInv, ?_⟩
  rw [h.dirs_eq]
  refine ⟨h.dir.mapped, ?_, ?_⟩
  · rintro d rfl i hi hx
    have h768 := h.dir.extended (Nat.lt_trans hi (by decide)) hx
    omega
  · rintro d rfl i hi hne j hj hp
    have h767 : i = 767 := by
      rcases h.dir.cases (Nat.lt_trans hi (by decide)) hne with ⟨hi', -⟩ | ⟨hi', -⟩ | ⟨hi', -⟩
      · exact hi'
      · omega
      · omega
    rw [h767] at hp ⊢
    exact hstack j hj hp

end Runs

section Tests

/-- A test for `Low`. -/
def MemRequest.low (fuel : Nat) (s : Kern) : MemRequest → Bool
  | .load elfData phdr numSegments =>
    passes (elfLoadLow fuel elfData phdr numSegments s) fun _ _ => true
  | .brk addr => (MemOp.brk s.proc.cur.brk addr).limit kStackPage
  | .mmap length _ =>
    (MemOp.allocRange s.proc.cur.mmapbrk (s.proc.cur.mmapbrk + length + pageSize)).limit kStackPage
  | .store addr _ => addr < kStackPage

theorem low_of_test {fuel : Nat} {s : Kern} {r : MemRequest} (h : r.low fuel s = true) :
    r.Low fuel s := by
  cases r with
  | load elfData phdr numSegments =>
    obtain ⟨u, t, hload, -⟩ := passes_iff.mp h
    exact ⟨_, hload⟩
  | brk addr =>
    have hlim : (MemOp.brk s.proc.cur.brk addr).limit kStackPage = true := h
    exact fun v hv => MemOp.touches_lt hlim hv
  | mmap length flags =>
    have hlim : (MemOp.allocRange s.proc.cur.mmapbrk
      (s.proc.cur.mmapbrk + length + pageSize)).limit kStackPage = true := h
    exact fun v hv => MemOp.touches_lt hlim hv
  | store addr b =>
    have htest : decide (addr < kStackPage) = true := h
    have hlt : addr < kStackPage := of_decide_eq_true htest
    exact hlt

/-- The executable forms of the steps. -/
def MemRequest.tryExec (fuel : Nat) (r : MemRequest) (s : Kern) : Except Fault (Unit × Kern) :=
  if r.low fuel s then r.exec fuel s else .error .diverges

def SystemOp.tryExec (fuel : Nat) (op : SystemOp) (s : Kern) : Except Fault (Unit × Kern) :=
  match op with
  | .call op => op.tryExec fuel s
  | _ => .error .diverges

theorem requestStep_of_tryExec (fuel : Nat) (r : MemRequest) (s : Kern) (u : Unit) (s' : Kern)
    (h : r.tryExec fuel s = .ok (u, s')) : RequestStep s (r, u) s' := by
  unfold MemRequest.tryExec at h
  split at h
  · exact ⟨fuel, low_of_test (by assumption), h⟩
  · cases h

theorem systemStep_of_tryExec (fuel : Nat) (op : SystemOp) (s : Kern) (u : Unit) (s' : Kern)
    (h : op.tryExec fuel s = .ok (u, s')) : SystemStep s (op, u) s' := by
  cases op with
  | call op => exact kStep_of_tryExec fuel op s u s' h
  | request r => cases h
  | write n i w => cases h

theorem bootKern_stack : BootStack bootKern.mem.1 (frameNo bootKern.proc.cr3) := by
  have hd : frameNo bootKern.proc.cr3 = 272 := by decide
  rw [hd]
  intro j _ hp
  have hslot : frameNo (bootKern.mem.1.mem 272 767) = 274 := by decide
  unfold tableWord at hp ⊢
  rw [hslot] at hp ⊢
  obtain ⟨-, hj⟩ := bootKern_page (by decide) hp
  rw [hj]
  refine ⟨by decide, ?_⟩
  rintro y rfl l _ hne
  rcases bootKern_slot hne with h | h | h
  · rw [h]
    decide
  · rw [h]
    decide
  · rw [h]
    decide

end Tests

/-- In every run from boot, what a running task asks for below `KZERO` and the kernel's stack, in
any order, leaves the kernel's range of every directory and the memory of others alone. -/
theorem requests_confined (s₀ : Kern) (h₀ : Booted s₀)
    (hstack : BootStack s₀.mem.1 (frameNo s₀.proc.cr3)) (tr : List (SystemOp × Unit)) (s : Kern)
    (hrun : Run SystemStep s₀ tr s) (hl : Loaded s) (reqs : List (MemRequest × Unit)) (s' : Kern)
    (hreqs : Run RequestStep s reqs s') : Confined s s' := by
  have hlow : LowState s := Run.invariant (I := fun _ s => LowState s) (h₀.lowState hstack)
    (fun _ _ _ _ h hs => h.step hs) hrun
  have hheld : Held s s' := Run.invariant (I := fun _ t => Held s t) hlow.held
    (fun _ _ _ _ h hs => h.step hlow hl hs) hreqs
  exact hheld.confined

/-- A child maps memory, writes a program header there, has the segment loaded at `0x5000`,
and lets its break grow. -/
theorem requests_confined_of_child : ∃ s s', Confined s s' ∧ s.proc.cur.pid ≠ kernelPid ∧
    loadVia s'.mem.1 (frameNo s.proc.cur.pgd) 0x5000#32 = some 0x1#32 ∧
    translate s'.mem.1 (frameNo s.proc.cur.pgd) 0x7000#32 ≠ none := by
  obtain ⟨tr, s, hrun, htest⟩ := exists_run (SystemOp.tryExec 8) (systemStep_of_tryExec 8)
    [.call .fork, .call (.enter 1)] bootKern
    (fun _ s => s.proc.cr3 == s.proc.cur.pgd && s.proc.cur.pid != kernelPid &&
      passes (exec (MemRequest.tryExec 8)
        [.mmap 0x1000#32 mapAnonymous, .store 0#32 1, .store 9#32 0x50, .store 16#32 2,
          .store 20#32 4, .load 0#32 0#32 1, .brk 0x7000#32] s)
        fun _ s' => loadVia s'.mem.1 (frameNo s.proc.cur.pgd) 0x5000#32 == some 0x1#32 &&
          (translate s'.mem.1 (frameNo s.proc.cur.pgd) 0x7000#32).isSome) (by decide +kernel)
  rw [Bool.and_eq_true, Bool.and_eq_true, beq_iff_eq, bne_iff_ne, passes_iff] at htest
  obtain ⟨⟨hl, hpid⟩, reqs, s', hex, hmem⟩ := htest
  rw [Bool.and_eq_true, beq_iff_eq, Option.isSome_iff_ne_none] at hmem
  refine ⟨s, s', ?_, hpid, hmem⟩
  exact requests_confined bootKern bootKern_booted bootKern_stack tr s hrun hl reqs s'
    (run_of_exec _ (requestStep_of_tryExec 8) hex)

/-- A child whose break is in the kernel's heap lets it grow: the page appears in the directory
of `KernelTask`. -/
theorem requests_reach_kernel : Booted bootKern ∧
    BootStack bootKern.mem.1 (frameNo bootKern.proc.cr3) ∧
    ∃ tr s s', Run SystemStep bootKern tr s ∧ Loaded s ∧ s.proc.cur.pid ≠ kernelPid ∧
      (∃ fuel, (MemRequest.brk 0xC0401000#32).exec fuel s = .ok ((), s')) ∧
      kernelTask < s.proc.ntasks ∧ kZero ≤ 0xC0401000#32 ∧
      translate s'.mem.1 (frameNo (s'.proc.task kernelTask).pgd) 0xC0401000#32 ≠
        translate s.mem.1 (frameNo (s.proc.task kernelTask).pgd) 0xC0401000#32 := by
  obtain ⟨tr, s, hrun, htest⟩ := exists_run (SystemOp.tryExec 8) (systemStep_of_tryExec 8)
    [.call (.brk 0xC0400000#32), .call .fork, .call (.enter 1)] bootKern
    (fun _ s => s.proc.cr3 == s.proc.cur.pgd && s.proc.cur.pid != kernelPid &&
      0 < s.proc.ntasks && passes ((MemRequest.brk 0xC0401000#32).exec 8 s) fun _ s' =>
        translate s'.mem.1 (frameNo (s'.proc.task kernelTask).pgd) 0xC0401000#32 !=
          translate s.mem.1 (frameNo (s.proc.task kernelTask).pgd) 0xC0401000#32) (by decide +kernel)
  rw [Bool.and_eq_true, Bool.and_eq_true, Bool.and_eq_true, beq_iff_eq, bne_iff_ne,
    decide_eq_true_iff, passes_iff] at htest
  obtain ⟨⟨⟨hl, hpid⟩, hn⟩, u, s', hex, hdiff⟩ := htest
  rw [bne_iff_ne] at hdiff
  exact ⟨bootKern_booted, bootKern_stack, tr, s, s', hrun, hl, hpid, ⟨8, hex⟩, hn, by decide, hdiff⟩

end AkKernel
