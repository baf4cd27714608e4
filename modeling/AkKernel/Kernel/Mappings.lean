import AkKernel.Kernel.Ops
import AkKernel.Mem.Mapped

/-!
# The directories of all tasks, over runs

From boot on, the directories of the tasks stay as `Mapped` says.
-/

set_option autoImplicit false

namespace AkKernel

open Programs Runs

/-- The call maps nothing at or above `KTMPMEM`: the pages there are the temporary
mappings, whose table is no frame of memory here. -/
def KOp.Below (s : Kern) (op : KOp) : Prop :=
  (∀ m v, op.memOp s.proc = some m → m.Touches s.proc.cur s.mem.1 v → v < kTmpMem) ∧
    ∀ dest addr, op.copies s.proc = some (dest, addr) → addr < kTmpMem

def KStep (s : Kern) (lbl : KOp × Unit) (s' : Kern) : Prop :=
  lbl.1.Below s ∧ ∃ fuel, lbl.1.exec fuel s = .ok ((), s')

structure MapInv (s : Kern) : Prop where
  runner : Runner s.proc
  noCallYet : NoCallYet s.proc
  tmp : Ready [] 6 s.mem.2
  init : s.mem.1.frameAllocInitialized = true
  mapped : Mapped s.mem.1 (dirs s.proc)

section Steps
variable {s s' : Kern} {op : KOp}

theorem pgCloneDir_effect {c c' : Phys} {pgd f : Word} (hinit : c.frameAllocInitialized = true)
    (hu : DirUsed c (frameNo pgd)) (h : Direct.pgCloneDir pgd c = .ok (f, c')) :
    DirInv c (frameNo pgd) (frameNo f) 1024 c' := by
  obtain ⟨n, hf, hinv⟩ := pgCloneDir_ok hinit hu h
  rw [hf, frameNo_frameAddr (FrameBitmap.free_lt hinv.fresh)]
  exact hinv

theorem MapInv.copies (h : MapInv s) {c' : Phys} {dest addr : Word}
    (hop : op.copies s.proc = some (dest, addr))
    (hrun : Direct.pgCopyMapping s.proc.cur dest (s.proc.task kernelTask).pgd addr s.mem.1 =
      .ok ((), c')) :
    c'.frameAllocInitialized = true ∧ Mapped c' (dirs s.proc) := by
  obtain ⟨hne, -, hed⟩ := pgCopyMapping_ok h.init (h.mapped.dirUsed _ h.runner.kernel_mem) hrun
  refine ⟨hed.init.trans h.init, ?_⟩
  exact h.mapped.copied h.runner.kernel_mem (h.runner.copies_mem hop) (addrPde_lt addr)
    (addrPte_lt addr) hne hed

theorem MapInv.sameDirs (h : MapInv s) {p' : Proc} (hr : Runner p') (hc : NoCallYet p')
    (hs : SameDirs s.proc p') : MapInv { s with proc := p' } := by
  refine ⟨hr, hc, h.tmp, h.init, ?_⟩
  rw [hs.dirs_eq]
  exact h.mapped

theorem MapInv.effect (h : MapInv s) (he : KEffect s op s') : MapInv s' := by
  have hrunner := h.runner.step he
  have hcall := h.noCallYet.step h.runner he
  cases he with
  | enter task _ => exact h.sameDirs hrunner hcall (sameDirs_taskEnter s.proc task)
  | enterKernel => exact h.sameDirs hrunner hcall (sameDirs_enterKernel s.proc)
  | leaveKernel => exact h.sameDirs hrunner hcall (sameDirs_leaveKernel s.proc)
  | fork pgd c' clone p' hclone hfork =>
    have hd := h.runner.cr3_mem
    have hinv := pgCloneDir_effect h.init (h.mapped.used hd) hclone
    refine ⟨hrunner, hcall, h.tmp, hinv.grows.init.trans h.init, ?_⟩
    rw [taskFork_dirs hfork]
    exact h.mapped.clone hd hinv
  | call _ m fuel r c' p' _ hrun hsame =>
    have hk := (Mapped.keeper h.runner.cur_mem).run (fun _ _ => trivial) ⟨h.init, h.mapped⟩ hrun
    refine ⟨hrunner, hcall, h.tmp, hk.1, ?_⟩
    rw [hsame.dirs_eq]
    exact hk.2
  | copy _ dest addr c' hop hrun =>
    have hk := h.copies hop hrun
    exact ⟨hrunner, hcall, h.tmp, hk.1, hk.2⟩

theorem MapInv.step (h : MapInv s) {lbl : KOp × Unit} (hs : KStep s lbl s') : MapInv s' := by
  obtain ⟨-, fuel, hex⟩ := hs
  exact h.effect (KOp.exec_effect h.tmp hex)

end Steps

/-- `KernelPageDir` when `arch_init` returns: nothing below the stack of the kernel,
then the first 4 MB of memory, the tables of the kernel's heap if it has grown so far,
and `TmpPageTbl`. -/
structure BootDir (c : Phys) (d : Nat) : Prop where
  used : d ∉ c.free
  low : ∀ i, i < 767 → c.mem d i = nilPgEnt
  stack : ∃ n, c.mem d 767 = pageEntry (frameAddr n) baseFlagBits
  kernelLow : c.mem d 768 = kernelLow4M
  heap : ∀ i, 768 < i → i < 1023 →
    c.mem d i = nilPgEnt ∨ ∃ n, c.mem d i = pageEntry (frameAddr n) kernelFlags
  tmp : ∃ n, c.mem d 1023 = pageEntry (frameAddr n) kernelFlags
  tables : ∀ i, i < 1024 → c.mem d i ≠ nilPgEnt →
    frameNo (c.mem d i) ∉ c.free ∧ frameNo (c.mem d i) ≠ d
  pages : ∀ i, i < 1024 → c.mem d i ≠ nilPgEnt → i ≠ 768 → ∀ j, j < 1024 →
    Present (c.mem (frameNo (c.mem d i)) j) → frameNo (c.mem (frameNo (c.mem d i)) j) ∉ c.free
  distinct : ∀ i j, i < 1024 → j < 1024 → c.mem d i ≠ nilPgEnt → c.mem d j ≠ nilPgEnt →
    frameNo (c.mem d i) = frameNo (c.mem d j) → i = j

structure Booted (s : Kern) : Prop where
  proc : ∃ kernEnd pgd, s.proc = bootProc kernEnd pgd
  tmp : Ready [] 6 s.mem.2
  init : s.mem.1.frameAllocInitialized = true
  dir : BootDir s.mem.1 (frameNo s.proc.cr3)

section Boot
variable {c : Phys} {d i : Nat} {s : Kern}

theorem BootDir.cases (h : BootDir c d) (hi : i < 1024) (hne : c.mem d i ≠ nilPgEnt) :
    (i = 767 ∧ ∃ n, c.mem d i = pageEntry (frameAddr n) baseFlagBits) ∨
      (i = 768 ∧ c.mem d i = kernelLow4M) ∨
      (768 < i ∧ ∃ n, c.mem d i = pageEntry (frameAddr n) kernelFlags) := by
  rcases Nat.lt_trichotomy i 767 with hlt | heq | hgt
  · exact absurd (h.low i hlt) hne
  · subst heq
    exact Or.inl ⟨rfl, h.stack⟩
  · right
    rcases Nat.eq_or_lt_of_le (Nat.succ_le_of_lt hgt) with heq | hgt'
    · subst heq
      exact Or.inl ⟨rfl, h.kernelLow⟩
    · right
      refine ⟨hgt', ?_⟩
      rcases Nat.lt_or_ge i 1023 with hlt | hge
      · exact (h.heap i hgt' hlt).resolve_left hne
      · have heq : i = 1023 := by omega
        subst heq
        exact h.tmp

theorem present_flags {n : Nat} {flags : Word} (hf : pteFlags flags = flags) :
    Present (pageEntry (frameAddr n) flags) ↔ Present flags := by
  apply present_congr
  rw [pteFlags_pageEntry n hf, hf]

theorem extended_flags {n : Nat} {flags : Word} (hf : pteFlags flags = flags) :
    Extended (pageEntry (frameAddr n) flags) ↔ Extended flags := by
  apply extended_congr
  rw [pteFlags_pageEntry n hf, hf]

theorem linked_flags {n : Nat} {flags : Word} (hf : pteFlags flags = flags) :
    Linked (pageEntry (frameAddr n) flags) ↔ Linked flags := by
  apply linked_congr
  rw [pteFlags_pageEntry n hf, hf]

theorem BootDir.extended (h : BootDir c d) (hi : i < 1024) (hx : Extended (c.mem d i)) :
    i = 768 := by
  have hne : c.mem d i ≠ nilPgEnt := by
    intro hnil
    rw [hnil] at hx
    exact absurd hx (by decide)
  rcases h.cases hi hne with ⟨-, n, he⟩ | ⟨hi, -⟩ | ⟨-, n, he⟩
  · rw [he, extended_flags (by decide)] at hx
    exact absurd hx (by decide)
  · exact hi
  · rw [he, extended_flags (by decide)] at hx
    exact absurd hx (by decide)

theorem BootDir.mapped (h : BootDir c d) : Mapped c {d} := by
  refine ⟨?_, ?_, ?_, ?_, ?_, ?_, ?_⟩
  · rintro x rfl
    exact h.used
  · rintro x rfl i hi hne
    rcases h.cases hi hne with ⟨-, n, he⟩ | ⟨-, he⟩ | ⟨-, n, he⟩
    · rw [he, present_flags (by decide)]
      decide
    · rw [he]
      decide
    · rw [he, present_flags (by decide)]
      decide
  · rintro x rfl i hi hx
    refine ⟨?_, ?_⟩
    · rw [h.extended hi hx, h.kernelLow]
      decide
    · rintro y rfl
      rfl
  · rintro x rfl i hi hne
    exact (h.tables i hi hne).1
  · rintro x rfl i hi hne
    exact (h.tables i hi hne).2
  · rintro x rfl i hi hne hx
    apply h.pages i hi hne
    intro h768
    rw [h768, h.kernelLow] at hx
    exact hx (by decide)
  · rintro x rfl y rfl i j hi hj
    exact h.distinct i j hi hj

theorem dirs_bootProc (kernEnd pgd : Word) : dirs (bootProc kernEnd pgd) = {frameNo pgd} := by
  have hpgd : ((bootProc kernEnd pgd).task kernelTask).pgd = pgd := by
    simp [bootProc, schedInit, fdioTblInit, kernelTaskInit, Proc.setTask, Proc.cur]
  have hn : (bootProc kernEnd pgd).ntasks = 1 := rfl
  ext d
  constructor
  · intro hd
    obtain ⟨t, ht, he⟩ := hd
    rw [hn, Nat.lt_one_iff] at ht
    rw [ht, show (0 : TaskPtr) = kernelTask from rfl, hpgd] at he
    exact he.symm
  · intro hd
    refine ⟨kernelTask, by rw [hn]; decide, ?_⟩
    rw [hpgd]
    exact hd.symm

theorem runner_bootProc (kernEnd pgd : Word) : Runner (bootProc kernEnd pgd) := by
  have hpgd : ((bootProc kernEnd pgd).task kernelTask).pgd = pgd := by
    simp [bootProc, schedInit, fdioTblInit, kernelTaskInit, Proc.setTask, Proc.cur]
  have hlt : kernelTask < (bootProc kernEnd pgd).ntasks := Nat.zero_lt_one
  refine ⟨hlt, hlt, ?_, ⟨kernelTask, hlt, hpgd.symm⟩⟩
  intro u hu
  cases hu

theorem noCallYet_bootProc (kernEnd pgd : Word) : NoCallYet (bootProc kernEnd pgd) := by
  intro _
  simp [bootProc, schedInit, fdioTblInit, kernelTaskInit, Proc.setTask, Proc.cur]

theorem Booted.dirs_eq (h : Booted s) : dirs s.proc = {frameNo s.proc.cr3} := by
  obtain ⟨kernEnd, pgd, hp⟩ := h.proc
  rw [hp]
  exact dirs_bootProc kernEnd pgd

theorem Booted.mapInv (h : Booted s) : MapInv s := by
  refine ⟨?_, ?_, h.tmp, h.init, ?_⟩
  · obtain ⟨kernEnd, pgd, hp⟩ := h.proc
    rw [hp]
    exact runner_bootProc kernEnd pgd
  · obtain ⟨kernEnd, pgd, hp⟩ := h.proc
    rw [hp]
    exact noCallYet_bootProc kernEnd pgd
  · rw [h.dirs_eq]
    exact h.dir.mapped

end Boot

section Machine

/-- `KernelPageDir` in frame 272, `TmpPageTbl` in 273, `KernelStackTbl` in 274 and the
stack in 275. -/
def bootMem (n i : Nat) : Word :=
  if n = 272 then
    if i = 767 then 0x112003#32
    else if i = 768 then kernelLow4M
    else if i = 1023 then 0x111203#32
    else nilPgEnt
  else if n = 274 then
    if i = 1022 then pageStackEnd
    else if i = 1023 then 0x113003#32
    else nilPgEnt
  else nilPgEnt

/-- A machine at boot, with the first 4 MB of its memory in use. -/
def bootKern : Kern where
  proc := bootProc 0xC03FF000#32 0x110000#32
  mem := (
    { mem := bootMem
      bitmap := firstFourMb
      frameAllocInitialized := true
      preallocFrames := 0#32
      preallocCount := 0
      mmuReady := true }, fun _ => nilPgEnt)
  earlyMallocEnabled := false
  allocStack := []
  allocSP := 0

theorem bootKern_slot {i : Nat} (h : bootMem 272 i ≠ nilPgEnt) : i = 767 ∨ i = 768 ∨ i = 1023 := by
  by_contra hne
  rw [not_or, not_or] at hne
  obtain ⟨h1, h2, h3⟩ := hne
  simp [bootMem, h1, h2, h3] at h

theorem bootKern_page {n j : Nat} (hn : n ≠ 272) (h : Present (bootMem n j)) :
    n = 274 ∧ j = 1023 := by
  unfold bootMem at h
  rw [if_neg hn] at h
  split at h
  · rename_i hn
    split at h
    · exact absurd h (by decide)
    · split at h
      · exact ⟨hn, by assumption⟩
      · exact absurd h not_present_nil
  · exact absurd h not_present_nil

theorem bootKern_dir : BootDir bootKern.mem.1 272 := by
  refine ⟨by decide +kernel, ?_, ⟨274, by decide⟩, rfl, ?_, ⟨273, by decide⟩, ?_, ?_, ?_⟩
  · intro i hi
    by_contra hne
    rcases bootKern_slot hne with h | h | h <;> omega
  · intro i h1 h2
    left
    by_contra hne
    rcases bootKern_slot hne with h | h | h <;> omega
  · intro i _ hne
    rcases bootKern_slot hne with h | h | h
    · subst h
      decide +kernel
    · subst h
      decide +kernel
    · subst h
      decide +kernel
  · intro i _ hne h768 j _ hp
    rcases bootKern_slot hne with h | h | h
    · subst h
      obtain ⟨-, hj⟩ := bootKern_page (by decide) hp
      subst hj
      decide +kernel
    · exact absurd h h768
    · subst h
      obtain ⟨hn, -⟩ := bootKern_page (by decide) hp
      exact absurd hn (by decide)
  · intro i j _ _ hi hj heq
    rcases bootKern_slot hi with h | h | h <;> rcases bootKern_slot hj with h' | h' | h' <;>
      subst h h' <;> first | rfl | exact absurd heq (by decide)

theorem bootKern_booted : Booted bootKern :=
  ⟨⟨_, _, rfl⟩, ready_nil (by decide), rfl, bootKern_dir⟩

end Machine

section Tests

/-- A test for `Touches`: every address that the call comes to is below the bound. -/
def MemOp.limit : MemOp → Word → Bool
  | .alloc vaddr, b => vaddr < b
  | .allocRange _ limit, b => limit + pageSize ≤ b
  | .reserve vaddr, b => vaddr < b
  | .unmap vaddr, b => vaddr < b
  | .brk old new, b => new + pageSize ≤ b && pgAddr old ≤ b
  | .fault vaddr, b => vaddr < b

theorem MemOp.touches_lt {cur : Task} {c : Phys} {op : MemOp} {v b : Word}
    (h : op.limit b = true) (ht : op.Touches cur c v) : v < b := by
  cases op with
  | allocRange start limit =>
    have hle : limit + pageSize ≤ b := by simpa [MemOp.limit] using h
    exact BitVec.lt_def.mpr (Nat.lt_of_lt_of_le (Visits.lt ht) hle)
  | brk old new =>
    have hle : new + pageSize ≤ b ∧ pgAddr old ≤ b := by simpa [MemOp.limit] using h
    rcases ht with ⟨-, hv, -⟩ | ⟨-, -, hv⟩
    · exact BitVec.lt_def.mpr (Nat.lt_of_lt_of_le hv.lt hle.1)
    · exact BitVec.lt_def.mpr (Nat.lt_of_lt_of_le hv.lt hle.2)
  | _ =>
    rw [ht]
    simpa [MemOp.limit] using h

/-- The executable form of a step, for runs on given operations. -/
def KOp.tryExec (fuel : Nat) (op : KOp) (s : Kern) : Except Fault (Unit × Kern) :=
  if (op.memOp s.proc).all (fun m => m.limit kTmpMem) ∧
      (op.copies s.proc).all (fun d => d.2 < kTmpMem) then op.exec fuel s
  else .error .diverges

theorem kStep_of_tryExec (fuel : Nat) (op : KOp) (s : Kern) (r : Unit) (s' : Kern)
    (h : op.tryExec fuel s = .ok (r, s')) : KStep s (op, r) s' := by
  unfold KOp.tryExec at h
  split at h
  · rename_i hb
    refine ⟨⟨?_, ?_⟩, fuel, h⟩
    · intro m v hm ht
      have hm' : m.limit kTmpMem = true := by
        have := hb.1
        rw [hm] at this
        exact this
      exact MemOp.touches_lt hm' ht
    · intro dest addr hc
      have := hb.2
      rw [hc] at this
      simpa using this
  · cases h

end Tests

theorem run_mapInv {s₀ s : Kern} {tr : List (KOp × Unit)} (h₀ : MapInv s₀)
    (hrun : Run KStep s₀ tr s) : MapInv s :=
  Run.invariant (I := fun _ s => MapInv s) h₀ (fun _ _ _ _ hi hs => hi.step hs) hrun

end AkKernel
