import AkKernel.Kernel.Mappings
import AkKernel.Mem.CachedClone

/-!
# Runs behind a translation buffer

The calls of `KOp` and the loads and stores of the tasks on a processor that keeps translations. It
drops them all when `cr3` is written, and one when the kernel says so.
-/

set_option autoImplicit false

namespace AkKernel

open Programs Runs Tlb

/-- The walk under the directory that is loaded. -/
def kernWalk (s : Kern) : Buffer Word Translation := pageWalk (frameNo s.proc.cr3) s.mem

/-- What `task_fork` does with the new directory. -/
def forkProc (pgd : Word) : KernM TaskPtr := fun s =>
  match taskFork pgd s.proc with
  | .error e => .error e
  | .ok (clone, proc) => .ok (clone, { s with proc := proc })

abbrev CachedKernM (α : Type) := BufProg Fault Kern Word Translation α

namespace Cached

def onMem {α : Type} (m : Nat → Task → CachedM α) : CachedKernM α := fun s =>
  match m (frameNo s.mem.proc.cr3) s.mem.proc.cur ⟨s.mem.mem, s.tlb, s.hw⟩ with
  | .error e => .error e
  | .ok (x, t) => .ok (x, ⟨{ s.mem with mem := t.mem }, t.tlb, t.hw⟩)

/-- `pg_switch_dir` writes `cr3`, and then flushes the buffer. -/
def taskEnter (task : TaskPtr) : CachedKernM Unit := do
  plain kernWalk (onProc fun p => AkKernel.taskEnter p task)
  drop kernWalk fun _ => True

def sysBrk (fuel : Nat) (brk : Word) : CachedKernM Word := do
  let b ← onMem fun d cur => taskBrk d cur fuel cur.brk brk
  plain kernWalk (setCur fun t => { t with brk := b })
  pure b

def sysMmapPgoff (fuel : Nat) (length flags : Word) : CachedKernM Word := do
  if flags &&& mapAnonymous ≠ 0#32 then
    let s ← get
    let mem := s.mem.proc.cur.mmapbrk
    onMem fun d cur => pgAllocRange d cur fuel mem (mem + length + pageSize)
    plain kernWalk (setCur fun t => { t with mmapbrk := mem + length + pageSize })
    pure mem
  else throw (.panic "sys_mmap: not implemented\n" [])

def sysFork : CachedKernM TaskPtr := do
  let s ← get
  let pgd ← onMem fun d _ => pgCloneDir d s.mem.proc.cr3
  plain kernWalk (forkProc pgd)

def pgFault (addr : Word) : CachedKernM Unit := fun s =>
  onMem (fun d cur => pgFaultHandler d cur (s.mem.proc.task kernelTask).pgd
    (s.mem.proc.userTask.map fun u => (s.mem.proc.task u).pgd) addr) s

def exec (fuel : Nat) : KOp → CachedKernM Unit
  | .enter task => do
    let s ← get
    if task < s.mem.proc.ntasks then taskEnter task else throw .badPointer
  | .enterKernel => plain kernWalk (onProc AkKernel.enterKernel)
  | .leaveKernel => plain kernWalk (onProc AkKernel.leaveKernel)
  | .fork => do let _ ← sysFork
  | .alloc vaddr => onMem fun d cur => pgAlloc d cur vaddr
  | .allocRange start limit => onMem fun d cur => pgAllocRange d cur fuel start limit
  | .reserve vaddr => onMem fun d cur => pgReserve d cur vaddr
  | .unmap vaddr => onMem fun d cur => pgUnmap d cur vaddr
  | .brk addr => do let _ ← sysBrk fuel addr
  | .mmap length flags => do let _ ← sysMmapPgoff fuel length flags
  | .fault addr => pgFault addr
  | .copy dest addr => do
    let s ← get
    if dest < s.mem.proc.ntasks then
      onMem fun d cur => pgCopyMapping d cur (s.mem.proc.task dest).pgd
        (s.mem.proc.task kernelTask).pgd addr
    else throw .badPointer

end Cached

/-- A call of the kernel, or a load or store of the running task. -/
inductive CpuOp where
  | call (op : KOp)
  | read (addr : Word)
  | write (addr v : Word)
deriving DecidableEq, Repr

def CpuOp.exec (fuel : Nat) : CpuOp → KernM (Option Word)
  | .call op => do op.exec fuel; pure none
  | .read addr => fun s =>
    match loadVia s.mem.1 (frameNo s.proc.cr3) addr with
    | none => .error .badPointer
    | some v => .ok (some v, s)
  | .write addr v => fun s =>
    match storeVia s.mem.1 (frameNo s.proc.cr3) addr v with
    | none => .error .badPointer
    | some c => .ok (none, { s with mem := (c, s.mem.2) })

def loadAt (n : Nat) (addr : Word) : KernM (Option Word) := fun s =>
  .ok (some (s.mem.1.mem n (wordIdx addr)), s)

def storeAt (n : Nat) (addr v : Word) : KernM (Option Word) := fun s =>
  .ok (none, { s with mem := (s.mem.1.setWord n (wordIdx addr) v, s.mem.2) })

def CpuOp.cachedExec (fuel : Nat) : CpuOp → CachedKernM (Option Word)
  | .call op => do Cached.exec fuel op; pure none
  | .read addr => do
    match ← lookup kernWalk addr with
    | none => throw .badPointer
    | some t => plain kernWalk (loadAt t.1 addr)
  | .write addr v => do
    match ← lookup kernWalk addr with
    | none => throw .badPointer
    | some t => plain kernWalk (storeAt t.1 addr v)

/-- Frame `n` is no directory and no table. -/
structure DataFrame (c : Phys) (ds : Set Nat) (n : Nat) : Prop where
  dir : n ∉ ds
  table : ∀ d ∈ ds, ∀ i, i < 1024 → c.mem d i ≠ nilPgEnt → ¬ Extended (c.mem d i) →
    frameNo (c.mem d i) ≠ n

/-- Tasks have no business in the temporary mappings, and write no directories or tables. -/
def CpuOp.Ok (s : Kern) : CpuOp → Prop
  | .call op => op.Below s
  | .read addr => addr < kTmpMem
  | .write addr _ => addr < kTmpMem ∧ ∀ t, translate s.mem.1 (frameNo s.proc.cr3) addr = some t →
    DataFrame s.mem.1 (dirs s.proc) t.1

section Calls
variable {s : Kern} {α : Type} {fuel : Nat} {op : KOp}

theorem follows_onMem {f : Nat → Task → CachedM α} {g : Task → MemM α} {a : PhysM α}
    (hready : Ready [] 6 s.mem.2) (hl : Lifts (Ready [] 6) (g s.proc.cur) a)
    (ht : Cached.Tracks (frameNo s.proc.cr3) [] 6 ∅ ∅ s.mem.1
      (f (frameNo s.proc.cr3) s.proc.cur) a) :
    Follows kernWalk ∅ ∅ s (Cached.onMem f) (onMem g) := by
  intro b hw hb
  have hhold : Cached.Holding [] 6 s.mem.2 :=
    ⟨hready, fun _ hm => absurd hm List.not_mem_nil, fun _ hm => absurd hm List.not_mem_nil⟩
  obtain ⟨herr, hok⟩ := ht s.mem.2 hhold b hw hb
  have hrun : g s.proc.cur s.mem = onFst a s.mem := hl s.mem.1 s.mem.2 hready
  unfold onMem Cached.onMem
  dsimp only
  rw [hrun]
  cases ha : onFst a s.mem with
  | error e =>
    refine ⟨?_, fun x t h => by cases h⟩
    intro e' he
    cases he
    rw [herr e ha]
  | ok r =>
    obtain ⟨x, t⟩ := r
    refine ⟨fun e h => (by cases h), ?_⟩
    intro y u hy
    cases hy
    obtain ⟨b', hw', hm, hb'⟩ := hok x t ha
    rw [hm]
    exact ⟨b', hw', rfl, hb'⟩

theorem follows_kernel {X : Set Word} (a : KernM α)
    (h : ∀ x t, a s = .ok (x, t) → t.proc.cr3 = s.proc.cr3 ∧ t.mem = s.mem) :
    Follows kernWalk X X s (plain kernWalk a) a := by
  apply follows_plain _ subset_rfl
  intro x t ht v _
  obtain ⟨hcr3, hmem⟩ := h x t ht
  unfold kernWalk
  rw [hcr3, hmem]

theorem follows_taskEnter {X : Set Word} (task : TaskPtr) : Follows kernWalk X ∅ s
    (Cached.taskEnter task) (onProc fun p => taskEnter p task) := by
  have hwrite : Follows kernWalk X Set.univ s (plain kernWalk (onProc fun p => taskEnter p task))
      (onProc fun p => taskEnter p task) :=
    follows_plain _ (Set.subset_univ X) fun _ _ _ v hv => absurd (Set.mem_univ v) hv
  have h := hwrite.bind (Z := ∅) (f := fun _ => drop kernWalk fun _ => True) (g := fun _ => pure ())
    fun _ _ _ => follows_drop _ fun _ _ => Or.inl trivial
  exact h.congr rfl

theorem MapInv.loaded (h : MapInv s) : LoadedDir (dirs s.proc) (frameNo s.proc.cr3) s.mem.1 :=
  ⟨h.init, h.mapped, h.runner.cr3_mem⟩

theorem follows_onProc (f : Proc → Proc) (hcr3 : (f s.proc).cr3 = s.proc.cr3) :
    Follows kernWalk ∅ ∅ s (plain kernWalk (onProc f)) (onProc f) := by
  apply follows_kernel
  intro x t ht
  cases ht
  exact ⟨hcr3, rfl⟩

theorem follows_setCur (f : Task → Task) :
    Follows kernWalk ∅ ∅ s (plain kernWalk (setCur f)) (setCur f) := by
  apply follows_kernel
  intro x t ht
  cases ht
  exact ⟨rfl, rfl⟩

theorem follows_sysBrk (h : MapInv s) (brk : Word) :
    Follows kernWalk ∅ ∅ s (Cached.sysBrk fuel brk) (sysBrk fuel brk) := by
  have hbrk := follows_onMem (f := fun d cur => Cached.taskBrk d cur fuel cur.brk brk)
    (g := fun cur => taskBrk cur fuel cur.brk brk) h.tmp (taskBrk_lifts (k := 4) _ fuel _ brk)
    (Cached.tracks_taskBrk (k := 4) h.loaded h.runner.cur_mem)
  exact hbrk.bind fun b _ _ => (follows_setCur _).bind fun _ _ _ => follows_pure b

theorem follows_sysMmapPgoff (h : MapInv s) (length flags : Word) : Follows kernWalk ∅ ∅ s
    (Cached.sysMmapPgoff fuel length flags) (sysMmapPgoff fuel length flags) := by
  unfold Cached.sysMmapPgoff sysMmapPgoff
  apply Follows.ite
  · intro _
    have hmap := follows_onMem
      (f := fun d cur => Cached.pgAllocRange d cur fuel s.proc.cur.mmapbrk
        (s.proc.cur.mmapbrk + length + pageSize))
      (g := fun cur => pgAllocRange cur fuel s.proc.cur.mmapbrk
        (s.proc.cur.mmapbrk + length + pageSize))
      h.tmp (pgAllocRange_lifts (k := 4) _ fuel _ _)
      (Cached.tracks_pgAllocRange (k := 4) h.loaded h.runner.cur_mem)
    exact Follows.get
      (f := fun s => do
        Cached.onMem fun d cur => Cached.pgAllocRange d cur fuel s.proc.cur.mmapbrk
          (s.proc.cur.mmapbrk + length + pageSize)
        plain kernWalk (setCur fun t =>
          { t with mmapbrk := s.proc.cur.mmapbrk + length + pageSize })
        pure s.proc.cur.mmapbrk)
      (g := fun s => do
        onMem fun cur => pgAllocRange cur fuel s.proc.cur.mmapbrk
          (s.proc.cur.mmapbrk + length + pageSize)
        setCur fun t => { t with mmapbrk := s.proc.cur.mmapbrk + length + pageSize }
        pure s.proc.cur.mmapbrk)
      (hmap.bind fun _ _ _ => (follows_setCur _).bind fun _ _ _ => follows_pure _)
  · exact fun _ => follows_throw _

theorem follows_sysFork (h : MapInv s) : Follows kernWalk ∅ ∅ s Cached.sysFork sysFork := by
  have hclone := follows_onMem (f := fun d _ => Cached.pgCloneDir d s.proc.cr3)
    (g := fun _ => pgCloneDir s.proc.cr3) h.tmp (pgCloneDir_lifts (k := 0) _)
    (Cached.tracks_pgCloneDir (k := 0) h.init (h.mapped.fresh h.runner.cr3_mem)
      (h.mapped.used h.runner.cr3_mem))
  have hfork : ∀ pgd t, Follows kernWalk ∅ ∅ t (plain kernWalk (forkProc pgd)) (forkProc pgd) := by
    intro pgd t
    apply follows_kernel
    intro x u hu
    unfold forkProc at hu
    split at hu
    · cases hu
    · rename_i clone p' hfork
      cases hu
      exact ⟨(taskFork_runner hfork).2.2.2, rfl⟩
  exact Follows.get
    (f := fun s => do
      let pgd ← Cached.onMem fun d _ => Cached.pgCloneDir d s.proc.cr3
      plain kernWalk (forkProc pgd))
    (g := fun s => do
      let pgd ← onMem fun _ => pgCloneDir s.proc.cr3
      forkProc pgd)
    (hclone.bind fun pgd t _ => hfork pgd t)

theorem follows_copy (h : MapInv s) {dest : Word} (hdest : frameNo dest ∈ dirs s.proc)
    (addr : Word) : Follows kernWalk ∅ ∅ s
      (Cached.onMem fun d cur => Cached.pgCopyMapping d cur dest (s.proc.task kernelTask).pgd addr)
      (onMem fun cur => pgCopyMapping cur dest (s.proc.task kernelTask).pgd addr) :=
  follows_onMem (g := fun cur => pgCopyMapping cur dest (s.proc.task kernelTask).pgd addr) h.tmp
    (pgCopyMapping_lifts (k := 4) _ _ _ addr)
    (Cached.tracks_pgCopyMapping (k := 4) h.loaded hdest h.runner.kernel_mem)

theorem follows_pgFault (h : MapInv s) (addr : Word) :
    Follows kernWalk ∅ ∅ s (Cached.pgFault addr) (pgFault addr) := by
  have hreserved : Follows kernWalk ∅ ∅ s
      (Cached.onMem fun d cur => Cached.pgFaultReserved d cur addr)
      (onMem fun cur => pgFaultReserved cur addr) :=
    follows_onMem (g := fun cur => pgFaultReserved cur addr) h.tmp
      (pgFaultReserved_lifts (k := 4) _ addr)
      (Cached.tracks_pgFaultReserved (k := 4) h.loaded h.runner.cur_mem)
  have hfault : Follows kernWalk ∅ ∅ s
      (Cached.onMem fun d cur => Cached.pgFaultHandler d cur (s.proc.task kernelTask).pgd
        (s.proc.userTask.map fun u => (s.proc.task u).pgd) addr)
      (onMem fun cur => pgFaultHandler cur (s.proc.task kernelTask).pgd
        (s.proc.userTask.map fun u => (s.proc.task u).pgd) addr) := by
    cases hu : s.proc.userTask with
    | none => exact hreserved
    | some u =>
      by_cases hk : pgIsKernel addr = true
      · simp only [Option.map_some, Cached.pgFaultHandler, pgFaultHandler, if_pos hk]
        exact follows_copy h ⟨u, h.runner.user u hu, rfl⟩ addr
      · simp only [Option.map_some, Cached.pgFaultHandler, pgFaultHandler, if_neg hk]
        exact hreserved
  exact hfault

theorem follows_pgAlloc (h : MapInv s) (vaddr : Word) : Follows kernWalk ∅ ∅ s
    (Cached.onMem fun d cur => Cached.pgAlloc d cur vaddr) (onMem fun cur => pgAlloc cur vaddr) :=
  follows_onMem (g := fun cur => pgAlloc cur vaddr) h.tmp (pgAlloc_lifts (k := 4) _ vaddr)
    (Cached.tracks_pgAlloc (k := 4) h.loaded h.runner.cur_mem)

theorem follows_pgAllocRange (h : MapInv s) (start limit : Word) : Follows kernWalk ∅ ∅ s
    (Cached.onMem fun d cur => Cached.pgAllocRange d cur fuel start limit)
    (onMem fun cur => pgAllocRange cur fuel start limit) :=
  follows_onMem (g := fun cur => pgAllocRange cur fuel start limit) h.tmp
    (pgAllocRange_lifts (k := 4) _ fuel _ _)
    (Cached.tracks_pgAllocRange (k := 4) h.loaded h.runner.cur_mem)

theorem follows_pgWriteEntry (h : MapInv s) (vaddr : Word) (e : Task → Word) :
    Follows kernWalk ∅ ∅ s
      (Cached.onMem fun d cur => Cached.pgWriteEntry d cur cur.pgd (pgAddr vaddr) (e cur))
      (onMem fun cur => pgWriteEntry cur cur.pgd (pgAddr vaddr) (e cur)) :=
  follows_onMem (g := fun cur => pgWriteEntry cur cur.pgd (pgAddr vaddr) (e cur)) h.tmp
    (pgWriteEntry_lifts (k := 4) _ _ _ _)
    (Cached.tracks_pgWriteEntry (k := 4) h.loaded h.runner.cur_mem _)

theorem follows_pgReserve (h : MapInv s) (vaddr : Word) : Follows kernWalk ∅ ∅ s
    (Cached.onMem fun d cur => Cached.pgReserve d cur vaddr)
    (onMem fun cur => pgReserve cur vaddr) :=
  follows_pgWriteEntry h vaddr fun cur =>
    pageEntry 0#32 ((baseFlags cur ||| pageReserved) &&& ~~~ pagePresent)

theorem follows_pgUnmap (h : MapInv s) (vaddr : Word) : Follows kernWalk ∅ ∅ s
    (Cached.onMem fun d cur => Cached.pgUnmap d cur vaddr) (onMem fun cur => pgUnmap cur vaddr) :=
  follows_pgWriteEntry h vaddr fun _ => nilPgEnt

theorem follows_onTask {f : Kern → CachedKernM Unit} {g : Kern → KernM Unit} (task : TaskPtr)
    (h : task < s.proc.ntasks → Follows kernWalk ∅ ∅ s (f s) (g s)) :
    Follows kernWalk ∅ ∅ s
      (do let t ← get; if task < t.mem.proc.ntasks then f t.mem else throw .badPointer)
      (fun t => if task < t.proc.ntasks then g t t else .error .badPointer) := by
  have hgo : Follows kernWalk ∅ ∅ s (if task < s.proc.ntasks then f s else throw .badPointer)
      (if task < s.proc.ntasks then g s else throw .badPointer) :=
    Follows.ite h fun _ => follows_throw _
  have hrun := Follows.get
    (f := fun t => if task < t.proc.ntasks then f t else throw .badPointer)
    (g := fun t => if task < t.proc.ntasks then g t else throw .badPointer) hgo
  apply hrun.congr
  change (if task < s.proc.ntasks then g s else throw .badPointer : KernM Unit) s = _
  split
  · rfl
  · rfl

/-- Every call does what it does without the buffer, and leaves nothing stale in it. -/
theorem follows_exec (h : MapInv s) (fuel : Nat) (op : KOp) :
    Follows kernWalk ∅ ∅ s (Cached.exec fuel op) (op.exec fuel) := by
  cases op with
  | enter task =>
    exact follows_onTask (f := fun _ => Cached.taskEnter task)
      (g := fun _ => onProc fun p => taskEnter p task) task fun _ => follows_taskEnter task
  | enterKernel =>
    apply follows_onProc
    unfold enterKernel
    split
    · rfl
    · rfl
  | leaveKernel =>
    apply follows_onProc
    cases hu : s.proc.userTask with
    | none => rw [leaveKernel_none hu]
    | some u => rw [leaveKernel_some hu]
  | fork => exact (follows_sysFork h).bind fun _ _ _ => follows_pure ()
  | alloc vaddr => exact follows_pgAlloc h vaddr
  | allocRange start limit => exact follows_pgAllocRange h start limit
  | reserve vaddr => exact follows_pgReserve h vaddr
  | unmap vaddr => exact follows_pgUnmap h vaddr
  | brk addr => exact (follows_sysBrk h addr).bind fun _ _ _ => follows_pure ()
  | mmap length flags =>
    exact (follows_sysMmapPgoff h length flags).bind fun _ _ _ => follows_pure ()
  | fault addr => exact follows_pgFault h addr
  | copy dest addr =>
    exact follows_onTask
      (f := fun s => Cached.onMem fun d cur => Cached.pgCopyMapping d cur (s.proc.task dest).pgd
        (s.proc.task kernelTask).pgd addr)
      (g := fun s => onMem fun cur => pgCopyMapping cur (s.proc.task dest).pgd
        (s.proc.task kernelTask).pgd addr)
      dest fun hlt => follows_copy h ⟨dest, hlt, rfl⟩ addr

end Calls

section Data
variable {s s' : Kern} {c : Phys} {ds : Set Nat} {d n i : Nat} {addr v w : Word}

theorem Mapped.data (h : Mapped c ds) (hn : DataFrame c ds n) : Mapped (c.setWord n i v) ds := by
  have hdir : ∀ d ∈ ds, (c.setWord n i v).mem d = c.mem d := by
    intro d hd
    apply setWord_mem_frame
    intro he
    apply hn.dir
    rw [← he]
    exact hd
  refine ⟨h.dirUsed, ?_, ?_, ?_, ?_, ?_, ?_⟩
  · intro d hd
    rw [hdir d hd]
    exact h.present d hd
  · intro d hd j hj hx
    rw [hdir d hd] at hx ⊢
    obtain ⟨hl, hall⟩ := h.wide d hd j hj hx
    refine ⟨hl, ?_⟩
    intro d' hd'
    rw [hdir d' hd']
    exact hall d' hd'
  · intro d hd
    rw [hdir d hd]
    exact h.tableUsed d hd
  · intro d hd
    rw [hdir d hd]
    exact h.tableDir d hd
  · intro d hd j hj hne hx
    rw [hdir d hd] at hne hx ⊢
    rw [setWord_mem_frame (hn.table d hd j hj hne hx)]
    exact h.pageUsed d hd j hj hne hx
  · intro d hd d' hd'
    rw [hdir d hd, hdir d' hd']
    exact h.slot d hd d' hd'

theorem DataFrame.translate (hn : DataFrame c ds n) (hd : d ∈ ds) :
    translate (c.setWord n i v) d w = translate c d w := by
  have hdn : d ≠ n := by
    intro he
    apply hn.dir
    rw [← he]
    exact hd
  apply translate_congr
  · rw [setWord_mem_frame hdn]
  · intro hp hx
    rw [setWord_mem_frame (hn.table d hd _ (addrPde_lt w) hp.ne_nil hx)]

theorem kernWalk_low (ha : addr < kTmpMem) :
    kernWalk s addr = translate s.mem.1 (frameNo s.proc.cr3) addr :=
  if_neg (BitVec.not_le.mpr ha)

theorem exec_read (fuel : Nat) : CpuOp.exec fuel (.read addr) s =
    match translate s.mem.1 (frameNo s.proc.cr3) addr with
    | none => Except.error .badPointer
    | some t => loadAt t.1 addr s := by
  dsimp only [CpuOp.exec, loadVia]
  cases translate s.mem.1 (frameNo s.proc.cr3) addr with
  | none => rfl
  | some t => rfl

theorem exec_write (fuel : Nat) : CpuOp.exec fuel (.write addr v) s =
    match translate s.mem.1 (frameNo s.proc.cr3) addr with
    | none => Except.error .badPointer
    | some t => storeAt t.1 addr v s := by
  dsimp only [CpuOp.exec, storeVia]
  cases translate s.mem.1 (frameNo s.proc.cr3) addr with
  | none => rfl
  | some t => rfl

theorem follows_read (ha : addr < kTmpMem) (fuel : Nat) : Follows kernWalk ∅ ∅ s
    (CpuOp.cachedExec fuel (.read addr)) (CpuOp.exec fuel (.read addr)) := by
  apply Follows.lookup (Set.notMem_empty addr)
  rw [kernWalk_low ha]
  cases ht : translate s.mem.1 (frameNo s.proc.cr3) addr with
  | none =>
    apply (follows_throw (Y := ∅) Fault.badPointer).congr
    rw [exec_read, ht]
    rfl
  | some t =>
    have hload := follows_kernel (s := s) (X := ∅) (loadAt t.1 addr) fun x u hu => by
      cases hu
      exact ⟨rfl, rfl⟩
    apply hload.congr
    rw [exec_read, ht]

theorem follows_write (h : MapInv s) (hok : (CpuOp.write addr v).Ok s) (fuel : Nat) :
    Follows kernWalk ∅ ∅ s (CpuOp.cachedExec fuel (.write addr v))
      (CpuOp.exec fuel (.write addr v)) := by
  apply Follows.lookup (Set.notMem_empty addr)
  rw [kernWalk_low hok.1]
  cases ht : translate s.mem.1 (frameNo s.proc.cr3) addr with
  | none =>
    apply (follows_throw (Y := ∅) Fault.badPointer).congr
    rw [exec_write, ht]
    rfl
  | some t =>
    have hstore : Follows kernWalk ∅ ∅ s (plain kernWalk (storeAt t.1 addr v))
        (storeAt t.1 addr v) := by
      apply follows_plain _ subset_rfl
      intro x u hu a _
      cases hu
      exact Cached.pageWalk_congr ((hok.2 t ht).translate h.runner.cr3_mem)
    apply hstore.congr
    rw [exec_write, ht]

theorem follows_cpu (h : MapInv s) (fuel : Nat) (op : CpuOp) (hok : op.Ok s) :
    Follows kernWalk ∅ ∅ s (op.cachedExec fuel) (op.exec fuel) := by
  cases op with
  | call op => exact (follows_exec h fuel op).bind fun _ _ _ => follows_pure none
  | read addr => exact follows_read hok fuel
  | write addr v => exact follows_write h hok fuel

theorem MapInv.cpu (h : MapInv s) {l : CpuOp × Option Word}
    (hs : Steps CpuOp.Ok CpuOp.exec s l s') : MapInv s' := by
  obtain ⟨hok, fuel, hex⟩ := hs
  obtain ⟨op, x⟩ := l
  cases op with
  | call op =>
    obtain ⟨⟨⟩, t, hop, hpure⟩ := bind_ok.mp hex
    obtain ⟨-, hs'⟩ := pure_ok.mp hpure
    rw [hs']
    have hstep : KStep s (op, ()) t := ⟨hok, fuel, hop⟩
    exact h.step hstep
  | read addr =>
    rw [exec_read] at hex
    split at hex
    · cases hex
    · cases hex
      exact h
  | write addr v =>
    rw [exec_write] at hex
    split at hex
    · cases hex
    · rename_i t ht
      cases hex
      exact ⟨h.runner, h.noCallYet, h.tmp, h.init, h.mapped.data (hok.2 t ht)⟩

end Data

/-- A processor that keeps translations runs as one that always walks: from boot on, whatever it
keeps, forgets and walks for of its own accord, the runs are the same, and what it keeps is what
the directory that is loaded says. -/
theorem translations_never_stale (s₀ : Kern) (h₀ : Booted s₀) (b₀ : Buffer Word Translation)
    (hb₀ : Tlb.Coherent ∅ (kernWalk s₀) b₀) (hw : Nat → Word → Choice) :
    (∀ tr t, Run (BufSteps CpuOp.Ok CpuOp.cachedExec) ⟨s₀, b₀, hw⟩ tr t →
      Run (Steps CpuOp.Ok CpuOp.exec) s₀ tr t.mem ∧
        ∀ addr r, t.tlb addr = some r → kernWalk t.mem addr = some r) ∧
    ∀ tr s, Run (Steps CpuOp.Ok CpuOp.exec) s₀ tr s →
      ∃ t, t.mem = s ∧ Run (BufSteps CpuOp.Ok CpuOp.cachedExec) ⟨s₀, b₀, hw⟩ tr t := by
  obtain ⟨hback, hforth⟩ := runs_follow (p := CpuOp.Ok) (a := CpuOp.exec)
    (m := CpuOp.cachedExec) (I := MapInv) h₀.mapInv (fun _ _ _ hs hstep => hs.cpu hstep)
    (fun fuel op _ hs hok => follows_cpu hs fuel op hok) hb₀ hw
  refine ⟨?_, hforth⟩
  intro tr t hrun
  obtain ⟨hpre, hcoh⟩ := hback tr t hrun
  exact ⟨hpre, fun addr r hr => hcoh addr (Set.notMem_empty addr) r hr⟩

theorem bootKern_dataFrame : DataFrame bootKern.mem.1 (dirs bootKern.proc) 275 := by
  rw [bootKern_booted.dirs_eq]
  have hcr3 : frameNo bootKern.proc.cr3 = 272 := rfl
  rw [hcr3]
  refine ⟨by simp, ?_⟩
  intro d hd i _ hne hx
  cases hd
  rcases bootKern_slot hne with h | h | h
  · subst h
    decide
  · subst h
    exact absurd (by decide) hx
  · subst h
    decide

theorem bootKern_stackTop : translate bootKern.mem.1 (frameNo bootKern.proc.cr3) 0xBFFFFFF0#32 =
    some (275, 0x3#32, 0x3#32) := by
  decide

/-- `bootKern` after a push. -/
def pushedKern : Kern :=
  { bootKern with
    mem := (bootKern.mem.1.setWord 275 (wordIdx 0xBFFFFFF0#32) 5#32, bootKern.mem.2) }

/-- A word is pushed and popped, on a processor that walks before every access. -/
theorem translations_never_stale_boot : ∃ t : Buffered Kern Word Translation,
    Run (BufSteps CpuOp.Ok CpuOp.cachedExec) ⟨bootKern, fun _ => none, fun _ _ => .fill⟩
      [(.write 0xBFFFFFF0#32 5#32, none), (.read 0xBFFFFFF0#32, some 5#32)] t := by
  have hpush : Steps CpuOp.Ok CpuOp.exec bootKern (.write 0xBFFFFFF0#32 5#32, none) pushedKern := by
    refine ⟨⟨by decide, ?_⟩, 0, ?_⟩
    · intro t ht
      rw [bootKern_stackTop] at ht
      cases ht
      exact bootKern_dataFrame
    · rw [exec_write, bootKern_stackTop]
      rfl
  have hpop : Steps CpuOp.Ok CpuOp.exec pushedKern (.read 0xBFFFFFF0#32, some 5#32) pushedKern := by
    have hcr3 : frameNo bootKern.proc.cr3 ∈ dirs bootKern.proc := by
      rw [bootKern_booted.dirs_eq]
      rfl
    have htop : translate pushedKern.mem.1 (frameNo bootKern.proc.cr3) 0xBFFFFFF0#32 = _ :=
      bootKern_dataFrame.translate hcr3
    refine ⟨show (0xBFFFFFF0#32 : Word) < kTmpMem by decide, 0, ?_⟩
    rw [exec_read]
    change (match translate pushedKern.mem.1 (frameNo bootKern.proc.cr3) 0xBFFFFFF0#32 with
      | none => Except.error Fault.badPointer
      | some t => loadAt t.1 0xBFFFFFF0#32 pushedKern) = _
    rw [htop, bootKern_stackTop]
    rfl
  obtain ⟨-, hforth⟩ := translations_never_stale bootKern bootKern_booted (fun _ => none)
    coherent_empty fun _ _ => .fill
  obtain ⟨t, -, hrun⟩ := hforth _ _ ((Run.single hpush).snoc hpop)
  exact ⟨t, hrun⟩

end AkKernel
