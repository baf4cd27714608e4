import AkKernel.Kernel.State
import AkKernel.Mem.MapOps
import AkKernel.Proc.TaskTable

/-!
# Runs of calls that change mappings

Tasks are switched, forked, and change their mappings in any order. `enterKernel` and
`leaveKernel` are what a task does around each call of the C library's allocator.
-/

set_option autoImplicit false

namespace AkKernel

open Programs

inductive KOp where
  | enter (task : TaskPtr)
  | enterKernel
  | leaveKernel
  | fork
  | alloc (vaddr : Word)
  | allocRange (start limit : Word)
  | reserve (vaddr : Word)
  | unmap (vaddr : Word)
  | brk (addr : Word)
  | mmap (length flags : Word)
  | fault (addr : Word)
  | copy (dest : TaskPtr) (addr : Word)
deriving DecidableEq, Repr

/-- `copy` is `pg_copy_mapping` to a task's directory from that of `KernelTask`. -/
def KOp.exec (fuel : Nat) (op : KOp) (s : Kern) : Except Fault (Unit × Kern) :=
  match op with
  | .enter task =>
    if task < s.proc.ntasks then .ok ((), { s with proc := taskEnter s.proc task })
    else .error .badPointer
  | .enterKernel => onProc AkKernel.enterKernel s
  | .leaveKernel => onProc AkKernel.leaveKernel s
  | .fork => (do let _ ← sysFork : KernM Unit) s
  | .alloc vaddr => onMem (fun cur => pgAlloc cur vaddr) s
  | .allocRange start limit => onMem (fun cur => pgAllocRange cur fuel start limit) s
  | .reserve vaddr => onMem (fun cur => pgReserve cur vaddr) s
  | .unmap vaddr => onMem (fun cur => pgUnmap cur vaddr) s
  | .brk addr => (do let _ ← sysBrk fuel addr : KernM Unit) s
  | .mmap length flags => (do let _ ← sysMmapPgoff fuel length flags : KernM Unit) s
  | .fault addr => pgFault addr s
  | .copy dest addr =>
    if dest < s.proc.ntasks then
      onMem (fun cur => pgCopyMapping cur (s.proc.task dest).pgd (s.proc.task kernelTask).pgd addr) s
    else .error .badPointer

/-- The directory that a fault at `addr` copies a page of `KernelTask` to. -/
def faultDest (p : Proc) (addr : Word) : Option Word :=
  if pgIsKernel addr then p.userTask.map fun u => (p.task u).pgd else none

/-- What the call does to the mappings of the running task, if it does that. -/
def KOp.memOp (p : Proc) : KOp → Option MemOp
  | .alloc vaddr => some (.alloc vaddr)
  | .allocRange start limit => some (.allocRange start limit)
  | .reserve vaddr => some (.reserve vaddr)
  | .unmap vaddr => some (.unmap vaddr)
  | .brk addr => some (.brk p.cur.brk addr)
  | .mmap length _ =>
    some (.allocRange p.cur.mmapbrk (p.cur.mmapbrk + length + pageSize))
  | .fault addr => if faultDest p addr = none then some (.fault addr) else none
  | _ => none

/-- The directory and the address of the page that the call copies from `KernelTask`. -/
def KOp.copies (p : Proc) : KOp → Option (Word × Word)
  | .fault addr => (faultDest p addr).map fun pgd => (pgd, addr)
  | .copy dest addr => if dest < p.ntasks then some ((p.task dest).pgd, addr) else none
  | _ => none

/-- No task is made, and none gets another directory or another pid. -/
structure SameDirs (p p' : Proc) : Prop where
  ntasks : p'.ntasks = p.ntasks
  pgd : ∀ t, (p'.task t).pgd = (p.task t).pgd
  pid : ∀ t, (p'.task t).pid = (p.task t).pid

structure SameTasks (p p' : Proc) : Prop extends SameDirs p p' where
  currentTask : p'.currentTask = p.currentTask
  userTask : p'.userTask = p.userTask
  cr3 : p'.cr3 = p.cr3

theorem SameTasks.refl (p : Proc) : SameTasks p p :=
  ⟨⟨rfl, fun _ => rfl, fun _ => rfl⟩, rfl, rfl, rfl⟩

theorem SameTasks.trans {p p' p'' : Proc} (h : SameTasks p p') (h' : SameTasks p' p'') :
    SameTasks p p'' :=
  ⟨⟨h'.ntasks.trans h.ntasks, fun t => (h'.pgd t).trans (h.pgd t),
    fun t => (h'.pid t).trans (h.pid t)⟩, h'.currentTask.trans h.currentTask,
    h'.userTask.trans h.userTask, h'.cr3.trans h.cr3⟩

theorem SameTasks.cur_pgd {p p' : Proc} (h : SameTasks p p') : p'.cur.pgd = p.cur.pgd := by
  rw [Proc.cur, h.currentTask, h.pgd]
  rfl

/-- What a step does. -/
inductive KEffect (s : Kern) : KOp → Kern → Prop where
  | enter (task : TaskPtr) : task < s.proc.ntasks →
      KEffect s (.enter task) { s with proc := taskEnter s.proc task }
  | enterKernel : KEffect s .enterKernel { s with proc := AkKernel.enterKernel s.proc }
  | leaveKernel : KEffect s .leaveKernel { s with proc := AkKernel.leaveKernel s.proc }
  | fork (pgd : Word) (c' : Phys) (clone : TaskPtr) (p' : Proc) :
      Direct.pgCloneDir s.proc.cr3 s.mem.1 = .ok (pgd, c') →
      taskFork pgd s.proc = .ok (clone, p') →
      KEffect s .fork { s with proc := p', mem := (c', s.mem.2) }
  | call (op : KOp) (m : MemOp) (fuel : Nat) (r : Word) (c' : Phys) (p' : Proc) :
      op.memOp s.proc = some m → m.runDirect s.proc.cur fuel s.mem.1 = .ok (r, c') →
      SameTasks s.proc p' → KEffect s op { s with proc := p', mem := (c', s.mem.2) }
  | copy (op : KOp) (dest addr : Word) (c' : Phys) : op.copies s.proc = some (dest, addr) →
      Direct.pgCopyMapping s.proc.cur dest (s.proc.task kernelTask).pgd addr s.mem.1 =
        .ok ((), c') →
      KEffect s op { s with mem := (c', s.mem.2) }

section Effects
variable {s s' : Kern} {k : Nat}

theorem onMem_eq_ok {α : Type} {m : Task → MemM α} {x : α} :
    onMem m s = .ok (x, s') ↔
      ∃ mem, m s.proc.cur s.mem = .ok (x, mem) ∧ s' = { s with mem := mem } := by
  unfold onMem
  split
  · rename_i e hm
    rw [hm]
    exact ⟨fun h => (nomatch h), fun ⟨_, h, _⟩ => (nomatch h)⟩
  · rename_i y mem hm
    rw [hm]
    constructor
    · intro h
      cases h
      exact ⟨mem, rfl, rfl⟩
    · rintro ⟨mem', hmem, rfl⟩
      cases hmem
      rfl

theorem onMem_ok {α : Type} {m : Task → MemM α} {a : PhysM α} {x : α}
    (hl : Lifts (Ready [] 6) (m s.proc.cur) a) (htmp : Ready [] 6 s.mem.2)
    (h : onMem m s = .ok (x, s')) :
    ∃ c', a s.mem.1 = .ok (x, c') ∧ s' = { s with mem := (c', s.mem.2) } := by
  obtain ⟨mem, hm, rfl⟩ := onMem_eq_ok.mp h
  obtain ⟨c', ha, hmem⟩ := hl.ok htmp hm
  rw [hmem]
  exact ⟨c', ha, rfl⟩

theorem onMem_run {α : Type} {m : Task → MemM α} {x : α} {mem : Mem}
    (h : m s.proc.cur s.mem = .ok (x, mem)) : onMem m s = .ok (x, { s with mem := mem }) :=
  onMem_eq_ok.mpr ⟨mem, h, rfl⟩

theorem onMem_gives {α : Type} {m : Task → MemM α} {a : PhysM α} {x : α} {c' : Phys}
    (hl : Lifts (Ready [] 6) (m s.proc.cur) a) (htmp : Ready [] 6 s.mem.2)
    (h : a s.mem.1 = .ok (x, c')) : onMem m s = .ok (x, { s with mem := (c', s.mem.2) }) :=
  onMem_run (hl.run htmp h)

theorem sameTasks_setTask {p : Proc} {v : Task} (hpgd : v.pgd = p.cur.pgd)
    (hpid : v.pid = p.cur.pid) : SameTasks p (p.setTask p.currentTask v) := by
  refine ⟨⟨rfl, ?_, ?_⟩, rfl, rfl, rfl⟩
  · intro t
    by_cases ht : t = p.currentTask
    · subst ht
      simpa [Proc.setTask, Proc.cur] using hpgd
    · simp [Proc.setTask, ht]
  · intro t
    by_cases ht : t = p.currentTask
    · subst ht
      simpa [Proc.setTask, Proc.cur] using hpid
    · simp [Proc.setTask, ht]

theorem sysBrk_effect {fuel : Nat} {addr r : Word} (htmp : Ready [] 6 s.mem.2)
    (h : sysBrk fuel addr s = .ok (r, s')) : KEffect s (.brk addr) s' := by
  obtain ⟨b, s₁, h1, h2⟩ := bind_ok.mp h
  obtain ⟨⟨⟩, s₂, h3, h4⟩ := bind_ok.mp h2
  obtain ⟨-, hs'⟩ := pure_ok.mp h4
  obtain ⟨c', hrun, hs₁⟩ := onMem_ok (taskBrk_lifts (k := 4) _ fuel _ addr) htmp h1
  cases h3
  rw [hs', hs₁]
  exact .call (.brk addr) (.brk s.proc.cur.brk addr) fuel b c' _ rfl hrun
    (sameTasks_setTask rfl rfl)

theorem sysMmapPgoff_effect {fuel : Nat} {length flags r : Word} (htmp : Ready [] 6 s.mem.2)
    (h : sysMmapPgoff fuel length flags s = .ok (r, s')) : KEffect s (.mmap length flags) s' := by
  unfold sysMmapPgoff at h
  split at h
  · obtain ⟨s₀, s₁, h0, h1⟩ := bind_ok.mp h
    obtain ⟨⟨⟩, s₂, h2, h3⟩ := bind_ok.mp h1
    obtain ⟨⟨⟩, s₃, h4, h5⟩ := bind_ok.mp h3
    obtain ⟨-, hs'⟩ := pure_ok.mp h5
    cases h0
    obtain ⟨c', hrun, hs₂⟩ := onMem_ok (pgAllocRange_lifts (k := 4) _ fuel _ _) htmp h2
    cases h4
    rw [hs', hs₂]
    exact .call (.mmap length flags) _ fuel 0#32 c' _ rfl (bind_run hrun)
      (sameTasks_setTask rfl rfl)
  · cases h

theorem sysFork_effect {clone : TaskPtr} (htmp : Ready [] 6 s.mem.2)
    (h : sysFork s = .ok (clone, s')) : KEffect s .fork s' := by
  obtain ⟨s₀, s₁, h0, h1⟩ := bind_ok.mp h
  obtain ⟨pgd, s₂, h2, h3⟩ := bind_ok.mp h1
  cases h0
  obtain ⟨c', hrun, hs₂⟩ := onMem_ok (pgCloneDir_lifts (k := 0) s.proc.cr3) htmp h2
  split at h3
  · cases h3
  · rename_i cl p' hfork
    cases h3
    rw [hs₂] at hfork ⊢
    exact .fork pgd c' clone p' hrun hfork

theorem pgFault_effect {addr : Word} (htmp : Ready [] 6 s.mem.2)
    (h : pgFault addr s = .ok ((), s')) : KEffect s (.fault addr) s' := by
  have hreserved : ∀ (hnone : faultDest s.proc addr = none),
      onMem (fun cur => pgFaultReserved cur addr) s = .ok ((), s') → KEffect s (.fault addr) s' := by
    intro hnone h
    obtain ⟨c', hrun, hs'⟩ := onMem_ok (m := fun cur => pgFaultReserved cur addr)
      (pgFaultReserved_lifts (k := 4) s.proc.cur addr) htmp h
    rw [hs']
    exact .call (.fault addr) (.fault addr) 0 0#32 c' _ (if_pos hnone) (bind_run hrun)
      (SameTasks.refl _)
  unfold pgFault pgFaultHandler at h
  cases hu : s.proc.userTask with
  | none =>
    rw [hu] at h
    apply hreserved _ h
    simp [faultDest, hu]
  | some u =>
    rw [hu] at h
    by_cases hk : pgIsKernel addr = true
    · simp only [Option.map_some, if_pos hk] at h
      obtain ⟨c', hrun, hs'⟩ := onMem_ok (m := fun cur => pgCopyMapping cur (s.proc.task u).pgd
        (s.proc.task kernelTask).pgd addr) (pgCopyMapping_lifts (k := 4) s.proc.cur _ _ addr) htmp h
      rw [hs']
      refine .copy (.fault addr) (s.proc.task u).pgd addr c' ?_ hrun
      simp [KOp.copies, faultDest, hk, hu]
    · simp only [Option.map_some, if_neg hk] at h
      apply hreserved _ h
      simp [faultDest, hk]

theorem onMem_effect (fuel : Nat) {op : KOp} {m : MemOp} (f : Task → MemM Unit)
    (hop : op.memOp s.proc = some m) (htmp : Ready [] 6 s.mem.2)
    (hf : m.run s.proc.cur fuel = (do f s.proc.cur; pure 0#32))
    (h : onMem f s = .ok ((), s')) : KEffect s op s' := by
  obtain ⟨mem, hm, rfl⟩ := onMem_eq_ok.mp h
  have hrun : m.run s.proc.cur fuel s.mem = .ok (0#32, mem) := by
    rw [hf]
    exact bind_run hm
  obtain ⟨c', hd, hmem⟩ := (MemOp.run_lifts (k := 4) s.proc.cur fuel m).ok htmp hrun
  rw [hmem]
  exact .call op m fuel 0#32 c' _ hop hd (SameTasks.refl _)

theorem KOp.exec_effect {fuel : Nat} {op : KOp} (htmp : Ready [] 6 s.mem.2)
    (h : op.exec fuel s = .ok ((), s')) : KEffect s op s' := by
  cases op with
  | enter task =>
    unfold KOp.exec at h
    dsimp only at h
    split at h
    · cases h
      exact .enter task (by assumption)
    · cases h
  | enterKernel =>
    cases h
    exact .enterKernel
  | leaveKernel =>
    cases h
    exact .leaveKernel
  | fork =>
    obtain ⟨clone, s₁, h1, h2⟩ := bind_ok.mp h
    obtain ⟨-, hs'⟩ := pure_ok.mp h2
    rw [hs']
    exact sysFork_effect htmp h1
  | alloc vaddr =>
    exact onMem_effect fuel (fun cur => pgAlloc cur vaddr) rfl htmp rfl h
  | allocRange start limit =>
    exact onMem_effect fuel (fun cur => pgAllocRange cur fuel start limit) rfl htmp rfl h
  | reserve vaddr =>
    exact onMem_effect fuel (fun cur => pgReserve cur vaddr) rfl htmp rfl h
  | unmap vaddr =>
    exact onMem_effect fuel (fun cur => pgUnmap cur vaddr) rfl htmp rfl h
  | brk addr =>
    obtain ⟨r, s₁, h1, h2⟩ := bind_ok.mp h
    obtain ⟨-, hs'⟩ := pure_ok.mp h2
    rw [hs']
    exact sysBrk_effect htmp h1
  | mmap length flags =>
    obtain ⟨r, s₁, h1, h2⟩ := bind_ok.mp h
    obtain ⟨-, hs'⟩ := pure_ok.mp h2
    rw [hs']
    exact sysMmapPgoff_effect htmp h1
  | fault addr => exact pgFault_effect htmp h
  | copy dest addr =>
    unfold KOp.exec at h
    dsimp only at h
    split at h
    · rename_i hlt
      obtain ⟨c', hrun, hs'⟩ := onMem_ok (m := fun cur => pgCopyMapping cur (s.proc.task dest).pgd
        (s.proc.task kernelTask).pgd addr) (pgCopyMapping_lifts (k := 4) s.proc.cur _ _ addr) htmp h
      rw [hs']
      exact .copy (.copy dest addr) _ addr c' (if_pos hlt) hrun
    · cases h

end Effects

/-- The frames of the tasks' directories. -/
def dirs (p : Proc) : Set Nat := { d | ∃ t, t < p.ntasks ∧ frameNo (p.task t).pgd = d }

/-- The variables that say who is running refer to tasks. -/
structure Runner (p : Proc) : Prop where
  kernel : kernelTask < p.ntasks
  current : p.currentTask < p.ntasks
  user : ∀ u, p.userTask = some u → u < p.ntasks
  cr3 : ∃ t, t < p.ntasks ∧ p.cr3 = (p.task t).pgd

/-- Before a task other than `KernelTask` calls the allocator, the directory of the
running task is loaded. -/
def NoCallYet (p : Proc) : Prop := p.userTask = none → p.cr3 = p.cur.pgd

section Runner
variable {s s' : Kern} {p p' : Proc} {op : KOp}

theorem SameDirs.dirs_eq (h : SameDirs p p') : dirs p' = dirs p := by
  ext d
  constructor
  · intro hd
    obtain ⟨t, ht, he⟩ := hd
    rw [h.ntasks] at ht
    rw [h.pgd] at he
    exact ⟨t, ht, he⟩
  · intro hd
    obtain ⟨t, ht, he⟩ := hd
    refine ⟨t, ?_, ?_⟩
    · rw [h.ntasks]
      exact ht
    · rw [h.pgd]
      exact he

theorem sameDirs_taskEnter (p : Proc) (task : TaskPtr) : SameDirs p (taskEnter p task) := by
  have hkept : ∀ t, ((taskEnter p task).task t).pgd = (p.task t).pgd ∧
      ((taskEnter p task).task t).pid = (p.task t).pid := by
    intro t
    rw [taskEnter_eq]
    by_cases ht : t = task
    · subst ht
      simp only [Function.update_self]
      unfold resume
      split
      · exact ⟨rfl, rfl⟩
      · exact ⟨rfl, rfl⟩
    · simp only [Function.update_of_ne ht, and_self]
  refine ⟨?_, fun t => (hkept t).1, fun t => (hkept t).2⟩
  rw [taskEnter_eq]

theorem sameDirs_enterKernel (p : Proc) : SameDirs p (enterKernel p) := by
  unfold enterKernel
  split
  · exact ⟨rfl, fun _ => rfl, fun _ => rfl⟩
  · exact ⟨rfl, fun _ => rfl, fun _ => rfl⟩

theorem sameDirs_leaveKernel (p : Proc) : SameDirs p (leaveKernel p) := by
  unfold leaveKernel
  split
  · exact ⟨rfl, fun _ => rfl, fun _ => rfl⟩
  · exact ⟨rfl, fun _ => rfl, fun _ => rfl⟩

theorem taskFork_old {pgd : Word} {clone t : TaskPtr} (h : taskFork pgd p = .ok (clone, p'))
    (ht : t < p.ntasks) : (p'.task t).pgd = (p.task t).pgd ∧ (p'.task t).pid = (p.task t).pid := by
  obtain ⟨list, descr, -, -, -, hp'⟩ := taskFork_cases h
  rw [hp']
  exact ⟨forked_proj p pgd list descr Task.pgd (fun _ _ => rfl) ht,
    forked_proj p pgd list descr Task.pid (fun _ _ => rfl) ht⟩

theorem taskFork_dirs {pgd : Word} {clone : TaskPtr} (h : taskFork pgd p = .ok (clone, p')) :
    dirs p' = insert (frameNo pgd) (dirs p) := by
  obtain ⟨list, descr, -, -, -, hp'⟩ := taskFork_cases h
  have hn : p'.ntasks = p.ntasks + 1 := by
    rw [hp']
    rfl
  have hnew : (p'.task p.ntasks).pgd = pgd := by
    rw [hp', forked_new]
  ext d
  rw [Set.mem_insert_iff]
  constructor
  · intro hd
    obtain ⟨t, ht, he⟩ := hd
    rw [hn] at ht
    rcases Nat.lt_succ_iff_lt_or_eq.mp ht with hlt | heq
    · rw [(taskFork_old h hlt).1] at he
      exact Or.inr ⟨t, hlt, he⟩
    · rw [heq, hnew] at he
      exact Or.inl he.symm
  · intro hd
    rcases hd with hd | ⟨t, ht, he⟩
    · refine ⟨p.ntasks, by omega, ?_⟩
      rw [hnew, hd]
    · refine ⟨t, by omega, ?_⟩
      rw [(taskFork_old h ht).1]
      exact he

theorem Runner.cr3_mem (h : Runner p) : frameNo p.cr3 ∈ dirs p := by
  obtain ⟨t, ht, he⟩ := h.cr3
  exact ⟨t, ht, by rw [he]⟩

theorem Runner.cur_mem (h : Runner p) : frameNo p.cur.pgd ∈ dirs p := ⟨_, h.current, rfl⟩

theorem Runner.kernel_mem (h : Runner p) : frameNo (p.task kernelTask).pgd ∈ dirs p :=
  ⟨_, h.kernel, rfl⟩

theorem Runner.copies_mem (h : Runner p) {dest addr : Word}
    (hop : op.copies p = some (dest, addr)) : frameNo dest ∈ dirs p := by
  cases op with
  | fault a =>
    simp only [KOp.copies, faultDest, Option.map_eq_some_iff] at hop
    obtain ⟨pgd, hpgd, he⟩ := hop
    split at hpgd
    · rw [Option.map_eq_some_iff] at hpgd
      obtain ⟨u, hu, hup⟩ := hpgd
      cases he
      exact ⟨u, h.user u hu, by rw [hup]⟩
    · cases hpgd
  | copy t a =>
    simp only [KOp.copies] at hop
    split at hop
    · rename_i ht
      cases hop
      exact ⟨t, ht, rfl⟩
    · cases hop
  | _ => cases hop

theorem Runner.sameTasks (h : Runner p) (hs : SameTasks p p') : Runner p' := by
  refine ⟨?_, ?_, ?_, ?_⟩
  · rw [hs.ntasks]
    exact h.kernel
  · rw [hs.currentTask, hs.ntasks]
    exact h.current
  · rw [hs.userTask, hs.ntasks]
    exact h.user
  · obtain ⟨t, ht, he⟩ := h.cr3
    refine ⟨t, by rw [hs.ntasks]; exact ht, ?_⟩
    rw [hs.cr3, hs.pgd]
    exact he

theorem taskFork_runner {pgd : Word} {clone : TaskPtr} (h : taskFork pgd p = .ok (clone, p')) :
    p'.ntasks = p.ntasks + 1 ∧ p'.currentTask = p.currentTask ∧ p'.userTask = p.userTask ∧
      p'.cr3 = p.cr3 := by
  obtain ⟨list, descr, -, -, -, hp'⟩ := taskFork_cases h
  rw [hp']
  exact ⟨rfl, rfl, rfl, rfl⟩

theorem taskEnter_runner (p : Proc) (task : TaskPtr) :
    (taskEnter p task).currentTask = task ∧ (taskEnter p task).userTask = p.userTask ∧
      (taskEnter p task).cr3 = ((taskEnter p task).task task).pgd := by
  rw [(sameDirs_taskEnter p task).pgd, taskEnter_eq]
  exact ⟨rfl, rfl, rfl⟩

theorem Runner.step (h : Runner s.proc) (he : KEffect s op s') : Runner s'.proc := by
  cases he with
  | enter task ht =>
    have hsame := sameDirs_taskEnter s.proc task
    obtain ⟨hcur, huser, hcr3⟩ := taskEnter_runner s.proc task
    dsimp only
    refine ⟨?_, ?_, ?_, ⟨task, ?_, hcr3⟩⟩
    · rw [hsame.ntasks]
      exact h.kernel
    · rw [hcur, hsame.ntasks]
      exact ht
    · rw [huser, hsame.ntasks]
      exact h.user
    · rw [hsame.ntasks]
      exact ht
  | enterKernel =>
    dsimp only
    unfold enterKernel
    split
    · refine ⟨h.kernel, h.kernel, ?_, h.cr3⟩
      intro u hu
      cases hu
      exact h.current
    · exact h
  | leaveKernel =>
    dsimp only
    cases hu : s.proc.userTask with
    | none =>
      rw [leaveKernel_none hu]
      exact h
    | some u =>
      rw [leaveKernel_some hu]
      exact ⟨h.kernel, h.user u hu, h.user, h.cr3⟩
  | fork pgd c' clone p' hclone hfork =>
    obtain ⟨hn, hcur, huser, hcr3⟩ := taskFork_runner hfork
    have hlt : ∀ t, t < s.proc.ntasks → t < p'.ntasks := by
      intro t ht
      rw [hn]
      exact Nat.lt_succ_of_lt ht
    refine ⟨hlt _ h.kernel, ?_, ?_, ?_⟩
    · rw [hcur]
      exact hlt _ h.current
    · intro u hu
      exact hlt u (h.user u (huser.symm.trans hu))
    · obtain ⟨t, ht, he⟩ := h.cr3
      refine ⟨t, hlt t ht, ?_⟩
      rw [hcr3, (taskFork_old hfork ht).1]
      exact he
  | call _ m fuel r c' p' _ _ hsame => exact h.sameTasks hsame
  | copy _ dest addr c' _ _ => exact h

theorem NoCallYet.step (h : NoCallYet s.proc) (hr : Runner s.proc) (he : KEffect s op s') :
    NoCallYet s'.proc := by
  intro hu
  cases he with
  | enter task ht =>
    obtain ⟨hcur, -, hcr3⟩ := taskEnter_runner s.proc task
    rw [Proc.cur, hcur]
    exact hcr3
  | enterKernel =>
    dsimp only at hu ⊢
    unfold enterKernel at hu ⊢
    split at hu
    · cases hu
    · rename_i hcur
      rw [if_neg hcur]
      exact h hu
  | leaveKernel =>
    dsimp only at hu ⊢
    cases hs : s.proc.userTask with
    | none =>
      rw [leaveKernel_none hs]
      exact h hs
    | some u =>
      rw [leaveKernel_some hs] at hu
      rw [hs] at hu
      cases hu
  | fork pgd c' clone p' hclone hfork =>
    obtain ⟨-, hcur, huser, hcr3⟩ := taskFork_runner hfork
    rw [hcr3, Proc.cur, hcur, (taskFork_old hfork hr.current).1]
    exact h (huser.symm.trans hu)
  | call _ m fuel r c' p' _ _ hsame =>
    dsimp only at hu ⊢
    rw [hsame.cr3, Proc.cur, hsame.currentTask, hsame.pgd]
    exact h (hsame.userTask.symm.trans hu)
  | copy _ dest addr c' _ _ => exact h hu

end Runner

end AkKernel
