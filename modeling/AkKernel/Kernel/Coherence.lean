import AkKernel.Kernel.Mappings
import AkKernel.Kernel.Ownership
import AkKernel.Mem.Coherent

/-!
# Kernel mappings over runs

The heap of `KernelTask` grows and shrinks, tasks are forked, and pages of the kernel's range
are copied on faults. When every task sees the pages of `KernelTask` there, and no others.
-/

set_option autoImplicit false

namespace AkKernel

open Programs Runs

/-- A page of the kernel's range that a task has is one that `KernelTask` has, with the same
frame. -/
def CoherentKern (s : Kern) : Prop :=
  ∀ t, t < s.proc.ntasks → ∀ a, pgIsKernel a = true → ∀ r,
    translate s.mem.1 (frameNo (s.proc.task t).pgd) a = some r →
    ∃ r', translate s.mem.1 (frameNo (s.proc.task kernelTask).pgd) a = some r' ∧ r'.1 = r.1

/-- The heap of `KernelTask` changes only while it runs, or a task is inside a call of the
allocator. -/
def KOp.OnHeap (s : Kern) : KOp → Prop
  | .enter _ => True
  | .enterKernel => True
  | .leaveKernel => True
  | .fork => True
  | .brk _ => s.proc.currentTask = kernelTask
  | .fault addr => pgIsKernel addr = true
  | .copy _ addr => pgIsKernel addr = true
  | _ => False

def HeapStep (s : Kern) (lbl : KOp × Unit) (s' : Kern) : Prop := lbl.1.OnHeap s ∧ KStep s lbl s'

/-- A directory that has the page of `v` has it through the table of directory `k`. -/
def ThroughTable (c : Phys) (ds : Set Nat) (k : Nat) (v : Word) : Prop :=
  ∀ d, KernelTable c ds d (addrPde v) → Present (tableWord c d (addrPde v) (addrPte v)) →
    frameNo (c.mem d (addrPde v)) = frameNo (c.mem k (addrPde v))

/-- A shrinking break of `KernelTask` unmaps no page that another directory has through a
table of its own. -/
def KOp.Sparing (s : Kern) : KOp → Prop
  | .brk new => new < s.proc.cur.brk → new ≠ 0#32 →
    ∀ v, Visits (pgAddr s.proc.cur.brk) (pgAddr new + 1#32) v →
      ThroughTable s.mem.1 (dirs s.proc) (frameNo (s.proc.task kernelTask).pgd) v
  | _ => True

/-- What the pages of the kernel's range are at boot: `pg_map` gave them `KERNEL_FLAGS`. -/
def BootHeap (c : Phys) (d : Nat) : Prop :=
  ∀ i, 768 < i → i < 1023 → c.mem d i ≠ nilPgEnt → ∀ j, j < 1024 → KernelEntry (tableWord c d i j)

structure CohInv (ds : Set Nat) (k : Nat) (c : Phys) : Prop where
  init : c.frameAllocInitialized = true
  mapped : Mapped c ds
  coherent : Coherent c ds k

structure CohState (s : Kern) : Prop extends MapInv s where
  pid : (s.proc.task kernelTask).pid = kernelPid
  coherent : Coherent s.mem.1 (dirs s.proc) (frameNo (s.proc.task kernelTask).pgd)

section Break
variable {c c' : Phys} {ds : Set Nat} {k n : Nat} {cur : Task} {v w : Word}

theorem kernelEntry_of_kernel (hpid : cur.pid = kernelPid) (n : Nat) :
    KernelEntry (pageEntry (frameAddr n) (baseFlags cur)) := by
  rw [baseFlags, if_pos hpid]
  have hflags : pteFlags (pageEntry (frameAddr n) kernelFlags) = pteFlags kernelFlags := by
    rw [pteFlags_pageEntry n (by decide)]
    decide
  refine ⟨fun _ => (linked_flags (by decide)).mpr (by decide), ?_⟩
  rw [reserved_congr hflags]
  decide

/-- A page that `KernelTask` does not have is had by no other task. -/
theorem Coherent.throughTable (h : Coherent c ds k) (hm : Mapped c ds) (hk : k ∈ ds)
    (hna : ¬ Allocated k c v) : ThroughTable c ds k v := by
  intro d ht hp
  obtain ⟨hne, hsame⟩ := h.pages d _ ht _ (addrPte_lt v) hp
  apply absurd _ hna
  apply isAllocated_iff.mpr
  refine ⟨hm.present k hk _ ht.lt hne, Or.inr ?_⟩
  change Present (tableWord c k (addrPde v) (addrPte v))
  rw [hsame]
  exact hp

theorem CohInv.grow (h : CohInv ds k c) (hk : k ∈ ds) (hcur : frameNo cur.pgd = k)
    (hpid : cur.pid = kernelPid) (hna : ¬ Allocated (frameNo cur.pgd) c v)
    (hstep : PageAdded cur v c c') : CohInv ds k c' := by
  subst hcur
  obtain ⟨hinit, hmapped⟩ := (Mapped.keeper hk).alloc c v c' trivial ⟨h.init, h.mapped⟩ hstep
  obtain ⟨n, hn, hed⟩ := hstep
  have hthrough := h.coherent.throughTable h.mapped hk hna
  refine ⟨hinit, hmapped, ?_⟩
  exact (h.coherent.mark n).kernelEdit (h.mapped.mark hn) hk (addrPde_lt v)
    (kernelEntry_of_kernel hpid n) hed
    fun d ht hp => hthrough d ⟨ht.dir, ht.low, ht.high, ht.slot, ht.narrow⟩ hp

theorem CohInv.shrink (h : CohInv ds k c) (hk : k ∈ ds) (hthrough : ThroughTable c ds k v)
    (hed : Edited (baseFlags cur) k (addrPde v) (addrPte v) nilPgEnt c c') : CohInv ds k c' := by
  refine ⟨hed.init.trans h.init, ?_, ?_⟩
  · exact h.mapped.edited hk (addrPde_lt v) (fun hp => absurd hp not_present_nil) hed
  · exact h.coherent.kernelEdit h.mapped hk (addrPde_lt v) kernelEntry_nil hed hthrough

/-- A page goes on to be had through the table of `k` only while `k` unmaps pages. -/
theorem CohInv.throughTable (h : CohInv ds k c) (hk : k ∈ ds) (hw : ThroughTable c ds k w)
    (hed : Edited (baseFlags cur) k (addrPde v) (addrPte v) nilPgEnt c c') :
    ThroughTable c' ds k w := by
  intro d ht hp
  rcases h.mapped.edited_words hk (addrPde_lt v) hed ht.dir ht.lt with
    ⟨hs, hword⟩ | ⟨hdk, -, -, -, -, -⟩
  · have htc := ht.of_slot hs
    rw [hword htc.slot] at hp
    split at hp
    · exact absurd hp not_present_nil
    · obtain ⟨hne, -⟩ := h.coherent.pages d _ htc _ (addrPte_lt w) hp
      rcases h.mapped.edited_words hk (addrPde_lt v) hed hk ht.lt with ⟨hsk, -⟩ | ⟨-, hl, hnil, -⟩
      · rw [hs, hsk]
        exact hw d htc hp
      · rw [hl] at hne
        exact absurd hnil hne
  · rw [hdk]

theorem CohInv.brk {old new r : Word} {fuel : Nat} (h : CohInv ds k c) (hk : k ∈ ds)
    (hcur : frameNo cur.pgd = k) (hpid : cur.pid = kernelPid)
    (hspare : new < old → new ≠ 0#32 → ∀ v, Visits (pgAddr old) (pgAddr new + 1#32) v →
      ThroughTable c ds k v)
    (hrun : Direct.taskBrk cur fuel old new c = .ok (r, c')) : CohInv ds k c' := by
  have hkept := taskBrk_keeps
    (I := fun t => CohInv ds k t ∧ (new < old → new ≠ 0#32 →
      ∀ v, Visits (pgAddr old) (pgAddr new + 1#32) v → ThroughTable t ds k v))
    (fun t ht => ht.1.init) ?_ ?_ ⟨h, hspare⟩ hrun
  · exact hkept.1
  · intro t v t' hlt _ hna ht hstep
    refine ⟨ht.1.grow hk hcur hpid hna hstep, ?_⟩
    intro hlt'
    exact absurd hlt' (BitVec.not_lt.mpr (BitVec.le_of_lt hlt))
  · intro t v t' hlt hnz hv ht hed
    rw [hcur] at hed
    refine ⟨ht.1.shrink hk (ht.2 hlt hnz v hv) hed, ?_⟩
    intro _ _ w hw
    exact ht.1.throughTable hk (ht.2 hlt hnz w hw) hed

end Break

section Steps
variable {s s' : Kern} {op : KOp}

theorem translate_table {c : Phys} {d : Nat} {a : Word} (hp : Present (c.mem d (addrPde a)))
    (hx : ¬ Extended (c.mem d (addrPde a)))
    (hpage : Present (tableWord c d (addrPde a) (addrPte a))) :
    translate c d a = some (frameNo (tableWord c d (addrPde a) (addrPte a)),
      pteFlags (c.mem d (addrPde a)), pteFlags (tableWord c d (addrPde a) (addrPte a))) := by
  unfold tableWord at hpage
  unfold translate
  dsimp only
  rw [if_neg (not_not.mpr hp), if_neg hx, if_pos hpage]
  rfl

theorem CohState.inv (h : CohState s) :
    CohInv (dirs s.proc) (frameNo (s.proc.task kernelTask).pgd) s.mem.1 :=
  ⟨h.init, h.mapped, h.coherent⟩

/-- Nothing in the kernel's range is reserved, so a fault there that does not copy a page
stops the kernel. -/
theorem CohState.not_reserved (h : CohState s) {a : Word} (ha : pgIsKernel a = true) {r : Word}
    {fuel : Nat} {c' : Phys} :
    (MemOp.fault a).runDirect s.proc.cur fuel s.mem.1 ≠ .ok (r, c') := by
  intro hrun
  obtain ⟨hlo, hhi⟩ := kernel_slots ha
  have hd := h.runner.cur_mem
  obtain ⟨⟨⟩, c₁, h1, -⟩ := bind_ok.mp hrun
  obtain ⟨b, c₂, h3, h4⟩ := bind_ok.mp h1
  split at h4
  · rename_i hb
    have hres : Direct.isReserved (s.mem.1.mem (frameNo s.proc.cur.pgd) (addrPde a))
        (s.mem.1.mem (frameNo (pteAddr (s.mem.1.mem (frameNo s.proc.cur.pgd) (addrPde a))))
          (addrPte a)) = true := by
      cases h3
      exact hb
    rw [frameNo_pteAddr] at hres
    unfold Direct.isReserved at hres
    split at hres
    · cases hres
    rename_i hne
    by_cases hx : Extended (s.mem.1.mem (frameNo s.proc.cur.pgd) (addrPde a))
    · have hnr := h.coherent.wide _ hd _ hlo hhi hx
      simp [hnr, hx] at hres
    · have hentry : KernelEntry (s.mem.1.mem (frameNo (s.mem.1.mem (frameNo s.proc.cur.pgd)
          (addrPde a))) (addrPte a)) :=
        h.coherent.entries _ _ ⟨hd, hlo, hhi, hne, hx⟩ _ (addrPte_lt a)
      rw [if_neg (fun hboth => hx hboth.2), if_neg hx] at hres
      split at hres
      · cases hres
      · rw [if_neg hentry.2] at hres
        cases hres
  · cases h4

theorem CohState.copies (h : CohState s) {c' : Phys} {dest addr : Word}
    (hop : op.copies s.proc = some (dest, addr)) (ha : pgIsKernel addr = true)
    (hrun : Direct.pgCopyMapping s.proc.cur dest (s.proc.task kernelTask).pgd addr s.mem.1 =
      .ok ((), c')) : Coherent c' (dirs s.proc) (frameNo (s.proc.task kernelTask).pgd) := by
  have hk := h.runner.kernel_mem
  have hd := h.runner.copies_mem hop
  obtain ⟨hlo, hhi⟩ := kernel_slots ha
  obtain ⟨hne, -, hed⟩ := pgCopyMapping_ok h.init (h.mapped.dirUsed _ hk) hrun
  by_cases hx : Extended (s.mem.1.mem (frameNo (s.proc.task kernelTask).pgd) (addrPde addr))
  · rw [h.mapped.copied_wide hk hd (addrPde_lt addr) hne hx hed]
    exact h.coherent
  · exact h.coherent.copyEdit h.mapped hk hd (addrPte_lt addr) ⟨hk, hlo, hhi, hne, hx⟩ hed

theorem CohState.sameDirs (h : CohState s) {p' : Proc} (hinv : MapInv { s with proc := p' })
    (hs : SameDirs s.proc p') : CohState { s with proc := p' } := by
  refine ⟨hinv, (hs.pid kernelTask).trans h.pid, ?_⟩
  rw [hs.dirs_eq, hs.pgd]
  exact h.coherent

theorem CohState.effect (h : CohState s) (hon : op.OnHeap s) (hsp : op.Sparing s)
    (he : KEffect s op s') : CohState s' := by
  have hinv := h.toMapInv.effect he
  cases he with
  | enter task _ => exact h.sameDirs hinv (sameDirs_taskEnter s.proc task)
  | enterKernel => exact h.sameDirs hinv (sameDirs_enterKernel s.proc)
  | leaveKernel => exact h.sameDirs hinv (sameDirs_leaveKernel s.proc)
  | fork pgd c' clone p' hclone hfork =>
    have hd := h.runner.cr3_mem
    obtain ⟨hkpgd, hkpid⟩ := taskFork_old hfork h.runner.kernel
    refine ⟨hinv, hkpid.trans h.pid, ?_⟩
    rw [taskFork_dirs hfork, hkpgd]
    exact h.coherent.clone h.mapped h.runner.kernel_mem hd
      (pgCloneDir_effect h.init (h.mapped.used hd) hclone)
  | call _ m fuel r c' p' hop hrun hsame =>
    refine ⟨hinv, (hsame.pid kernelTask).trans h.pid, ?_⟩
    rw [hsame.dirs_eq, hsame.pgd]
    cases op with
    | brk new =>
      cases hop
      have hcur : s.proc.cur = s.proc.task kernelTask := congrArg s.proc.task hon
      refine (h.inv.brk h.runner.kernel_mem ?_ ?_ hsp hrun).coherent
      · rw [hcur]
      · rw [hcur]
        exact h.pid
    | fault addr =>
      simp only [KOp.memOp] at hop
      split at hop
      · cases hop
        exact absurd hrun (h.not_reserved hon)
      · cases hop
    | _ => cases hop <;> exact hon.elim
  | copy _ dest addr c' hop hrun =>
    refine ⟨hinv, h.pid, h.copies hop ?_ hrun⟩
    cases op with
    | fault a =>
      simp only [KOp.copies, Option.map_eq_some_iff] at hop
      obtain ⟨_, _, heq⟩ := hop
      cases heq
      exact hon
    | copy t a =>
      simp only [KOp.copies] at hop
      split at hop
      · cases hop
        exact hon
      · cases hop
    | _ => cases hop

theorem CohState.coherentKern (h : CohState s) : CoherentKern s := by
  intro t ht a ha r hr
  have hd : frameNo (s.proc.task t).pgd ∈ dirs s.proc := ⟨t, ht, rfl⟩
  have hk := h.runner.kernel_mem
  obtain ⟨hlo, hhi⟩ := kernel_slots ha
  unfold translate at hr
  dsimp only at hr
  split at hr
  · cases hr
  rename_i hp
  have hp := not_not.mp hp
  by_cases hx : Extended (s.mem.1.mem (frameNo (s.proc.task t).pgd) (addrPde a))
  · have hsame := (h.mapped.wide _ hd _ (addrPde_lt a) hx).2 _ hk
    refine ⟨r, ?_, rfl⟩
    unfold translate
    rw [hsame, if_neg (not_not.mpr hp)]
    exact hr
  · rw [if_neg hx] at hr
    split at hr
    · rename_i hpage
      cases hr
      obtain ⟨hne, hsame⟩ := h.coherent.pages _ _ ⟨hd, hlo, hhi, hp.ne_nil, hx⟩ _
        (addrPte_lt a) hpage
      have hpk := h.mapped.present _ hk _ (addrPde_lt a) hne
      have hxk : ¬ Extended (s.mem.1.mem (frameNo (s.proc.task kernelTask).pgd) (addrPde a)) := by
        intro hxk
        rw [← (h.mapped.wide _ hk _ (addrPde_lt a) hxk).2 _ hd] at hxk
        exact hx hxk
      have hpagek : Present (tableWord s.mem.1 (frameNo (s.proc.task kernelTask).pgd) (addrPde a)
          (addrPte a)) := by
        rw [hsame]
        exact hpage
      exact ⟨_, translate_table hpk hxk hpagek, congrArg frameNo hsame⟩
    · cases hr

theorem Booted.cohState (h : Booted s) (hheap : BootHeap s.mem.1 (frameNo s.proc.cr3)) :
    CohState s := by
  obtain ⟨kernEnd, pgd, hp⟩ := h.proc
  have hkernel : (s.proc.task kernelTask).pgd = s.proc.cr3 ∧
      (s.proc.task kernelTask).pid = kernelPid := by
    rw [hp]
    simp [bootProc, schedInit, fdioTblInit, kernelTaskInit, Proc.setTask, Proc.cur]
  refine ⟨h.mapInv, hkernel.2, ?_⟩
  rw [h.dirs_eq, hkernel.1]
  have hslot : ∀ d i, KernelTable s.mem.1 {frameNo s.proc.cr3} d i →
      d = frameNo s.proc.cr3 ∧ 768 < i := by
    intro d i ht
    have hd : d = frameNo s.proc.cr3 := ht.dir
    refine ⟨hd, ?_⟩
    rcases Nat.lt_or_eq_of_le ht.low with hlt | heq
    · exact hlt
    · have hn := ht.narrow
      rw [hd, ← heq, h.dir.kernelLow] at hn
      exact absurd (by decide) hn
  refine ⟨?_, ?_, ?_⟩
  · intro d i ht
    obtain ⟨hd, hi⟩ := hslot d i ht
    have hne := ht.slot
    rw [hd] at hne ⊢
    exact hheap i hi ht.high hne
  · intro d i ht j _ _
    obtain ⟨hd, -⟩ := hslot d i ht
    have hne := ht.slot
    rw [hd] at hne ⊢
    exact ⟨hne, rfl⟩
  · intro d hd i _ hhi hx
    have hd : d = frameNo s.proc.cr3 := hd
    rw [hd] at hx ⊢
    rw [h.dir.extended (Nat.lt_succ_of_lt hhi) hx, h.dir.kernelLow]
    decide

end Steps

section Tests

instance (s : Kern) (op : KOp) : Decidable (op.OnHeap s) :=
  match op with
  | .enter _ | .enterKernel | .leaveKernel | .fork => inferInstanceAs (Decidable True)
  | .brk _ => inferInstanceAs (Decidable (_ = _))
  | .fault _ | .copy _ _ => inferInstanceAs (Decidable (_ = true))
  | .alloc _ | .allocRange _ _ | .reserve _ | .unmap _ | .mmap _ _ =>
    inferInstanceAs (Decidable False)

/-- The executable form of a step. -/
def KOp.tryHeap (fuel : Nat) (op : KOp) (s : Kern) : Except Fault (Unit × Kern) :=
  if op.OnHeap s then op.tryExec fuel s else .error .diverges

theorem heapStep_of_tryHeap (fuel : Nat) (op : KOp) (s : Kern) (r : Unit) (s' : Kern)
    (h : op.tryHeap fuel s = .ok (r, s')) : HeapStep s (op, r) s' := by
  unfold KOp.tryHeap at h
  split at h
  · rename_i hon
    exact ⟨hon, kStep_of_tryExec fuel op s r s' h⟩
  · cases h

/-- A test for `Sparing`: nothing is unmapped, or there is no other task. -/
def KOp.sparing (s : Kern) : KOp → Bool
  | .brk new => s.proc.cur.brk ≤ new || s.proc.ntasks == 1
  | _ => true

theorem sparing_of_test {s : Kern} {op : KOp} (h : op.sparing s = true) : op.Sparing s := by
  cases op with
  | brk new =>
    intro hlt _ v _ d ht _
    have htest : s.proc.cur.brk ≤ new ∨ s.proc.ntasks = 1 := by simpa [KOp.sparing] using h
    have hone := htest.resolve_left (BitVec.not_le.mpr hlt)
    obtain ⟨t, htask, hd⟩ := ht.dir
    rw [hone, Nat.lt_one_iff] at htask
    subst htask
    rw [← hd]
    rfl
  | _ => trivial

theorem exists_heapRun (fuel : Nat) (ops : List KOp) (s : Kern) (test : Kern → Bool)
    (h : passes (execWhen (fun _ op s => if op.sparing s then op.tryHeap fuel s
      else .error .diverges) ops [] s) (fun _ u => test u) = true) :
    ∃ tr u, RunWhen HeapStep (fun _ s lbl => lbl.1.Sparing s) s tr u ∧ test u = true := by
  refine exists_runWhen ?_ ops s (fun _ u => test u) h
  intro tr op t r u hex
  split at hex
  · rename_i hsp
    exact ⟨sparing_of_test hsp, heapStep_of_tryHeap fuel op t r u hex⟩
  · cases hex

theorem bootKern_heap : BootHeap bootKern.mem.1 (frameNo bootKern.proc.cr3) := by
  intro i hlo hhi hne
  have hd : frameNo bootKern.proc.cr3 = 272 := by decide
  rw [hd] at hne
  rcases bootKern_slot hne with h | h | h <;> omega

end Tests

/-- From boot on, the kernel mappings of all tasks stay coherent, as long as no shrinking
break unmaps a page that another task has through a table of its own. -/
theorem kernel_mappings_coherent (s₀ : Kern) (h₀ : Booted s₀)
    (hheap : BootHeap s₀.mem.1 (frameNo s₀.proc.cr3)) (tr : List (KOp × Unit)) (s : Kern)
    (hrun : RunWhen HeapStep (fun _ s lbl => lbl.1.Sparing s) s₀ tr s) : CoherentKern s := by
  have hinv : CohState s := RunWhen.invariant (I := fun _ s => CohState s) (h₀.cohState hheap)
    (fun tr t lbl u hi hsp hs => by
      obtain ⟨hon, -, fuel, hex⟩ := hs
      exact hi.effect hon hsp (KOp.exec_effect hi.tmp hex)) hrun
  exact hinv.coherentKern

/-- The heap grows, shrinks, and grows again after a child was forked, which then copies a
page of it. -/
theorem kernel_mappings_coherent_child : ∃ s, CoherentKern s ∧ s.proc.ntasks = 2 ∧
    translate s.mem.1 (frameNo (s.proc.task 1).pgd) 0xC0400000#32 ≠ none := by
  obtain ⟨tr, s, hrun, htest⟩ := exists_heapRun 8
    [.brk 0xC0400000#32, .brk 0xC03FF000#32, .fork, .brk 0xC0401000#32, .enter 1, .enterKernel,
      .fault 0xC0400000#32]
    bootKern
    (fun s => s.proc.ntasks == 2 &&
      (translate s.mem.1 (frameNo (s.proc.task 1).pgd) 0xC0400000#32).isSome)
    (by decide +kernel)
  rw [Bool.and_eq_true, beq_iff_eq, Option.isSome_iff_ne_none] at htest
  exact ⟨s, kernel_mappings_coherent bootKern bootKern_booted bootKern_heap tr s hrun, htest⟩

/-- A child copies a page of the heap, and the heap shrinks: the child still has the page. -/
theorem kernel_mappings_stale : Booted bootKern ∧
    BootHeap bootKern.mem.1 (frameNo bootKern.proc.cr3) ∧
    ∃ tr s, Run HeapStep bootKern tr s ∧ ¬ CoherentKern s := by
  obtain ⟨tr, s, hrun, htest⟩ := exists_run (KOp.tryHeap 8) (heapStep_of_tryHeap 8)
    [.fork, .brk 0xC0402000#32, .enter 1, .enterKernel, .leaveKernel, .fault 0xC0400000#32,
      .enter 0, .brk 0xC03FF000#32]
    bootKern
    (fun _ s => s.proc.ntasks == 2 &&
      (translate s.mem.1 (frameNo (s.proc.task 1).pgd) 0xC0400000#32).isSome &&
      (translate s.mem.1 (frameNo (s.proc.task kernelTask).pgd) 0xC0400000#32).isNone)
    (by decide +kernel)
  rw [Bool.and_eq_true, Bool.and_eq_true, beq_iff_eq, Option.isSome_iff_exists,
    Option.isNone_iff_eq_none] at htest
  obtain ⟨⟨htasks, r, hchild⟩, hkernel⟩ := htest
  refine ⟨bootKern_booted, bootKern_heap, tr, s, hrun, ?_⟩
  intro hcoh
  obtain ⟨r', hr', -⟩ := hcoh 1 (by rw [htasks]; decide) 0xC0400000#32 (by decide) r hchild
  rw [hkernel] at hr'
  cases hr'

end AkKernel
