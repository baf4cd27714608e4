import AkKernel.Io.Fdio
import AkKernel.Proc.System
import Mathlib.Algebra.Order.BigOperators.Group.Finset

/-!
# Reference counts of file descriptors

`fd_dupfd` copies a slot without counting it, and `task_clone` counts only the slots
before `fdnext`, which `fd_open` leaves at the slot it filled. In runs that keep
clear of both, the counts are right.
-/

set_option autoImplicit false

namespace AkKernel

open Runs

/-- The count that a descriptor holds; one that was freed holds none. -/
def refsOf (descr : DescrPtr → Option Fdescr) (d : DescrPtr) : Int :=
  match descr d with
  | some v => v.refs
  | none => 0

/-- There is a running task, and the descriptor tables have the size that their tasks say. -/
structure Sized (p : Proc) : Prop where
  current : p.currentTask < p.ntasks
  cap : ∀ t, t < p.ntasks → (p.task t).fdtbl.length = (p.task t).fdcap.toNat

structure RefsInv (p : Proc) : Prop where
  current : p.currentTask < p.ntasks
  cap : ∀ t, t < p.ntasks → (p.task t).fdtbl.length = (p.task t).fdcap.toNat
  counted : ∀ d, refsOf p.descr d = slotCount p d

/-- The calls that keep the counts: no open descriptor is duplicated, and a task that
forks has no slot in use from `fdnext` on. -/
def FdOp.Counts (p : Proc) : FdOp → Prop
  | .dupfd src _ => ∀ d, p.cur.fdtbl[src.toNat]? ≠ some (some d)
  | .fork _ => ∀ i, p.cur.fdnext.toNat ≤ i → i < p.cur.fdtbl.length → p.cur.fdtbl[i]? = some none
  | _ => True

/-- A call that keeps the counts and that, if it allocates, returns with the `CurrentTask` it
was made with. -/
def CountsStep (p : Proc) (lbl : FdOp × Int) (p' : Proc) : Prop :=
  WrapFdStep p lbl p' ∧ lbl.1.Counts p ∧ (lbl.1.Allocates p → HomeAlloc p)

section Steps
variable {p p' : Proc} {d : DescrPtr}

theorem refsOf_update_of_ne {descr : DescrPtr → Option Fdescr} {e : DescrPtr}
    {v : Option Fdescr} (h : d ≠ e) : refsOf (Function.update descr e v) d = refsOf descr d := by
  unfold refsOf
  rw [Function.update_of_ne h]

theorem taskEnter_fdtbl (p : Proc) (e t : TaskPtr) :
    ((taskEnter p e).task t).fdtbl = (p.task t).fdtbl ∧
      ((taskEnter p e).task t).fdcap = (p.task t).fdcap := by
  have hresume : ∀ (v : Task) c, (resume v c).fdtbl = v.fdtbl ∧ (resume v c).fdcap = v.fdcap := by
    intro v c
    unfold resume
    split <;> exact ⟨rfl, rfl⟩
  rw [taskEnter_eq]
  by_cases ht : t = e
  · subst ht
    simp [hresume]
  · simp [ht]

theorem Sized.enter (h : Sized p) {t : TaskPtr} (ht : t < p.ntasks) : Sized (taskEnter p t) := by
  have hn : (taskEnter p t).ntasks = p.ntasks := by rw [taskEnter_eq]
  refine ⟨?_, ?_⟩
  · rw [hn, taskEnter_eq]
    exact ht
  · intro s hs
    rw [hn] at hs
    rw [(taskEnter_fdtbl p t s).1, (taskEnter_fdtbl p t s).2]
    exact h.cap s hs

theorem Sized.setTask (h : Sized p) (descr : DescrPtr → Option Fdescr) {v : Task}
    (hcap : v.fdtbl.length = v.fdcap.toNat) :
    Sized { p.setTask p.currentTask v with descr := descr } := by
  refine ⟨h.current, ?_⟩
  intro t ht
  by_cases htc : t = p.currentTask
  · subst htc
    simpa [Proc.setTask] using hcap
  · simpa [Proc.setTask, htc] using h.cap t ht

theorem Sized.forked (h : Sized p) (pgd : Word) (list : LinkedRing.Links TaskPtr)
    (descr : DescrPtr → Option Fdescr) : Sized (forked p pgd list descr) := by
  have hlen : p.cur.fdtbl.length = p.cur.fdcap.toNat := h.cap _ h.current
  refine ⟨Nat.lt_succ_of_lt h.current, ?_⟩
  intro t ht
  rcases Nat.lt_succ_iff_lt_or_eq.mp ht with hlt | he
  · have hne : t ≠ p.ntasks := Nat.ne_of_lt hlt
    by_cases htc : t = p.currentTask
    · subst htc
      simpa [AkKernel.forked, hne, Proc.cur] using h.cap _ h.current
    · simpa [AkKernel.forked, hne, htc] using h.cap t hlt
  · subst he
    simp only [AkKernel.forked, Function.update_self, cloneOf]
    rw [List.length_take, hlen, Nat.min_self]

theorem RefsInv.sized (h : RefsInv p) : Sized p := ⟨h.current, h.cap⟩

theorem RefsInv.enter (h : RefsInv p) {t : TaskPtr} (ht : t < p.ntasks) :
    RefsInv (taskEnter p t) := by
  have hsized := h.sized.enter ht
  refine ⟨hsized.current, hsized.cap, ?_⟩
  intro e
  have hn : (taskEnter p t).ntasks = p.ntasks := by rw [taskEnter_eq]
  have hd : (taskEnter p t).descr = p.descr := by rw [taskEnter_eq]
  rw [hd, slotCount_congr hn fun s => (taskEnter_fdtbl p t s).1]
  exact h.counted e

theorem RefsInv.setTask (h : RefsInv p) (descr : DescrPtr → Option Fdescr) {v : Task}
    (hcap : v.fdtbl.length = v.fdcap.toNat)
    (hcount : ∀ d, refsOf descr d + (p.cur.fdtbl.count (some d) : Int) =
      refsOf p.descr d + v.fdtbl.count (some d)) :
    RefsInv { p.setTask p.currentTask v with descr := descr } := by
  have hsized := h.sized.setTask descr hcap
  refine ⟨hsized.current, hsized.cap, ?_⟩
  intro e
  have h1 := slotCount_setTask (p := p) (d := e) h.current v
  have h2 := h.counted e
  have h3 := hcount e
  have h4 : slotCount { p.setTask p.currentTask v with descr := descr } e =
      slotCount (p.setTask p.currentTask v) e := rfl
  change refsOf descr e = (slotCount { p.setTask p.currentTask v with descr := descr } e : Int)
  unfold Proc.cur at h3
  rw [h4]
  omega

theorem fdAllocLoop_ok {t : Task} {behind : Nat → Option DescrPtr} {fuel : Nat} :
    ∀ {i fd : Fd}, fdAllocLoop t behind fuel i = .ok fd →
      fd.toNat < t.fdtbl.length → t.fdtbl[fd.toNat]? = some none := by
  induction fuel with
  | zero =>
    intro i fd h
    cases h
  | succ fuel ih =>
    intro i fd h hlt
    rw [fdAllocLoop] at h
    split at h
    · exact ih h hlt
    · rename_i hnone
      cases h
      rw [List.getElem?_eq_getElem hlt] at hnone ⊢
      exact congrArg some hnone

theorem fdGrow_sized {t v : Task} (hlen : t.fdtbl.length = t.fdcap.toNat) (h : fdGrow t = .ok v) :
    v.fdtbl.length = v.fdcap.toNat := by
  unfold fdGrow at h
  split at h
  · cases Except.ok.inj h
    exact hlen
  split at h
  · cases h
  rename_i hnw
  cases Except.ok.inj h
  have hle : t.fdcap.toNat ≤ (t.fdcap * 2#16).toNat := BitVec.not_lt.mp hnw
  rw [List.length_append, List.length_replicate, hlen]
  dsimp only
  omega

theorem fdGrow_ok {t v : Task} (hlen : t.fdtbl.length = t.fdcap.toNat) (h : fdGrow t = .ok v)
    (hslot : t.fdnext.toNat < t.fdtbl.length → t.fdtbl[t.fdnext.toNat]? = some none) :
    (∀ d, v.fdtbl.count (some d) = t.fdtbl.count (some d)) ∧
      (t.fdnext.toNat < v.fdtbl.length → v.fdtbl[t.fdnext.toNat]? = some none) := by
  unfold fdGrow at h
  split at h
  · cases Except.ok.inj h
    exact ⟨fun _ => rfl, hslot⟩
  split at h
  · cases h
  rename_i hge hnw
  cases Except.ok.inj h
  have hge' : t.fdtbl.length ≤ t.fdnext.toNat := by
    rw [hlen]
    exact BitVec.not_lt.mp hge
  refine ⟨?_, ?_⟩
  · intro e
    rw [List.count_append, List.count_replicate]
    simp
  · intro hlt
    rw [List.length_append, List.length_replicate] at hlt
    rw [List.getElem?_append_right hge', List.getElem?_replicate, if_pos (by omega)]

theorem Sized.fdAlloc (h : Sized p) {behind : Nat → Option DescrPtr} {fd : Fd}
    (ha : fdAlloc p behind = .ok (fd, p')) : Sized p' := by
  obtain ⟨v, -, hv, hp'⟩ := fdAlloc_home_ok ha
  have hcur : ({ p.cur with fdnext := fd } : Task).fdtbl.length = p.cur.fdcap.toNat :=
    h.cap _ h.current
  rw [hp']
  exact h.setTask p.descr (fdGrow_sized hcur hv)

theorem Sized.fdSetSlot (h : Sized p) {fd : Fd} {slot : Option DescrPtr}
    (hs : fdSetSlot p fd slot = .ok p') : Sized p' := by
  rw [(fdSetSlot_ok.mp hs).2]
  apply h.setTask p.descr
  rw [List.length_set]
  exact h.cap _ h.current

theorem Sized.withDescr (h : Sized p) (descr : DescrPtr → Option Fdescr) :
    Sized { p with descr := descr } := ⟨h.current, h.cap⟩

/-- What a call on descriptors can do to the tables: it sets one slot, which `fd_open` looks for
first. -/
inductive FdEffect (a : Allocator) (p : Proc) : Proc → Prop where
  | same : FdEffect a p p
  | enter (t : TaskPtr) : t < p.ntasks → FdEffect a p (taskEnter p t)
  | alloc (q p' : Proc) (fd : Fd) (behind : Nat → Option DescrPtr)
      (descr : DescrPtr → Option Fdescr) (slot : Option DescrPtr) :
      fdAlloc p behind a = .ok (fd, q) →
      fdSetSlot { a.call q with descr := descr } fd slot = .ok p' → FdEffect a p p'
  | slot (q p' : Proc) (fd : Fd) (descr : DescrPtr → Option Fdescr) (slot : Option DescrPtr) :
      q = { p with descr := descr } ∨ q = a.call { p with descr := descr } →
      fdSetSlot q fd slot = .ok p' → FdEffect a p p'
  | fork (pgd : Word) (list : LinkedRing.Links TaskPtr) (descr : DescrPtr → Option Fdescr) :
      FdEffect a p (forked (a.call p) pgd list descr)

theorem FdOp.exec_effect {op : FdOp} {a : Allocator} {r : Int} (hen : op.Enabled p)
    (hex : op.exec p a = .ok (r, p')) : FdEffect a p p' := by
  cases op with
  | enter t =>
    cases Except.ok.inj hex
    exact .enter t hen
  | openDev dev descr behind =>
    obtain ⟨⟨fd, q⟩, ho, hret⟩ := bind_eq_ok.mp hex
    cases Except.ok.inj hret
    obtain ⟨q₁, ha, hset⟩ := fdOpen_ok.mp ho
    exact .alloc q₁ _ _ behind _ _ ha hset
  | dupfd src dest =>
    obtain ⟨slot, _, hrest⟩ := bind_eq_ok.mp hex
    cases slot with
    | none =>
      cases Except.ok.inj hrest
      exact .same
    | some d =>
      obtain ⟨fd, _, hrest'⟩ := bind_eq_ok.mp hrest
      obtain ⟨q, hset, hret⟩ := bind_eq_ok.mp hrest'
      cases Except.ok.inj hret
      exact .slot p _ fd p.descr _ (.inl rfl) hset
  | close fd =>
    obtain ⟨slot, _, hrest⟩ := bind_eq_ok.mp hex
    cases slot with
    | none =>
      cases Except.ok.inj hrest
      exact .same
    | some d =>
      obtain ⟨v, _, hrest'⟩ := bind_eq_ok.mp hrest
      obtain ⟨q, hset, hret⟩ := bind_eq_ok.mp hrest'
      cases Except.ok.inj hret
      refine .slot _ _ fd (dropRef p.descr d v) _ ?_ hset
      split
      · exact .inr rfl
      · exact .inl rfl
  | fork pgd =>
    obtain ⟨⟨c, q⟩, hf, hret⟩ := bind_eq_ok.mp hex
    cases Except.ok.inj hret
    obtain ⟨list, descr, _, _, _, hp'⟩ := taskFork_cases (p := a.call p) hf
    rw [hp']
    exact .fork pgd list descr

theorem FdStep.effect {lbl : FdOp × Int} (hs : FdStep p lbl p') : FdEffect .home p p' :=
  FdOp.exec_effect hs.1 hs.2

theorem Sized.step (h : Sized p) {lbl : FdOp × Int} (hs : FdStep p lbl p') : Sized p' := by
  cases hs.effect with
  | same => exact h
  | enter t ht => exact h.enter ht
  | alloc q _ fd behind descr slot ha hset => exact ((h.fdAlloc ha).withDescr descr).fdSetSlot hset
  | slot q _ fd descr slot hq hset =>
    have hqd : q = { p with descr := descr } := hq.elim id id
    exact Sized.fdSetSlot (hqd ▸ h.withDescr descr) hset
  | fork pgd list descr => exact h.forked pgd list descr

/-- `Sized` holds of `KernelTask`'s calls too when `UserTask` is a task. -/
structure Seated (p : Proc) : Prop extends Sized p where
  stored : UserStored p

theorem Seated.allocated (h : Seated p) : Seated (allocated p) := by
  obtain ⟨hstored, hcur⟩ := h.stored.allocated h.current
  refine ⟨⟨hcur, ?_⟩, hstored⟩
  rw [allocated_eq]
  exact h.cap

theorem Seated.withDescr (h : Seated p) (descr : DescrPtr → Option Fdescr) :
    Seated { p with descr := descr } := ⟨h.toSized.withDescr descr, h.stored⟩

theorem Seated.fdAlloc (h : Seated p) {behind : Nat → Option DescrPtr} {moves : Bool} {fd : Fd}
    (ha : fdAlloc p behind (.wrapped moves) = .ok (fd, p')) : Seated p' := by
  obtain ⟨t, q, -, ht, hq, rfl⟩ := fdAlloc_ok ha
  have hseated : Seated q := by
    rcases hq with rfl | ⟨rfl, -⟩
    · exact h
    · exact h.allocated
  have hcur : ({ p.cur with fdnext := fd } : Task).fdtbl.length = p.cur.fdcap.toNat :=
    h.cap _ h.current
  exact ⟨hseated.toSized.setTask q.descr (fdGrow_sized hcur ht), hseated.stored⟩

theorem Seated.fdSetSlot (h : Seated p) {fd : Fd} {slot : Option DescrPtr}
    (hs : fdSetSlot p fd slot = .ok p') : Seated p' := by
  refine ⟨h.toSized.fdSetSlot hs, ?_⟩
  rw [(fdSetSlot_ok.mp hs).2]
  exact h.stored

/-- Every call on descriptors keeps the tables at their size, whichever task its allocations
return to. -/
theorem Seated.step (h : Seated p) {lbl : FdOp × Int} (hs : WrapFdStep p lbl p') : Seated p' := by
  obtain ⟨moves, hex⟩ := hs.2
  cases FdOp.exec_effect hs.1 hex with
  | same => exact h
  | enter t ht =>
    refine ⟨h.toSized.enter ht, ?_⟩
    rw [taskEnter_eq]
    exact h.stored
  | alloc q _ fd behind descr slot ha hset =>
    exact ((h.fdAlloc ha).allocated.withDescr descr).fdSetSlot hset
  | slot q _ fd descr slot hq hset =>
    refine Seated.fdSetSlot ?_ hset
    rcases hq with rfl | rfl
    · exact h.withDescr descr
    · exact (h.withDescr descr).allocated
  | fork pgd list descr =>
    have ha : Seated (AkKernel.allocated p) := h.allocated
    refine ⟨ha.toSized.forked pgd list descr, ?_⟩
    intro u hu
    obtain ⟨hlt, hne⟩ := ha.stored u hu
    exact ⟨Nat.lt_succ_of_lt hlt, hne⟩

theorem RefsInv.fdAlloc (h : RefsInv p) {behind : Nat → Option DescrPtr} {fd : Fd}
    (ha : fdAlloc p behind = .ok (fd, p')) :
    RefsInv p' ∧ p'.descr = p.descr ∧
      (fd.toNat < p'.cur.fdtbl.length → p'.cur.fdtbl[fd.toNat]? = some none) := by
  obtain ⟨v, hloop, hv, hp'⟩ := fdAlloc_home_ok ha
  subst hp'
  have hcur : (p.setTask p.currentTask v).cur = v := by simp [Proc.setTask, Proc.cur]
  have hslot : fd.toNat < p.cur.fdtbl.length → p.cur.fdtbl[fd.toNat]? = some none :=
    fdAllocLoop_ok hloop
  obtain ⟨hcount, hfree⟩ := fdGrow_ok (t := { p.cur with fdnext := fd })
    (h.cap _ h.current) hv hslot
  refine ⟨?_, rfl, by rw [hcur]; exact hfree⟩
  refine h.setTask p.descr (fdGrow_sized (t := { p.cur with fdnext := fd })
    (h.cap _ h.current) hv) ?_
  intro e
  rw [hcount e]

theorem RefsInv.openDev (h : RefsInv p) {dev : DevPtr} {behind : Nat → Option DescrPtr}
    (hfresh : p.descr d = none) {fd : Fd} (ho : fdOpen p dev d behind = .ok (fd, p')) :
    RefsInv p' := by
  obtain ⟨q, ha, hset⟩ := fdOpen_ok.mp ho
  obtain ⟨hq, hdescr, hfree⟩ := h.fdAlloc ha
  obtain ⟨hlt, hp'⟩ := fdSetSlot_ok.mp hset
  have hslot := hfree hlt
  rw [hp']
  refine hq.setTask (Function.update q.descr d (some ⟨dev, 1⟩))
    (by rw [List.length_set]; exact hq.cap _ hq.current) ?_
  intro e
  have hc := count_set_add (some d) (some e) hslot
  by_cases hed : e = d
  · subst hed
    have hzero : refsOf q.descr e = 0 := by
      unfold refsOf
      rw [hdescr, hfresh]
    have hone : refsOf (Function.update q.descr e (some ⟨dev, 1⟩)) e = 1 := by
      unfold refsOf
      rw [Function.update_self]
    simp only [reduceCtorEq, if_false, if_true] at hc
    rw [hzero, hone]
    change (1 : Int) + _ = 0 + ((q.cur.fdtbl.set fd.toNat (some e)).count (some e) : Int)
    omega
  · have hne : (some d : Option DescrPtr) ≠ some e := fun h => hed (Option.some.inj h).symm
    simp only [reduceCtorEq, if_false, hne] at hc
    rw [refsOf_update_of_ne hed]
    change _ = _ + ((q.cur.fdtbl.set fd.toNat (some d)).count (some e) : Int)
    omega

theorem RefsInv.close (h : RefsInv p) {fd : Fd} {r : Int} (hc : fdClose p fd = .ok (r, p')) :
    RefsInv p' ∧ ∀ d, p.cur.fdtbl[fd.toNat]? = some (some d) →
      (p'.descr d = none ↔ slotCount p' d = 0) := by
  rw [fdClose_home] at hc
  obtain ⟨slot, hl, hrest⟩ := bind_eq_ok.mp hc
  rw [fdLookup_ok] at hl
  cases slot with
  | none =>
    cases Except.ok.inj hrest
    refine ⟨h, ?_⟩
    intro e he
    rw [hl] at he
    cases he
  | some d =>
    obtain ⟨v, hv, hrest'⟩ := bind_eq_ok.mp hrest
    obtain ⟨q, hset, hret⟩ := bind_eq_ok.mp hrest'
    cases Except.ok.inj hret
    rw [deref_eq_ok] at hv
    obtain ⟨-, hp'⟩ := fdSetSlot_ok.mp hset
    have hold : refsOf p.descr d = v.refs := by
      unfold refsOf
      rw [hv]
    have hnew : refsOf (dropRef p.descr d v) d = v.refs - 1 := by
      unfold refsOf dropRef
      rw [Function.update_self]
      by_cases hz : v.refs - 1 = 0
      · rw [if_pos hz, hz]
      · rw [if_neg hz]
    have hinv : RefsInv p' := by
      rw [hp']
      refine h.setTask (dropRef p.descr d v)
        (by rw [List.length_set]; exact h.cap _ h.current) ?_
      intro e
      have hcnt := count_set_add none (some e) hl
      change _ = _ + ((p.cur.fdtbl.set fd.toNat none).count (some e) : Int)
      by_cases hed : e = d
      · subst hed
        simp only [reduceCtorEq, if_false, if_true] at hcnt
        rw [hold, hnew]
        omega
      · have hne : (some d : Option DescrPtr) ≠ some e := fun h => hed (Option.some.inj h).symm
        simp only [reduceCtorEq, if_false, hne] at hcnt
        rw [dropRef, refsOf_update_of_ne hed]
        omega
    refine ⟨hinv, ?_⟩
    intro e he
    rw [hl] at he
    obtain rfl : d = e := by simpa using he
    have hcount := hinv.counted d
    have hdescr : p'.descr = dropRef p.descr d v := by rw [hp']; rfl
    rw [hdescr, hnew] at hcount
    rw [hdescr, dropRef, Function.update_self]
    by_cases hz : v.refs - 1 = 0
    · rw [if_pos hz]
      exact ⟨fun _ => by omega, fun _ => rfl⟩
    · rw [if_neg hz]
      exact ⟨fun h => (nomatch h), fun h0 => absurd (by omega) hz⟩

theorem fdDupfd_closed {src dest : Fd} {r : Int} (hs : ∀ d, p.cur.fdtbl[src.toNat]? ≠ some (some d))
    (hd : fdDupfd p src dest = .ok (r, p')) : p' = p := by
  obtain ⟨slot, hl, hrest⟩ := bind_eq_ok.mp hd
  rw [fdLookup_ok] at hl
  cases slot with
  | none =>
    cases Except.ok.inj hrest
    rfl
  | some d => exact absurd hl (hs d)

theorem slotCount_forked {pgd : Word} {list : LinkedRing.Links TaskPtr}
    {descr : DescrPtr → Option Fdescr} (h : RefsInv p) (d : DescrPtr) :
    slotCount (forked p pgd list descr) d = slotCount p d + p.cur.fdtbl.count (some d) := by
  have hlen : p.cur.fdtbl.length = p.cur.fdcap.toNat := h.cap _ h.current
  have hold : ∑ t ∈ Finset.range p.ntasks,
      ((forked p pgd list descr).task t).fdtbl.count (some d) = slotCount p d := by
    apply Finset.sum_congr rfl
    intro t ht
    have hne : t ≠ p.ntasks := Nat.ne_of_lt (Finset.mem_range.mp ht)
    by_cases htc : t = p.currentTask
    · subst htc
      simp [forked, hne, Proc.cur]
    · simp [forked, hne, htc]
  have hnew : ((forked p pgd list descr).task p.ntasks).fdtbl = p.cur.fdtbl := by
    simp only [forked, Function.update_self, cloneOf]
    rw [← hlen, List.take_length]
  change ∑ t ∈ Finset.range (p.ntasks + 1), _ = _
  rw [Finset.sum_range_succ, hold, hnew]

theorem RefsInv.fork (h : RefsInv p) {pgd : Word} {c : TaskPtr}
    (hslots : ∀ i, p.cur.fdnext.toNat ≤ i → i < p.cur.fdtbl.length → p.cur.fdtbl[i]? = some none)
    (hf : taskFork pgd p = .ok (c, p')) : RefsInv p' := by
  have hlen : p.cur.fdtbl.length = p.cur.fdcap.toNat := h.cap _ h.current
  obtain ⟨list, descr, -, -, hfds, hp'⟩ := taskFork_cases hf
  have hadd : addRefs p.descr (p.cur.fdtbl.take p.cur.fdnext.toNat) = .ok descr := by
    unfold cloneFds at hfds
    split at hfds
    · cases hfds
    · change addRefs p.descr ((p.cur.fdtbl.take p.cur.fdcap.toNat).take p.cur.fdnext.toNat) = _
        at hfds
      rw [← hlen, List.take_length] at hfds
      exact hfds
  rw [hp']
  have hsized := h.sized.forked pgd list descr
  refine ⟨hsized.current, hsized.cap, ?_⟩
  intro d
  have hcount := h.counted d
  rw [slotCount_forked h]
  change refsOf descr d = _
  have hd := addRefs_ok hadd d
  rw [count_take hslots] at hd
  unfold refsOf at hcount ⊢
  rw [hd]
  cases hpd : p.descr d with
  | none =>
    rw [hpd] at hcount
    have hzero : p.cur.fdtbl.count (some d) = 0 := by
      have hle : p.cur.fdtbl.count (some d) ≤ slotCount p d :=
        Finset.single_le_sum (f := fun t => (p.task t).fdtbl.count (some d))
          (fun _ _ => Nat.zero_le _) (Finset.mem_range.mpr h.current)
      dsimp only at hcount
      omega
    simp only [Option.map_none]
    dsimp only at hcount
    omega
  | some v =>
    rw [hpd] at hcount
    simp only [Option.map_some]
    dsimp only at hcount
    omega

end Steps

section Runs
variable {p p' : Proc}

theorem RefsInv.fdStep (h : RefsInv p) {lbl : FdOp × Int} (hs : FdStep p lbl p')
    (hc : lbl.1.Counts p) : RefsInv p' := by
  obtain ⟨op, r⟩ := lbl
  obtain ⟨hen, hex⟩ := hs
  cases op with
  | enter t =>
    cases Except.ok.inj hex
    exact h.enter hen
  | openDev dev descr behind =>
    obtain ⟨⟨fd, q⟩, ho, hret⟩ := bind_eq_ok.mp hex
    cases Except.ok.inj hret
    exact h.openDev hen ho
  | dupfd src dest =>
    rw [fdDupfd_closed hc hex]
    exact h
  | close fd => exact (h.close hex).1
  | fork pgd =>
    obtain ⟨⟨c, q⟩, hf, hret⟩ := bind_eq_ok.mp hex
    cases Except.ok.inj hret
    exact h.fork hc hf

theorem RefsInv.withUser (h : RefsInv p) (u : Option TaskPtr) : RefsInv (p.withUser u) :=
  ⟨h.current, h.cap, h.counted⟩

theorem RefsInv.step (h : RefsInv p) {lbl : FdOp × Int} (hs : CountsStep p lbl p') :
    RefsInv p' := by
  obtain ⟨u, q, hq, rfl⟩ := hs.1.home hs.2.2
  exact (h.fdStep hq hs.2.1).withUser u

theorem bootProc_refs (kernEnd pgd : Word) : RefsInv (bootProc kernEnd pgd) := by
  have h0 : ∀ t : TaskPtr, t < 1 → t = kernelTask := fun t ht => Nat.lt_one_iff.mp ht
  have htbl : ((bootProc kernEnd pgd).task kernelTask).fdtbl = List.replicate 16 none := rfl
  refine ⟨Nat.zero_lt_one, ?_, ?_⟩
  · intro t ht
    rw [h0 t ht]
    rfl
  · intro d
    have hcount : slotCount (bootProc kernEnd pgd) d = 0 := by
      apply Finset.sum_eq_zero
      intro t ht
      rw [h0 t (Finset.mem_range.mp ht), htbl, List.count_replicate]
      rfl
    rw [hcount]
    rfl

/-- In a run that duplicates no open descriptor, forks only tasks whose slots in use are all
before `fdnext`, and allocates only where the allocator returns to the running task: the count of
a descriptor is the number of slots that hold it, no slot holds one that was freed, and `fd_close`
frees a descriptor exactly when it clears the last slot. -/
theorem fdRefs_over_runs (kernEnd pgd : Word) (tr : List (FdOp × Int)) (p : Proc)
    (hrun : Run CountsStep (bootProc kernEnd pgd) tr p) :
    (∀ d v, p.descr d = some v → v.refs = slotCount p d) ∧
    (∀ t d, t < p.ntasks → some d ∈ (p.task t).fdtbl → p.descr d ≠ none) ∧
    (∀ fd r p' d, CountsStep p (.close fd, r) p' → p.cur.fdtbl[fd.toNat]? = some (some d) →
      (p'.descr d = none ↔ slotCount p' d = 0)) := by
  have hinv : RefsInv p := Run.invariant (I := fun _ p => RefsInv p) (bootProc_refs kernEnd pgd)
    (fun _ _ _ _ h hs => h.step hs) hrun
  refine ⟨?_, ?_, ?_⟩
  · intro d v hd
    have hcount := hinv.counted d
    unfold refsOf at hcount
    rw [hd] at hcount
    exact hcount
  · intro t d ht hm hd
    have hcount := hinv.counted d
    unfold refsOf at hcount
    rw [hd] at hcount
    have hle : (p.task t).fdtbl.count (some d) ≤ slotCount p d :=
      Finset.single_le_sum (f := fun t => (p.task t).fdtbl.count (some d))
        (fun _ _ => Nat.zero_le _) (Finset.mem_range.mpr ht)
    have hpos : 0 < (p.task t).fdtbl.count (some d) := List.count_pos_iff.mpr hm
    dsimp only at hcount
    omega
  · intro fd r p' d hs hd
    obtain ⟨u, q, hq, rfl⟩ := hs.1.home hs.2.2
    exact (hinv.close hq.2).2 d hd

/-- The executable form of a step. -/
def FdOp.tryExec (op : FdOp) (p : Proc) : Except Fault (Int × Proc) :=
  if op.Enabled p then op.exec p else .error .diverges

theorem fdStep_of_tryExec (op : FdOp) (p : Proc) (r : Int) (p' : Proc)
    (h : op.tryExec p = .ok (r, p')) : FdStep p (op, r) p' := by
  unfold FdOp.tryExec at h
  split at h
  · exact ⟨by assumption, h⟩
  · cases h

theorem join_eq_none_iff (o : Option (Option DescrPtr)) :
    o.join = none ↔ ∀ d, o ≠ some (some d) := by
  cases o with
  | none => simp
  | some slot => cases slot <;> simp

instance (p : Proc) (op : FdOp) : Decidable (op.Counts p) :=
  match op with
  | .dupfd src _ =>
    decidable_of_iff ((p.cur.fdtbl[src.toNat]?).join = none) (join_eq_none_iff _)
  | .fork _ =>
    decidable_of_iff (∀ i < p.cur.fdtbl.length, p.cur.fdnext.toNat ≤ i →
      p.cur.fdtbl[i]? = some none)
      ⟨fun h i h1 h2 => h i h2 h1, fun h i h2 h1 => h i h1 h2⟩
  | .enter _ | .openDev _ _ _ | .close _ => .isTrue trivial

/-- The executable form of a step with the kernel's allocator, where `realloc` moves its block. -/
def FdOp.tryWrapped (op : FdOp) (p : Proc) : Except Fault (Int × Proc) :=
  if op.Enabled p then op.exec p (.wrapped true) else .error .diverges

theorem wrapFdStep_of_tryWrapped (op : FdOp) (p : Proc) (r : Int) (p' : Proc)
    (h : op.tryWrapped p = .ok (r, p')) : WrapFdStep p (op, r) p' := by
  unfold FdOp.tryWrapped at h
  split at h
  · exact ⟨by assumption, true, h⟩
  · cases h

def FdOp.tryCounts (op : FdOp) (p : Proc) : Except Fault (Int × Proc) :=
  if op.Counts p ∧ (op.Allocates p → HomeAlloc p) then op.tryWrapped p else .error .diverges

theorem countsStep_of_tryCounts (op : FdOp) (p : Proc) (r : Int) (p' : Proc)
    (h : op.tryCounts p = .ok (r, p')) : CountsStep p (op, r) p' := by
  unfold FdOp.tryCounts at h
  split at h
  · exact ⟨wrapFdStep_of_tryWrapped op p r p' h, by assumption⟩
  · cases h

/-- Two devices are opened and the second is closed, which moved `fdnext` behind the
first; the task forks, and the clone opens a third device and closes its copy of the first. -/
theorem fdRefs_over_runs_shared : ∃ tr p, Run CountsStep (bootProc 0 0) tr p ∧
    p.descr 5 = some ⟨8, 1⟩ ∧ slotCount p 5 = 1 ∧
    ∀ d v, p.descr d = some v → v.refs = slotCount p d := by
  obtain ⟨tr, p, hrun, htest⟩ := exists_run FdOp.tryCounts countsStep_of_tryCounts
    [.openDev 8 5 fun _ => none, .openDev 9 6 fun _ => none, .close 1, .fork 0, .enter 1,
      .openDev 9 6 fun _ => none, .close 0]
    (bootProc 0 0) (fun _ p => p.descr 5 == some ⟨8, 1⟩ && slotCount p 5 == 1) (by decide +kernel)
  simp only [Bool.and_eq_true, beq_iff_eq] at htest
  exact ⟨tr, p, hrun, htest.1, htest.2, (fdRefs_over_runs 0 0 tr p hrun).1⟩

/-- A task opens a device and forks: the count stays at one. When it closes its
descriptor, the slot of its clone holds one that was freed. -/
theorem fdRefs_freed_in_use : ∃ tr p, Run WrapFdStep (bootProc 0 0) tr p ∧
    ∃ t d, t < p.ntasks ∧ some d ∈ (p.task t).fdtbl ∧ p.descr d = none := by
  obtain ⟨tr, p, hrun, htest⟩ := exists_run FdOp.tryWrapped wrapFdStep_of_tryWrapped
    [.openDev 8 5 fun _ => none, .fork 0, .close 0] (bootProc 0 0)
    (fun _ p => decide (1 < p.ntasks) && (p.task 1).fdtbl.contains (some 5) && p.descr 5 == none)
    (by decide +kernel)
  simp only [Bool.and_eq_true, decide_eq_true_eq, List.contains_iff_mem, beq_iff_eq] at htest
  exact ⟨tr, p, hrun, 1, 5, htest.1.1, htest.1.2, htest.2⟩

end Runs

end AkKernel
