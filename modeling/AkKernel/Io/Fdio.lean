import AkKernel.Proc.Effects
import Mathlib.Algebra.BigOperators.Group.Finset.Basic
import Mathlib.Algebra.Order.Group.Nat

/-!
# File descriptors

`kernel/io/fdio.c` and the case of `sys_fcntl` that duplicates a descriptor. What a
read behind the end of a descriptor table finds is up to the heap: `fd_alloc` makes
such reads, so what they find is one of its arguments. Any other access behind the
end is a fault.
-/

set_option autoImplicit false

namespace AkKernel

open Runs

abbrev Fd := BitVec 16

/-- The loop of `fd_alloc` that moves `fdnext` to a free slot. -/
def fdAllocLoop (t : Task) (behind : Nat → Option DescrPtr) : Nat → Fd → Except Fault Fd
  | 0, _ => .error .diverges
  | fuel + 1, fdnext =>
    match (t.fdtbl[fdnext.toNat]?).getD (behind fdnext.toNat) with
    | some _ => fdAllocLoop t behind fuel (fdnext + 1#16)
    | none => .ok fdnext

/-- Doubles the table when `fdnext` is behind it. When the capacity wraps to zero,
the `memset` that follows has a negative length. -/
def fdGrow (t : Task) : Except Fault Task :=
  if t.fdnext < t.fdcap then .ok t
  else if t.fdcap * 2#16 < t.fdcap then .error .outOfBounds
  else .ok { t with
    fdcap := t.fdcap * 2#16
    fdtbl := t.fdtbl ++ List.replicate ((t.fdcap * 2#16).toNat - t.fdcap.toNat) none }

/-- The allocator, as far as it assigns to `CurrentTask` and `UserTask`: what a call of `malloc`
or `free` does to them, and whether `realloc` moves its block, by calls of both. -/
structure Allocator where
  call : Proc → Proc
  moves : Bool

/-- The allocator as the calls below assume it where they name none: it leaves `CurrentTask` as
it is. -/
def Allocator.home : Allocator := ⟨id, false⟩

/-- The allocator behind `__wrap_malloc` and `__wrap_free`. -/
def Allocator.wrapped (moves : Bool) : Allocator := ⟨allocated, moves⟩

/-- `realloc` of the table of `CurrentTask`. When its calls bring in another task, the new block
goes to that task, and the caller keeps the one that was freed. -/
def Allocator.realloc (a : Allocator) (p : Proc) : Except Fault Proc :=
  if a.moves then
    if (a.call p).currentTask = p.currentTask then .ok (a.call p) else .error .badPointer
  else .ok p

def fdAlloc (p : Proc) (behind : Nat → Option DescrPtr) (a : Allocator := .home) :
    Except Fault (Fd × Proc) := do
  let fdnext ← fdAllocLoop p.cur behind (2 ^ 16) p.cur.fdnext
  let t ← fdGrow { p.cur with fdnext := fdnext }
  let p ← (if fdnext < p.cur.fdcap then .ok p else a.realloc p : Except Fault Proc)
  .ok (fdnext, p.setTask p.currentTask t)

/-- `CurrentTask->fdtbl[fd] = slot` -/
def fdSetSlot (p : Proc) (fd : Fd) (slot : Option DescrPtr) : Except Fault Proc :=
  if fd.toNat < p.cur.fdtbl.length then
    .ok (p.setTask p.currentTask { p.cur with fdtbl := p.cur.fdtbl.set fd.toNat slot })
  else .error .outOfBounds

def fdLookup (p : Proc) (fd : Fd) : Except Fault (Option DescrPtr) :=
  match p.cur.fdtbl[fd.toNat]? with
  | none => .error .outOfBounds
  | some slot => .ok slot

/-- `descr` is what `malloc` returns. The slot is that of the task that is `CurrentTask` then. -/
def fdOpen (p : Proc) (dev : DevPtr) (descr : DescrPtr) (behind : Nat → Option DescrPtr)
    (a : Allocator := .home) : Except Fault (Fd × Proc) := do
  let (fd, p) ← fdAlloc p behind a
  let p := a.call p
  let p := { p with descr := Function.update p.descr descr (some ⟨dev, 1⟩) }
  let p ← fdSetSlot p fd (some descr)
  .ok (fd, p)

/-- The loop of `fd_dupfd`. -/
def fdDupfdLoop (p : Proc) : Nat → Fd → Except Fault Fd
  | 0, _ => .error .diverges
  | fuel + 1, dest => do
    match ← fdLookup p dest with
    | some _ => fdDupfdLoop p fuel (dest + 1#16)
    | none => .ok dest

def fdDupfd (p : Proc) (src dest : Fd) : Except Fault (Int × Proc) := do
  match ← fdLookup p src with
  | none => .ok (-1, p)
  | some d =>
    let dest ← fdDupfdLoop p (2 ^ 16) dest
    let p ← fdSetSlot p dest (some d)
    .ok (0, p)

/-- The reference count goes down, and the descriptor goes at zero. -/
def dropRef (descr : DescrPtr → Option Fdescr) (d : DescrPtr) (v : Fdescr) :
    DescrPtr → Option Fdescr :=
  Function.update descr d (if v.refs - 1 = 0 then none else some { v with refs := v.refs - 1 })

def fdClose (p : Proc) (fd : Fd) (a : Allocator := .home) : Except Fault (Int × Proc) := do
  match ← fdLookup p fd with
  | none => .ok (-1, p)
  | some d =>
    let v ← deref (p.descr d)
    let p := { p with descr := dropRef p.descr d v }
    let p := if v.refs - 1 = 0 then a.call p else p
    let p ← fdSetSlot p fd none
    .ok (0, p)

inductive FdOp where
  | enter (task : TaskPtr)
  | openDev (dev : DevPtr) (descr : DescrPtr) (behind : Nat → Option DescrPtr)
  | dupfd (src dest : Fd)
  | close (fd : Fd)
  | fork (pgd : Word)

/-- `malloc` returns a descriptor that is not in use. -/
def FdOp.Enabled (p : Proc) : FdOp → Prop
  | .enter task => task < p.ntasks
  | .openDev _ descr _ => p.descr descr = none
  | _ => True

instance (p : Proc) (op : FdOp) : Decidable (op.Enabled p) :=
  match op with
  | .enter _ => inferInstanceAs (Decidable (_ < _))
  | .openDev _ _ _ => inferInstanceAs (Decidable (_ = _))
  | .dupfd _ _ | .close _ | .fork _ => .isTrue trivial

/-- Also gives what the call returns. -/
def FdOp.exec (p : Proc) (op : FdOp) (a : Allocator := .home) : Except Fault (Int × Proc) :=
  match op with
  | .enter task => .ok (0, taskEnter p task)
  | .openDev dev descr behind => do
    let (fd, p) ← fdOpen p dev descr behind a
    .ok (fd.toNat, p)
  | .dupfd src dest => fdDupfd p src dest
  | .close fd => fdClose p fd a
  | .fork pgd => do
    let (clone, p) ← taskFork pgd p a.call
    .ok (clone, p)

/-- One call of the running task, or a switch to another one, where the allocator leaves
`CurrentTask` as it is. -/
def FdStep (p : Proc) (lbl : FdOp × Int) (p' : Proc) : Prop :=
  lbl.1.Enabled p ∧ lbl.1.exec p = .ok (lbl.2, p')

/-- One call of the running task, or a switch to another one, with the kernel's allocator. -/
def WrapFdStep (p : Proc) (lbl : FdOp × Int) (p' : Proc) : Prop :=
  lbl.1.Enabled p ∧ ∃ moves, lbl.1.exec p (.wrapped moves) = .ok (lbl.2, p')

/-- The calls that reach `malloc` or `free`. -/
def FdOp.Allocates (p : Proc) : FdOp → Prop
  | .openDev _ _ _ | .fork _ => True
  | .close fd => ((p.cur.fdtbl[fd.toNat]?).join.bind p.descr).map Fdescr.refs = some 1
  | _ => False

instance (p : Proc) (op : FdOp) : Decidable (op.Allocates p) :=
  match op with
  | .openDev _ _ _ | .fork _ => .isTrue trivial
  | .close _ => inferInstanceAs (Decidable (_ = _))
  | .enter _ | .dupfd _ _ => .isFalse id

theorem fdSetSlot_ok {p p' : Proc} {fd : Fd} {slot : Option DescrPtr} :
    fdSetSlot p fd slot = .ok p' ↔ fd.toNat < p.cur.fdtbl.length ∧
      p' = p.setTask p.currentTask { p.cur with fdtbl := p.cur.fdtbl.set fd.toNat slot } := by
  unfold fdSetSlot
  split
  · rename_i hlt
    rw [Except.ok.injEq]
    exact ⟨fun h => ⟨hlt, h.symm⟩, fun h => h.2.symm⟩
  · rename_i hge
    exact ⟨fun h => (nomatch h), fun h => absurd h.1 hge⟩

theorem fdLookup_ok {p : Proc} {fd : Fd} {slot : Option DescrPtr} :
    fdLookup p fd = .ok slot ↔ p.cur.fdtbl[fd.toNat]? = some slot := by
  unfold fdLookup
  split
  · rename_i h
    rw [h]
    exact ⟨fun h => (nomatch h), fun h => (nomatch h)⟩
  · rename_i s h
    rw [h, Except.ok.injEq, Option.some.injEq]

section Calls
variable {p p' : Proc} {fd : Fd}

theorem fdAlloc_ok {behind : Nat → Option DescrPtr} {a : Allocator}
    (h : fdAlloc p behind a = .ok (fd, p')) :
    ∃ t q, fdAllocLoop p.cur behind (2 ^ 16) p.cur.fdnext = .ok fd ∧
      fdGrow { p.cur with fdnext := fd } = .ok t ∧
      (q = p ∨ q = a.call p ∧ q.currentTask = p.currentTask) ∧ p' = q.setTask q.currentTask t := by
  obtain ⟨fdnext, hloop, hrest⟩ := bind_eq_ok.mp h
  obtain ⟨t, ht, hrest⟩ := bind_eq_ok.mp hrest
  obtain ⟨q, hq, hret⟩ := bind_eq_ok.mp hrest
  cases Except.ok.inj hret
  refine ⟨t, q, hloop, ht, ?_, rfl⟩
  split at hq
  · exact .inl (Except.ok.inj hq).symm
  unfold Allocator.realloc at hq
  split at hq
  · split at hq
    · rename_i hc
      cases Except.ok.inj hq
      exact .inr ⟨rfl, hc⟩
    · cases hq
  · exact .inl (Except.ok.inj hq).symm

theorem fdAlloc_home_ok {behind : Nat → Option DescrPtr} (h : fdAlloc p behind = .ok (fd, p')) :
    ∃ t, fdAllocLoop p.cur behind (2 ^ 16) p.cur.fdnext = .ok fd ∧
      fdGrow { p.cur with fdnext := fd } = .ok t ∧ p' = p.setTask p.currentTask t := by
  obtain ⟨t, q, hloop, ht, hq, hp'⟩ := fdAlloc_ok h
  have hqp : q = p := hq.elim id And.left
  exact ⟨t, hloop, ht, hqp ▸ hp'⟩

theorem fdOpen_ok {dev : DevPtr} {descr : DescrPtr} {behind : Nat → Option DescrPtr}
    {a : Allocator} : fdOpen p dev descr behind a = .ok (fd, p') ↔
      ∃ q, fdAlloc p behind a = .ok (fd, q) ∧
        fdSetSlot
          { a.call q with descr := Function.update (a.call q).descr descr (some ⟨dev, 1⟩) }
          fd (some descr) = .ok p' := by
  constructor
  · intro h
    obtain ⟨⟨fd', q⟩, ha, hrest⟩ := bind_eq_ok.mp h
    obtain ⟨q', hset, hret⟩ := bind_eq_ok.mp hrest
    cases Except.ok.inj hret
    exact ⟨q, ha, hset⟩
  · rintro ⟨q, ha, hset⟩
    exact bind_eq_ok.mpr ⟨_, ha, bind_eq_ok.mpr ⟨_, hset, rfl⟩⟩

theorem fdClose_home (p : Proc) (fd : Fd) : fdClose p fd = (do
    match ← fdLookup p fd with
    | none => .ok (-1, p)
    | some d =>
      let v ← deref (p.descr d)
      let p ← fdSetSlot { p with descr := dropRef p.descr d v } fd none
      .ok (0, p)) := by
  simp only [fdClose, Allocator.home, id, ite_self]

theorem fdSetSlot_withUser {u : Option TaskPtr} {slot : Option DescrPtr}
    (h : fdSetSlot (p.withUser u) fd slot = .ok p') :
    ∃ q, fdSetSlot p fd slot = .ok q ∧ p' = q.withUser u := by
  obtain ⟨hlt, hp'⟩ := fdSetSlot_ok.mp h
  exact ⟨_, fdSetSlot_ok.mpr ⟨hlt, rfl⟩, hp'⟩

/-- A caller that the allocator returns to gets what it gets from one that leaves `CurrentTask`
alone, but for `UserTask`. -/
theorem fdAlloc_wrapped {behind : Nat → Option DescrPtr} {moves : Bool} (hh : HomeAlloc p)
    (h : fdAlloc p behind (.wrapped moves) = .ok (fd, p')) :
    ∃ u q, fdAlloc p behind = .ok (fd, q) ∧ p' = q.withUser u ∧ HomeAlloc p' := by
  obtain ⟨t, q, hloop, ht, hq, hp'⟩ := fdAlloc_ok h
  have hhome : fdAlloc p behind = .ok (fd, p.setTask p.currentTask t) := by
    refine bind_eq_ok.mpr ⟨fd, hloop, bind_eq_ok.mpr ⟨t, ht, bind_eq_ok.mpr ⟨p, ?_, rfl⟩⟩⟩
    split <;> rfl
  rcases hq with rfl | ⟨hq, -⟩
  · exact ⟨q.userTask, _, hhome, hp', hp' ▸ hh⟩
  · have hha : HomeAlloc q := hq ▸ hh.allocated
    change q = allocated p at hq
    rw [allocated_of_home hh] at hq
    refine ⟨(allocated p).userTask, _, hhome, ?_, hp' ▸ hha⟩
    rw [hp', hq]
    rfl

theorem fdOpen_wrapped {dev : DevPtr} {descr : DescrPtr} {behind : Nat → Option DescrPtr}
    {moves : Bool} (hh : HomeAlloc p)
    (h : fdOpen p dev descr behind (.wrapped moves) = .ok (fd, p')) :
    ∃ u q, fdOpen p dev descr behind = .ok (fd, q) ∧ p' = q.withUser u := by
  obtain ⟨q, ha, hset⟩ := fdOpen_ok.mp h
  obtain ⟨u, q₀, ha₀, rfl, hhq⟩ := fdAlloc_wrapped hh ha
  change fdSetSlot { allocated (q₀.withUser u) with
    descr := Function.update (allocated (q₀.withUser u)).descr descr (some ⟨dev, 1⟩) } _ _ = _
    at hset
  rw [allocated_of_home hhq] at hset
  obtain ⟨q₁, hset₁, hp'⟩ := fdSetSlot_withUser
    (p := { q₀ with descr := Function.update q₀.descr descr (some ⟨dev, 1⟩) }) hset
  exact ⟨_, q₁, fdOpen_ok.mpr ⟨_, ha₀, hset₁⟩, hp'⟩

theorem fdClose_wrapped {moves : Bool} {r : Int}
    (hh : (FdOp.close fd).Allocates p → HomeAlloc p)
    (h : fdClose p fd (.wrapped moves) = .ok (r, p')) :
    ∃ u q, fdClose p fd = .ok (r, q) ∧ p' = q.withUser u := by
  rw [fdClose_home]
  obtain ⟨slot, hl, hrest⟩ := bind_eq_ok.mp h
  cases slot with
  | none =>
    cases Except.ok.inj hrest
    exact ⟨p.userTask, p, bind_eq_ok.mpr ⟨none, hl, rfl⟩, rfl⟩
  | some d =>
    obtain ⟨v, hv, hrest⟩ := bind_eq_ok.mp hrest
    obtain ⟨q, hset, hret⟩ := bind_eq_ok.mp hrest
    cases Except.ok.inj hret
    obtain ⟨u, hu⟩ : ∃ u, (if v.refs - 1 = 0
        then allocated { p with descr := dropRef p.descr d v }
        else { p with descr := dropRef p.descr d v }) =
        ({ p with descr := dropRef p.descr d v } : Proc).withUser u := by
      split
      · rename_i hz
        have hfree : HomeAlloc p := by
          apply hh
          change ((p.cur.fdtbl[fd.toNat]?).join.bind p.descr).map Fdescr.refs = some 1
          rw [fdLookup_ok.mp hl]
          change (p.descr d).map Fdescr.refs = some 1
          rw [deref_eq_ok.mp hv]
          exact congrArg some (by omega)
        exact ⟨_, allocated_of_home (p := { p with descr := dropRef p.descr d v }) hfree⟩
      · exact ⟨p.userTask, rfl⟩
    change fdSetSlot (if v.refs - 1 = 0 then allocated _ else _) fd none = _ at hset
    rw [hu] at hset
    obtain ⟨q₁, hset₁, hp'⟩ := fdSetSlot_withUser hset
    exact ⟨u, q₁, bind_eq_ok.mpr ⟨_, hl, bind_eq_ok.mpr ⟨v, hv,
      bind_eq_ok.mpr ⟨q₁, hset₁, rfl⟩⟩⟩, hp'⟩

/-- A step whose allocations return to the running task is one with the allocator that leaves
`CurrentTask` alone, but for `UserTask`. -/
theorem WrapFdStep.home {lbl : FdOp × Int} (hs : WrapFdStep p lbl p')
    (hh : lbl.1.Allocates p → HomeAlloc p) : ∃ u q, FdStep p lbl q ∧ p' = q.withUser u := by
  obtain ⟨op, r⟩ := lbl
  obtain ⟨hen, moves, hex⟩ := hs
  cases op with
  | enter t =>
    cases Except.ok.inj hex
    exact ⟨p.userTask, _, ⟨hen, rfl⟩, by rw [taskEnter_eq]; rfl⟩
  | openDev dev descr behind =>
    obtain ⟨⟨fd, q⟩, ho, hret⟩ := bind_eq_ok.mp hex
    cases Except.ok.inj hret
    obtain ⟨u, q₀, ho₀, hp'⟩ := fdOpen_wrapped (hh trivial) ho
    exact ⟨u, q₀, ⟨hen, bind_eq_ok.mpr ⟨_, ho₀, rfl⟩⟩, hp'⟩
  | dupfd src dest => exact ⟨p'.userTask, p', ⟨hen, hex⟩, rfl⟩
  | close fd =>
    obtain ⟨u, q, hc, hp'⟩ := fdClose_wrapped hh hex
    exact ⟨u, q, ⟨hen, hc⟩, hp'⟩
  | fork pgd =>
    obtain ⟨⟨c, q⟩, hf, hret⟩ := bind_eq_ok.mp hex
    cases Except.ok.inj hret
    obtain ⟨u, q₀, hf₀, hp'⟩ := taskFork_home (hh trivial) hf
    exact ⟨u, q₀, ⟨hen, bind_eq_ok.mpr ⟨_, hf₀, rfl⟩⟩, hp'⟩

end Calls

/-- The number of slots, over all tasks, that hold `d`. -/
def slotCount (p : Proc) (d : DescrPtr) : Nat :=
  ∑ t ∈ Finset.range p.ntasks, (p.task t).fdtbl.count (some d)

section Counting
variable {p p' : Proc} {d : DescrPtr} {t : TaskPtr}

theorem count_set_add {l : List (Option DescrPtr)} {i : Nat} {x : Option DescrPtr}
    (y b : Option DescrPtr) (h : l[i]? = some x) :
    (l.set i y).count b + (if x = b then 1 else 0) = l.count b + if y = b then 1 else 0 := by
  obtain ⟨hi, hx⟩ := List.getElem?_eq_some_iff.mp h
  rw [List.count_set hi, hx]
  by_cases hxb : x = b
  · have hpos : 0 < l.count b := by
      rw [List.count_pos_iff, ← hxb, ← hx]
      exact List.getElem_mem hi
    simp only [hxb, beq_self_eq_true, if_true, beq_iff_eq]
    omega
  · simp only [hxb, beq_iff_eq, if_false]
    omega

theorem slotCount_setTask (ht : t < p.ntasks) (v : Task) :
    slotCount (p.setTask t v) d + (p.task t).fdtbl.count (some d) =
      slotCount p d + v.fdtbl.count (some d) := by
  have hmem : t ∈ Finset.range p.ntasks := Finset.mem_range.mpr ht
  have hrest : ∑ s ∈ (Finset.range p.ntasks).erase t,
      ((p.setTask t v).task s).fdtbl.count (some d) =
      ∑ s ∈ (Finset.range p.ntasks).erase t, (p.task s).fdtbl.count (some d) := by
    apply Finset.sum_congr rfl
    intro s hs
    have hne : s ≠ t := Finset.ne_of_mem_erase hs
    simp [Proc.setTask, hne]
  have hself : (p.setTask t v).task t = v := by simp [Proc.setTask]
  have h1 : ((p.setTask t v).task t).fdtbl.count (some d) +
      ∑ s ∈ (Finset.range p.ntasks).erase t, ((p.setTask t v).task s).fdtbl.count (some d) =
      slotCount (p.setTask t v) d :=
    Finset.add_sum_erase _ (fun s => ((p.setTask t v).task s).fdtbl.count (some d)) hmem
  have h2 : (p.task t).fdtbl.count (some d) +
      ∑ s ∈ (Finset.range p.ntasks).erase t, (p.task s).fdtbl.count (some d) = slotCount p d :=
    Finset.add_sum_erase _ (fun s => (p.task s).fdtbl.count (some d)) hmem
  rw [hself, hrest] at h1
  omega

theorem slotCount_congr (hn : p'.ntasks = p.ntasks)
    (h : ∀ t, (p'.task t).fdtbl = (p.task t).fdtbl) : slotCount p' d = slotCount p d := by
  unfold slotCount
  rw [hn]
  apply Finset.sum_congr rfl
  intro t _
  rw [h]

theorem addRefs_ok {slots : List (Option DescrPtr)} :
    ∀ {descr descr' : DescrPtr → Option Fdescr}, addRefs descr slots = .ok descr' →
      ∀ d, descr' d = (descr d).map fun v => { v with refs := v.refs + slots.count (some d) } := by
  induction slots with
  | nil =>
    intro descr descr' h d
    cases h
    cases descr d with
    | none => rfl
    | some v => simp
  | cons slot slots ih =>
    intro descr descr' h d
    cases slot with
    | none =>
      rw [addRefs] at h
      rw [ih h d]
      simp
    | some e =>
      rw [addRefs] at h
      obtain ⟨v, hv, hrest⟩ := bind_eq_ok.mp h
      rw [deref_eq_ok] at hv
      rw [ih hrest d]
      by_cases hd : d = e
      · subst hd
        rw [Function.update_self, hv, List.count_cons]
        simp only [Option.map_some, beq_self_eq_true, if_true, Option.some.injEq, Fdescr.mk.injEq,
          true_and]
        omega
      · have hne : (some e == some d) = false := by
          simpa using fun h => hd h.symm
        rw [Function.update_of_ne hd, List.count_cons, hne]
        simp

theorem count_take {l : List (Option DescrPtr)} {n : Nat}
    (h : ∀ i, n ≤ i → i < l.length → l[i]? = some none) :
    (l.take n).count (some d) = l.count (some d) := by
  have hdrop : (l.drop n).count (some d) = 0 := by
    apply List.count_eq_zero_of_not_mem
    intro hm
    obtain ⟨i, hi, he⟩ := List.mem_iff_getElem.mp hm
    rw [List.length_drop] at hi
    have h1 := h (n + i) (by omega) (by omega)
    rw [List.getElem_drop] at he
    rw [List.getElem?_eq_getElem (by omega), he] at h1
    cases h1
  conv_rhs => rw [← List.take_append_drop n l]
  rw [List.count_append, hdrop, Nat.add_zero]

end Counting

end AkKernel
