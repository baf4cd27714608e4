import AkKernel.Foundation.CyclicRing
import AkKernel.Proc.System

/-!
# The list operations on cyclic sequences

Runs of `list_insert_after`, `list_insert_before` and `list_remove` from a list head that is
linked to itself. Each operation of the heap does to the links what the operation of the same
name does to the cyclic sequence of the members.
-/

set_option autoImplicit false

namespace AkKernel

open LinkedRing Runs

variable {P : Type} [DecidableEq P]

omit [DecidableEq P] in
def listNext (h : Links P) (elem : P) : Option P := (h elem).next

omit [DecidableEq P] in
def listPrev (h : Links P) (elem : P) : Option P := (h elem).prev

inductive ListOp (P : Type) where
  | insertAfter (after elem : P)
  | insertBefore (before elem : P)
  | remove (elem : P)
deriving DecidableEq, Repr

namespace ListOp

def exec : ListOp P → Links P → Except Fault (Unit × Links P)
  | .insertAfter after elem, h => do
    let h ← listInsertAfter h after elem
    .ok ((), h)
  | .insertBefore before elem, h => do
    let h ← listInsertBefore h before elem
    .ok ((), h)
  | .remove elem, h => do
    let h ← listRemove h elem
    .ok ((), h)

/-- What the operation is to do to the cyclic sequence. -/
def onCycle : ListOp P → Cycle P → Unit × Cycle P
  | .insertAfter after elem, s => ((), LinkedRing.insertAfter after elem s)
  | .insertBefore before elem, s => ((), LinkedRing.insertBefore before elem s)
  | .remove elem, s => ((), LinkedRing.erase elem s)

/-- New nodes go next to members, and the last member is not removed. -/
def Fits (s : Cycle P) : ListOp P → Prop
  | .insertAfter after elem => after ∈ s ∧ elem ∉ s
  | .insertBefore before elem => before ∈ s ∧ elem ∉ s
  | .remove elem => elem ∈ s ∧ 2 ≤ s.length

instance (s : Cycle P) (op : ListOp P) : Decidable (op.Fits s) :=
  match op with
  | .insertAfter _ _ => inferInstanceAs (Decidable (_ ∧ _))
  | .insertBefore _ _ => inferInstanceAs (Decidable (_ ∧ _))
  | .remove _ => inferInstanceAs (Decidable (_ ∧ _))

/-- The links that the operation changes. -/
def Effect (h h' : Links P) : ListOp P → Prop
  | .insertAfter after elem => ∃ b, Spliced h h' after elem b
  | .insertBefore before elem => ∃ a, Spliced h h' a elem before
  | .remove elem => ∃ a b, Unspliced h h' a elem b

end ListOp

/-- The links of the members of `s` are those of a cyclic list in the order of `s`. -/
structure CyclicList (h : Links P) (s : Cycle P) : Prop where
  nodup : s.Nodup
  /-- Following `next` from a member meets the other members once each and then the member. -/
  visits : ∀ a ∈ s, ∃ l, s = (a :: l : List P) ∧ followNext h a (l.length + 1) = l ++ [a]
  inverse : ∀ a ∈ s, ∀ b, listNext h a = some b ↔ b ∈ s ∧ listPrev h b = some a

section Refinement
variable {h : Links P} {s : Cycle P} {a b x : P}

omit [DecidableEq P] in
theorem cyclicList_of_ringOf (hr : RingOf h s) : CyclicList h s := by
  refine ⟨hr.nodup, ?_, fun a ha b => hr.next_iff ha⟩
  intro a ha
  obtain ⟨l, hl, hs⟩ := hr.read ha
  exact ⟨l, hs, hl.path.followNext⟩

theorem listInsertAfter_spliced (hr : RingOf h s) (ha : a ∈ s) (hx : x ∉ s)
    (hb : b ∈ s) (hab : LinkedRing.Linked h a b) :
    ∃ h', listInsertAfter h a x = .ok h' ∧ Spliced h h' a x b ∧ RingOf h' (insertAfter a x s) := by
  have hxa : x ≠ a := fun he => hx (he ▸ ha)
  have hxb : x ≠ b := fun he => hx (he ▸ hb)
  obtain ⟨l, hl, rfl⟩ := hr.read ha
  refine ⟨_, ?_, spliced_of_links hxa hxb hab, a, x :: l, hl.insert_after hx hab.1,
    insertAfter_coe x (List.nodup_cons.mp hl.nodup).1⟩
  simp [listInsertAfter, hab.1, deref, bind, Except.bind]

theorem listInsertBefore_spliced (hr : RingOf h s) (hb : b ∈ s) (hx : x ∉ s) :
    ∃ h' a, listInsertBefore h b x = .ok h' ∧ Spliced h h' a x b ∧ a ∈ s ∧
      RingOf h' (insertBefore b x s) := by
  obtain ⟨-, a, -, ha, -, hab⟩ := hr.neighbours hb
  obtain ⟨h', hok, hs, hr'⟩ := listInsertAfter_spliced hr ha hx hb hab
  obtain ⟨l, hl, rfl⟩ := hr.read ha
  rw [← insertBefore_eq x hl hab.1] at hr'
  refine ⟨h', a, ?_, hs, ha, hr'⟩
  rw [listInsertBefore, hab.2]
  exact hok

theorem listRemove_unspliced (hr : RingOf h s) (hx : x ∈ s) (hlen : 2 ≤ s.length) :
    ∃ h' a b, listRemove h x = .ok h' ∧ Unspliced h h' a x b ∧ a ∈ s ∧ b ∈ s ∧
      RingOf h' (erase x s) := by
  obtain ⟨b, a, hb, ha, hxb, hax⟩ := hr.neighbours hx
  obtain ⟨l, hl, rfl⟩ := hr.read hx
  have hnd := List.nodup_cons.mp hl.nodup
  cases l with
  | nil => exact absurd hlen (Nat.not_succ_le_self 1)
  | cons y l =>
    have hxy : x ≠ y := fun he => hnd.1 (he ▸ List.mem_cons_self)
    have hy : Ring h y (l ++ x :: []) := hl.rotate (l := [])
    have hxa : x ≠ a := by
      rintro rfl
      have hpy := hl.path.1.1
      rw [hax.1] at hpy
      exact hxy (Option.some.inj hpy)
    have hxb' : x ≠ b := by
      rintro rfl
      have hpy := hl.path.1.1
      rw [hxb.1] at hpy
      exact hxy (Option.some.inj hpy)
    refine ⟨_, a, b, ?_, unspliced_of_links hxa hxb' hax hxb, ha, hb, y, l, ?_, erase_coe hnd.1⟩
    · simp [listRemove, hxb.1, hax.2, deref, bind, Except.bind]
    · simpa using hy.remove hxb.1 hax.2

/-- Each fitting operation does to the links what it does to the cyclic sequence. -/
theorem ListOp.exec_spec (hr : RingOf h s) {op : ListOp P} (hop : op.Fits s) :
    ∃ h', op.exec h = .ok ((), h') ∧ RingOf h' (op.onCycle s).2 ∧ op.Effect h h' ∧
      ∀ y, y ∉ s → y ∉ (op.onCycle s).2 → h' y = h y := by
  cases op with
  | insertAfter a x =>
    obtain ⟨ha, hx⟩ := hop
    obtain ⟨b, -, hb, -, hab, -⟩ := hr.neighbours ha
    obtain ⟨h', hok, hs, hr'⟩ := listInsertAfter_spliced hr ha hx hb hab
    refine ⟨h', by rw [exec, hok]; rfl, hr', ⟨b, hs⟩, ?_⟩
    intro y hy hy'
    exact hs.outside (fun he => hy (he ▸ ha)) (fun he => hy (he ▸ hb))
      (fun he => hy' (he ▸ mem_insertAfter x ha))
  | insertBefore b x =>
    obtain ⟨hb, hx⟩ := hop
    obtain ⟨h', a, hok, hs, ha, hr'⟩ := listInsertBefore_spliced hr hb hx
    refine ⟨h', by rw [exec, hok]; rfl, hr', ⟨a, hs⟩, ?_⟩
    intro y hy hy'
    exact hs.outside (fun he => hy (he ▸ ha)) (fun he => hy (he ▸ hb))
      (fun he => hy' (he ▸ mem_insertBefore x hb))
  | remove x =>
    obtain ⟨hx, hlen⟩ := hop
    obtain ⟨h', a, b, hok, hs, ha, hb, hr'⟩ := listRemove_unspliced hr hx hlen
    refine ⟨h', by rw [exec, hok]; rfl, hr', ⟨a, b, hs⟩, ?_⟩
    intro y hy _
    exact hs.outside (fun he => hy (he ▸ ha)) (fun he => hy (he ▸ hb)) (fun he => hy (he ▸ hx))

end Refinement

section ListRuns

/-- Every fitting run from a self-linked node ends in a cyclic list of what the same run
makes of the cyclic sequence, and there each further fitting operation does its effect,
leaves the nodes outside alone and ends in a cyclic list again. -/
theorem listOps_refine_cycle (h : Links P) (c : P) (hc : LinkedRing.Linked h c c)
    (ops : List (ListOp P))
    (hops : Allowed ListOp.onCycle ListOp.Fits ops ([c] : List P)) :
    ∃ tr h' s, exec ListOp.exec ops h = .ok (tr, h') ∧
      (replay ListOp.onCycle ops ([c] : List P)).2 = s ∧ CyclicList h' s ∧
      ∀ op : ListOp P, op.Fits s → ∃ h'', op.exec h' = .ok ((), h'') ∧
        op.Effect h' h'' ∧ CyclicList h'' (op.onCycle s).2 ∧
        ∀ y, y ∉ s → y ∉ (op.onCycle s).2 → h'' y = h' y := by
  have hstep : ∀ (op : ListOp P) (h : Links P) (s : Cycle P), RingOf h s → op.Fits s →
      ∃ h', op.exec h = .ok ((op.onCycle s).1, h') ∧ RingOf h' (op.onCycle s).2 := by
    intro op h s hr hop
    obtain ⟨h', hok, hr', -⟩ := ListOp.exec_spec hr hop
    exact ⟨h', hok, hr'⟩
  obtain ⟨h', hok, hr⟩ :=
    exec_refines ListOp.exec ListOp.onCycle hstep ops h _ (ringOf_singleton hc) hops
  refine ⟨_, h', _, hok, rfl, cyclicList_of_ringOf hr, ?_⟩
  intro op hop
  obtain ⟨h'', hok', hr', heff, hout⟩ := ListOp.exec_spec hr hop
  exact ⟨h'', hok', heff, cyclicList_of_ringOf hr', hout⟩

theorem schedInit_linked (p : Proc) :
    LinkedRing.Linked (schedInit p).list kernelTask kernelTask := by
  simp [schedInit, LinkedRing.Linked]

/-- Two tasks join the ring of `sched_init` on either side and one of them leaves again. -/
theorem listOps_refine_cycle_sched : ∃ tr h',
    exec ListOp.exec [.insertAfter 0 1, .insertBefore 0 2, .insertBefore 1 3, .remove 1]
      (bootProc 0 0).list = .ok (tr, h') ∧ CyclicList h' ([0, 3, 2] : List TaskPtr) := by
  obtain ⟨tr, h', s, hok, hs, hl, -⟩ := listOps_refine_cycle (bootProc 0 0).list kernelTask
    (schedInit_linked _) [.insertAfter 0 1, .insertBefore 0 2, .insertBefore 1 3, .remove 1]
    (by decide)
  have hcycle : s = ([0, 3, 2] : List TaskPtr) := by
    rw [← hs]
    decide
  exact ⟨tr, h', hok, hcycle ▸ hl⟩

end ListRuns

end AkKernel
