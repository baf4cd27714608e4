import AkKernel.Foundation.LinkedRing
import Mathlib.Data.List.Cycle

/-!
# Rings of links as cyclic sequences

A ring has no first member, so what it holds is a cyclic sequence. A member is inserted or
deleted by replacing members by lists of members, which does not depend on where the sequence
is read from. `Spliced` and `Unspliced` say which links of a heap an insertion and a deletion
change.
-/

set_option autoImplicit false

namespace LinkedRing

universe u
variable {P : Type u}

theorem isRotated_flatMap {l m : List P} (h : l ~r m) (f : P → List P) :
    l.flatMap f ~r m.flatMap f := by
  obtain ⟨n, hn, rfl⟩ := List.isRotated_iff_mod.mp h
  rw [List.rotate_eq_drop_append_take hn, List.flatMap_append]
  calc l.flatMap f = (l.take n).flatMap f ++ (l.drop n).flatMap f := by
        rw [← List.flatMap_append, List.take_append_drop]
    _ ~r (l.drop n).flatMap f ++ (l.take n).flatMap f := List.isRotated_append

/-- Every member replaced by a list of members. -/
def replaceEach (f : P → List P) : Cycle P → Cycle P :=
  Quotient.map' (List.flatMap f) fun _ _ h => isRotated_flatMap h f

@[simp] theorem replaceEach_coe (f : P → List P) (l : List P) :
    replaceEach f (l : Cycle P) = (l.flatMap f : List P) := rfl

theorem mem_replaceEach {f : P → List P} {s : Cycle P} {x : P} :
    x ∈ replaceEach f s ↔ ∃ y ∈ s, x ∈ f y := by
  induction s using Quotient.inductionOn' with
  | _ l => exact List.mem_flatMap

/-- The members of `s` in the order of the links of `h`. -/
def RingOf (h : Links P) (s : Cycle P) : Prop := ∃ c l, Ring h c l ∧ s = (c :: l : List P)

/-- `x` has come between the neighbours `a` and `b`. -/
structure Spliced (h h' : Links P) (a x b : P) : Prop where
  adjacent : Linked h a b
  left : Linked h' a x
  right : Linked h' x b
  next : ∀ y, y ≠ a → y ≠ x → (h' y).next = (h y).next
  prev : ∀ y, y ≠ b → y ≠ x → (h' y).prev = (h y).prev

/-- `x` has gone from between `a` and `b`, and its own links are null. -/
structure Unspliced (h h' : Links P) (a x b : P) : Prop where
  left : Linked h a x
  right : Linked h x b
  closed : Linked h' a b
  null : h' x = ⟨none, none⟩
  next : ∀ y, y ≠ a → y ≠ x → (h' y).next = (h y).next
  prev : ∀ y, y ≠ b → y ≠ x → (h' y).prev = (h y).prev

/-- The nodes met by following `n` forward links. -/
def followNext (h : Links P) : P → Nat → List P
  | _, 0 => []
  | a, n + 1 =>
    match (h a).next with
    | none => []
    | some b => b :: followNext h b n

section Reading
variable {h h' : Links P} {s : Cycle P} {a b c x : P} {l : List P}

theorem Path.followNext (hp : Path h a l b) : followNext h a (l.length + 1) = l ++ [b] := by
  induction l generalizing a with
  | nil => simp [LinkedRing.followNext, hp.1]
  | cons y l ih =>
    have hrest := ih hp.2
    simp only [List.length_cons, LinkedRing.followNext, hp.1.1, List.cons_append]
    simpa [LinkedRing.followNext] using hrest

theorem RingOf.nodup (hr : RingOf h s) : s.Nodup := by
  obtain ⟨c, l, hr, rfl⟩ := hr
  exact hr.nodup

theorem RingOf.read (hr : RingOf h s) (ha : a ∈ s) : ∃ l, Ring h a l ∧ s = (a :: l : List P) := by
  obtain ⟨c, l, hr, rfl⟩ := hr
  rcases List.mem_cons.mp ha with rfl | ha
  · exact ⟨l, hr, rfl⟩
  · obtain ⟨t, m, rfl⟩ := List.append_of_mem ha
    refine ⟨m ++ c :: t, hr.rotate, Cycle.coe_eq_coe.mpr ?_⟩
    change (c :: t) ++ (a :: m) ~r (a :: m) ++ (c :: t)
    exact List.isRotated_append

theorem ringOf_singleton (hc : Linked h c c) : RingOf h ([c] : List P) :=
  ⟨c, [], ⟨hc, List.nodup_singleton c⟩, rfl⟩

theorem RingOf.neighbours (hr : RingOf h s) (ha : a ∈ s) :
    ∃ b c, b ∈ s ∧ c ∈ s ∧ Linked h a b ∧ Linked h c a := by
  obtain ⟨l, hl, rfl⟩ := hr.read ha
  obtain ⟨n, p, -, -, hn, hp, h1, h2⟩ := hl.links_mem List.mem_cons_self
  exact ⟨n, p, hn, hp, h1, h2⟩

theorem RingOf.next_iff (hr : RingOf h s) (ha : a ∈ s) :
    (h a).next = some b ↔ b ∈ s ∧ (h b).prev = some a := by
  obtain ⟨n, -, hn, -, hlink, -⟩ := hr.neighbours ha
  constructor
  · intro hb
    rw [hlink.1] at hb
    cases hb
    exact ⟨hn, hlink.2⟩
  · rintro ⟨hb, hprev⟩
    obtain ⟨-, p, -, -, -, hp⟩ := hr.neighbours hb
    rw [hp.2] at hprev
    cases hprev
    exact hp.1

theorem Spliced.outside {y : P} (hs : Spliced h h' a x b) (ha : y ≠ a) (hb : y ≠ b)
    (hx : y ≠ x) : h' y = h y := by
  have h1 := hs.next y ha hx
  have h2 := hs.prev y hb hx
  cases hy : h y
  cases hy' : h' y
  simp_all

theorem Unspliced.outside {y : P} (hs : Unspliced h h' a x b) (ha : y ≠ a) (hb : y ≠ b)
    (hx : y ≠ x) : h' y = h y := by
  have h1 := hs.next y ha hx
  have h2 := hs.prev y hb hx
  cases hy : h y
  cases hy' : h' y
  simp_all

end Reading

section Editing
variable [DecidableEq P] {h : Links P} {s : Cycle P} {a b c x : P} {l : List P}

def insertAfter (a x : P) : Cycle P → Cycle P :=
  replaceEach fun y => if y = a then [a, x] else [y]

def insertBefore (b x : P) : Cycle P → Cycle P :=
  replaceEach fun y => if y = b then [x, b] else [y]

def erase (x : P) : Cycle P → Cycle P :=
  replaceEach fun y => if y = x then [] else [y]

theorem flatMap_ite_of_not_mem (m : List P) (ha : a ∉ l) :
    l.flatMap (fun y => if y = a then m else [y]) = l := by
  induction l with
  | nil => rfl
  | cons y l ih =>
    rw [List.mem_cons, not_or] at ha
    rw [List.flatMap_cons, if_neg (Ne.symm ha.1), ih ha.2]
    rfl

theorem mem_insertAfter (x : P) (ha : a ∈ s) : x ∈ insertAfter a x s :=
  mem_replaceEach.mpr ⟨a, ha, by simp⟩

theorem mem_insertBefore (x : P) (hb : b ∈ s) : x ∈ insertBefore b x s :=
  mem_replaceEach.mpr ⟨b, hb, by simp⟩

theorem insertAfter_coe (x : P) (ha : a ∉ l) :
    insertAfter a x (a :: l : List P) = (a :: x :: l : List P) := by
  rw [insertAfter, replaceEach_coe, List.flatMap_cons, if_pos rfl, flatMap_ite_of_not_mem _ ha]
  rfl

theorem erase_coe (hx : x ∉ l) : erase x (x :: l : List P) = (l : Cycle P) := by
  rw [erase, replaceEach_coe, List.flatMap_cons, if_pos rfl, flatMap_ite_of_not_mem _ hx]
  rfl

theorem insertBefore_eq (x : P) (hr : Ring h a l) (hb : (h a).next = some b) :
    insertBefore b x (a :: l : List P) = insertAfter a x (a :: l : List P) := by
  rw [path_next hr.path] at hb
  have hnd := List.nodup_cons.mp hr.nodup
  rw [insertAfter_coe x hnd.1, insertBefore, replaceEach_coe, List.flatMap_cons]
  cases l with
  | nil =>
    cases hb
    rw [if_pos rfl]
    exact Cycle.coe_eq_coe.mpr (List.isRotated_append : [x] ++ [a] ~r [a] ++ [x])
  | cons y l =>
    cases hb
    have hab : a ≠ b := fun he => hnd.1 (he ▸ List.mem_cons_self)
    rw [if_neg hab, List.flatMap_cons, if_pos rfl,
      flatMap_ite_of_not_mem _ (List.nodup_cons.mp hnd.2).1]
    rfl

theorem spliced_of_links (hx : x ≠ a) (hxb : x ≠ b) (hab : Linked h a b) :
    Spliced h
      (setPrev (setNext (setPrev (setNext h a (some x)) b (some x)) x (some b)) x (some a))
      a x b := by
  refine ⟨hab, ?_, ?_, ?_, ?_⟩
  · simp [Linked, Ne.symm hx]
  · simp [Linked, Ne.symm hxb]
  · intro y ha hy
    simp [ha, hy]
  · intro y hb hy
    simp [hb, hy]

theorem unspliced_of_links (hx : x ≠ a) (hxb : x ≠ b) (hax : Linked h a x) (hxb' : Linked h x b) :
    Unspliced h
      (setPrev (setNext (setNext (setPrev h x none) x none) a (some b)) b (some a)) a x b := by
  refine ⟨hax, hxb', ?_, ?_, ?_, ?_⟩
  · simp [Linked]
  · have h1 : ∀ n : Node P, n.next = none → n.prev = none → n = ⟨none, none⟩ := by
      rintro ⟨_, _⟩ rfl rfl
      rfl
    exact h1 _ (by simp [hx]) (by simp [hxb])
  · intro y ha hy
    simp [ha, hy]
  · intro y hb hy
    simp [hb, hy]

end Editing

end LinkedRing
