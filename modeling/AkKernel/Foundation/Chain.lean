import Mathlib.Data.List.Perm.Basic
import Mathlib.Logic.Function.Basic

/-!
# Singly linked lists over an arbitrary type of nodes

`Chain` reads the nodes from a head to the null pointer as a list. A node is spliced
in at the head or behind another node; the rest of the heap may change at will.
`Spliced` is what an insertion does to the list that looks for the first node that is
not smaller, goes behind it, and goes to the head when there is none.
-/

set_option autoImplicit false

namespace Chains

universe u

variable {P : Type u}

/-- The nodes from `head` on, in order; `none` is the null pointer. -/
def Chain (next : P → Option P) : Option P → List P → Prop
  | head, [] => head = none
  | head, x :: l => head = some x ∧ Chain next (next x) l

variable {next next' : P → Option P} {head : Option P} {l m : List P} {x y : P}

theorem Chain.congr (h : Chain next head l) (hn : ∀ y ∈ l, next' y = next y) :
    Chain next' head l := by
  induction l generalizing head with
  | nil => exact h
  | cons x l ih =>
    refine ⟨h.1, ?_⟩
    rw [hn x List.mem_cons_self]
    exact ih h.2 fun y hy => hn y (List.mem_cons_of_mem x hy)

theorem Chain.referred (h : Chain next head l) (hx : x ∈ l) :
    head = some x ∨ ∃ y ∈ l, next y = some x := by
  induction l generalizing head with
  | nil => cases hx
  | cons y l ih =>
    rcases List.mem_cons.mp hx with hxy | hxl
    · left
      rw [hxy]
      exact h.1
    · right
      rcases ih h.2 hxl with hy | ⟨z, hz, hzx⟩
      · exact ⟨y, List.mem_cons_self, hy⟩
      · exact ⟨z, List.mem_cons_of_mem y hz, hzx⟩

theorem Chain.push (h : Chain next head l) (hx : next' x = head)
    (hrest : ∀ y ∈ l, next' y = next y) : Chain next' (some x) (x :: l) := by
  refine ⟨rfl, ?_⟩
  rw [hx]
  exact h.congr hrest

/-- A node that takes over the successor of `y` and becomes its successor. -/
theorem Chain.insert (h : Chain next head (l ++ y :: m)) (hy : next' y = some x)
    (hx : next' x = next y) (hrest : ∀ z ∈ l ++ m, next' z = next z) :
    Chain next' head (l ++ y :: x :: m) := by
  induction l generalizing head with
  | nil =>
    refine ⟨h.1, hy, ?_⟩
    rw [hx]
    exact h.2.congr hrest
  | cons z l ih =>
    refine ⟨h.1, ?_⟩
    rw [hrest z List.mem_cons_self]
    exact ih h.2 fun w hw => hrest w (List.mem_cons_of_mem z hw)

theorem Chain.unique (h : Chain next head l) (hm : Chain next head m) : l = m := by
  induction l generalizing head m with
  | nil =>
    cases m with
    | nil => rfl
    | cons y m => exact absurd (h.symm.trans hm.1) (Option.some_ne_none y).symm
  | cons x l ih =>
    cases m with
    | nil => exact absurd (hm.symm.trans h.1) (Option.some_ne_none x).symm
    | cons y m =>
      have hxy : x = y := Option.some.inj (h.1.symm.trans hm.1)
      subst hxy
      rw [ih h.2 hm.2]

/-- The second list is the first with `x` at the head, if all others are less, or
behind one that is not. -/
inductive Spliced (less : P → P → Prop) (x : P) : List P → List P → Prop where
  | head {l : List P} (h : ∀ y ∈ l, less y x) : Spliced less x l (x :: l)
  | behind {l m : List P} {y : P} (h : ¬ less y x) : Spliced less x (l ++ y :: m) (l ++ y :: x :: m)

section Splice
variable {less le : P → P → Prop}

theorem Spliced.perm (h : Spliced less x l m) : List.Perm m (x :: l) := by
  cases h with
  | head => exact List.Perm.refl _
  | @behind a b y _ =>
    have hswap : List.Perm (a ++ y :: x :: b) (a ++ x :: y :: b) :=
      (List.Perm.swap x y b).append_left a
    exact hswap.trans List.perm_middle

theorem Spliced.sublist (h : Spliced less x l m) : List.Sublist l m := by
  cases h with
  | head => exact List.sublist_cons_self x l
  | @behind a b y _ => exact ((List.sublist_cons_self x b).cons_cons y).append_left a

/-- In an ordered result the other nodes, if any, have one that is as large as `x`. -/
theorem Spliced.exists_eq (h : Spliced less x l m) (hless : ∀ y, less y x → ¬ le x y)
    (hm : m.Pairwise le) : l = [] ∨ ∃ y ∈ l, ¬ less y x ∧ le y x := by
  cases h with
  | head h =>
    cases l with
    | nil => exact Or.inl rfl
    | cons y l =>
      have hle := (List.pairwise_cons.mp hm).1 y List.mem_cons_self
      exact absurd hle (hless y (h y List.mem_cons_self))
  | @behind a b y h =>
    right
    have hy := (List.pairwise_append.mp hm).2.1
    exact ⟨y, by simp, h, (List.pairwise_cons.mp hy).1 x List.mem_cons_self⟩

end Splice

end Chains
