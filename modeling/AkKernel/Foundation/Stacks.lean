import AkKernel.Foundation.Ia32

/-!
# A stack for each address space

Address spaces that have stacks of their own at the same addresses, and words that all of
them have in common.
-/

set_option autoImplicit false

namespace Ia32

/-- `Good ds m` says that the address spaces of `m` are `ds` and are laid out so. -/
structure Spaces (M : Type) [Memory M] where
  stack : Set Word32
  common : Set Word32
  Good : Set Word32 → M → Prop
  words : ∀ ds, ∀ d ∈ ds, Words (Good ds) d (stack ∪ common)
  disjoint : ∀ a ∈ stack, a ∉ common
  same : ∀ ds m, Good ds m → ∀ d ∈ ds, ∀ e ∈ ds, ∀ a ∈ common, peek m e a = peek m d a
  alone : ∀ ds m, Good ds m → ∀ d ∈ ds, ∀ e ∈ ds, e ≠ d → ∀ a ∈ stack ∪ common, ∀ v,
    ∀ b ∈ stack, peek (poke m d a v) e b = peek m e b

namespace Spaces
variable {M : Type} [Memory M] {S : Spaces M} {ds W : Set Word32} {d e a b : Word32} {m m' : M}

theorem good (hm : S.Good ds m) (hd : d ∈ ds) (hw : Wrote d W m m')
    (hW : W ⊆ S.stack ∪ S.common) : S.Good ds m' := hw.good (S.words ds d hd) hW hm

theorem other_stack (hm : S.Good ds m) (hd : d ∈ ds) (he : e ∈ ds) (hne : e ≠ d)
    (hw : Wrote d W m m') (hW : W ⊆ S.stack ∪ S.common) (hb : b ∈ S.stack) :
    peek m' e b = peek m e b := by
  have hall : S.Good ds m' ∧ peek m' e b = peek m e b := by
    refine hw.keeps (P := fun t => S.Good ds t ∧ peek t e b = peek m e b) ⟨hm, rfl⟩ ?_
    intro t a v ht ha
    refine ⟨(S.words ds d hd).keeps ht.1 (hW ha), ?_⟩
    rw [S.alone ds t ht.1 d hd e he hne a (hW ha) v b hb]
    exact ht.2
  exact hall.2

theorem own_stack (hm : S.Good ds m) (hd : d ∈ ds) (hw : Wrote d W m m')
    (hW : W ⊆ S.stack ∪ S.common) (hb : b ∈ S.stack) (hn : b ∉ W) : peek m' d b = peek m d b :=
  hw.peek_eq (S.words ds d hd) hW hm (Or.inl hb) hn

theorem kept_stack (hm : S.Good ds m) (hd : d ∈ ds) (he : e ∈ ds) (hw : Wrote d W m m')
    (hW : W ⊆ S.stack ∪ S.common) (hb : b ∈ S.stack) (hn : e = d → b ∉ W) :
    peek m' e b = peek m e b := by
  by_cases hed : e = d
  · subst hed
    exact S.own_stack hm hd hw hW hb (hn rfl)
  · exact S.other_stack hm hd he hed hw hW hb

/-- A common word that is not written is as it was, from wherever it is read. -/
theorem kept_common (hm : S.Good ds m) (hd : d ∈ ds) (he : e ∈ ds) (hw : Wrote d W m m')
    (hW : W ⊆ S.stack ∪ S.common) (ha : a ∈ S.common) (hn : a ∉ W) :
    peek m' e a = peek m e a := by
  have hm' := S.good hm hd hw hW
  calc
    peek m' e a = peek m' d a := S.same ds m' hm' d hd e he a ha
    _ = peek m d a := hw.peek_eq (S.words ds d hd) hW hm (Or.inr ha) hn
    _ = peek m e a := (S.same ds m hm d hd e he a ha).symm

/-- The stack at `sp` has room for a call. -/
structure Room (S : Spaces M) (sp : Word32) : Prop where
  slots : slots sp 1 8 ⊆ S.stack
  high : 32 ≤ sp.toNat

/-- The words of the stack that are not below `sp`. -/
def above (S : Spaces M) (sp : Word32) : Set Word32 := { a | a ∈ S.stack ∧ sp.toNat ≤ a.toNat }

theorem Room.above_slots {sp : Word32} (h : S.Room sp) (ha : a ∈ S.above sp) :
    a ∉ Ia32.slots sp 1 8 := by
  rintro ⟨k, h1, h8, rfl⟩
  have hle := ha.2
  have hhigh := h.high
  rw [slot_toNat (by omega)] at hle
  omega

theorem Room.sub {sp : Word32} (h : S.Room sp) {lo hi : Nat} (hl : 1 ≤ lo) (hh : hi ≤ 8) :
    Ia32.slots sp lo hi ⊆ S.stack := (slots_mono hl hh).trans h.slots

end Spaces

end Ia32
