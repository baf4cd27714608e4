import AkKernel.Foundation.Programs
import Mathlib.Logic.Function.Basic

/-!
# Copying in blocks

A range of numbers cut into blocks, a program that runs once for each of them, and a memory of
which some locations have been written.
-/

set_option autoImplicit false

namespace BlockCopy

open Programs

/-- The blocks, given by their starts and lengths, cut the numbers from `a` up to `b`. -/
inductive Tiles (b : Nat) : Nat → List (Nat × Nat) → Prop where
  | nil : Tiles b b []
  | cons {a n : Nat} {l : List (Nat × Nat)} : 0 < n → Tiles b (a + n) l → Tiles b a ((a, n) :: l)

section Blocks
variable {ε σ : Type} {a b : Nat} {l : List (Nat × Nat)} {I : Nat → σ → Prop} {s : σ}
  {body : Nat × Nat → Prog ε σ Unit}

theorem Tiles.le (h : Tiles b a l) : a ≤ b := by
  induction h with
  | nil => exact Nat.le_refl _
  | cons _ _ ih => exact Nat.le_of_add_right_le ih

theorem Tiles.mem_le (h : Tiles b a l) {p : Nat × Nat} (hp : p ∈ l) :
    a ≤ p.1 ∧ 0 < p.2 ∧ p.1 + p.2 ≤ b := by
  induction h with
  | nil => cases hp
  | cons hn hl ih =>
    rcases List.mem_cons.mp hp with rfl | hp
    · exact ⟨Nat.le_refl _, hn, hl.le⟩
    · have := ih hp
      omega

/-- What every block takes from its start to its end holds at the end of the range. -/
theorem Tiles.forM_ends (h : Tiles b a l) (h0 : I a s)
    (hs : ∀ p ∈ l, ∀ t, I p.1 t → ∃ u, body p t = .ok ((), u) ∧ I (p.1 + p.2) u) :
    ∃ u, l.forM body s = .ok ((), u) ∧ I b u := by
  induction h generalizing s with
  | nil => exact ⟨s, rfl, h0⟩
  | cons _ _ ih =>
    obtain ⟨t, hrun, ht⟩ := hs _ List.mem_cons_self s h0
    obtain ⟨u, hrest, hu⟩ := ih ht fun p hp => hs p (List.mem_cons_of_mem _ hp)
    exact ⟨u, (bind_run hrun).trans hrest, hu⟩

end Blocks

/-- The locations `loc 0` to `loc (n - 1)` hold what `f` says, all others what they held. -/
structure StoredAt {ι β : Type} (loc : Nat → ι) (f : Nat → β) (n : Nat) (m m' : ι → β) : Prop where
  inside : ∀ i < n, m' (loc i) = f i
  outside : ∀ p, (∀ i < n, loc i ≠ p) → m' p = m p

section Stores
variable {ι β : Type} {loc : Nat → ι} {f : Nat → β} {n : Nat} {m m' m'' : ι → β}

theorem StoredAt.refl (loc : Nat → ι) (f : Nat → β) (m : ι → β) : StoredAt loc f 0 m m :=
  ⟨nofun, fun _ _ => rfl⟩

theorem StoredAt.snoc [DecidableEq ι] (h : StoredAt loc f n m m') (hnew : ∀ i < n, loc i ≠ loc n)
    (hm : m'' = Function.update m' (loc n) (f n)) : StoredAt loc f (n + 1) m m'' := by
  refine ⟨?_, ?_⟩
  · intro i hi
    rw [hm]
    by_cases hin : i = n
    · rw [hin, Function.update_self]
    · have hlt : i < n := by omega
      rw [Function.update_of_ne (hnew i hlt)]
      exact h.inside i hlt
  · intro p hp
    rw [hm, Function.update_of_ne (hp n (Nat.lt_succ_self n)).symm]
    exact h.outside p fun i hi => hp i (by omega)

end Stores

end BlockCopy
