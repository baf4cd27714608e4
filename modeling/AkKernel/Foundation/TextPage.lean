import Mathlib.Data.List.Induction

/-!
# Text on a page without end

Characters are placed from left to right on the rows of a page of some width. A row ends
behind its last column and behind a newline; what has not been written is blank.
-/

set_option autoImplicit false

namespace TextPage

universe u
variable {α : Type u}

/-- The cells of the rows, and the column and row where the next character goes. -/
structure Page (α : Type u) where
  cell : Nat → Nat → α
  x : Nat
  y : Nat

variable [DecidableEq α] (width : Nat) (blank newline : α)

def Page.put (p : Page α) (c : α) : Page α :=
  if c = newline then { p with x := 0, y := p.y + 1 }
  else
    let cell := fun r q => if r = p.y ∧ q = p.x then c else p.cell r q
    if p.x + 1 < width then { cell := cell, x := p.x + 1, y := p.y }
    else { cell := cell, x := 0, y := p.y + 1 }

/-- The page that a text is laid out on. -/
def layout (text : List α) : Page α :=
  text.foldl (Page.put width newline) { cell := fun _ _ => blank, x := 0, y := 0 }

/-- Nothing is written at or behind the cursor, which is inside a row. -/
structure Page.Fresh (p : Page α) : Prop where
  x_lt : p.x < width
  row : ∀ q, p.x ≤ q → p.cell p.y q = blank
  below : ∀ r q, p.y < r → p.cell r q = blank

variable {width blank newline} {p : Page α}

theorem Page.Fresh.put (h : p.Fresh width blank) (c : α) :
    (p.put width newline c).Fresh width blank := by
  have hpos : 0 < width := Nat.lt_of_le_of_lt (Nat.zero_le _) h.x_lt
  unfold Page.put
  split
  · refine ⟨hpos, fun q _ => h.below _ q (Nat.lt_succ_self _), fun r q hr => h.below r q ?_⟩
    exact Nat.lt_of_succ_lt hr
  · have hrow : ∀ r q, p.y < r → (if r = p.y ∧ q = p.x then c else p.cell r q) = blank := by
      intro r q hr
      rw [if_neg fun he => Nat.ne_of_gt hr he.1]
      exact h.below r q hr
    dsimp only
    split
    · rename_i hx
      refine ⟨hx, ?_, hrow⟩
      intro q hq
      change (if p.y = p.y ∧ q = p.x then c else p.cell p.y q) = blank
      rw [if_neg fun he => Nat.ne_of_gt hq he.2]
      exact h.row q (Nat.le_of_succ_le hq)
    · refine ⟨hpos, fun q _ => hrow _ q (Nat.lt_succ_self _), fun r q hr => hrow r q ?_⟩
      exact Nat.lt_of_succ_lt hr

theorem layout_fresh (hw : 0 < width) (text : List α) :
    (layout width blank newline text).Fresh width blank := by
  induction text using List.reverseRecOn with
  | nil => exact ⟨hw, fun _ _ => rfl, fun _ _ _ => rfl⟩
  | append_singleton text c ih =>
    rw [layout, List.foldl_append]
    exact ih.put c

end TextPage
