import Mathlib.Data.List.Basic
import Mathlib.Tactic.Common

/-!
# Circular arrays with free-running counters

An array of `n` slots is written at a counter that only grows, reduced modulo `n` at
each access. Slot `r % n` then holds the last entry whose number is congruent to `r`.
-/

set_option autoImplicit false

namespace Circular

variable {α : Type} {n w r i j : Nat}

/-- The greatest number below `w` that is congruent to `r` modulo `n`, for `r < w`. -/
def latest (n w r : Nat) : Nat := r + n * ((w - 1 - r) / n)

theorem latest_mod (n w r : Nat) : latest n w r % n = r % n := by
  unfold latest
  exact Nat.add_mul_mod_self_left r n _

theorem latest_lt (h : r < w) : latest n w r < w := by
  have := Nat.mul_div_le (w - 1 - r) n
  unfold latest
  omega

theorem lt_latest_add (hn : 0 < n) (w r : Nat) : w ≤ latest n w r + n := by
  have h1 := Nat.div_add_mod (w - 1 - r) n
  have h2 := Nat.mod_lt (w - 1 - r) hn
  unfold latest
  omega

/-- A reader that is not a whole array behind finds the entry of its own number. -/
theorem latest_eq (h : r < w) (hle : w ≤ r + n) : latest n w r = r := by
  have : (w - 1 - r) / n = 0 := Nat.div_eq_of_lt (by omega)
  unfold latest
  rw [this, Nat.mul_zero, Nat.add_zero]

theorem eq_of_slot (hmod : i % n = j % n) (hij : i ≤ j) (hlt : j < i + n) : i = j := by
  have h0 : (j - i) % n = 0 := Nat.sub_mod_eq_zero_of_mod_eq hmod.symm
  have h1 : (j - i) % n = j - i := Nat.mod_eq_of_lt (by omega)
  omega

/-- A reader finds no entry that is older than the next one with its slot. -/
theorem le_latest (hn : 0 < n) (hmod : i % n = r % n) (hi : i < w) : i ≤ latest n w r := by
  by_contra hle
  have hw := lt_latest_add hn w r
  have hm : latest n w r % n = i % n := by rw [latest_mod, hmod]
  have := eq_of_slot hm (by omega) (by omega)
  omega

/-- The last `n` entries are in their slots. -/
def Holds (n : Nat) (buf : Nat → α) (entries : List α) : Prop :=
  ∀ i x, entries[i]? = some x → entries.length ≤ i + n → buf (i % n) = x

theorem holds_nil (buf : Nat → α) : Holds n buf [] := by
  intro i x h
  cases h

theorem Holds.push {buf : Nat → α} {entries : List α} (h : Holds n buf entries) (x : α) :
    Holds n (Function.update buf (entries.length % n) x) (entries ++ [x]) := by
  intro i y hi hle
  rw [List.length_append, List.length_singleton] at hle
  by_cases hlast : i = entries.length
  · subst hlast
    rw [List.getElem?_concat_length] at hi
    cases hi
    exact Function.update_self _ _ _
  · have hlt : i < entries.length := by
      have := (List.getElem?_eq_some_iff.mp hi).1
      rw [List.length_append, List.length_singleton] at this
      omega
    rw [List.getElem?_append_left hlt] at hi
    have hne : i % n ≠ entries.length % n := by
      intro hmod
      have := eq_of_slot hmod (by omega) (by omega)
      omega
    rw [Function.update_of_ne hne]
    exact h i y hi (by omega)

theorem Holds.read {buf : Nat → α} {entries : List α} (hn : 0 < n) (h : Holds n buf entries)
    (hr : r < entries.length) :
    entries[latest n entries.length r]? = some (buf (r % n)) := by
  have hlt := latest_lt (n := n) hr
  have hget := List.getElem?_eq_getElem hlt
  have hbuf := h _ _ hget (lt_latest_add hn _ _)
  rw [hget, ← hbuf, latest_mod]

end Circular
