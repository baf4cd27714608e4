import Mathlib.Data.Finset.Card
import Mathlib.Order.Bounds.Basic
import Mathlib.Tactic.Common

/-!
# Bitmaps

A list of words read as a set of numbers: bit `j` of word `i` stands for `i * w + j`.
-/

set_option autoImplicit false

namespace Bitmap

variable {w : Nat}

/-- The lowest clear bit of a word. -/
def firstClear (x : BitVec w) : Option Nat :=
  (List.range w).find? fun j => x &&& (1#w <<< j) = 0#w

theorem and_one_shiftLeft_eq_zero {x : BitVec w} {j : Nat} (hj : j < w) :
    x &&& (1#w <<< j) = 0#w ↔ x.getLsbD j = false := by
  constructor
  · intro h
    have h1 := congrArg (fun y => y.getLsbD j) h
    simpa [hj] using h1
  · intro h
    apply BitVec.eq_of_getLsbD_eq
    intro i hi
    rw [BitVec.getLsbD_and, BitVec.getLsbD_shiftLeft, BitVec.getLsbD_one, BitVec.getLsbD_zero]
    by_cases hij : i = j
    · subst hij
      simp [h]
    · by_cases hlt : i < j
      · simp [hlt]
      · have hne : i - j ≠ 0 := by omega
        simp [hne]

theorem firstClear_eq_some {x : BitVec w} {j : Nat} (h : firstClear x = some j) :
    j < w ∧ x.getLsbD j = false := by
  have hj := List.mem_range.mp (List.mem_of_find?_eq_some h)
  have hx := List.find?_some h
  rw [decide_eq_true_eq] at hx
  exact ⟨hj, (and_one_shiftLeft_eq_zero hj).mp hx⟩

theorem firstClear_ne_none {x : BitVec w} {j : Nat} (hj : j < w) (h : x.getLsbD j = false) :
    firstClear x ≠ none := by
  intro hn
  have := List.find?_eq_none.mp hn j (List.mem_range.mpr hj)
  rw [decide_eq_true_eq] at this
  exact this ((and_one_shiftLeft_eq_zero hj).mpr h)

theorem firstClear_below {x : BitVec w} {j k : Nat} (h : firstClear x = some j) (hk : k < j) :
    x.getLsbD k = true := by
  obtain ⟨-, hmem, hbelow⟩ := List.find?_range_eq_some.mp h
  have hkw : k < w := Nat.lt_trans hk (List.mem_range.mp hmem)
  have hset := hbelow k hk
  rw [Bool.not_eq_true', decide_eq_false_iff_not, and_one_shiftLeft_eq_zero hkw] at hset
  simpa using hset

/-- Whether the number `n` is in the bitmap; what the words do not cover is. -/
def test (words : List (BitVec w)) (n : Nat) : Bool :=
  match words[n / w]? with
  | some x => x.getLsbD (n % w)
  | none => true

/-- The numbers that are not in the bitmap. -/
def clear (words : List (BitVec w)) : Finset Nat :=
  (Finset.range (words.length * w)).filter fun n => test words n = false

def setBit (words : List (BitVec w)) (n : Nat) : List (BitVec w) :=
  words.set (n / w) ((words[n / w]?).getD 0#w ||| (1#w <<< (n % w)))

def clearBit (words : List (BitVec w)) (n : Nat) : List (BitVec w) :=
  words.set (n / w) ((words[n / w]?).getD 0#w &&& ~~~ (1#w <<< (n % w)))

theorem mem_clear {words : List (BitVec w)} {n : Nat} :
    n ∈ clear words ↔ n < words.length * w ∧ test words n = false := by
  rw [clear, Finset.mem_filter, Finset.mem_range]

theorem width_pos {words : List (BitVec w)} {n : Nat} (hn : n < words.length * w) : 0 < w := by
  rcases Nat.eq_zero_or_pos w with h | h
  · subst h
    simp at hn
  · exact h

theorem word_lt {words : List (BitVec w)} {n : Nat} (hn : n < words.length * w) :
    n / w < words.length :=
  Nat.div_lt_of_lt_mul (by rw [Nat.mul_comm]; exact hn)

theorem bit_lt {words : List (BitVec w)} {i j : Nat} (hi : i < words.length) (hj : j < w) :
    i * w + j < words.length * w := by
  have : (i + 1) * w ≤ words.length * w := Nat.mul_le_mul_right w hi
  rw [Nat.add_mul, Nat.one_mul] at this
  omega

theorem bit_div {i j : Nat} (hj : j < w) : (i * w + j) / w = i := by
  rw [Nat.mul_comm, Nat.mul_add_div (by omega), Nat.div_eq_of_lt hj, Nat.add_zero]

theorem bit_mod {i j : Nat} (hj : j < w) : (i * w + j) % w = j := by
  rw [Nat.mul_comm, Nat.mul_add_mod, Nat.mod_eq_of_lt hj]

theorem test_set {words : List (BitVec w)} {n : Nat} (hn : n < words.length * w) (x : BitVec w)
    (m : Nat) : test (words.set (n / w) x) m =
      if m / w = n / w then x.getLsbD (m % w) else test words m := by
  unfold test
  rw [List.getElem?_set]
  by_cases hd : m / w = n / w
  · rw [if_pos hd.symm, if_pos hd, if_pos (word_lt hn)]
  · rw [if_neg (Ne.symm hd), if_neg hd]

theorem test_word {words : List (BitVec w)} {n m : Nat} (hn : n < words.length * w)
    (hd : m / w = n / w) : test words m = ((words[n / w]?).getD 0#w).getLsbD (m % w) := by
  rw [test, hd, List.getElem?_eq_getElem (word_lt hn), Option.getD_some]

theorem getLsbD_one_shift {i j : Nat} (hj : j < w) : (1#w <<< i).getLsbD j = decide (j = i) := by
  rw [BitVec.getLsbD_shiftLeft, BitVec.getLsbD_one, decide_eq_true hj, Bool.true_and]
  by_cases hlt : j < i
  · have hne : j ≠ i := by omega
    simp [hlt, hne]
  · have hw : 0 < w := by omega
    have hiff : j - i = 0 ↔ j = i := by omega
    simp [hlt, hw, hiff]

/-- Bits of one word are different where the numbers are. -/
theorem mod_eq_iff {n m : Nat} (hd : m / w = n / w) : m % w = n % w ↔ m = n := by
  constructor
  · intro h
    rw [← Nat.div_add_mod m w, ← Nat.div_add_mod n w, hd, h]
  · intro h
    rw [h]

theorem test_setBit {words : List (BitVec w)} {n m : Nat} (hn : n < words.length * w) :
    test (setBit words n) m = (decide (m = n) || test words m) := by
  have hmw : m % w < w := Nat.mod_lt m (width_pos hn)
  rw [setBit, test_set hn]
  by_cases hd : m / w = n / w
  · rw [if_pos hd, BitVec.getLsbD_or, getLsbD_one_shift hmw, Bool.or_comm]
    simp only [mod_eq_iff hd, test_word hn hd]
  · have hm : m ≠ n := fun h => hd (by rw [h])
    rw [if_neg hd]
    simp [hm]

theorem test_clearBit {words : List (BitVec w)} {n m : Nat} (hn : n < words.length * w) :
    test (clearBit words n) m = (!decide (m = n) && test words m) := by
  have hmw : m % w < w := Nat.mod_lt m (width_pos hn)
  rw [clearBit, test_set hn]
  by_cases hd : m / w = n / w
  · rw [if_pos hd, BitVec.getLsbD_and, BitVec.getLsbD_not, getLsbD_one_shift hmw, Bool.and_comm,
      decide_eq_true hmw, Bool.true_and]
    simp only [mod_eq_iff hd, test_word hn hd]
  · have hm : m ≠ n := fun h => hd (by rw [h])
    rw [if_neg hd]
    simp [hm]

/-- What a write behind the words leaves of them. -/
theorem setBit_of_le {words : List (BitVec w)} {n : Nat} (hw : 0 < w) (hn : words.length * w ≤ n) :
    setBit words n = words :=
  List.set_eq_of_length_le ((Nat.le_div_iff_mul_le hw).mpr hn)

theorem clearBit_of_le {words : List (BitVec w)} {n : Nat} (hw : 0 < w)
    (hn : words.length * w ≤ n) : clearBit words n = words :=
  List.set_eq_of_length_le ((Nat.le_div_iff_mul_le hw).mpr hn)

theorem eq_of_test {a b : List (BitVec w)} (hlen : a.length = b.length)
    (h : ∀ n < a.length * w, test a n = test b n) : a = b := by
  apply List.ext_getElem hlen
  intro i ha hb
  apply BitVec.eq_of_getLsbD_eq
  intro j hj
  have ht := h (i * w + j) (bit_lt ha hj)
  rw [test, test, bit_div hj, bit_mod hj, List.getElem?_eq_getElem ha, List.getElem?_eq_getElem hb] at ht
  exact ht

theorem clear_setBit {words : List (BitVec w)} {n : Nat} (hn : n < words.length * w) :
    clear (setBit words n) = (clear words).erase n := by
  ext m
  have hlen : (setBit words n).length = words.length := List.length_set
  rw [Finset.mem_erase, mem_clear, mem_clear, hlen, test_setBit hn, Bool.or_eq_false_iff,
    decide_eq_false_iff_not]
  constructor
  · intro h
    exact ⟨h.2.1, h.1, h.2.2⟩
  · intro h
    exact ⟨h.2.1, h.1, h.2.2⟩

/-- A word with its clear bit gives a number that is not in the bitmap. -/
theorem mem_clear_of_word {words : List (BitVec w)} {i j : Nat} {x : BitVec w}
    (hx : words[i]? = some x) (hj : j < w) (hb : x.getLsbD j = false) :
    i * w + j ∈ clear words := by
  have hi : i < words.length := by
    by_contra h
    rw [List.getElem?_eq_none (Nat.not_lt.mp h)] at hx
    cases hx
  rw [mem_clear, test, bit_div hj, bit_mod hj, hx]
  exact ⟨bit_lt hi hj, hb⟩

theorem exists_word {words : List (BitVec w)} {n : Nat} (hn : n ∈ clear words) :
    ∃ x, words[n / w]? = some x ∧ x.getLsbD (n % w) = false := by
  obtain ⟨hlt, htest⟩ := mem_clear.mp hn
  have hi := word_lt hlt
  have hx : words[n / w]? = some words[n / w] := List.getElem?_eq_getElem hi
  rw [test, hx] at htest
  exact ⟨_, hx, htest⟩

/-- The numbers that are not in the bitmap, from word `i` on. -/
def clearFrom (words : List (BitVec w)) (i : Nat) : Set Nat := {n | n ∈ clear words ∧ i * w ≤ n}

/-- The lowest clear bit of a word gives the least of them. -/
theorem clearFrom_least {words : List (BitVec w)} {i j : Nat} {x : BitVec w}
    (hx : words[i]? = some x) (hj : firstClear x = some j) :
    IsLeast (clearFrom words i) (i * w + j) := by
  obtain ⟨hlt, hb⟩ := firstClear_eq_some hj
  refine ⟨⟨mem_clear_of_word hx hlt hb, Nat.le_add_right _ _⟩, ?_⟩
  rintro n ⟨hn, hle⟩
  by_contra hbelow
  obtain ⟨y, hy, hbit⟩ := exists_word hn
  have hdiv : n / w = i := Nat.div_eq_of_lt_le hle (by
    rw [Nat.add_mul, Nat.one_mul]
    omega)
  have hmod := Nat.div_add_mod n w
  rw [hdiv, Nat.mul_comm] at hmod
  rw [hdiv, hx] at hy
  cases hy
  rw [firstClear_below hj (by omega)] at hbit
  cases hbit

theorem clearFrom_succ {words : List (BitVec w)} {i : Nat} {x : BitVec w}
    (hx : words[i]? = some x) (hfull : firstClear x = none) :
    clearFrom words i = clearFrom words (i + 1) := by
  ext n
  constructor
  · rintro ⟨hn, hle⟩
    refine ⟨hn, ?_⟩
    obtain ⟨y, hy, hbit⟩ := exists_word hn
    have hw := width_pos (mem_clear.mp hn).1
    by_contra hlt
    have hdiv : n / w = i := Nat.div_eq_of_lt_le hle (Nat.not_le.mp hlt)
    rw [hdiv, hx] at hy
    cases hy
    exact firstClear_ne_none (Nat.mod_lt n hw) hbit hfull
  · rintro ⟨hn, hle⟩
    rw [Nat.add_mul, Nat.one_mul] at hle
    exact ⟨hn, by omega⟩

end Bitmap
