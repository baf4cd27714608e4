import Mathlib.Data.List.Basic
import Mathlib.Algebra.Group.Nat.Defs

/-!
# Bytes in memory, and C strings

An address space of `2 ^ w` bytes whose addresses wrap around, the lists of bytes it
holds, halfwords in little endian order, and strings that end at the first NUL.
-/

set_option autoImplicit false

namespace Bytes

variable {w : Nat} {mem : BitVec w → UInt8} {a : BitVec w} {l m : List UInt8}

/-- Memory has the bytes of the list from the address on. -/
def Holds (mem : BitVec w → UInt8) : BitVec w → List UInt8 → Prop
  | _, [] => True
  | a, b :: l => mem a = b ∧ Holds mem (a + 1#w) l

instance decidableHolds (mem : BitVec w → UInt8) :
    (a : BitVec w) → (l : List UInt8) → Decidable (Holds mem a l)
  | _, [] => .isTrue trivial
  | a, b :: l => @instDecidableAnd (mem a = b) (Holds mem (a + 1#w) l) _ (decidableHolds mem _ l)

theorem add_one_add (a : BitVec w) (n : Nat) :
    a + 1#w + BitVec.ofNat w n = a + BitVec.ofNat w (n + 1) := by
  rw [BitVec.add_assoc, ← BitVec.ofNat_add, Nat.add_comm 1 n]

theorem holds_append : Holds mem a (l ++ m) ↔
    Holds mem a l ∧ Holds mem (a + BitVec.ofNat w l.length) m := by
  induction l generalizing a with
  | nil => simp [Holds]
  | cons b l ih =>
    simp only [List.cons_append, Holds, ih, List.length_cons, add_one_add, and_assoc]

theorem Holds.take (h : Holds mem a l) (n : Nat) : Holds mem a (l.take n) := by
  rw [← List.take_append_drop n l, holds_append] at h
  exact h.1

theorem Holds.drop (h : Holds mem a l) {n : Nat} (hn : n ≤ l.length) :
    Holds mem (a + BitVec.ofNat w n) (l.drop n) := by
  rw [← List.take_append_drop n l, holds_append, List.length_take, Nat.min_eq_left hn] at h
  exact h.2

/-- `n` bytes from the address on. -/
def read (mem : BitVec w → UInt8) : BitVec w → Nat → List UInt8
  | _, 0 => []
  | a, n + 1 => mem a :: read mem (a + 1#w) n

theorem read_length (mem : BitVec w → UInt8) (n : Nat) :
    ∀ a : BitVec w, (read mem a n).length = n := by
  induction n with
  | zero => exact fun _ => rfl
  | succ n ih => exact fun a => congrArg Nat.succ (ih (a + 1#w))

theorem read_drop_take (mem : BitVec w → UInt8) (a : BitVec w) {p n k : Nat} (h : p + n ≤ k) :
    ((read mem a k).drop p).take n = read mem (a + BitVec.ofNat w p) n := by
  induction k generalizing a p n with
  | zero =>
    obtain ⟨rfl, rfl⟩ : p = 0 ∧ n = 0 := by omega
    rfl
  | succ k ih =>
    cases p with
    | zero =>
      cases n with
      | zero => simp [read]
      | succ n =>
        have hrest := ih (a + 1#w) (p := 0) (n := n) (by omega)
        simpa [read] using hrest
    | succ p =>
      rw [← add_one_add]
      exact ih (a + 1#w) (by omega)

theorem Holds.read_eq (h : Holds mem a l) : read mem a l.length = l := by
  induction l generalizing a with
  | nil => rfl
  | cons b l ih => simp [read, h.1, ih h.2]

/-- A halfword, its low byte first. -/
def read16 (mem : BitVec w → UInt8) (a : BitVec w) : Nat :=
  (mem a).toNat + 256 * (mem (a + 1#w)).toNat

def le16 (n : Nat) : List UInt8 := [UInt8.ofNat (n % 256), UInt8.ofNat (n / 256 % 256)]

theorem Holds.read16_eq {n : Nat} (h : Holds mem a (le16 n)) (hn : n < 65536) :
    read16 mem a = n := by
  obtain ⟨h0, h1, -⟩ := h
  simp only [read16, h0, h1, UInt8.toNat_ofNat']
  omega

/-- The characters of a C string are the bytes other than NUL. -/
abbrev CChar := { b : UInt8 // b ≠ 0 }
abbrev CString := List CChar

def strcmp : CString → CString → Int
  | [], [] => 0
  | [], b :: _ => 0 - b.val.toNat
  | a :: _, [] => a.val.toNat
  | a :: s, b :: t => if a = b then strcmp s t else a.val.toNat - b.val.toNat

theorem strcmp_eq_zero {s t : CString} : strcmp s t = 0 ↔ s = t := by
  induction s generalizing t with
  | nil =>
    cases t with
    | nil => simp [strcmp]
    | cons b t =>
      have hb : b.val.toNat ≠ 0 := fun h => b.property (UInt8.toNat_inj.mp h)
      simp only [strcmp, reduceCtorEq, iff_false]
      omega
  | cons a s ih =>
    cases t with
    | nil =>
      have ha : a.val.toNat ≠ 0 := fun h => a.property (UInt8.toNat_inj.mp h)
      simp only [strcmp, reduceCtorEq, iff_false]
      omega
    | cons b t =>
      by_cases hab : a = b
      · simp [strcmp, hab, ih]
      · have hne : a.val.toNat ≠ b.val.toNat := by
          intro h
          exact hab (Subtype.ext (UInt8.toNat_inj.mp h))
        rw [strcmp, if_neg hab]
        constructor
        · omega
        · intro h
          exact absurd (List.cons.inj h).1 hab

theorem strcmp_swap (s t : CString) : strcmp t s = - strcmp s t := by
  induction s generalizing t with
  | nil =>
    cases t with
    | nil => rfl
    | cons b t => simp [strcmp]
  | cons a s ih =>
    cases t with
    | nil => simp [strcmp]
    | cons b t =>
      by_cases hab : a = b
      · simp [strcmp, hab, ih]
      · rw [strcmp, strcmp, if_neg hab, if_neg (Ne.symm hab)]
        omega

def terminated (s : CString) : List UInt8 := s.map Subtype.val ++ [0]

/-- The string at the address, if its NUL is among the next `n` bytes. -/
def readStr (mem : BitVec w → UInt8) : BitVec w → Nat → Option CString
  | _, 0 => none
  | a, n + 1 =>
    if h : mem a = 0 then some []
    else (readStr mem (a + 1#w) n).map (⟨mem a, h⟩ :: ·)

theorem Holds.readStr_eq {s : CString} (h : Holds mem a (terminated s)) {n : Nat}
    (hn : s.length < n) : readStr mem a n = some s := by
  induction s generalizing a n with
  | nil =>
    obtain ⟨n, rfl⟩ : ∃ k, n = k + 1 := ⟨n - 1, by simp at hn; omega⟩
    simp [readStr, h.1]
  | cons c s ih =>
    obtain ⟨n, rfl⟩ : ∃ k, n = k + 1 := ⟨n - 1, by simp at hn; omega⟩
    have hc : mem a ≠ 0 := by
      rw [h.1]
      exact c.property
    have hs := ih h.2 (by simpa using hn)
    simp only [readStr, dif_neg hc, hs, Option.map_some]
    congr 2
    exact Subtype.ext h.1

theorem readStr_some {s : CString} {n : Nat} (h : readStr mem a n = some s) :
    s.length < n ∧ mem (a + BitVec.ofNat w s.length) = 0 ∧
      ∀ i < s.length, mem (a + BitVec.ofNat w i) ≠ 0 := by
  induction n generalizing a s with
  | zero => cases h
  | succ n ih =>
    rw [readStr] at h
    by_cases hc : mem a = 0
    · rw [dif_pos hc] at h
      cases h
      refine ⟨Nat.succ_pos n, ?_, fun i hi => absurd hi (Nat.not_lt_zero i)⟩
      simpa using hc
    · rw [dif_neg hc, Option.map_eq_some_iff] at h
      obtain ⟨t, ht, rfl⟩ := h
      obtain ⟨hlt, hend, hchars⟩ := ih ht
      have hnext : ∀ i, a + BitVec.ofNat w (i + 1) = a + 1#w + BitVec.ofNat w i := by
        intro i
        rw [Nat.add_comm, BitVec.ofNat_add, ← BitVec.add_assoc]
      refine ⟨Nat.succ_lt_succ hlt, ?_, ?_⟩
      · rw [List.length_cons, hnext]
        exact hend
      · intro i hi
        cases i with
        | zero => simpa using hc
        | succ i =>
          rw [hnext]
          exact hchars i (Nat.lt_of_succ_lt_succ hi)

theorem readStr_of_nul {i n : Nat} (hi : i < n) (h : mem (a + BitVec.ofNat w i) = 0) :
    ∃ s, readStr mem a n = some s := by
  induction n generalizing a i with
  | zero => omega
  | succ n ih =>
    rw [readStr]
    by_cases hc : mem a = 0
    · rw [dif_pos hc]
      exact ⟨[], rfl⟩
    · rw [dif_neg hc]
      cases i with
      | zero => exact absurd (by simpa using h) hc
      | succ i =>
        rw [← add_one_add] at h
        obtain ⟨s, hs⟩ := ih (by omega) h
        exact ⟨_, by rw [hs]; rfl⟩

theorem readStr_of_lt {s : CString} {m n : Nat} (h : readStr mem a m = some s)
    (hn : s.length < n) : readStr mem a n = some s := by
  induction m generalizing a s n with
  | zero => cases h
  | succ m ih =>
    obtain ⟨n, rfl⟩ : ∃ k, n = k + 1 := ⟨n - 1, by omega⟩
    rw [readStr] at h ⊢
    by_cases hc : mem a = 0
    · rw [dif_pos hc] at h ⊢
      exact h
    · rw [dif_neg hc, Option.map_eq_some_iff] at h
      obtain ⟨t, ht, rfl⟩ := h
      rw [dif_neg hc, ih ht (Nat.lt_of_succ_lt_succ hn)]
      rfl

/-- The number of bytes that a comparison with the string reads: up to the first one that
differs, or to the end. -/
def compared (mem : BitVec w → UInt8) : BitVec w → CString → Nat
  | _, [] => 1
  | a, c :: s => if mem a = c.val then compared mem (a + 1#w) s + 1 else 1

theorem compared_le {s t : CString} {n : Nat} (h : readStr mem a n = some t) :
    compared mem a s ≤ t.length + 1 := by
  induction s generalizing a t n with
  | nil => exact Nat.succ_le_succ (Nat.zero_le _)
  | cons c s ih =>
    rw [compared]
    split
    · rename_i hc
      cases n with
      | zero => cases h
      | succ n =>
        have hne : mem a ≠ 0 := by
          rw [hc]
          exact c.property
        rw [readStr, dif_neg hne, Option.map_eq_some_iff] at h
        obtain ⟨u, hu, rfl⟩ := h
        exact Nat.succ_le_succ (ih hu)
    · exact Nat.succ_le_succ (Nat.zero_le _)

theorem compared_eq {s : CString} {n : Nat} (h : readStr mem a n = some s) :
    compared mem a s = s.length + 1 := by
  induction s generalizing a n with
  | nil => rfl
  | cons c s ih =>
    cases n with
    | zero => cases h
    | succ n =>
      rw [readStr] at h
      split at h
      · cases h
      · obtain ⟨u, hu, heq⟩ := Option.map_eq_some_iff.mp h
        injection heq with hc hs
        subst hs
        rw [compared, if_pos (congrArg Subtype.val hc), ih hu]
        rfl

theorem Holds.readStr_ne {s t : CString} (h : Holds mem a (terminated s)) (hne : s ≠ t) {n : Nat} :
    readStr mem a n ≠ some t := by
  induction s generalizing a n t with
  | nil =>
    cases n with
    | zero => simp [readStr]
    | succ n => simpa [readStr, h.1] using hne
  | cons c s ih =>
    cases n with
    | zero => simp [readStr]
    | succ n =>
      have hc : mem a ≠ 0 := by
        rw [h.1]
        exact c.property
      intro hr
      simp only [readStr, dif_neg hc, Option.map_eq_some_iff] at hr
      obtain ⟨u, hu, rfl⟩ := hr
      refine ih h.2 ?_ hu
      rintro rfl
      apply hne
      congr 1
      exact Subtype.ext h.1.symm

end Bytes
