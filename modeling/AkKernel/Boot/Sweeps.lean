import AkKernel.Boot.Multiboot

/-!
# Sweeps over the frame bitmap

The calls of `frame_clear_range` and `frame_set_range` that boot makes, in order: which
frames each reaches, when it ends, and which frames are free after all of them.
-/

set_option autoImplicit false

namespace AkKernel

namespace FrameBitmap

variable {b b' : FrameBitmap} {u : Bool} {n m : Nat}

theorem covered_eq (b : FrameBitmap) : b.covered = b.frameCount / 32 * 32 := by
  rw [covered, b.length_eq]

theorem frameCount_put : (b.put u n).frameCount = b.frameCount := by
  cases u <;> rfl

theorem used_put (hm : m < b.covered) :
    (b.put u n).used m = if m = n then u else b.used m := by
  by_cases hn : n < b.words.length * 32
  · cases u with
    | false =>
      have h : (b.put false n).used m = (!decide (m = n) && b.used m) := Bitmap.test_clearBit hn
      rw [h]
      by_cases he : m = n <;> simp [he]
    | true =>
      have h : (b.put true n).used m = (decide (m = n) || b.used m) := Bitmap.test_setBit hn
      rw [h]
      by_cases he : m = n <;> simp [he]
  · have hne : m ≠ n := fun he => hn (he ▸ hm)
    have hle := Nat.not_lt.mp hn
    rw [if_neg hne]
    cases u with
    | false => exact congrArg (Bitmap.test · m) (Bitmap.clearBit_of_le (by decide) hle)
    | true => exact congrArg (Bitmap.test · m) (Bitmap.setBit_of_le (by decide) hle)

theorem eq_of_used (hcount : b.frameCount = b'.frameCount)
    (h : ∀ n < b.covered, b.used n = b'.used n) : b = b' := by
  obtain ⟨words, count, hlen, hle⟩ := b
  obtain ⟨words', count', hlen', hle'⟩ := b'
  cases hcount
  have hw : words = words' := Bitmap.eq_of_test (hlen.trans hlen'.symm) h
  cases hw
  rfl

theorem mem_free : n ∈ b.free ↔ n < b.covered ∧ b.used n = false := Bitmap.mem_clear

end FrameBitmap

namespace Boot

/-- The frames that the bitmap has a bit for. -/
def covered (s : Boot) : Nat :=
  match s.frames with
  | some b => b.covered
  | none => 0

def used (s : Boot) (n : Nat) : Bool :=
  match s.frames with
  | some b => b.used n
  | none => true

def count (s : Boot) : Option Nat := s.frames.map FrameBitmap.frameCount

/-- A call of `frame_clear_range`, or of `frame_set_range` where `reserve` is set. -/
structure Sweep where
  first : Word
  last : Word
  reserve : Bool
deriving DecidableEq

namespace Sweep

def run (w : Sweep) (s : Boot) : Option Boot :=
  if w.reserve then frameSetRange w.first w.last s else frameClearRange w.first w.last s

def limit (w : Sweep) : Nat := (w.last + pageSize).toNat

/-- The loop comes by frame `n`. -/
def Reaches (w : Sweep) (n : Nat) : Prop :=
  frameNo w.first ≤ n ∧ n * 4096 + w.first.toNat % 4096 < w.limit

/-- The loop comes to an address that is not below its limit. -/
def Ends (w : Sweep) : Prop := w.limit ≤ 0xFFFFF000 + w.first.toNat % 4096

instance (w : Sweep) (n : Nat) : Decidable (w.Reaches n) :=
  inferInstanceAs (Decidable (_ ∧ _))

instance (w : Sweep) : Decidable w.Ends := inferInstanceAs (Decidable (_ ≤ _))

end Sweep

section Loop
variable {u : Bool} {limit i : Word} {fuel : Nat} {s s' : Boot} {m : Nat}

theorem covered_of_count (h : s'.count = s.count) : s'.covered = s.covered := by
  unfold count at h
  unfold covered
  cases hf : s.frames with
  | none =>
    rw [hf] at h
    rw [Option.map_eq_none_iff.mp h]
  | some b =>
    rw [hf] at h
    obtain ⟨b', hb', hcount⟩ := Option.map_eq_some_iff.mp h
    rw [hb']
    dsimp only
    rw [FrameBitmap.covered_eq, FrameBitmap.covered_eq, hcount]

theorem framePut_count : (framePut u i s).count = s.count := by
  cases hf : s.frames with
  | none => simp [framePut, count, hf]
  | some b => simp [framePut, count, hf, FrameBitmap.frameCount_put]

theorem framePut_used (hm : m < s.covered) :
    (framePut u i s).used m = if m = frameNo i then u else s.used m := by
  unfold covered at hm
  unfold used framePut
  cases hf : s.frames with
  | none =>
    rw [hf] at hm
    exact absurd hm (Nat.not_lt_zero m)
  | some b =>
    rw [hf] at hm
    exact FrameBitmap.used_put hm

theorem frameLoop_congr {t : Boot} (h : s.frames = t.frames) :
    (frameLoop (framePut u) limit fuel i s).map frames =
      (frameLoop (framePut u) limit fuel i t).map frames := by
  induction fuel generalizing i s t with
  | zero => rfl
  | succ fuel ih =>
    rw [frameLoop, frameLoop]
    split
    · apply ih
      rw [framePut, framePut, h]
    · rw [Option.map_some, Option.map_some, h]

/-- The frames from that of `i` on whose address, as far into the frame as `i` is, lies
below the limit. -/
theorem frameLoop_ends (hends : limit.toNat ≤ 0xFFFFF000 + i.toNat % 4096)
    (hfuel : 2 ^ 20 < fuel + frameNo i) :
    ∃ s', frameLoop (framePut u) limit fuel i s = some s' ∧ s'.count = s.count ∧
      ∀ m < s.covered, s'.used m =
        if frameNo i ≤ m ∧ m * 4096 + i.toNat % 4096 < limit.toNat then u else s.used m := by
  induction fuel generalizing i s with
  | zero =>
    have := frameNo_lt i
    omega
  | succ fuel ih =>
    unfold frameLoop
    by_cases hlt : i < limit
    · rw [if_pos hlt]
      have hi : i.toNat < limit.toNat := hlt
      have hnext : (i + pageSize).toNat = i.toNat + 4096 := by
        rw [BitVec.toNat_add]
        change (i.toNat + 4096) % 2 ^ 32 = _
        omega
      have hno : frameNo (i + pageSize) = frameNo i + 1 := by
        unfold frameNo
        omega
      have hmod : (i + pageSize).toNat % 4096 = i.toNat % 4096 := by omega
      obtain ⟨s', hs', hcount, hused⟩ :=
        ih (s := framePut u i s) (i := i + pageSize) (by omega) (by omega)
      refine ⟨s', hs', hcount.trans framePut_count, ?_⟩
      intro m hm
      rw [hused m (by rw [covered_of_count framePut_count]; exact hm), framePut_used hm, hno, hmod]
      have hhere : frameNo i * 4096 + i.toNat % 4096 = i.toNat := by
        unfold frameNo
        omega
      by_cases he : m = frameNo i
      · subst he
        rw [if_neg (by omega), if_pos rfl, if_pos ⟨Nat.le_refl _, by omega⟩]
      · rw [if_neg he]
        by_cases hr : frameNo i + 1 ≤ m ∧ m * 4096 + i.toNat % 4096 < limit.toNat
        · rw [if_pos hr, if_pos ⟨by omega, hr.2⟩]
        · rw [if_neg hr, if_neg (by omega)]
    · rw [if_neg hlt]
      have hi : limit.toNat ≤ i.toNat := Nat.not_lt.mp hlt
      refine ⟨s, rfl, rfl, ?_⟩
      intro m hm
      have hhere : frameNo i * 4096 + i.toNat % 4096 = i.toNat := by
        unfold frameNo
        omega
      rw [if_neg (by omega)]

/-- Past the last frame the address starts over, below the limit once more. -/
theorem frameLoop_runs (hends : 0xFFFFF000 + i.toNat % 4096 < limit.toNat) :
    frameLoop (framePut u) limit fuel i s = none := by
  induction fuel generalizing i s with
  | zero => rfl
  | succ fuel ih =>
    have hlim := limit.isLt
    have hi := i.isLt
    have hmod : (i + pageSize).toNat % 4096 = i.toNat % 4096 := by
      rw [BitVec.toNat_add]
      change (i.toNat + 4096) % 2 ^ 32 % 4096 = _
      omega
    have hlt : i < limit := by
      change i.toNat < limit.toNat
      omega
    rw [frameLoop, if_pos hlt]
    exact ih (by omega)

end Loop

section Run
variable {w : Sweep} {ws : List Sweep} {s s' : Boot} {n : Nat}

theorem Sweep.run_eq (w : Sweep) (s : Boot) :
    w.run s = frameLoop (framePut w.reserve) (w.last + pageSize) (2 ^ 20 + 1) w.first s := by
  unfold run
  cases w.reserve with
  | false => rw [if_neg (by decide), frameClearRange, frameClear]
  | true => rw [if_pos rfl, frameSetRange, frameSet]

/-- What one sweep does: the frames that it reaches get its mark, if it ends. -/
theorem Sweep.run_ends (h : w.Ends) : ∃ s', w.run s = some s' ∧ s'.count = s.count ∧
    ∀ n < s.covered, s'.used n = if w.Reaches n then w.reserve else s.used n := by
  rw [run_eq]
  have hfuel : 2 ^ 20 < 2 ^ 20 + 1 + frameNo w.first := by omega
  obtain ⟨s', hs', hcount, hused⟩ := frameLoop_ends (u := w.reserve) (s := s) h hfuel
  refine ⟨s', hs', hcount, ?_⟩
  intro n hn
  exact hused n hn

theorem Sweep.run_none (h : ¬ w.Ends) : w.run s = none := by
  rw [run_eq]
  exact frameLoop_runs (Nat.not_le.mp h)

theorem Sweep.run_isSome : (w.run s).isSome ↔ w.Ends := by
  by_cases h : w.Ends
  · obtain ⟨s', hs', -⟩ := Sweep.run_ends (s := s) h
    simp [hs', h]
  · simp [Sweep.run_none h, h]

def sweepAll : List Sweep → Boot → Option Boot
  | [], s => some s
  | w :: ws, s => (w.run s).bind (sweepAll ws)

/-- A sweep that clears reaches frame `n`, and none that comes after it reserves `n`. -/
def Exposed : List Sweep → Nat → Prop
  | [], _ => False
  | w :: ws, n =>
    (w.reserve = false ∧ w.Reaches n ∧ ∀ v ∈ ws, v.reserve = true → ¬ v.Reaches n) ∨ Exposed ws n

instance decidableExposed : (ws : List Sweep) → (n : Nat) → Decidable (Exposed ws n)
  | [], _ => inferInstanceAs (Decidable False)
  | _ :: ws, n =>
    have := decidableExposed ws n
    inferInstanceAs (Decidable (_ ∨ _))

theorem sweepAll_singleton : sweepAll [w] s = w.run s := by
  cases h : w.run s with
  | none => simp [sweepAll, h]
  | some t => simp [sweepAll, h]

theorem sweepAll_append {vs : List Sweep} :
    sweepAll (ws ++ vs) s = (sweepAll ws s).bind (sweepAll vs) := by
  induction ws generalizing s with
  | nil => rfl
  | cons w ws ih =>
    rw [List.cons_append, sweepAll, sweepAll, Option.bind_assoc]
    congr 1
    funext s
    exact ih

theorem sweepAll_congr {t : Boot} (h : s.frames = t.frames) :
    (sweepAll ws s).map frames = (sweepAll ws t).map frames := by
  induction ws generalizing s t with
  | nil => rw [sweepAll, sweepAll, Option.map_some, Option.map_some, h]
  | cons w ws ih =>
    have hw : (w.run s).map frames = (w.run t).map frames := by
      rw [Sweep.run_eq, Sweep.run_eq]
      exact frameLoop_congr h
    rw [sweepAll, sweepAll]
    cases hs : w.run s with
    | none =>
      rw [hs] at hw
      rw [Option.map_eq_none_iff.mp hw.symm, Option.bind_none]
    | some s' =>
      rw [hs] at hw
      obtain ⟨t', ht, hframes⟩ := Option.map_eq_some_iff.mp hw.symm
      rw [ht]
      exact ih hframes.symm

theorem sweepAll_count (h : sweepAll ws s = some s') : s'.count = s.count := by
  induction ws generalizing s with
  | nil =>
    cases h
    rfl
  | cons w ws ih =>
    obtain ⟨t, ht, hrest⟩ := Option.bind_eq_some_iff.mp h
    have hw : w.Ends := Sweep.run_isSome.mp (Option.isSome_of_eq_some ht)
    obtain ⟨t', ht', hcount, -⟩ := Sweep.run_ends (s := s) hw
    cases ht.symm.trans ht'
    exact (ih hrest).trans hcount

theorem sweepAll_isSome : (sweepAll ws s).isSome ↔ ∀ w ∈ ws, w.Ends := by
  induction ws generalizing s with
  | nil => simp [sweepAll]
  | cons w ws ih =>
    rw [sweepAll, List.forall_mem_cons]
    by_cases hw : w.Ends
    · obtain ⟨t, ht, -⟩ := Sweep.run_ends (s := s) hw
      rw [ht, Option.bind_some, ih]
      simp [hw]
    · rw [Sweep.run_none hw]
      simp [hw]

/-- Which frames are free after all the sweeps: the exposed ones, and those that were free
before and that no sweep reserves. -/
theorem sweepAll_used (h : sweepAll ws s = some s') (hn : n < s.covered) :
    s'.used n = false ↔
      Exposed ws n ∨ s.used n = false ∧ ∀ w ∈ ws, w.reserve = true → ¬ w.Reaches n := by
  induction ws generalizing s with
  | nil =>
    cases h
    simp [Exposed]
  | cons w ws ih =>
    obtain ⟨t, ht, hrest⟩ := Option.bind_eq_some_iff.mp h
    have hw : w.Ends := Sweep.run_isSome.mp (Option.isSome_of_eq_some ht)
    obtain ⟨t', ht', hcount, hused⟩ := Sweep.run_ends (s := s) hw
    cases ht.symm.trans ht'
    rw [ih hrest (by rw [covered_of_count hcount]; exact hn), hused n hn, Exposed,
      List.forall_mem_cons]
    by_cases hr : w.Reaches n
    · rw [if_pos hr]
      cases w.reserve with
      | false =>
        simp only [hr, true_and, Bool.false_eq_true, false_imp_iff]
        constructor
        · intro h
          exact Or.inl h.symm
        · intro h
          exact h.elim Or.symm fun h => Or.inr h.2
      | true => simp [hr]
    · rw [if_neg hr]
      simp [hr]

end Run

end Boot

end AkKernel
