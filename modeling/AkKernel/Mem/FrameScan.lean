import AkKernel.Mem.Frame
import Mathlib.Data.Finset.Sort

/-!
# The order of allocation

`frame_alloc_after` looks through the bitmap from the word it is given the number of. From
the first word on it finds the lowest frame that is free, so frames that are taken one after
the other come in ascending order.
-/

set_option autoImplicit false

namespace AkKernel

open Programs

def frameTest (ptr : Word) : PhysM Bool := fun c =>
  match c.bitmap.words[frameNo ptr / 32]? with
  | some x => .ok (decide (x &&& (1#32 <<< (frameNo ptr % 32)) ≠ 0#32), c)
  | none => .error .outOfBounds

/-- So many frames, taken one after the other. -/
def takeFrames : Nat → PhysM (List Word)
  | 0 => pure []
  | n + 1 => do
    let frame ← frameTake
    let rest ← takeFrames n
    pure (frame :: rest)

section Scan
variable {b : FrameBitmap} {fuel i n : Nat}

theorem firstClear_full : Bitmap.firstClear 0xFFFFFFFF#32 = none := by
  decide

theorem covered_le (b : FrameBitmap) : b.words.length * 32 ≤ b.frameCount := by
  have := b.length_eq
  omega

theorem lt_frameCount (hn : n ∈ b.free) : n < b.frameCount :=
  Nat.lt_of_lt_of_le (Bitmap.mem_clear.mp hn).1 (covered_le b)

/-- The test for a full word only saves the search in it. -/
theorem frameAllocAfterLoop_succ {x : Word} (hx : b.words[i]? = some x) :
    frameAllocAfterLoop b (fuel + 1) i =
      match Bitmap.firstClear x with
      | some j => .ok (frameAddr (i * 32 + j))
      | none => frameAllocAfterLoop b fuel (i + 1) := by
  rw [frameAllocAfterLoop, hx]
  dsimp only
  split
  · rename_i hfull
    rw [hfull, firstClear_full]
  · rfl

theorem frameAllocAfterLoop_least (hn : IsLeast (Bitmap.clearFrom b.words i) n)
    (hfuel : n / 32 < i + fuel) : frameAllocAfterLoop b fuel i = .ok (frameAddr n) := by
  induction fuel generalizing i with
  | zero =>
    have hle := hn.1.2
    omega
  | succ fuel ih =>
    have hle := hn.1.2
    have hword := Bitmap.word_lt (Bitmap.mem_clear.mp hn.1.1).1
    have hi : i < b.words.length := by omega
    have hx : b.words[i]? = some b.words[i] := List.getElem?_eq_getElem hi
    rw [frameAllocAfterLoop_succ hx]
    split
    · rename_i j hj
      rw [(Bitmap.clearFrom_least hx hj).unique hn]
    · rename_i hfull
      rw [Bitmap.clearFrom_succ hx hfull] at hn
      exact ih hn (by omega)

/-- Without a free frame the loop runs to its end, unless the words end first. -/
theorem frameAllocAfterLoop_empty (h : Bitmap.clearFrom b.words i = ∅) :
    frameAllocAfterLoop b fuel i =
      if max i b.words.length < i + fuel then .error .outOfBounds
      else .error (.panic "Out of memory\n" []) := by
  induction fuel generalizing i with
  | zero =>
    rw [if_neg (by omega)]
    rfl
  | succ fuel ih =>
    by_cases hi : i < b.words.length
    · have hx : b.words[i]? = some b.words[i] := List.getElem?_eq_getElem hi
      have hfull : Bitmap.firstClear b.words[i] = none := by
        by_contra hsome
        obtain ⟨j, hj⟩ := Option.ne_none_iff_exists'.mp hsome
        have hmem := (Bitmap.clearFrom_least hx hj).1
        rw [h] at hmem
        exact hmem
      rw [Bitmap.clearFrom_succ hx hfull] at h
      rw [frameAllocAfterLoop_succ hx, hfull]
      dsimp only
      rw [ih h]
      have hiff : max (i + 1) b.words.length < i + 1 + fuel ↔
          max i b.words.length < i + (fuel + 1) := by omega
      simp only [hiff]
    · rw [frameAllocAfterLoop, List.getElem?_eq_none (by omega), if_pos (by omega)]

/-- The frames that are free at or behind frame `p`. -/
def freeFrom (b : FrameBitmap) (p : Nat) : Set Nat := {n | n ∈ b.free ∧ p ≤ n}

theorem frameAddr_inj {m : Nat} (hm : m ∈ b.free) (hn : n ∈ b.free)
    (h : frameAddr m = frameAddr n) : m = n := by
  have h' := congrArg frameNo h
  rw [frameNo_frameAddr (FrameBitmap.free_lt hm), frameNo_frameAddr (FrameBitmap.free_lt hn)] at h'
  exact h'

theorem exists_least {s : Set Nat} (hs : s.Nonempty) : ∃ n, IsLeast s n := by
  classical
  exact ⟨Nat.find hs, Nat.find_spec hs, fun _ hm => Nat.find_min' hs hm⟩

theorem freeFrom_anti {p q : Nat} (hpq : p ≤ q) : freeFrom b q ⊆ freeFrom b p :=
  fun _ hn => ⟨hn.1, Nat.le_trans hpq hn.2⟩

theorem freeFrom_empty {p : Nat} (hp : b.frameCount ≤ p) : freeFrom b p = ∅ := by
  rw [Set.eq_empty_iff_forall_notMem]
  rintro n ⟨hn, hle⟩
  have := lt_frameCount hn
  omega

theorem clearFrom_eq (b : FrameBitmap) (i : Nat) :
    Bitmap.clearFrom b.words i = freeFrom b (32 * i) := by
  rw [Nat.mul_comm]
  rfl

end Scan

section After
variable {c : Phys} {addr : Word}

/-- The lowest free frame from the page of `addr` on is returned, and where there is none the
kernel stops because it is out of memory. -/
structure AllocatesAfter (c : Phys) (addr : Word) : Prop where
  found : ∀ n, IsLeast (freeFrom c.bitmap (frameNo addr)) n →
    frameAllocAfter addr c = .ok (frameAddr n, c)
  exhausted : freeFrom c.bitmap (frameNo addr) = ∅ →
    frameAllocAfter addr c = .error (.panic "Out of memory\n" [])

theorem frameAllocAfter_least {n : Nat} (hn : IsLeast (freeFrom c.bitmap (32 * frameNo addr)) n) :
    frameAllocAfter addr c = .ok (frameAddr n, c) := by
  have hlt := lt_frameCount hn.1.1
  have hle := hn.1.2
  rw [← clearFrom_eq] at hn
  rw [frameAllocAfter, frameAllocAfterLoop_least hn (by omega)]

/-- Where nothing is left to find, every bound below the number of frames lets the loop run
out of the bitmap. -/
theorem frameAllocAfter_empty (h : freeFrom c.bitmap (32 * frameNo addr) = ∅) :
    frameAllocAfter addr c =
      if frameNo addr < c.bitmap.frameCount then .error .outOfBounds
      else .error (.panic "Out of memory\n" []) := by
  have hlen := covered_le c.bitmap
  rw [← clearFrom_eq] at h
  rw [frameAllocAfter, frameAllocAfterLoop_empty h]
  by_cases hlt : frameNo addr < c.bitmap.frameCount
  · rw [if_pos hlt, if_pos (by omega)]
  · rw [if_neg hlt, if_neg (by omega)]

theorem AllocatesAfter.of_behind (h : c.bitmap.frameCount ≤ frameNo addr) :
    AllocatesAfter c addr := by
  have hempty := freeFrom_empty h
  have hrun := frameAllocAfter_empty (freeFrom_empty (show c.bitmap.frameCount ≤
    32 * frameNo addr by omega))
  rw [if_neg (Nat.not_lt.mpr h)] at hrun
  refine ⟨?_, fun _ => hrun⟩
  intro n hn
  have hmem := hn.1
  rw [hempty] at hmem
  exact hmem.elim

theorem AllocatesAfter.of_far (hfar : (freeFrom c.bitmap (32 * frameNo addr)).Nonempty)
    (hnear : ∀ n ∈ freeFrom c.bitmap (frameNo addr), 32 * frameNo addr ≤ n) :
    AllocatesAfter c addr := by
  have hsame : freeFrom c.bitmap (frameNo addr) = freeFrom c.bitmap (32 * frameNo addr) := by
    apply Set.Subset.antisymm
    · intro n hn
      exact ⟨hn.1, hnear n hn⟩
    · exact freeFrom_anti (by omega)
  constructor
  · intro n hn
    rw [hsame] at hn
    exact frameAllocAfter_least hn
  · intro hnone
    rw [hsame] at hnone
    rw [hnone] at hfar
    exact (Set.not_nonempty_empty hfar).elim

theorem AllocatesAfter.far (h : AllocatesAfter c addr)
    (hlt : frameNo addr < c.bitmap.frameCount) :
    (freeFrom c.bitmap (32 * frameNo addr)).Nonempty ∧
      ∀ n ∈ freeFrom c.bitmap (frameNo addr), 32 * frameNo addr ≤ n := by
  rcases Set.eq_empty_or_nonempty (freeFrom c.bitmap (32 * frameNo addr)) with hempty | hfar
  · -- the loop leaves the bitmap, whatever is free before word `frameNo addr`
    have hrun := frameAllocAfter_empty hempty
    rw [if_pos hlt] at hrun
    rcases Set.eq_empty_or_nonempty (freeFrom c.bitmap (frameNo addr)) with hnone | hsome
    · rw [h.exhausted hnone] at hrun
      cases hrun
    · obtain ⟨m, hm⟩ := exists_least hsome
      rw [h.found m hm] at hrun
      cases hrun
  · refine ⟨hfar, ?_⟩
    obtain ⟨k, hk⟩ := exists_least hfar
    obtain ⟨m, hm⟩ := exists_least (hfar.mono (freeFrom_anti (p := frameNo addr) (by omega)))
    have hrun := h.found m hm
    rw [frameAllocAfter_least hk] at hrun
    injection hrun with he
    have hkm := frameAddr_inj hk.1.1 hm.1.1 (congrArg Prod.fst he)
    intro n hn
    exact Nat.le_trans (hkm ▸ hk.1.2) (hm.2 hn)

/-- The page number is used as the number of a word, each of which is for 32 pages. -/
theorem frameAllocAfter_exact : AllocatesAfter c addr ↔
    c.bitmap.frameCount ≤ frameNo addr ∨
      (freeFrom c.bitmap (32 * frameNo addr)).Nonempty ∧
        ∀ n ∈ freeFrom c.bitmap (frameNo addr), 32 * frameNo addr ≤ n := by
  constructor
  · intro h
    by_cases hlt : frameNo addr < c.bitmap.frameCount
    · exact .inr (h.far hlt)
    · exact .inl (Nat.not_lt.mp hlt)
  · rintro (hge | ⟨hfar, hnear⟩)
    · exact .of_behind hge
    · exact .of_far hfar hnear

def fragmented : Phys where
  mem := fun _ _ => 0#32
  bitmap :=
    { words := [0xFFFFFFFD#32, 0xFFFFFEFF#32]
      frameCount := 65
      length_eq := rfl
      count_le := by decide }
  frameAllocInitialized := true
  preallocFrames := 0#32
  preallocCount := 0
  mmuReady := true

theorem frameAllocAfter_fragmented : ¬ AllocatesAfter fragmented 0x1000#32 := by
  intro h
  have hleast : IsLeast (freeFrom fragmented.bitmap (frameNo 0x1000#32)) 1 := by
    refine ⟨⟨Bitmap.mem_clear.mpr (by decide), by decide⟩, ?_⟩
    rintro n ⟨-, hn⟩
    exact hn
  have hrun : frameAllocAfter 0x1000#32 fragmented = .ok (frameAddr 40, fragmented) := rfl
  have hfound := h.found 1 hleast
  rw [hrun] at hfound
  injection hfound with he
  exact absurd (congrArg Prod.fst he) (by decide)

end After

section Order
variable {c : Phys} {n m : Nat}

/-- Frames `ns`, marked in this order. -/
def Phys.marks (c : Phys) (ns : List Nat) : Phys := ns.foldl Phys.mark c

theorem frameTest_run (hm : m < c.bitmap.words.length * 32) :
    frameTest (frameAddr m) c = .ok (Bitmap.test c.bitmap.words m, c) := by
  have hcount := covered_le c.bitmap
  have hle := c.bitmap.count_le
  have hno : frameNo (frameAddr m) = m := frameNo_frameAddr (by omega)
  have hword : m / 32 < c.bitmap.words.length := by omega
  have hbit : m % 32 < 32 := Nat.mod_lt m (by decide)
  rw [frameTest, hno, Bitmap.test, List.getElem?_eq_getElem hword]
  dsimp only
  have hiff := Bitmap.and_one_shiftLeft_eq_zero (x := c.bitmap.words[m / 32]) hbit
  simp only [ne_eq, hiff, Bool.not_eq_false, Bool.decide_eq_true]

theorem length_mark (c : Phys) (n : Nat) :
    (c.mark n).bitmap.words.length = c.bitmap.words.length :=
  List.length_set

theorem marks_keeps (c : Phys) (ns : List Nat) :
    (c.marks ns).bitmap.words.length = c.bitmap.words.length ∧
      c.marks ns = { c with bitmap := (c.marks ns).bitmap } := by
  induction ns generalizing c with
  | nil => exact ⟨rfl, rfl⟩
  | cons n ns ih =>
    obtain ⟨hlen, hrest⟩ := ih (c.mark n)
    exact ⟨hlen.trans (length_mark c n), hrest⟩

theorem test_marks {ns : List Nat} (hns : ∀ n ∈ ns, n < c.bitmap.words.length * 32) :
    Bitmap.test (c.marks ns).bitmap.words m =
      (decide (m ∈ ns) || Bitmap.test c.bitmap.words m) := by
  induction ns generalizing c with
  | nil => simp [Phys.marks]
  | cons n ns ih =>
    have hhead : Bitmap.test (c.mark n).bitmap.words m =
        (decide (m = n) || Bitmap.test c.bitmap.words m) :=
      Bitmap.test_setBit (hns n List.mem_cons_self)
    have hrest := ih (c := c.mark n) fun k hk => by
      rw [length_mark]
      exact hns k (List.mem_cons_of_mem _ hk)
    rw [hhead] at hrest
    change Bitmap.test ((c.mark n).marks ns).bitmap.words m = _
    rw [hrest]
    by_cases he : m = n <;> simp [he]

theorem frameTake_least (hinit : c.frameAllocInitialized = true)
    (hn : IsLeast (freeFrom c.bitmap 0) n) : frameTake c = .ok (frameAddr n, c.mark n) := by
  have hrun : frameAlloc c = .ok (frameAddr n, c) := by
    rw [frameAlloc_run hinit]
    exact frameAllocAfter_least hn
  rw [(frameTake_ok hinit).mpr ⟨hrun, rfl⟩, frameNo_frameAddr (FrameBitmap.free_lt hn.1.1)]

theorem sort_free (hn : IsLeast (freeFrom c.bitmap 0) n) :
    c.free.sort (· ≤ ·) = n :: (c.mark n).free.sort (· ≤ ·) := by
  have hmem : n ∈ c.free := hn.1.1
  rw [free_mark hmem]
  conv_lhs => rw [← Finset.insert_erase hmem]
  apply Finset.sort_insert
  · intro m hm
    exact hn.2 ⟨Finset.mem_of_mem_erase hm, Nat.zero_le m⟩
  · exact Finset.notMem_erase n _

theorem takeFrames_run (hinit : c.frameAllocInitialized = true) (hn : n ≤ c.free.card) :
    takeFrames n c = .ok (((c.free.sort (· ≤ ·)).take n).map frameAddr,
      c.marks ((c.free.sort (· ≤ ·)).take n)) := by
  induction n generalizing c with
  | zero => rfl
  | succ n ih =>
    have hsome : (freeFrom c.bitmap 0).Nonempty := by
      obtain ⟨m, hm⟩ := Finset.card_pos.mp (Nat.lt_of_lt_of_le (Nat.succ_pos n) hn)
      exact ⟨m, hm, Nat.zero_le m⟩
    obtain ⟨k, hk⟩ := exists_least hsome
    have hmem : k ∈ c.free := hk.1.1
    have hcard : n ≤ (c.mark k).free.card := by
      rw [free_mark hmem, Finset.card_erase_of_mem hmem]
      omega
    rw [sort_free hk, List.take_succ_cons, takeFrames, bind_run (frameTake_least hinit hk),
      bind_run (ih (c := c.mark k) hinit hcard)]
    rfl

/-- The `n` lowest free frames come in ascending order. Their bits change from clear to set,
and every other bit is as it was. -/
theorem takeFrames_lowest (hinit : c.frameAllocInitialized = true) (hn : n ≤ c.free.card) :
    ∃ c', takeFrames n c = .ok (((c.free.sort (· ≤ ·)).take n).map frameAddr, c') ∧
      c' = { c with bitmap := c'.bitmap } ∧
      c'.bitmap.words.length = c.bitmap.words.length ∧
      (∀ m ∈ (c.free.sort (· ≤ ·)).take n,
        frameTest (frameAddr m) c = .ok (false, c) ∧
        frameTest (frameAddr m) c' = .ok (true, c')) ∧
      ∀ m < c.bitmap.words.length * 32, m ∉ (c.free.sort (· ≤ ·)).take n →
        ∃ used, frameTest (frameAddr m) c = .ok (used, c) ∧
          frameTest (frameAddr m) c' = .ok (used, c') := by
  have hmem : ∀ m ∈ (c.free.sort (· ≤ ·)).take n,
      m < c.bitmap.words.length * 32 ∧ Bitmap.test c.bitmap.words m = false := by
    intro m hm
    exact Bitmap.mem_clear.mp ((Finset.mem_sort _).mp (List.mem_of_mem_take hm))
  obtain ⟨hlen, hkeeps⟩ := marks_keeps c ((c.free.sort (· ≤ ·)).take n)
  refine ⟨_, takeFrames_run hinit hn, hkeeps, hlen, ?_, ?_⟩
  · intro m hm
    obtain ⟨hlt, hclear⟩ := hmem m hm
    rw [frameTest_run hlt, frameTest_run (by rw [hlen]; exact hlt),
      test_marks (fun k hk => (hmem k hk).1), hclear, decide_eq_true hm]
    exact ⟨rfl, rfl⟩
  · intro m hlt hm
    refine ⟨Bitmap.test c.bitmap.words m, frameTest_run hlt, ?_⟩
    rw [frameTest_run (by rw [hlen]; exact hlt), test_marks (fun k hk => (hmem k hk).1),
      decide_eq_false hm, Bool.false_or]

theorem takeFrames_fragmented : ∃ c', takeFrames 2 fragmented =
    .ok (((fragmented.free.sort (· ≤ ·)).take 2).map frameAddr, c') := by
  obtain ⟨c', hrun, -⟩ := takeFrames_lowest (c := fragmented) (n := 2) rfl (by decide)
  exact ⟨c', hrun⟩

end Order

end AkKernel
