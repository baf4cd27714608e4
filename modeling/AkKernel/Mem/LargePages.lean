import AkKernel.Mem.CloneTable
import AkKernel.Mem.FrameScan

/-!
# Pages of 4 MB

`frame_alloc_4m` and the clone of a 4 MB page. A candidate that fails makes the scan go on with
the second word of the next one, so no run but that at frame 0 is ever seen whole.
-/

set_option autoImplicit false

namespace AkKernel

open Programs

/-- Frame `n` begins 4 MB of free frames. -/
structure FreeRun (b : FrameBitmap) (n : Nat) : Prop where
  aligned : 1024 ∣ n
  below : n + 1024 ≤ b.frameCount
  free : ∀ m, n ≤ m → m < n + 1024 → m ∈ b.free

section Words
variable {b : FrameBitmap} {k n : Nat}

theorem word_zero_iff : b.words[k]? = some 0#32 ↔ ∀ j < 32, k * 32 + j ∈ b.free := by
  constructor
  · intro h j hj
    exact Bitmap.mem_clear_of_word h hj (by simp)
  · intro h
    have hk : k < b.words.length := by
      have hlt := (Bitmap.mem_clear.mp (h 0 (by decide))).1
      omega
    rw [List.getElem?_eq_getElem hk, Option.some_inj]
    apply BitVec.eq_of_getLsbD_eq
    intro j hj
    obtain ⟨x, hx, hbit⟩ := Bitmap.exists_word (h j hj)
    rw [Bitmap.bit_div hj, List.getElem?_eq_getElem hk, Option.some_inj] at hx
    rw [Bitmap.bit_mod hj] at hbit
    rw [hx, hbit, BitVec.getLsbD_zero]

theorem FreeRun.words (h : FreeRun b (n * 32)) (hk : n ≤ k) (hlt : k < n + 32) :
    b.words[k]? = some 0#32 :=
  word_zero_iff.mpr fun j hj => h.free _ (by omega) (by omega)

theorem freeRun_of_words (h : ∀ k < 32, b.words[k]? = some 0#32) : FreeRun b 0 := by
  have hfree : ∀ m, 0 ≤ m → m < 0 + 1024 → m ∈ b.free := by
    intro m _ hm
    have := word_zero_iff.mp (h (m / 32) (by omega)) (m % 32) (Nat.mod_lt m (by decide))
    rwa [Nat.div_add_mod'] at this
  refine ⟨by decide, ?_, hfree⟩
  have := lt_frameCount (hfree 1023 (Nat.zero_le _) (by decide))
  omega

end Words

section Scan
variable {b : FrameBitmap} {fuel i f f0 : Nat}

theorem frameAlloc4mLoop_succ : frameAlloc4mLoop b (fuel + 1) i f0 =
    if i < 32 ∧ f0 < b.frameCount / 32 then
      match b.words[f0 + i]? with
      | none => .error .outOfBounds
      | some x =>
        if x ≠ 0#32 then frameAlloc4mLoop b fuel 1 (f0 + 1)
        else frameAlloc4mLoop b fuel (i + 1) f0
    else .ok f0 := rfl

/-- Every round goes on in the candidate or to the next one. -/
theorem frameAlloc4mLoop_ends (b : FrameBitmap) {f0 : Nat}
    (hfuel : 33 * (b.frameCount / 32 - f0) + (32 - i) < fuel) :
    (∃ f, frameAlloc4mLoop b fuel i f0 = .ok f) ∨
      frameAlloc4mLoop b fuel i f0 = .error .outOfBounds := by
  induction fuel generalizing i f0 with
  | zero => omega
  | succ fuel ih =>
    rw [frameAlloc4mLoop_succ]
    split
    · split
      · exact .inr rfl
      · split
        · exact ih (by omega)
        · exact ih (by omega)
    · exact .inl ⟨f0, rfl⟩

theorem frameAlloc4mLoop_zero (fuel : Nat) (h : ∀ k < 32, b.words[k]? = some 0#32) (hi : i ≤ 32)
    (hfuel : 32 - i < fuel) : frameAlloc4mLoop b fuel i 0 = .ok 0 := by
  induction fuel generalizing i with
  | zero => omega
  | succ fuel ih =>
    rw [frameAlloc4mLoop_succ]
    split
    · rename_i hlt
      rw [Nat.zero_add, h i hlt.1]
      dsimp only
      rw [if_neg (by decide)]
      exact ih (by omega) (by omega)
    · rfl

theorem frameAlloc4mLoop_le (h : frameAlloc4mLoop b fuel i f0 = .ok f) :
    f0 ≤ f ∧ f ≤ max f0 (b.frameCount / 32) := by
  induction fuel generalizing i f0 with
  | zero => cases h
  | succ fuel ih =>
    rw [frameAlloc4mLoop_succ] at h
    split at h
    · split at h
      · cases h
      · split at h
        · have := ih h
          omega
        · exact ih h
    · cases h
      exact ⟨Nat.le_refl _, Nat.le_max_left _ _⟩

/-- The candidate before it failed at a word of the one that is returned. -/
theorem frameAlloc4mLoop_blocked (hi : 0 < i) (h : frameAlloc4mLoop b fuel i f0 = .ok f)
    (hlt : f0 < f) : ∃ k, f ≤ k ∧ k < f + 32 ∧ b.words[k]? ≠ some 0#32 := by
  induction fuel generalizing i f0 with
  | zero => cases h
  | succ fuel ih =>
    rw [frameAlloc4mLoop_succ] at h
    split at h
    · rename_i hin
      split at h
      · cases h
      · rename_i x hx
        split at h
        · rename_i hne
          rcases Nat.lt_or_ge (f0 + 1) f with hfar | hnext
          · exact ih (by decide) h hfar
          · refine ⟨f0 + i, by omega, by omega, ?_⟩
            rw [hx]
            intro he
            exact hne (Option.some_inj.mp he)
        · exact ih (by omega) h hlt
    · cases h
      omega

/-- From the start, what is returned is frame 0, or frame 32, or blocked. -/
theorem frameAlloc4mLoop_cases (h : frameAlloc4mLoop b fuel 0 0 = .ok f) (hrun : 1 < f) :
    ∃ k, f ≤ k ∧ k < f + 32 ∧ b.words[k]? ≠ some 0#32 := by
  cases fuel with
  | zero => cases h
  | succ fuel =>
    rw [frameAlloc4mLoop_succ] at h
    split at h
    · split at h
      · cases h
      · split at h
        · exact frameAlloc4mLoop_blocked (by decide) h hrun
        · exact frameAlloc4mLoop_blocked (by decide) h (by omega)
    · cases h
      omega

end Scan

section Alloc
variable {c : Phys}

/-- What is returned begins a free run, a run is found where there is one, and no word outside
the bitmap is read. -/
structure Allocates4m (c : Phys) : Prop where
  returned : ∀ a c', frameAlloc4m c = .ok (a, c') →
    ∃ n, FreeRun c.bitmap n ∧ a = frameAddr n ∧ c' = c
  found : (∃ n, FreeRun c.bitmap n) → ∃ r, frameAlloc4m c = .ok r
  inside : frameAlloc4m c ≠ .error .outOfBounds

theorem frameAlloc4m_zero (h : FreeRun c.bitmap 0) : frameAlloc4m c = .ok (frameAddr 0, c) := by
  have hloop := frameAlloc4mLoop_zero (33 * (c.bitmap.frameCount + 1)) (b := c.bitmap) (i := 0)
    (fun k hk => h.words (n := 0) (Nat.zero_le k) (by omega)) (by decide) (by
      have := h.below
      omega)
  rw [frameAlloc4m, hloop]
  rfl

theorem frameAlloc4m_cases (c : Phys) :
    (∃ f, frameAlloc4mLoop c.bitmap (33 * (c.bitmap.frameCount + 1)) 0 0 = .ok f ∧
      frameAlloc4m c = .ok (frameAddr (f * 32), c)) ∨ frameAlloc4m c = .error .outOfBounds := by
  have hfuel : 33 * (c.bitmap.frameCount / 32 - 0) + (32 - 0) <
      33 * (c.bitmap.frameCount + 1) := by omega
  rcases frameAlloc4mLoop_ends c.bitmap hfuel with ⟨f, hf⟩ | hout
  · refine .inl ⟨f, hf, ?_⟩
    rw [frameAlloc4m, hf]
    rfl
  · refine .inr ?_
    rw [frameAlloc4m, hout]

theorem frameAddr_eq_iff {m n : Nat} (hm : m < 2 ^ 20) (hn : n ≤ 2 ^ 20) :
    frameAddr n = frameAddr m ↔ n = m ∨ m = 0 ∧ n = 2 ^ 20 := by
  constructor
  · intro h
    have h' := congrArg BitVec.toNat h
    rw [frameAddr, frameAddr, BitVec.toNat_ofNat, BitVec.toNat_ofNat] at h'
    omega
  · rintro (rfl | ⟨rfl, rfl⟩)
    · rfl
    · rfl

theorem Allocates4m.zero (h : Allocates4m c) : FreeRun c.bitmap 0 := by
  rcases frameAlloc4m_cases c with ⟨f, hloop, hrun⟩ | hout
  swap
  · exact absurd hout h.inside
  obtain ⟨n, hfree, ha, -⟩ := h.returned _ _ hrun
  have hle := (frameAlloc4mLoop_le hloop).2
  have hcount := c.bitmap.count_le
  have hn := FrameBitmap.free_lt (hfree.free n (Nat.le_refl n) (by omega))
  rcases (frameAddr_eq_iff hn (by omega)).mp ha with hfn | ⟨hn0, -⟩
  · rcases Nat.eq_zero_or_pos n with hn0 | hpos
    · rw [hn0] at hfree
      exact hfree
    · obtain ⟨q, hq⟩ := hfree.aligned
      obtain ⟨k, hk, hlt, hbad⟩ := frameAlloc4mLoop_cases hloop (by omega)
      rw [← hfn] at hfree
      exact absurd (hfree.words hk hlt) hbad
  · rw [hn0] at hfree
    exact hfree

/-- Only the first 4 MB of memory are ever found. -/
theorem allocates4m_iff : Allocates4m c ↔ FreeRun c.bitmap 0 := by
  constructor
  · exact Allocates4m.zero
  · intro h
    have hrun := frameAlloc4m_zero h
    refine ⟨?_, fun _ => ⟨_, hrun⟩, ?_⟩
    · intro a c' hret
      rw [hrun] at hret
      cases hret
      exact ⟨0, h, rfl, rfl⟩
    · rw [hrun]
      exact nofun

end Alloc

section Range
variable {c : Phys} {fuel i n : Nat}

theorem frameAddr_toNat (hn : n < 2 ^ 20) : (frameAddr n).toNat = n * 4096 := by
  rw [frameAddr, BitVec.toNat_ofNat]
  omega

theorem frameAddr_succ (hn : n < 2 ^ 20) : frameAddr n + pageSize = frameAddr (n + 1) := by
  apply BitVec.eq_of_toNat_eq
  rw [BitVec.toNat_add, frameAddr_toNat hn, frameAddr, BitVec.toNat_ofNat]
  change (n * 4096 + 4096) % 2 ^ 32 = (n + 1) * 4096 % 2 ^ 32
  omega

theorem frameAddr_lt_iff (hi : i < 2 ^ 20) (hn : n < 2 ^ 20) :
    frameAddr i < frameAddr n ↔ i < n := by
  rw [BitVec.lt_def, frameAddr_toNat hi, frameAddr_toNat hn]
  omega

theorem frameSet_covered (hinit : c.frameAllocInitialized = true) (hi : i < 2 ^ 20)
    (hcov : i < c.bitmap.words.length * 32) : frameSet (frameAddr i) c = .ok ((), c.mark i) := by
  rw [frameSet, if_neg (by rw [hinit]; decide), frameNo_frameAddr hi, if_pos (by omega)]

theorem frameSet_behind (hinit : c.frameAllocInitialized = true) (hi : i < 2 ^ 20)
    (hcov : c.bitmap.words.length * 32 ≤ i) :
    frameSet (frameAddr i) c = .error .outOfBounds := by
  rw [frameSet, if_neg (by rw [hinit]; decide), frameNo_frameAddr hi, if_neg (by omega)]

theorem frameSetRange_marks (hinit : c.frameAllocInitialized = true) (hi : i ≤ n)
    (hn : n < 2 ^ 20) (hcov : n ≤ c.bitmap.words.length * 32) (hfuel : n ≤ i + fuel) :
    forPages frameSet fuel (frameAddr i) (frameAddr n) c =
      .ok ((), c.marks (List.range' i (n - i))) := by
  induction fuel generalizing c i with
  | zero =>
    have he : i = n := by omega
    rw [he, Nat.sub_self, forPages, if_neg (by rw [frameAddr_lt_iff hn hn]; omega)]
    rfl
  | succ fuel ih =>
    rw [forPages]
    by_cases hlt : i < n
    · have hrange : List.range' i (n - i) = i :: List.range' (i + 1) (n - (i + 1)) := by
        rw [show n - i = (n - (i + 1)) + 1 by omega, List.range'_succ]
      rw [if_pos ((frameAddr_lt_iff (by omega) hn).mpr hlt),
        bind_run (frameSet_covered hinit (by omega) (by omega)), frameAddr_succ (by omega), hrange]
      exact ih (c := c.mark i) hinit hlt (by rw [length_mark]; exact hcov) (by omega)
    · have he : i = n := by omega
      rw [if_neg (by rw [frameAddr_lt_iff (by omega) hn]; exact hlt), he, Nat.sub_self]
      rfl

theorem frameSetRange_leaves (hinit : c.frameAllocInitialized = true)
    (hi : i ≤ c.bitmap.words.length * 32) (hn : n < 2 ^ 20)
    (hcov : c.bitmap.words.length * 32 < n) (hfuel : n ≤ i + fuel) :
    forPages frameSet fuel (frameAddr i) (frameAddr n) c = .error .outOfBounds := by
  induction fuel generalizing c i with
  | zero => omega
  | succ fuel ih =>
    rw [forPages, if_pos ((frameAddr_lt_iff (by omega) hn).mpr (by omega))]
    rcases Nat.lt_or_ge i (c.bitmap.words.length * 32) with hin | hout
    · rw [bind_run (frameSet_covered hinit (by omega) hin), frameAddr_succ (by omega)]
      apply ih (c := c.mark i) hinit
      · rw [length_mark]
        omega
      · rw [length_mark]
        exact hcov
      · omega
    · exact bind_fails (frameSet_behind hinit (by omega) hout)

end Range

section Clone
variable {c : Phys} {tmp : TmpTbl} {page : Word}

/-- With the run that `frame_alloc_4m` gives it, the clone returns, and it marks the 1024 frames
of the run and no other. -/
def Clones4m (page : Word) (c : Phys) (tmp : TmpTbl) : Prop :=
  ∀ a c', frameAlloc4m c = .ok (a, c') →
    ∃ s, pgClonePage4m page (c, tmp) = .ok (pageEntry a (pdeFlags page), s) ∧
      ∀ m < c.bitmap.words.length * 32, Bitmap.test s.1.bitmap.words m =
        (decide (frameNo a ≤ m ∧ m < frameNo a + 1024) || Bitmap.test c.bitmap.words m)

theorem pgClonePage4m_private (h : Private page) : Direct.pgClonePage4m page = (do
    let newpgframe ← frameAlloc4m
    let limit := newpgframe + BitVec.ofNat 32 (1024 * 4096)
    frameSetRange newpgframe limit
    upTo (fun i => do
      let offset := BitVec.ofNat 32 (i * 4096)
      copyFrame (frameNo (newpgframe + offset)) (frameNo (pdeAddr page + offset))) 1024
    pure (pageEntry newpgframe (pdeFlags page))) := by
  have h1 : pdeFlags page &&& pagePresent = page &&& pagePresent := by
    rw [pdeFlags, BitVec.and_assoc]
    rfl
  have h2 : pdeFlags page &&& pageLink = page &&& pageLink := by
    rw [pdeFlags, BitVec.and_assoc]
    rfl
  unfold Direct.pgClonePage4m
  dsimp only
  rw [if_neg (by rw [h1]; exact h.1), if_neg (by rw [h2]; exact h.2)]

theorem copies_keep_bitmap (f : Nat → Nat × Nat) (n : Nat) (c : Phys) :
    ∃ c', upTo (fun i => copyFrame (f i).1 (f i).2) n c = .ok ((), c') ∧
      c'.bitmap = c.bitmap := by
  refine upTo_ends (I := fun _ (t : Phys) => t.bitmap = c.bitmap) rfl ?_
  intro i t _ ht
  exact ⟨_, rfl, ht⟩

/-- The range ends with the frame behind the 4 MB. -/
theorem frameSetRange_zero (hinit : c.frameAllocInitialized = true) :
    frameSetRange (frameAddr 0) (frameAddr 0 + BitVec.ofNat 32 (1024 * 4096)) c =
      if 1024 < c.bitmap.words.length * 32 then .ok ((), c.marks (List.range' 0 1025))
      else .error .outOfBounds := by
  have hlimit : frameAddr 0 + BitVec.ofNat 32 (1024 * 4096) + pageSize = frameAddr 1025 := by
    decide
  rw [frameSetRange, hlimit]
  by_cases hcov : 1024 < c.bitmap.words.length * 32
  · rw [if_pos hcov]
    exact frameSetRange_marks hinit (Nat.zero_le _) (by decide) hcov (by decide)
  · rw [if_neg hcov]
    exact frameSetRange_leaves hinit (Nat.zero_le _) (by decide) (by omega) (by decide)

theorem test_marks_range {n m : Nat} (hn : n ≤ c.bitmap.words.length * 32) :
    Bitmap.test (c.marks (List.range' 0 n)).bitmap.words m =
      (decide (m < n) || Bitmap.test c.bitmap.words m) := by
  have hmem : m ∈ List.range' 0 n ↔ m < n := by
    rw [List.mem_range'_1]
    omega
  rw [test_marks fun k hk => Nat.lt_of_lt_of_le (by
    rw [List.mem_range'_1] at hk
    omega) hn]
  simp only [hmem]

theorem pgClonePage4m_covered (hinit : c.frameAllocInitialized = true) (hpage : Private page)
    (hready : Ready [] 2 tmp) (hzero : FreeRun c.bitmap 0)
    (hcov : 1024 < c.bitmap.words.length * 32) :
    ∃ s, pgClonePage4m page (c, tmp) = .ok (pageEntry (frameAddr 0) (pdeFlags page), s) ∧
      ∀ m, Bitmap.test s.1.bitmap.words m =
        (decide (m < 1025) || Bitmap.test c.bitmap.words m) := by
  have hset := frameSetRange_zero hinit
  rw [if_pos hcov] at hset
  obtain ⟨c', hcopy, hbitmap⟩ := copies_keep_bitmap
    (fun i => (frameNo (frameAddr 0 + BitVec.ofNat 32 (i * 4096)),
      frameNo (pdeAddr page + BitVec.ofNat 32 (i * 4096)))) 1024 (c.marks (List.range' 0 1025))
  have hrun : Direct.pgClonePage4m page c =
      .ok (pageEntry (frameAddr 0) (pdeFlags page), c') := by
    rw [pgClonePage4m_private hpage, bind_run (frameAlloc4m_zero hzero)]
    dsimp only
    rw [bind_run hset, bind_run hcopy]
    rfl
  refine ⟨(c', tmp), (pgClonePage4m_lifts (k := 0) page).run hready hrun, ?_⟩
  intro m
  change Bitmap.test c'.bitmap.words m = _
  rw [hbitmap, test_marks_range hcov]

theorem pgClonePage4m_uncovered (hinit : c.frameAllocInitialized = true) (hpage : Private page)
    (hready : Ready [] 2 tmp) (hzero : FreeRun c.bitmap 0)
    (hcov : ¬ 1024 < c.bitmap.words.length * 32) :
    pgClonePage4m page (c, tmp) = .error .outOfBounds := by
  have hset := frameSetRange_zero hinit
  rw [if_neg hcov] at hset
  have hrun : Direct.pgClonePage4m page c = .error .outOfBounds := by
    rw [pgClonePage4m_private hpage, bind_run (frameAlloc4m_zero hzero)]
    exact bind_fails hset
  rw [pgClonePage4m_lifts (k := 0) page c tmp hready, onFst, hrun]

/-- The scan sees no run but the one at frame 0, and one frame too many is marked. -/
theorem alloc_clone_4m_exact (hinit : c.frameAllocInitialized = true) (hpage : Private page)
    (hready : Ready [] 2 tmp) : Allocates4m c ∧ Clones4m page c tmp ↔
      FreeRun c.bitmap 0 ∧ 1024 < c.bitmap.words.length * 32 ∧
        Bitmap.test c.bitmap.words 1024 = true := by
  constructor
  · rintro ⟨halloc, hclone⟩
    have hzero := halloc.zero
    obtain ⟨s, hrun, hmarks⟩ := hclone _ _ (frameAlloc4m_zero hzero)
    by_cases hcov : 1024 < c.bitmap.words.length * 32
    · refine ⟨hzero, hcov, ?_⟩
      obtain ⟨s', hrun', hmarks'⟩ := pgClonePage4m_covered hinit hpage hready hzero hcov
      rw [hrun'] at hrun
      cases hrun
      have hlast := hmarks 1024 hcov
      rw [hmarks' 1024] at hlast
      simpa [show frameNo (frameAddr 0) = 0 from rfl] using hlast.symm
    · rw [pgClonePage4m_uncovered hinit hpage hready hzero hcov] at hrun
      cases hrun
  · rintro ⟨hzero, hcov, hused⟩
    refine ⟨allocates4m_iff.mpr hzero, ?_⟩
    intro a c' halloc
    rw [frameAlloc4m_zero hzero] at halloc
    cases halloc
    obtain ⟨s, hrun, hmarks⟩ := pgClonePage4m_covered hinit hpage hready hzero hcov
    refine ⟨s, hrun, ?_⟩
    intro m _
    rw [hmarks m, show frameNo (frameAddr 0) = 0 from rfl]
    by_cases hm : m = 1024
    · rw [hm, hused, Bool.or_true, Bool.or_true]
    · have hiff : m < 1025 ↔ 0 ≤ m ∧ m < 0 + 1024 := by omega
      simp only [hiff]

/-- The first 4 MB are free, and frame 1024 is used. -/
def lowFree : Phys :=
  { fragmented with
    bitmap :=
      { words := List.replicate 32 0#32 ++ [1#32]
        frameCount := 1057
        length_eq := rfl
        count_le := by decide } }

theorem alloc_clone_4m_lowFree :
    Allocates4m lowFree ∧ Clones4m 0x83#32 lowFree fun _ => nilPgEnt := by
  refine (alloc_clone_4m_exact rfl (by decide) (ready_nil (by decide))).mpr ⟨?_, by decide, rfl⟩
  apply freeRun_of_words
  decide

def lowUsed : Phys :=
  { fragmented with
    bitmap :=
      { words := 1#32 :: List.replicate 63 0#32
        frameCount := 2048
        length_eq := rfl
        count_le := by decide } }

/-- Frame 32 is returned. -/
theorem not_allocates4m_lowUsed :
    ¬ (Allocates4m lowUsed ∧ Clones4m 0x83#32 lowUsed fun _ => nilPgEnt) := by
  rintro ⟨halloc, -⟩
  have hrun : frameAlloc4m lowUsed = .ok (frameAddr 32, lowUsed) := rfl
  obtain ⟨n, hfree, ha, -⟩ := halloc.returned _ _ hrun
  have hlt := FrameBitmap.free_lt (hfree.free n (Nat.le_refl n) (by omega))
  obtain ⟨q, hq⟩ := hfree.aligned
  have := (frameAddr_eq_iff hlt (by decide)).mp ha
  omega

end Clone

end AkKernel
