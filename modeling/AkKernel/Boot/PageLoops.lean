import AkKernel.Boot.Multiboot
import AkKernel.Mem.Clone

/-!
# Loops over pages

`for (i = start; i < last + PAGE_SIZE; i += PAGE_SIZE)` of `frame_clear_range`,
`frame_set_range`, `pg_alloc_range` and `task_brk`, apart from what is done with the pages.
Both additions wrap: the bound to the bottom of the address space, where the loop comes by too
few pages, and the address past the top, where it begins anew.
-/

set_option autoImplicit false

namespace AkKernel

open Programs

/-- The addresses that the loop comes to from `i` on in at most `fuel` rounds, and whether it
has ended then. -/
def pageSteps (limit : Word) : Nat → Word → List Word × Bool
  | 0, i => ([], !decide (i < limit))
  | fuel + 1, i =>
    if i < limit then
      (i :: (pageSteps limit fuel (i + pageSize)).1, (pageSteps limit fuel (i + pageSize)).2)
    else ([], true)

/-- The loop ends, and comes to every page that overlaps the range. -/
def CoversRange (start last : Word) : Prop :=
  ∃ fuel, (pageSteps (last + pageSize) fuel start).2 = true ∧
    ∀ n, frameNo start ≤ n → n ≤ frameNo last →
      ∃ v ∈ (pageSteps (last + pageSize) fuel start).1, frameNo v = n

/-- What is done with the addresses of a loop of `multiboot_mmap`. -/
def visitFrames (frame : Word → Boot → Boot) (steps : List Word × Bool) (s : Boot) : Option Boot :=
  if steps.2 then some (steps.1.foldl (fun s i => frame i s) s) else none

/-- What is done with the addresses of a loop that changes mappings. -/
def visitPages {σ : Type} (body : Word → Prog Fault σ Unit) (steps : List Word × Bool) :
    Prog Fault σ Unit := do
  steps.1.forM body
  if steps.2 then pure () else throw .diverges

section Steps
variable {limit i v : Word} {fuel : Nat}

theorem frameLoop_steps (frame : Word → Boot → Boot) (limit : Word) (fuel : Nat) :
    ∀ i s, Boot.frameLoop frame limit (fuel + 1) i s =
      visitFrames frame (pageSteps limit fuel i) s := by
  induction fuel with
  | zero =>
    intro i s
    by_cases hlt : i < limit
    · simp [Boot.frameLoop, visitFrames, pageSteps, hlt]
    · simp [Boot.frameLoop, visitFrames, pageSteps, hlt]
  | succ fuel ih =>
    intro i s
    rw [Boot.frameLoop, pageSteps]
    by_cases hlt : i < limit
    · rw [if_pos hlt, if_pos hlt, ih]
      rfl
    · rw [if_neg hlt, if_neg hlt]
      rfl

theorem forPages_steps {σ : Type} (body : Word → Prog Fault σ Unit) (limit : Word) (fuel : Nat) :
    ∀ i, forPages body fuel i limit = visitPages body (pageSteps limit fuel i) := by
  induction fuel with
  | zero =>
    intro i
    by_cases hlt : i < limit
    · simp [forPages, visitPages, pageSteps, hlt]
    · simp [forPages, visitPages, pageSteps, hlt]
  | succ fuel ih =>
    intro i
    rw [forPages, pageSteps]
    by_cases hlt : i < limit
    · rw [if_pos hlt, if_pos hlt, ih]
      simp [visitPages]
    · rw [if_neg hlt, if_neg hlt]
      simp [visitPages]

theorem pageSteps_lt : ∀ {i : Word}, v ∈ (pageSteps limit fuel i).1 → v < limit := by
  induction fuel with
  | zero =>
    intro i h
    cases h
  | succ fuel ih =>
    intro i h
    rw [pageSteps] at h
    split at h
    · rename_i hlt
      rcases List.mem_cons.mp h with rfl | h
      · exact hlt
      · exact ih h
    · cases h

theorem next_page_toNat (h : i.toNat < 0xFFFFF000) : (i + pageSize).toNat = i.toNat + 4096 := by
  rw [BitVec.toNat_add]
  change (i.toNat + 4096) % 2 ^ 32 = _
  omega

/-- The loop ends where the last address below the bound does not wrap, and has come to one
address in every page from its start on, as far into the page as the start is. -/
theorem pageSteps_ends (hends : limit.toNat ≤ 0xFFFFF000 + i.toNat % 4096)
    (hfuel : 2 ^ 20 ≤ fuel + frameNo i) :
    (pageSteps limit fuel i).2 = true ∧
      ∀ n, frameNo i ≤ n → n * 4096 + i.toNat % 4096 < limit.toNat →
        ∃ v ∈ (pageSteps limit fuel i).1, frameNo v = n := by
  induction fuel generalizing i with
  | zero =>
    have := frameNo_lt i
    omega
  | succ fuel ih =>
    rw [pageSteps]
    by_cases hlt : i < limit
    · rw [if_pos hlt]
      have hi : i.toNat < limit.toNat := hlt
      have hnext : (i + pageSize).toNat = i.toNat + 4096 := next_page_toNat (by omega)
      have hno : frameNo (i + pageSize) = frameNo i + 1 := by
        unfold frameNo
        omega
      have hmod : (i + pageSize).toNat % 4096 = i.toNat % 4096 := by omega
      obtain ⟨hend, hcover⟩ := ih (i := i + pageSize) (by omega) (by omega)
      refine ⟨hend, ?_⟩
      intro n hn hlim
      by_cases he : n = frameNo i
      · exact ⟨i, List.mem_cons_self, he.symm⟩
      · obtain ⟨v, hv, hvn⟩ := hcover n (by omega) (by omega)
        exact ⟨v, List.mem_cons_of_mem _ hv, hvn⟩
    · rw [if_neg hlt]
      have hi : limit.toNat ≤ i.toNat := Nat.not_lt.mp hlt
      refine ⟨rfl, ?_⟩
      intro n hn hlim
      unfold frameNo at hn
      omega

/-- Otherwise the address starts over below the bound, again and again. -/
theorem pageSteps_runs (hends : 0xFFFFF000 + i.toNat % 4096 < limit.toNat) :
    (pageSteps limit fuel i).2 = false := by
  have hlim := limit.isLt
  have hi := i.isLt
  have hlt : i < limit := by
    change i.toNat < limit.toNat
    omega
  induction fuel generalizing i with
  | zero => simp [pageSteps, hlt]
  | succ fuel ih =>
    have hmod : (i + pageSize).toNat % 4096 = i.toNat % 4096 := by
      rw [BitVec.toNat_add]
      change (i.toNat + 4096) % 2 ^ 32 % 4096 = _
      omega
    have hlt' : i + pageSize < limit := by
      change (i + pageSize).toNat < limit.toNat
      have hi' := (i + pageSize).isLt
      omega
    rw [pageSteps, if_pos hlt]
    exact ih (by omega) (i + pageSize).isLt hlt'

/-- A loop that ends at all ends before the address has gone once around. -/
theorem pageSteps_rounds : (pageSteps limit (2 ^ 20) i).2 = true ↔
    ∃ fuel, (pageSteps limit fuel i).2 = true := by
  constructor
  · exact fun h => ⟨_, h⟩
  · rintro ⟨fuel, h⟩
    have hends : limit.toNat ≤ 0xFFFFF000 + i.toNat % 4096 := by
      by_contra hgt
      rw [pageSteps_runs (Nat.not_le.mp hgt)] at h
      cases h
    exact (pageSteps_ends hends (Nat.le_add_right _ _)).1

theorem coversRange_iff {start last : Word} (hle : start ≤ last) :
    CoversRange start last ↔ last.toNat + 8192 ≤ 2 ^ 32 + start.toNat % 4096 := by
  have hle' : start.toNat ≤ last.toNat := hle
  have hlast := last.isLt
  have hlimit : (last + pageSize).toNat = (last.toNat + 4096) % 2 ^ 32 := BitVec.toNat_add _ _
  constructor
  · rintro ⟨fuel, hend, hcover⟩
    have hnowrap : last.toNat + 4096 < 2 ^ 32 := by
      by_contra hwrap
      obtain ⟨v, hv, hvn⟩ := hcover (frameNo last) (Nat.div_le_div_right hle') (Nat.le_refl _)
      have hlt : v.toNat < (last + pageSize).toNat := pageSteps_lt hv
      unfold frameNo at hvn
      omega
    by_contra hgt
    rw [pageSteps_runs (by omega)] at hend
    cases hend
  · intro h
    have hends : (last + pageSize).toNat ≤ 0xFFFFF000 + start.toNat % 4096 := by omega
    have hfuel : 2 ^ 20 ≤ 2 ^ 20 + frameNo start := Nat.le_add_right _ _
    obtain ⟨hend, hcover⟩ := pageSteps_ends hends hfuel
    refine ⟨2 ^ 20, hend, ?_⟩
    intro n hn hnl
    apply hcover n hn
    unfold frameNo at hnl
    omega

end Steps

/-- The four loops over the pages of `[start, last]` go through the addresses of `pageSteps`,
those over frames with as many rounds as any that ends; and these end and cover the range
exactly when `last` is two pages from the end of the address space, or as much nearer as the
start is into its page. -/
theorem pageLoops_cover_iff (start last : Word) (hle : start ≤ last) :
    (∀ s, Boot.frameClearRange start last s =
      visitFrames Boot.frameClear (pageSteps (last + pageSize) (2 ^ 20) start) s) ∧
    (∀ s, Boot.frameSetRange start last s =
      visitFrames Boot.frameSet (pageSteps (last + pageSize) (2 ^ 20) start) s) ∧
    (∀ cur fuel, pgAllocRange cur fuel start last =
      visitPages (pgAlloc cur) (pageSteps (last + pageSize) fuel start)) ∧
    (∀ cur fuel, start < last → taskBrk cur fuel start last = do
      visitPages (fun page => do
        let s ← get
        if s.1.mmuReady then
          if ¬ (← pgIsAllocated cur page) then pgAlloc cur page)
        (pageSteps (last + pageSize) fuel start)
      pure last) ∧
    ((pageSteps (last + pageSize) (2 ^ 20) start).2 = true ↔
      ∃ fuel, (pageSteps (last + pageSize) fuel start).2 = true) ∧
    (CoversRange start last ↔ last.toNat + 8192 ≤ 2 ^ 32 + start.toNat % 4096) := by
  refine ⟨?_, ?_, ?_, ?_, pageSteps_rounds, coversRange_iff hle⟩
  · exact frameLoop_steps _ _ _ _
  · exact frameLoop_steps _ _ _ _
  · intro cur fuel
    exact forPages_steps _ _ fuel start
  · intro cur fuel hlt
    have hne : last ≠ 0#32 := by
      rintro rfl
      exact Nat.not_lt_zero _ hlt
    rw [taskBrk, if_neg hne, if_pos hlt, forPages_steps]

/-- From the middle of page 1 to page 3. -/
theorem pageLoops_cover_iff_three : CoversRange 0x1800#32 0x3000#32 :=
  (pageLoops_cover_iff 0x1800#32 0x3000#32 (by decide)).2.2.2.2.2.mpr (by decide)

/-- A break in the last page makes the bound of the loop zero, so that no page is allocated;
a range that ends one byte into the last page but one is never left. -/
theorem pageLoops_wrap :
    (∀ cur fuel, taskBrk cur fuel 0x08050000#32 0xFFFFF000#32 = pure 0xFFFFF000#32) ∧
    ¬ CoversRange 0x08050000#32 0xFFFFF000#32 ∧
    ∀ fuel, (pageSteps (0xFFFFE001#32 + pageSize) fuel 0x1000#32).2 = false := by
  refine ⟨?_, ?_, ?_⟩
  · intro cur fuel
    cases fuel with
    | zero => rfl
    | succ fuel => rfl
  · rw [coversRange_iff (by decide)]
    decide
  · intro fuel
    exact pageSteps_runs (by decide)

end AkKernel
