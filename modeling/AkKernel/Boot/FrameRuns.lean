import AkKernel.Boot.Sweeps
import AkKernel.Mem.FrameScan

/-!
# Runs of the frame bitmap's operations

`frame_set`, `frame_clear` and `frame_test` after `frame_alloc_init`, against the set of frames
that are marked. The words of the bitmap cover a multiple of 32 frames, and the memory need not.
-/

set_option autoImplicit false

namespace AkKernel

open Runs

def frameClear (ptr : Word) : PhysM Unit := fun c =>
  if c.frameAllocInitialized = false then .ok ((), c)
  else if frameNo ptr / 32 < c.bitmap.words.length then
    .ok ((), { c with bitmap := c.bitmap.put false (frameNo ptr) })
  else .error .outOfBounds

/-- `frame_alloc_init`, with the bitmap beside the heap that its words are from. -/
def frameAllocInit (memMax : Word) (c : Phys) : Phys :=
  { c with
    bitmap := Boot.frameAllocInit memMax
    frameAllocInitialized := true }

inductive FrameOp where
  | set (ptr : Word)
  | clear (ptr : Word)
  | test (ptr : Word)
deriving DecidableEq, Repr

namespace FrameOp

def addr : FrameOp → Word
  | .set ptr => ptr
  | .clear ptr => ptr
  | .test ptr => ptr

/-- What `frame_test` returns is the output. -/
def run (op : FrameOp) (c : Phys) : Except Fault (Option Bool × Phys) :=
  match op with
  | .set ptr => (frameSet ptr c).map fun r => (none, r.2)
  | .clear ptr => (frameClear ptr c).map fun r => (none, r.2)
  | .test ptr => (frameTest ptr c).map fun r => (some r.1, r.2)

def mark (op : FrameOp) (marked : Nat → Bool) : Option Bool × (Nat → Bool) :=
  match op with
  | .set ptr => (none, Function.update marked (frameNo ptr) true)
  | .clear ptr => (none, Function.update marked (frameNo ptr) false)
  | .test ptr => (some (marked (frameNo ptr)), marked)

end FrameOp

/-- Every access of the run is inside the words, and `frame_test` tells what the last
`frame_set` or `frame_clear` in its frame was. -/
def RunsAsSet (memMax : Word) (c : Phys) (ops : List FrameOp) : Prop :=
  ∃ c', exec FrameOp.run ops (frameAllocInit memMax c) =
    .ok ((replay FrameOp.mark ops fun _ => true).1, c')

section Steps
variable {c c' : Phys} {op : FrameOp} {marked : Nat → Bool} {n : Nat}

/-- The bitmap has `n` frames in its words, and marks those that are in the set. -/
structure Marks (n : Nat) (c : Phys) (marked : Nat → Bool) : Prop where
  initialized : c.frameAllocInitialized = true
  covered : c.bitmap.covered = n
  used : ∀ m < n, c.bitmap.used m = marked m

theorem covered_put (b : FrameBitmap) (u : Bool) (m : Nat) : (b.put u m).covered = b.covered := by
  rw [FrameBitmap.covered_eq, FrameBitmap.covered_eq, FrameBitmap.frameCount_put]

theorem Marks.put (h : Marks n c marked) (u : Bool) (m : Nat) :
    Marks n { c with bitmap := c.bitmap.put u m } (Function.update marked m u) := by
  refine ⟨h.initialized, (covered_put _ _ _).trans h.covered, ?_⟩
  intro k hk
  rw [FrameBitmap.used_put (by rw [h.covered]; exact hk), h.used k hk, Function.update_apply]

theorem word_lt_iff {b : FrameBitmap} {m : Nat} : m / 32 < b.words.length ↔ m < b.covered := by
  rw [FrameBitmap.covered]
  omega

theorem frameSet_run (hinit : c.frameAllocInitialized = true) (ptr : Word) : frameSet ptr c =
    if frameNo ptr < c.bitmap.covered then
      .ok ((), { c with bitmap := c.bitmap.put true (frameNo ptr) })
    else .error .outOfBounds := by
  rw [frameSet, if_neg (by rw [hinit]; decide)]
  simp only [word_lt_iff]
  rfl

theorem frameClear_run (hinit : c.frameAllocInitialized = true) (ptr : Word) : frameClear ptr c =
    if frameNo ptr < c.bitmap.covered then
      .ok ((), { c with bitmap := c.bitmap.put false (frameNo ptr) })
    else .error .outOfBounds := by
  rw [frameClear, if_neg (by rw [hinit]; decide)]
  simp only [word_lt_iff]

theorem frameTest_eq (c : Phys) (ptr : Word) : frameTest ptr c =
    if frameNo ptr < c.bitmap.covered then .ok (c.bitmap.used (frameNo ptr), c)
    else .error .outOfBounds := by
  by_cases hlt : frameNo ptr < c.bitmap.covered
  · have hframe : frameTest ptr c = frameTest (frameAddr (frameNo ptr)) c := by
      rw [frameTest, frameTest, frameNo_frameAddr (frameNo_lt ptr)]
    rw [if_pos hlt, hframe, frameTest_run hlt]
    rfl
  · have hword : c.bitmap.words[frameNo ptr / 32]? = none :=
      List.getElem?_eq_none (Nat.not_lt.mp fun h => hlt (word_lt_iff.mp h))
    rw [if_neg hlt, frameTest, hword]

/-- An operation on a frame that has a bit does what it does to the set. -/
theorem FrameOp.run_covered (h : Marks n c marked) (hlt : frameNo op.addr < n) :
    ∃ c', op.run c = .ok ((op.mark marked).1, c') ∧ Marks n c' (op.mark marked).2 := by
  have hcov : frameNo op.addr < c.bitmap.covered := by
    rw [h.covered]
    exact hlt
  unfold FrameOp.addr at hlt hcov
  cases op with
  | set ptr =>
    refine ⟨_, ?_, h.put true (frameNo ptr)⟩
    rw [FrameOp.run, frameSet_run h.initialized, if_pos hcov]
    rfl
  | clear ptr =>
    refine ⟨_, ?_, h.put false (frameNo ptr)⟩
    rw [FrameOp.run, frameClear_run h.initialized, if_pos hcov]
    rfl
  | test ptr =>
    refine ⟨c, ?_, h⟩
    rw [FrameOp.run, frameTest_eq, if_pos hcov, h.used _ hlt]
    rfl

theorem FrameOp.covered_of_run {r : Option Bool} (hinit : c.frameAllocInitialized = true)
    (hrun : op.run c = .ok (r, c')) : frameNo op.addr < c.bitmap.covered := by
  by_contra hlt
  unfold FrameOp.addr at hlt
  cases op with
  | set ptr =>
    rw [FrameOp.run, frameSet_run hinit, if_neg hlt] at hrun
    cases hrun
  | clear ptr =>
    rw [FrameOp.run, frameClear_run hinit, if_neg hlt] at hrun
    cases hrun
  | test ptr =>
    rw [FrameOp.run, frameTest_eq, if_neg hlt] at hrun
    cases hrun

theorem marks_frameAllocInit (memMax : Word) (c : Phys) :
    Marks (frameNo memMax / 32 * 32) (frameAllocInit memMax c) fun _ => true := by
  have hcov : (Boot.frameAllocInit memMax).covered = frameNo memMax / 32 * 32 :=
    FrameBitmap.covered_eq _
  refine ⟨rfl, hcov, ?_⟩
  intro m hm
  have hword : m / 32 < frameNo memMax / 32 := by omega
  have hbit : ∀ j < 32, (0xFFFFFFFF#32 : Word).getLsbD j = true := by decide
  change Bitmap.test (List.replicate (frameNo memMax / 32) 0xFFFFFFFF#32) m = true
  rw [Bitmap.test, List.getElem?_replicate, if_pos hword]
  exact hbit _ (Nat.mod_lt m (by decide))

end Steps

section Whole
variable {c c' : Phys} {ops : List FrameOp} {marked : Nat → Bool} {n : Nat}

theorem allowed_iff : Allowed FrameOp.mark (fun _ op => frameNo op.addr < n) ops marked ↔
    ∀ op ∈ ops, frameNo op.addr < n := by
  induction ops generalizing marked with
  | nil => exact iff_of_true trivial fun _ h => nomatch h
  | cons op ops ih =>
    rw [Allowed, ih, List.forall_mem_cons]

theorem covered_of_exec {tr : List (FrameOp × Option Bool)} (h : Marks n c marked)
    (hrun : exec FrameOp.run ops c = .ok (tr, c')) : ∀ op ∈ ops, frameNo op.addr < n := by
  induction ops generalizing c c' marked tr with
  | nil => exact fun _ h => nomatch h
  | cons op ops ih =>
    rw [exec] at hrun
    split at hrun
    · cases hrun
    · rename_i r d hd
      split at hrun
      · cases hrun
      · rename_i rs e he
        have hlt := FrameOp.covered_of_run h.initialized hd
        rw [h.covered] at hlt
        obtain ⟨d', hd', hmarks⟩ := FrameOp.run_covered h hlt
        rw [hd'] at hd
        cases hd
        cases hrun
        rw [List.forall_mem_cons]
        exact ⟨hlt, ih hmarks he⟩

/-- The frames behind the last whole word have no bit. -/
theorem runsAsSet_iff {memMax : Word} : RunsAsSet memMax c ops ↔
    ∀ op ∈ ops, frameNo op.addr < frameNo memMax / 32 * 32 := by
  have hstart := marks_frameAllocInit memMax c
  constructor
  · rintro ⟨c', hrun⟩
    exact covered_of_exec hstart hrun
  · intro hops
    obtain ⟨c', hrun, -⟩ := exec_refines FrameOp.run FrameOp.mark
      (fun _ _ _ hR hok => FrameOp.run_covered hR hok) ops _ _ hstart (allowed_iff.mpr hops)
    exact ⟨c', hrun⟩

/-- One frame more than a word covers. -/
theorem not_runsAsSet_top : ¬ RunsAsSet 0x21000#32 fragmented [.set 0x20000#32] := by
  rintro ⟨c', hrun⟩
  exact nomatch hrun

end Whole

end AkKernel
