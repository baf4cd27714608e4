import AkKernel.Foundation.Bitmap
import AkKernel.Foundation.Programs
import AkKernel.Mem.Page

/-!
# Physical memory and the frame allocator

`arch/x86/mem/framealloc.c`. The frame bitmap and the preallocated frames' counter
stand beside the contents of memory: no function of the memory subsystem reaches
them through a mapping.
-/

set_option autoImplicit false

namespace AkKernel

open Programs

/-- `FrameBitmap`, with `FrameCount / 32` words of 32 bits. -/
structure FrameBitmap where
  words : List Word
  frameCount : Nat
  length_eq : words.length = frameCount / 32
  count_le : frameCount ≤ 2 ^ 20

/-- `mem n i` is the `i`-th word of frame `n`. -/
structure Phys where
  mem : Nat → Nat → Word
  bitmap : FrameBitmap
  frameAllocInitialized : Bool
  preallocFrames : Word
  preallocCount : Nat
  mmuReady : Bool

def preallocMaxCount : Nat := 8

namespace FrameBitmap

def mark (b : FrameBitmap) (n : Nat) : FrameBitmap :=
  { b with
    words := Bitmap.setBit b.words n
    length_eq := by rw [Bitmap.setBit, List.length_set, b.length_eq] }

def free (b : FrameBitmap) : Finset Nat := Bitmap.clear b.words

theorem free_lt {b : FrameBitmap} {n : Nat} (h : n ∈ b.free) : n < 2 ^ 20 := by
  have h1 := (Bitmap.mem_clear.mp h).1
  have h2 := b.length_eq
  have h3 := b.count_le
  omega

theorem free_mark {b : FrameBitmap} {n : Nat} (h : n ∈ b.free) :
    (b.mark n).free = b.free.erase n :=
  Bitmap.clear_setBit (Bitmap.mem_clear.mp h).1

end FrameBitmap

abbrev PhysM (α : Type) := Prog Fault Phys α

namespace Phys

def free (c : Phys) : Finset Nat := c.bitmap.free

def setFrame (c : Phys) (n : Nat) (v : Nat → Word) : Phys :=
  { c with mem := Function.update c.mem n v }

def setWord (c : Phys) (n i : Nat) (v : Word) : Phys :=
  c.setFrame n (Function.update (c.mem n) i v)

def mark (c : Phys) (n : Nat) : Phys := { c with bitmap := c.bitmap.mark n }

end Phys

/-- The loop of `frame_alloc_after`, from word `i` on. It counts words up to the
number of frames, so it reads behind the bitmap when nothing is free. -/
def frameAllocAfterLoop (b : FrameBitmap) : Nat → Nat → Except Fault Word
  | 0, _ => .error (.panic "Out of memory\n" [])
  | fuel + 1, i =>
    match b.words[i]? with
    | none => .error .outOfBounds
    | some x =>
      if x = 0xFFFFFFFF#32 then frameAllocAfterLoop b fuel (i + 1)
      else
        match Bitmap.firstClear x with
        | some j => .ok (frameAddr (i * 32 + j))
        | none => frameAllocAfterLoop b fuel (i + 1)

def frameAllocAfter (addr : Word) : PhysM Word := fun c =>
  match frameAllocAfterLoop c.bitmap (c.bitmap.frameCount - frameNo addr) (frameNo addr) with
  | .error e => .error e
  | .ok a => .ok (a, c)

def frameAlloc : PhysM Word := do
  let c ← get
  if c.frameAllocInitialized = false then
    if c.preallocCount = preallocMaxCount then throw (.panic "Out of preallocated frames\n" [])
    else
      set { c with preallocCount := c.preallocCount + 1 }
      pure (c.preallocFrames + BitVec.ofNat 32 (c.preallocCount * 4096))
  else frameAllocAfter 0#32

def frameSet (ptr : Word) : PhysM Unit := fun c =>
  if c.frameAllocInitialized = false then .ok ((), c)
  else if frameNo ptr / 32 < c.bitmap.words.length then .ok ((), c.mark (frameNo ptr))
  else .error .outOfBounds

/-- `frame_alloc` and `frame_set` of what it returned, as every caller pairs them. -/
def frameTake : PhysM Word := do
  let frame ← frameAlloc
  frameSet frame
  pure frame

section Spec
variable {c c' : Phys} {a : Word}

theorem frameAllocAfterLoop_ok {b : FrameBitmap} {fuel i : Nat}
    (h : frameAllocAfterLoop b fuel i = .ok a) : ∃ n ∈ b.free, a = frameAddr n := by
  induction fuel generalizing i with
  | zero => cases h
  | succ fuel ih =>
    rw [frameAllocAfterLoop] at h
    split at h
    · cases h
    · rename_i x hx
      split at h
      · exact ih h
      · split at h
        · rename_i j hj
          obtain ⟨hlt, hb⟩ := Bitmap.firstClear_eq_some hj
          cases h
          exact ⟨i * 32 + j, Bitmap.mem_clear_of_word hx hlt hb, rfl⟩
        · exact ih h

/-- The loop finds a free frame if one is left at or behind the word it starts with. -/
theorem frameAllocAfterLoop_ends {b : FrameBitmap} {n : Nat} (hn : n ∈ b.free) :
    ∀ fuel {i : Nat}, i ≤ n / 32 → n / 32 < i + fuel → ∃ a, frameAllocAfterLoop b fuel i = .ok a := by
  intro fuel
  induction fuel with
  | zero =>
    intro i h1 h2
    omega
  | succ fuel ih =>
    intro i h1 h2
    obtain ⟨hlt, htest⟩ := Bitmap.mem_clear.mp hn
    have hi : i < b.words.length := by omega
    have hnext : i ≠ n / 32 → ∃ a, frameAllocAfterLoop b fuel (i + 1) = .ok a := by
      intro hne
      exact ih (by omega) (by omega)
    have hhere : i = n / 32 → b.words[i].getLsbD (n % 32) = false := by
      intro he
      subst he
      rw [Bitmap.test, List.getElem?_eq_getElem hi] at htest
      exact htest
    rw [frameAllocAfterLoop, List.getElem?_eq_getElem hi]
    dsimp only
    split
    · rename_i hfull
      apply hnext
      intro he
      have hbit := hhere he
      rw [hfull] at hbit
      have hall : ∀ k < 32, (0xFFFFFFFF#32 : Word).getLsbD k = true := by decide
      rw [hall _ (Nat.mod_lt n (by decide))] at hbit
      cases hbit
    · split
      · exact ⟨_, rfl⟩
      · rename_i hnone
        apply hnext
        intro he
        exact Bitmap.firstClear_ne_none (Nat.mod_lt n (by decide)) (hhere he) hnone

theorem frameAlloc_run (hinit : c.frameAllocInitialized = true) :
    frameAlloc c = frameAllocAfter 0#32 c := by
  change (if c.frameAllocInitialized = false then _ else frameAllocAfter 0#32) c = _
  rw [hinit]
  rfl

theorem frameTake_ok (hinit : c.frameAllocInitialized = true) :
    frameTake c = .ok (a, c') ↔ frameAlloc c = .ok (a, c) ∧ c' = c.mark (frameNo a) := by
  have hfound : frameAlloc c = .ok (a, c) → frameNo a / 32 < c.bitmap.words.length := by
    intro h
    rw [frameAlloc_run hinit, frameAllocAfter] at h
    split at h
    · cases h
    · rename_i a' ha
      cases h
      obtain ⟨n, hn, he⟩ := frameAllocAfterLoop_ok ha
      rw [he, frameNo_frameAddr (FrameBitmap.free_lt hn)]
      have := (Bitmap.mem_clear.mp hn).1
      omega
  constructor
  · intro h
    obtain ⟨f, c₁, h1, h2⟩ := bind_ok.mp h
    obtain ⟨⟨⟩, c₂, h3, h4⟩ := bind_ok.mp h2
    obtain ⟨ha, hc⟩ := pure_ok.mp h4
    have hc₁ : c₁ = c := by
      rw [frameAlloc_run hinit, frameAllocAfter] at h1
      split at h1
      · cases h1
      · cases h1
        rfl
    subst ha hc hc₁
    refine ⟨h1, ?_⟩
    rw [frameSet, hinit, if_neg (by decide), if_pos (hfound h1)] at h3
    cases h3
    rfl
  · intro h
    obtain ⟨h1, hc⟩ := h
    have h3 : frameSet a c = .ok ((), c') := by
      rw [frameSet, hinit, if_neg (by decide), if_pos (hfound h1), hc]
    exact (bind_run h1).trans (bind_run h3)

theorem frameTake_fresh (hinit : c.frameAllocInitialized = true)
    (h : frameTake c = .ok (a, c')) : ∃ n ∈ c.free, a = frameAddr n ∧ c' = c.mark n := by
  obtain ⟨h1, hc'⟩ := (frameTake_ok hinit).mp h
  rw [frameAlloc_run hinit, frameAllocAfter] at h1
  split at h1
  · cases h1
  · rename_i a' ha
    cases h1
    obtain ⟨n, hn, he⟩ := frameAllocAfterLoop_ok ha
    refine ⟨n, hn, he, ?_⟩
    rw [hc', he, frameNo_frameAddr (FrameBitmap.free_lt hn)]

theorem frameTake_ends (hinit : c.frameAllocInitialized = true) (hfree : c.free.Nonempty) :
    ∃ n ∈ c.free, frameTake c = .ok (frameAddr n, c.mark n) := by
  obtain ⟨m, hm⟩ := hfree
  have hlt := (Bitmap.mem_clear.mp hm).1
  have hlen := c.bitmap.length_eq
  obtain ⟨a, ha⟩ := frameAllocAfterLoop_ends hm (c.bitmap.frameCount - frameNo 0#32)
    (i := frameNo 0#32) (Nat.zero_le _) (by
      change m / 32 < 0 + (c.bitmap.frameCount - 0)
      omega)
  have h1 : frameAlloc c = .ok (a, c) := by
    rw [frameAlloc_run hinit, frameAllocAfter, ha]
  have h2 := (frameTake_ok hinit).mpr ⟨h1, rfl⟩
  obtain ⟨n, hn, he, hc⟩ := frameTake_fresh hinit h2
  exact ⟨n, hn, by rw [h2, hc, he]⟩

theorem free_mark {n : Nat} (h : n ∈ c.free) : (c.mark n).free = c.free.erase n :=
  FrameBitmap.free_mark h

end Spec

end AkKernel
