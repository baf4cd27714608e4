import AkKernel.Boot.MemoryMap
import AkKernel.Foundation.Records
import Mathlib.Data.List.Find

/-!
# Walking the tags

The two loops of `multiboot_mmap` over tags of any type and size. A tag may be shorter than the
structure of its type; its fields are then read from what stands behind it.
-/

set_option autoImplicit false

namespace AkKernel.Boot

open Records

/-- The words of a memory of bytes. -/
def infoOf (mem : Word → UInt8) : Info := fun a =>
  (mem (a + 3#32)).toBitVec ++ (mem (a + 2#32)).toBitVec ++ (mem (a + 1#32)).toBitVec ++
    (mem a).toBitVec

/-- A `multiboot_tag` and the bytes behind its `size`. -/
structure RawTag where
  type : Word
  payload : List UInt8

namespace RawTag

def size (t : RawTag) : Nat := 8 + t.payload.length

/-- From one tag to the next. -/
def stride (t : RawTag) : Nat := (t.size + 7) / 8 * 8

/-- The word at byte `k` of the payload. -/
def word (t : RawTag) (k : Nat) : Word :=
  (t.payload.getD (k + 3) 0).toBitVec ++ (t.payload.getD (k + 2) 0).toBitVec ++
    (t.payload.getD (k + 1) 0).toBitVec ++ (t.payload.getD k 0).toBitVec

/-- The tag stands at `a`. -/
structure At (mem : Word → UInt8) (a : Word) (t : RawTag) : Prop where
  type : infoOf mem a = t.type
  size : infoOf mem (a + 4#32) = BitVec.ofNat 32 t.size
  payload : ∀ i < t.payload.length, mem (a + 8#32 + BitVec.ofNat 32 i) = t.payload.getD i 0

end RawTag

instance RawTag.decidableAt (mem : Word → UInt8) (a : Word) (t : RawTag) : Decidable (t.At mem a) :=
  decidable_of_iff (infoOf mem a = t.type ∧ infoOf mem (a + 4#32) = BitVec.ofNat 32 t.size ∧
      ∀ i < t.payload.length, mem (a + 8#32 + BitVec.ofNat 32 i) = t.payload.getD i 0)
    ⟨fun h => ⟨h.1, h.2.1, h.2.2⟩, fun h => ⟨h.type, h.size, h.payload⟩⟩

/-- Each tag with its address, the first one at `a`. -/
def located : Word → List RawTag → List (Word × RawTag)
  | _, [] => []
  | a, t :: ts => (a, t) :: located (a + BitVec.ofNat 32 t.stride) ts

/-- Where the tag that ends the list is. -/
def endOf : Word → List RawTag → Word
  | a, [] => a
  | a, t :: ts => endOf (a + BitVec.ofNat 32 t.stride) ts

/-- The bytes of the tags, without the one that ends them. -/
def strides : List RawTag → Nat
  | [] => 0
  | t :: ts => t.stride + strides ts

/-- The bytes of the structure with these tags. -/
def totalBytes (tags : List RawTag) : Nat := 16 + strides tags

/-- Where the loop over the entries of a memory map at `tag` reads in its round `k`. -/
def recordAt (info : Info) (tag : Word) (k : Nat) : Word :=
  tag + 16#32 + BitVec.ofNat 32 k * info (tag + 8#32)

/-- The loop over the entries comes to its round `k`. -/
def ReadsRecord (info : Info) (tag : Word) (k : Nat) : Prop :=
  (∀ j ≤ k, (BitVec.ofNat 32 j * info (tag + 8#32)).slt (tagSize info tag) = true) ∧
    ∀ j < k, ∀ w ∈ entrySweeps info (recordAt info tag j), w.Ends

/-- A structure at `mbInfo`, within the kernel's part of the address space, of which the bytes
between the tags may be anything. The records that are read for a memory map lie within it:
the bitmap that the loop writes stands behind it. -/
structure TagImage (mem : Word → UInt8) (mbInfo : Word) (tags : List RawTag) : Prop where
  types : ∀ t ∈ tags, t.type ≠ tagTypeEnd
  totalSize : infoOf mem mbInfo = BitVec.ofNat 32 (totalBytes tags)
  placed : ∀ p ∈ located (mbInfo + 8#32) tags, p.2.At mem p.1
  ended : RawTag.At mem (endOf (mbInfo + 8#32) tags) ⟨tagTypeEnd, []⟩
  low : kZero.toNat ≤ mbInfo.toNat
  fits : mbInfo.toNat + totalBytes tags ≤ kTmpMem.toNat
  records : ∀ p ∈ located (mbInfo + 8#32) tags, p.2.type = tagTypeMmap →
    ∀ k, ReadsRecord (infoOf mem) p.1 k →
      mbInfo.toNat ≤ (recordAt (infoOf mem) p.1 k).toNat ∧
        (recordAt (infoOf mem) p.1 k).toNat + 24 ≤ mbInfo.toNat + totalBytes tags

/-- `mem_max` by the `BASIC_MEMINFO` tag at `tag`. -/
def memMaxAt (info : Info) (tag : Word) : Word := (info (tag + 12#32) + 1024#32) * 1024#32

/-- The first loop of `multiboot_mmap`, with anything for what `frame_alloc_init` does. -/
def meminfoWalk {σ : Type} (info : Info) (init : Word → σ → σ) : Nat → Word → σ → Option σ :=
  walkFind (fun tag => info tag = tagTypeEnd) (fun tag => info tag = tagTypeBasicMeminfo)
    (nextTag info) fun tag => init (memMaxAt info tag)

/-- The second loop, with anything for what is done with a tag. -/
def tagWalk {σ : Type} (info : Info) (examine : Word → σ → Option σ) :
    Nat → Word → σ → Option σ :=
  walkAll (fun tag => info tag = tagTypeEnd) (nextTag info) examine

/-- What the second loop does with the tag at `tag`. -/
def examineTag (info : Info) (tag : Word) (s : Boot) : Option Boot :=
  (mmapTag info tag s).bind (moduleTag info tag)

/-- The rounds that the model gives to each of the loops. -/
def tagRounds : Nat := 2 ^ 29 + 1

/-- Some multiple of `entry_size` is not below `size`, both of them as `int`, and the ranges of
the records that the smaller multiples lead to can be cleared. -/
def EntriesEnd (info : Info) (tag : Word) : Prop :=
  ∃ n, (∀ k < n, (BitVec.ofNat 32 k * info (tag + 8#32)).slt (tagSize info tag) = true ∧
      ∀ w ∈ entrySweeps info (tag + 16#32 + BitVec.ofNat 32 k * info (tag + 8#32)), w.Ends) ∧
    (BitVec.ofNat 32 n * info (tag + 8#32)).slt (tagSize info tag) = false

/-- What is done with the tag comes to an end. -/
structure TagEnds (info : Info) (tag : Word) : Prop where
  mmap : info tag = tagTypeMmap → EntriesEnd info tag
  module : info tag = tagTypeModule → Sweep.Ends ⟨info (tag + 8#32), info (tag + 12#32), true⟩

section Loops
variable {info : Info} {tag a entry i : Word} {s s' : Boot} {fuel n : Nat}

theorem tagLoop_eq_walk (info : Info) (fuel : Nat) : ∀ tag s,
    tagLoop info fuel tag s = tagWalk info (examineTag info) fuel tag s := by
  induction fuel with
  | zero =>
    intro tag s
    rfl
  | succ fuel ih =>
    intro tag s
    rw [tagLoop, tagWalk, walkAll, examineTag, Option.bind_assoc]
    simp only [ih]
    rfl

theorem multibootMmap_rounds (info : Info) (mbInfo : Word) (s : Boot) :
    multibootMmap info mbInfo s = (meminfoLoop info tagRounds (mbInfo + 8#32) s).bind
      (tagLoop info tagRounds (mbInfo + 8#32)) := by
  rw [multibootMmap, tagRounds]

theorem add_zero_entries (size x : Word) : x + BitVec.ofNat 32 0 * size = x := by
  rw [BitVec.zero_mul, BitVec.add_zero]

theorem add_succ_entries (size x : Word) (k : Nat) :
    x + BitVec.ofNat 32 (k + 1) * size = x + size + BitVec.ofNat 32 k * size := by
  rw [BitVec.add_assoc, Nat.add_comm k, BitVec.ofNat_add, BitVec.add_mul, BitVec.one_mul]

theorem mmapEntry_isSome :
    (mmapEntry info entry s).isSome ↔ ∀ w ∈ entrySweeps info entry, w.Ends := by
  rw [mmapEntry_eq]
  exact sweepAll_isSome

theorem mmapLoop_isSome : (mmapLoop info tag fuel i entry s).isSome ↔
    ∃ n < fuel,
      (∀ k < n, (i + BitVec.ofNat 32 k * info (tag + 8#32)).slt (tagSize info tag) = true ∧
        ∀ w ∈ entrySweeps info (entry + BitVec.ofNat 32 k * info (tag + 8#32)), w.Ends) ∧
      (i + BitVec.ofNat 32 n * info (tag + 8#32)).slt (tagSize info tag) = false := by
  induction fuel generalizing i entry s with
  | zero =>
    refine iff_of_false Bool.false_ne_true ?_
    rintro ⟨n, hn, -⟩
    exact absurd hn (Nat.not_lt_zero n)
  | succ fuel ih =>
    rw [exists_stop_succ, mmapLoop]
    simp only [add_succ_entries, add_zero_entries]
    by_cases hi : i.slt (tagSize info tag) = true
    · rw [if_pos hi]
      cases hrun : mmapEntry info entry s with
      | none => simp [hi, ← mmapEntry_isSome (s := s), hrun]
      | some t =>
        rw [Option.bind_some, ih]
        have hends := mmapEntry_isSome.mp (Option.isSome_iff_exists.mpr ⟨t, hrun⟩)
        constructor
        · intro hrest
          exact .inr ⟨⟨hi, hends⟩, hrest⟩
        · rintro (hstop | ⟨-, hrest⟩)
          · rw [hi] at hstop
            cases hstop
          · exact hrest
    · rw [if_neg hi]
      exact iff_of_true rfl (.inl (Bool.eq_false_iff.mpr hi))

/-- `i` takes at most `2 ^ 32` values. -/
theorem mmapTag_isSome (h : info tag = tagTypeMmap) :
    (mmapTag info tag s).isSome ↔ EntriesEnd info tag := by
  unfold mmapTag EntriesEnd
  rw [if_pos h, mmapLoop_isSome]
  simp only [BitVec.zero_add]
  constructor
  · rintro ⟨n, -, hn⟩
    exact ⟨n, hn⟩
  · rintro ⟨n, hbefore, hend⟩
    refine ⟨n, ?_, hbefore, hend⟩
    by_contra hge
    have hwrap : BitVec.ofNat 32 (n - 2 ^ 32) = BitVec.ofNat 32 n := by
      apply BitVec.eq_of_toNat_eq
      rw [BitVec.toNat_ofNat, BitVec.toNat_ofNat]
      omega
    have hearlier := (hbefore (n - 2 ^ 32) (by omega)).1
    rw [hwrap, hend] at hearlier
    cases hearlier

theorem Sweep.run_reserve (first last : Word) (s : Boot) :
    Sweep.run ⟨first, last, true⟩ s = frameSetRange first last s := by
  rw [Sweep.run, if_pos rfl]

theorem moduleTag_isSome : (moduleTag info tag s).isSome ↔
    (info tag = tagTypeModule → Sweep.Ends ⟨info (tag + 8#32), info (tag + 12#32), true⟩) := by
  unfold moduleTag
  by_cases h : info tag = tagTypeModule
  · rw [if_pos h]
    dsimp only
    rw [Option.isSome_map, ← Sweep.run_reserve, Sweep.run_isSome]
    exact ⟨fun hends _ => hends, fun hends => hends h⟩
  · rw [if_neg h]
    exact iff_of_true rfl fun he => absurd he h

theorem examineTag_isSome : (examineTag info tag s).isSome ↔ TagEnds info tag := by
  by_cases hmmap : info tag = tagTypeMmap
  · have hmod : info tag ≠ tagTypeModule := by
      rw [hmmap]
      decide
    unfold examineTag
    cases hrun : mmapTag info tag s with
    | none =>
      refine iff_of_false Bool.false_ne_true fun hends => ?_
      have := (mmapTag_isSome (s := s) hmmap).mpr (hends.mmap hmmap)
      rw [hrun] at this
      cases this
    | some t =>
      rw [Option.bind_some, moduleTag_other hmod]
      refine iff_of_true rfl ⟨fun _ => ?_, fun h => absurd h hmod⟩
      rw [← mmapTag_isSome (s := s) hmmap, hrun]
      rfl
  · unfold examineTag
    rw [mmapTag_other hmmap, Option.bind_some, moduleTag_isSome]
    exact ⟨fun h => ⟨fun he => absurd he hmmap, h⟩, fun h => h.module⟩

end Loops

section Lists
variable {mem : Word → UInt8} {mbInfo a : Word} {t : RawTag} {tags : List RawTag}

theorem RawTag.le_stride (t : RawTag) : 8 ≤ t.stride := by
  unfold stride size
  omega

/-- The size is rounded up as the list was written. -/
theorem RawTag.At.next (h : t.At mem a) (hfits : t.stride ≤ 2 ^ 32 - 8) :
    nextTag (infoOf mem) a = a + BitVec.ofNat 32 t.stride := by
  have hbits : (BitVec.ofNat 32 t.size + 7#32).toNat = t.size + 7 := by
    unfold stride at hfits
    rw [BitVec.toNat_add, BitVec.toNat_ofNat]
    change (t.size % 2 ^ 32 + 7) % 2 ^ 32 = _
    omega
  have hsize : tagSize (infoOf mem) a = BitVec.ofNat 32 t.size := h.size
  rw [nextTag, hsize]
  congr 1
  apply BitVec.eq_of_toNat_eq
  rw [roundUp, hbits, BitVec.toNat_ofNat]
  unfold stride at hfits ⊢
  omega

theorem length_le_strides (tags : List RawTag) : 8 * tags.length ≤ strides tags := by
  induction tags with
  | nil => exact Nat.le_refl _
  | cons t ts ih =>
    have := t.le_stride
    rw [List.length_cons, strides]
    omega

theorem located_length : ∀ (tags : List RawTag) (a : Word), (located a tags).length = tags.length
  | [], _ => rfl
  | _ :: ts, _ => congrArg Nat.succ (located_length ts _)

theorem trail_located (htypes : ∀ t ∈ tags, t.type ≠ tagTypeEnd)
    (hplaced : ∀ p ∈ located a tags, p.2.At mem p.1)
    (hended : RawTag.At mem (endOf a tags) ⟨tagTypeEnd, []⟩) (hfits : strides tags + 8 ≤ 2 ^ 32) :
    Trail (fun tag => infoOf mem tag = tagTypeEnd) (nextTag (infoOf mem)) a
      ((located a tags).map Prod.fst) := by
  induction tags generalizing a with
  | nil => exact .stop hended.type
  | cons t ts ih =>
    rw [strides] at hfits
    have hhere : t.At mem a := hplaced (a, t) List.mem_cons_self
    refine .step ?_ ?_
    · rw [hhere.type]
      exact htypes t List.mem_cons_self
    · rw [hhere.next (by omega)]
      exact ih (fun u hu => htypes u (List.mem_cons_of_mem _ hu))
        (fun p hp => hplaced p (List.mem_cons_of_mem _ hp)) hended (by omega)

theorem TagImage.strides_le (h : TagImage mem mbInfo tags) : strides tags ≤ 2 ^ 30 := by
  have hlow : kZero.toNat = 0xC0000000 := by decide
  have htop : kTmpMem.toNat = 0xFFC00000 := by decide
  have := h.low
  have := h.fits
  unfold totalBytes at this
  omega

theorem TagImage.trail (h : TagImage mem mbInfo tags) :
    Trail (fun tag => infoOf mem tag = tagTypeEnd) (nextTag (infoOf mem)) (mbInfo + 8#32)
      ((located (mbInfo + 8#32) tags).map Prod.fst) :=
  trail_located h.types h.placed h.ended (by have := h.strides_le; omega)

theorem TagImage.rounds (h : TagImage mem mbInfo tags) :
    ((located (mbInfo + 8#32) tags).map Prod.fst).length < tagRounds := by
  have hle := h.strides_le
  have := length_le_strides tags
  rw [List.length_map, located_length]
  unfold tagRounds
  omega

theorem RawTag.At.word (h : t.At mem a) {k : Nat} (hk : k + 4 ≤ t.payload.length) :
    infoOf mem (a + 8#32 + BitVec.ofNat 32 k) = t.word k := by
  have hbyte : ∀ j < 4, mem (a + 8#32 + BitVec.ofNat 32 k + BitVec.ofNat 32 j) =
      t.payload.getD (k + j) 0 := by
    intro j hj
    rw [← h.payload (k + j) (by omega), BitVec.ofNat_add, BitVec.add_assoc (a + 8#32)]
  have hzero := hbyte 0 (by decide)
  rw [BitVec.add_zero] at hzero
  unfold infoOf RawTag.word
  rw [← hbyte 1 (by decide), ← hbyte 2 (by decide), ← hbyte 3 (by decide)]
  rw [hzero]
  rfl

theorem TagImage.type (h : TagImage mem mbInfo tags) :
    ∀ p ∈ located (mbInfo + 8#32) tags, infoOf mem p.1 = p.2.type :=
  fun p hp => (h.placed p hp).type

theorem TagImage.find (h : TagImage mem mbInfo tags) (type : Word) :
    ((located (mbInfo + 8#32) tags).map Prod.fst).find? (fun a => decide (infoOf mem a = type)) =
      ((located (mbInfo + 8#32) tags).find? fun p => decide (p.2.type = type)).map Prod.fst := by
  rw [List.find?_map]
  congr 1
  apply List.find?_congr
  intro p hp
  rw [Function.comp_apply, h.type p hp]

theorem TagImage.meminfo (h : TagImage mem mbInfo tags) {σ : Type} (init : Word → σ → σ) (t : σ) :
    meminfoWalk (infoOf mem) init tagRounds (mbInfo + 8#32) t =
      some (((located (mbInfo + 8#32) tags).find? fun p =>
        decide (p.2.type = tagTypeBasicMeminfo)).elim t
          fun p => init (memMaxAt (infoOf mem) p.1) t) := by
  unfold meminfoWalk
  rw [h.trail.walkFind_eq _ h.rounds, h.find]
  cases (located (mbInfo + 8#32) tags).find? fun p => decide (p.2.type = tagTypeBasicMeminfo) with
  | none => rfl
  | some p => rfl

theorem TagImage.visits (h : TagImage mem mbInfo tags) {σ : Type}
    (examine : Word → σ → Option σ) (t : σ) :
    tagWalk (infoOf mem) examine tagRounds (mbInfo + 8#32) t =
      (located (mbInfo + 8#32) tags).foldlM (fun t p => examine p.1 t) t := by
  unfold tagWalk
  rw [h.trail.walkAll_eq examine h.rounds, List.foldlM_map]

theorem TagImage.ends (h : TagImage mem mbInfo tags) (s : Boot) :
    (tagLoop (infoOf mem) tagRounds (mbInfo + 8#32) s).isSome ↔
      ∀ p ∈ located (mbInfo + 8#32) tags, TagEnds (infoOf mem) p.1 := by
  rw [tagLoop_eq_walk, h.visits]
  exact foldlM_isSome fun p s => examineTag_isSome

end Lists

section Footprint
variable {mem mem' : Word → UInt8} {info info' : Info} {mbInfo a tag entry i : Word}
  {p : Word × RawTag} {tags : List RawTag} {s : Boot} {fuel m n : Nat}

/-- The two memories are the same in the `n` bytes from `a` on. -/
def SameBytes (mem mem' : Word → UInt8) (a : Word) (n : Nat) : Prop :=
  ∀ b : Word, a.toNat ≤ b.toNat → b.toNat < a.toNat + n → mem' b = mem b

theorem SameBytes.words (h : SameBytes mem mem' mbInfo n) (hn : mbInfo.toNat + n ≤ 2 ^ 32)
    (hlow : mbInfo.toNat ≤ a.toNat) (hhigh : a.toNat + m ≤ mbInfo.toNat + n) :
    SameWords (infoOf mem) (infoOf mem') a m := by
  intro k hk
  have hbyte : ∀ j < 4, mem' (a + BitVec.ofNat 32 k + BitVec.ofNat 32 j) =
      mem (a + BitVec.ofNat 32 k + BitVec.ofNat 32 j) := by
    intro j hj
    have hadd : (a + BitVec.ofNat 32 k + BitVec.ofNat 32 j).toNat = a.toNat + k + j := by
      rw [BitVec.toNat_add, BitVec.toNat_add, BitVec.toNat_ofNat, BitVec.toNat_ofNat]
      omega
    exact h _ (by omega) (by omega)
  have hzero := hbyte 0 (by decide)
  rw [BitVec.add_zero] at hzero
  unfold infoOf
  rw [hzero]
  congr 1
  exact congrArg₂ (· ++ ·) (congrArg₂ (· ++ ·) (congrArg _ (hbyte 3 (by decide)))
    (congrArg _ (hbyte 2 (by decide)))) (congrArg _ (hbyte 1 (by decide)))

theorem SameWords.zero (h : SameWords info info' a n) (hn : 4 ≤ n) : info' a = info a := by
  have hzero := h 0 hn
  rwa [BitVec.add_zero] at hzero

theorem next_toNat_tag {t : RawTag} {ts : List RawTag}
    (hfits : a.toNat + strides (t :: ts) < 2 ^ 32) :
    (a + BitVec.ofNat 32 t.stride).toNat = a.toNat + t.stride := by
  rw [strides] at hfits
  rw [BitVec.toNat_add, BitVec.toNat_ofNat]
  omega

theorem located_inside (hfits : a.toNat + strides tags < 2 ^ 32) :
    ∀ p ∈ located a tags, a.toNat ≤ p.1.toNat ∧
      p.1.toNat + p.2.stride ≤ a.toNat + strides tags := by
  induction tags generalizing a with
  | nil => nofun
  | cons t ts ih =>
    have hnext := next_toNat_tag hfits
    rw [strides] at hfits ⊢
    intro p hp
    rcases List.mem_cons.mp hp with rfl | hp
    · refine ⟨Nat.le_refl _, ?_⟩
      dsimp only
      omega
    · have := ih (by omega) p hp
      omega

theorem endOf_toNat (hfits : a.toNat + strides tags < 2 ^ 32) :
    (endOf a tags).toNat = a.toNat + strides tags := by
  induction tags generalizing a with
  | nil => rw [endOf, strides, Nat.add_zero]
  | cons t ts ih =>
    have hnext := next_toNat_tag hfits
    rw [strides] at hfits ⊢
    rw [endOf, ih (by omega), hnext]
    omega

theorem mmapLoop_congr (hsize : tagSize info' tag = tagSize info tag)
    (hentry : info' (tag + 8#32) = info (tag + 8#32))
    (h : ∀ k, (∀ j ≤ k,
        (i + BitVec.ofNat 32 j * info (tag + 8#32)).slt (tagSize info tag) = true) →
      (∀ j < k, ∀ w ∈ entrySweeps info (entry + BitVec.ofNat 32 j * info (tag + 8#32)), w.Ends) →
      entrySweeps info' (entry + BitVec.ofNat 32 k * info (tag + 8#32)) =
        entrySweeps info (entry + BitVec.ofNat 32 k * info (tag + 8#32))) :
    mmapLoop info' tag fuel i entry s = mmapLoop info tag fuel i entry s := by
  induction fuel generalizing i entry s with
  | zero => rfl
  | succ fuel ih =>
    rw [mmapLoop, mmapLoop, hsize, hentry]
    by_cases hi : i.slt (tagSize info tag) = true
    · have hhere := h 0 (fun j hj => by rwa [Nat.le_zero.mp hj, add_zero_entries])
        fun j hj => absurd hj (Nat.not_lt_zero j)
      rw [add_zero_entries] at hhere
      rw [if_pos hi, if_pos hi, mmapEntry_eq, mmapEntry_eq, hhere]
      cases hrun : sweepAll (entrySweeps info entry) s with
      | none => rw [Option.bind_none, Option.bind_none]
      | some t =>
        have hends := sweepAll_isSome.mp (Option.isSome_of_eq_some hrun)
        rw [Option.bind_some, Option.bind_some]
        apply ih
        intro k hk hbefore
        have hnext := h (k + 1) ?_ ?_
        · rwa [add_succ_entries] at hnext
        · rintro (_ | j) hj
          · rwa [add_zero_entries]
          · rw [add_succ_entries]
            exact hk j (Nat.le_of_succ_le_succ hj)
        · rintro (_ | j) hj
          · rwa [add_zero_entries]
          · rw [add_succ_entries]
            exact hbefore j (Nat.lt_of_succ_lt_succ hj)
    · rw [if_neg hi, if_neg hi]

theorem nextTag_congr (h : SameWords info info' a 16) : nextTag info' a = nextTag info a := by
  unfold nextTag tagSize
  rw [h 4 (by decide)]

theorem meminfoLoop_congr
    (hnext : ∀ p ∈ located a tags, nextTag info p.1 = p.1 + BitVec.ofNat 32 p.2.stride)
    (hend : info (endOf a tags) = tagTypeEnd ∧ info' (endOf a tags) = tagTypeEnd)
    (hsame : ∀ p ∈ located a tags, SameWords info info' p.1 16) :
    meminfoLoop info' fuel a s = meminfoLoop info fuel a s := by
  induction tags generalizing a fuel with
  | nil =>
    cases fuel with
    | zero => rfl
    | succ fuel =>
      obtain ⟨hinfo, hinfo'⟩ : info a = tagTypeEnd ∧ info' a = tagTypeEnd := hend
      rw [meminfoLoop, meminfoLoop, if_pos hinfo, if_pos hinfo']
  | cons t ts ih =>
    cases fuel with
    | zero => rfl
    | succ fuel =>
      have ht : SameWords info info' a 16 := hsame (a, t) List.mem_cons_self
      have hrest : meminfoLoop info' fuel (a + BitVec.ofNat 32 t.stride) s =
          meminfoLoop info fuel (a + BitVec.ofNat 32 t.stride) s :=
        ih (fun p hp => hnext p (List.mem_cons_of_mem _ hp)) hend
          fun p hp => hsame p (List.mem_cons_of_mem _ hp)
      have hstep : nextTag info a = _ := hnext (a, t) List.mem_cons_self
      rw [meminfoLoop, meminfoLoop, ht.zero (by decide), nextTag_congr ht, hstep, hrest,
        ht 12 (by decide)]

theorem tagLoop_congr
    (hnext : ∀ p ∈ located a tags, nextTag info p.1 = p.1 + BitVec.ofNat 32 p.2.stride)
    (hend : info (endOf a tags) = tagTypeEnd ∧ info' (endOf a tags) = tagTypeEnd)
    (hsame : ∀ p ∈ located a tags, SameWords info info' p.1 16)
    (hexamine : ∀ p ∈ located a tags, ∀ s, examineTag info' p.1 s = examineTag info p.1 s) :
    tagLoop info' fuel a s = tagLoop info fuel a s := by
  induction tags generalizing a fuel s with
  | nil =>
    cases fuel with
    | zero => rfl
    | succ fuel =>
      obtain ⟨hinfo, hinfo'⟩ : info a = tagTypeEnd ∧ info' a = tagTypeEnd := hend
      rw [tagLoop, tagLoop, if_pos hinfo, if_pos hinfo']
  | cons t ts ih =>
    cases fuel with
    | zero => rfl
    | succ fuel =>
      have ht : SameWords info info' a 16 := hsame (a, t) List.mem_cons_self
      have hrest : ∀ u, tagLoop info' fuel (a + BitVec.ofNat 32 t.stride) u =
          tagLoop info fuel (a + BitVec.ofNat 32 t.stride) u := fun u =>
        ih (fun p hp => hnext p (List.mem_cons_of_mem _ hp)) hend
          (fun p hp => hsame p (List.mem_cons_of_mem _ hp))
          fun p hp => hexamine p (List.mem_cons_of_mem _ hp)
      have hstep : nextTag info a = _ := hnext (a, t) List.mem_cons_self
      have hhere : examineTag info' a s = examineTag info a s := hexamine (a, t) List.mem_cons_self s
      rw [tagLoop_eq_walk, tagLoop_eq_walk, tagWalk, tagWalk, walkAll, walkAll, hhere,
        ht.zero (by decide), nextTag_congr ht, hstep]
      simp only [tagLoop_eq_walk, tagWalk] at hrest
      simp only [hrest]

theorem TagImage.first_toNat (h : TagImage mem mbInfo tags) :
    (mbInfo + 8#32).toNat = mbInfo.toNat + 8 ∧ mbInfo.toNat + (16 + strides tags) < 2 ^ 32 := by
  have htop : kTmpMem.toNat = 0xFFC00000 := by decide
  have hfits := h.fits
  unfold totalBytes at hfits
  constructor
  · rw [BitVec.toNat_add]
    change (mbInfo.toNat + 8) % 2 ^ 32 = _
    omega
  · omega

theorem TagImage.tag_inside (h : TagImage mem mbInfo tags) :
    ∀ p ∈ located (mbInfo + 8#32) tags, mbInfo.toNat ≤ p.1.toNat ∧
      p.1.toNat + p.2.stride + 8 ≤ mbInfo.toNat + (16 + strides tags) := by
  obtain ⟨hfirst, hfits⟩ := h.first_toNat
  intro p hp
  have := located_inside (by omega) p hp
  omega

theorem TagImage.next (h : TagImage mem mbInfo tags) :
    ∀ p ∈ located (mbInfo + 8#32) tags,
      nextTag (infoOf mem) p.1 = p.1 + BitVec.ofNat 32 p.2.stride := by
  have hle := h.first_toNat.2
  intro p hp
  have := h.tag_inside p hp
  exact (h.placed p hp).next (by omega)

/-- The fields of a tag stand in it or in the words behind it. -/
theorem TagImage.field_words (h : TagImage mem mbInfo tags)
    (hsame : SameBytes mem mem' mbInfo (totalBytes tags)) :
    (∀ p ∈ located (mbInfo + 8#32) tags, SameWords (infoOf mem) (infoOf mem') p.1 16) ∧
      infoOf mem' (endOf (mbInfo + 8#32) tags) = tagTypeEnd := by
  obtain ⟨hfirst, hfits⟩ := h.first_toNat
  have hend : (endOf (mbInfo + 8#32) tags).toNat = (mbInfo + 8#32).toNat + strides tags :=
    endOf_toNat (by omega)
  unfold totalBytes at hsame
  constructor
  · intro p hp
    have hin := h.tag_inside p hp
    have := p.2.le_stride
    exact hsame.words (by omega) hin.1 (by omega)
  · have hword : SameWords (infoOf mem) (infoOf mem') (endOf (mbInfo + 8#32) tags) 4 :=
      hsame.words (by omega) (by omega) (by omega)
    rw [hword.zero (Nat.le_refl 4), h.ended.type]

theorem TagImage.examineTag_congr (h : TagImage mem mbInfo tags)
    (hsame : SameBytes mem mem' mbInfo (totalBytes tags))
    (hp : p ∈ located (mbInfo + 8#32) tags) (s : Boot) :
    examineTag (infoOf mem') p.1 s = examineTag (infoOf mem) p.1 s := by
  have hfits := h.first_toNat.2
  have hfield := (h.field_words hsame).1 p hp
  have htype := hfield.zero (by decide)
  have hmmap : mmapTag (infoOf mem') p.1 s = mmapTag (infoOf mem) p.1 s := by
    unfold mmapTag
    rw [htype]
    split
    · rename_i hmmap
      have hsize : tagSize (infoOf mem') p.1 = tagSize (infoOf mem) p.1 := hfield 4 (by decide)
      apply mmapLoop_congr hsize (hfield 8 (by decide))
      intro k hk hbefore
      simp only [BitVec.zero_add] at hk
      obtain ⟨hlow, hhigh⟩ := h.records p hp ((h.type p hp).symm.trans hmmap) k ⟨hk, hbefore⟩
      exact entrySweeps_congr (hsame.words (Nat.le_of_lt hfits) hlow hhigh)
    · rfl
  have hmodule : moduleTag (infoOf mem') p.1 = moduleTag (infoOf mem) p.1 := by
    funext t
    unfold moduleTag
    rw [htype, hfield 8 (by decide), hfield 12 (by decide)]
  unfold examineTag
  rw [hmmap, hmodule]

/-- The loops do not read what they write: they do the same whatever stands outside the
structure. -/
theorem TagImage.multibootMmap_congr (h : TagImage mem mbInfo tags)
    (hsame : SameBytes mem mem' mbInfo (totalBytes tags)) (s : Boot) :
    multibootMmap (infoOf mem') mbInfo s = multibootMmap (infoOf mem) mbInfo s := by
  obtain ⟨hwords, hend⟩ := h.field_words hsame
  rw [multibootMmap_rounds, multibootMmap_rounds,
    meminfoLoop_congr h.next ⟨h.ended.type, hend⟩ hwords]
  congr 1
  funext t
  exact tagLoop_congr h.next ⟨h.ended.type, hend⟩ hwords fun p hp => h.examineTag_congr hsame hp

end Footprint

end AkKernel.Boot
