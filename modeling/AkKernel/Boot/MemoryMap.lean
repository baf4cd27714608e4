import AkKernel.Boot.Sweeps

/-!
# Well-formed information structures

The tags of a multiboot2 information structure, how they lie in memory
(`arch/x86/boot/multiboot2.h`), and what the loops of `multiboot_mmap` make of them.
-/

set_option autoImplicit false

namespace AkKernel.Boot

/-- A memory-map entry. Later versions of the format may add `more` behind it. -/
structure Region where
  addr : BitVec 64
  len : BitVec 64
  type : Word
  zero : Word
  more : List Word

/-- A tag. `slack` is how far `size` falls short of the multiple of eight where the next tag
begins. -/
inductive Tag where
  | module (modStart modEnd : Word) (cmdline : List Word) (slack : Nat)
  | basicMeminfo (memLower memUpper : Word)
  | mmap (entryVersion : Word) (more : Nat) (entries : List Region)
  | other (type : Word) (body : List Word) (slack : Nat)

def Region.words (r : Region) : List Word :=
  [r.addr.setWidth 32, (r.addr >>> 32).setWidth 32, r.len.setWidth 32, (r.len >>> 32).setWidth 32,
    r.type, r.zero] ++ r.more

namespace Tag

def type : Tag → Word
  | module .. => tagTypeModule
  | basicMeminfo .. => tagTypeBasicMeminfo
  | mmap .. => tagTypeMmap
  | other type .. => type

def body : Tag → List Word
  | module modStart modEnd cmdline _ => modStart :: modEnd :: cmdline
  | basicMeminfo memLower memUpper => [memLower, memUpper]
  | mmap entryVersion more entries =>
    BitVec.ofNat 32 (24 + 4 * more) :: entryVersion :: entries.flatMap Region.words
  | other _ body _ => body

def slack : Tag → Nat
  | module _ _ _ slack => slack
  | other _ _ slack => slack
  | _ => 0

def size (t : Tag) : Nat := 8 + 4 * t.body.length - t.slack

def words (t : Tag) : List Word := t.type :: BitVec.ofNat 32 t.size :: t.body

/-- From one tag to the next. -/
def stride (t : Tag) : Nat := 8 + 4 * t.body.length

def entries : Tag → List Region
  | mmap _ _ entries => entries
  | _ => []

def memUpper : Tag → Option Word
  | basicMeminfo _ memUpper => some memUpper
  | _ => none

/-- What a tag of each type has to be like, apart from `stride` being a multiple of eight. An
entry is no larger than the part of memory where the structure lies. -/
def Fields : Tag → Prop
  | module _ _ cmdline slack => slack < 8 ∧ slack ≤ 4 * cmdline.length
  | basicMeminfo .. => True
  | mmap _ more entries =>
    more % 2 = 0 ∧ more < 2 ^ 28 - 6 ∧ ∀ r ∈ entries, r.more.length = more
  | other type body slack =>
    slack < 8 ∧ slack ≤ 4 * body.length ∧
      type ∉ [tagTypeEnd, tagTypeModule, tagTypeBasicMeminfo, tagTypeMmap]

def WellFormed (t : Tag) : Prop := t.stride % 8 = 0 ∧ t.Fields

instance (t : Tag) : Decidable t.Fields :=
  match t with
  | module .. => inferInstanceAs (Decidable (_ ∧ _))
  | basicMeminfo .. => inferInstanceAs (Decidable True)
  | mmap .. => inferInstanceAs (Decidable (_ ∧ _))
  | other .. => inferInstanceAs (Decidable (_ ∧ _))

instance (t : Tag) : Decidable t.WellFormed := inferInstanceAs (Decidable (_ ∧ _))

end Tag

/-- The words are those from address `a` on. -/
def HoldsWords (info : Info) : Word → List Word → Prop
  | _, [] => True
  | a, x :: xs => info a = x ∧ HoldsWords info (a + 4#32) xs

instance decidableHoldsWords (info : Info) : (a : Word) → (xs : List Word) →
    Decidable (HoldsWords info a xs)
  | _, [] => inferInstanceAs (Decidable True)
  | a, _ :: xs =>
    have := decidableHoldsWords info (a + 4#32) xs
    inferInstanceAs (Decidable (_ ∧ _))

/-- The tags lie one behind the other from `a` on, up to the one that ends them. -/
def Placed (info : Info) : Word → List Tag → Prop
  | a, [] => HoldsWords info a [tagTypeEnd, 8#32]
  | a, t :: ts => HoldsWords info a t.words ∧ Placed info (a + BitVec.ofNat 32 t.stride) ts

instance decidablePlaced (info : Info) : (a : Word) → (ts : List Tag) →
    Decidable (Placed info a ts)
  | a, [] => inferInstanceAs (Decidable (HoldsWords info a _))
  | a, t :: ts =>
    have := decidablePlaced info (a + BitVec.ofNat 32 t.stride) ts
    inferInstanceAs (Decidable (_ ∧ _))

/-- The bytes from the first tag on, with the tag that ends them. -/
def tagBytes : List Tag → Nat
  | [] => 8
  | t :: ts => t.stride + tagBytes ts

/-- A well-formed structure with these tags stands at `mbInfo`, within the kernel's part of
the address space. -/
structure Image (info : Info) (mbInfo : Word) (tags : List Tag) : Prop where
  wellFormed : ∀ t ∈ tags, t.WellFormed
  totalSize : info mbInfo = BitVec.ofNat 32 (8 + tagBytes tags)
  placed : Placed info (mbInfo + 8#32) tags
  low : kZero.toNat ≤ mbInfo.toNat
  fits : mbInfo.toNat + (8 + tagBytes tags) ≤ kTmpMem.toNat

/-- No record that is read behind the last entry of a memory map reaches past the structure. -/
def RecordsInside : List Tag → Prop
  | [] => True
  | t :: ts => (t.type = tagTypeMmap → 24 ≤ tagBytes ts) ∧ RecordsInside ts

instance decidableRecordsInside : (tags : List Tag) → Decidable (RecordsInside tags)
  | [] => inferInstanceAs (Decidable True)
  | _ :: ts =>
    have := decidableRecordsInside ts
    inferInstanceAs (Decidable ((_ → _) ∧ _))

/-- A structure of which the loops read no more than it has. The bitmap that they write stands
behind it. -/
structure Enclosed (info : Info) (mbInfo : Word) (tags : List Tag) : Prop
    extends Image info mbInfo tags where
  records : RecordsInside tags

/-- The memory with the structure at `mbInfo`, and nothing else. -/
def stored (tags : List Tag) (mbInfo : Word) : Info := fun a =>
  (BitVec.ofNat 32 (8 + tagBytes tags) :: 0#32 :: tags.flatMap Tag.words ++
    [tagTypeEnd, 8#32]).getD ((a - mbInfo).toNat / 4) 0#32

/-- The record at `entry`, whatever it is. -/
def entrySweeps (info : Info) (entry : Word) : List Sweep :=
  if info (entry + 16#32) = memoryAvailable then
    [⟨info entry, info entry + info (entry + 8#32), false⟩]
  else []

def Region.sweeps (r : Region) : List Sweep :=
  if r.type = memoryAvailable then
    [⟨r.addr.setWidth 32, r.addr.setWidth 32 + r.len.setWidth 32, false⟩]
  else []

/-- The sweeps for a tag at `a`. The loop over a memory map's entries goes on to what stands
behind the last one. -/
def Tag.sweeps (info : Info) (a : Word) : Tag → List Sweep
  | module modStart modEnd _ _ => [⟨modStart, modEnd, true⟩]
  | basicMeminfo .. => []
  | mmap entryVersion more entries =>
    entries.flatMap Region.sweeps ++
      entrySweeps info (a + BitVec.ofNat 32 (mmap entryVersion more entries).stride)
  | other .. => []

def sweeps (info : Info) : Word → List Tag → List Sweep
  | _, [] => []
  | a, t :: ts => t.sweeps info a ++ sweeps info (a + BitVec.ofNat 32 t.stride) ts

/-- The bitmap that the first loop of `multiboot_mmap` leaves. -/
def initialFrames (tags : List Tag) : Option FrameBitmap :=
  (tags.findSome? Tag.memUpper).map fun memUpper =>
    frameAllocInit ((memUpper + 1024#32) * 1024#32)

section Words
variable {info : Info} {a : Word} {xs ys : List Word}

theorem holdsWords_append : HoldsWords info a (xs ++ ys) ↔
    HoldsWords info a xs ∧ HoldsWords info (a + BitVec.ofNat 32 (4 * xs.length)) ys := by
  induction xs generalizing a with
  | nil => simp [HoldsWords]
  | cons x xs ih =>
    have hstep : a + BitVec.ofNat 32 (4 * (x :: xs).length) =
        a + 4#32 + BitVec.ofNat 32 (4 * xs.length) := by
      rw [List.length_cons, Nat.mul_add, Nat.add_comm, BitVec.ofNat_add, BitVec.add_assoc]
    rw [List.cons_append, HoldsWords, HoldsWords, ih, hstep, and_assoc]

theorem roundUp (x : Word) : ((x + 7#32) &&& ~~~ 7#32).toNat = (x + 7#32).toNat / 8 * 8 := by
  have hmask : ∀ i < 32, (~~~ 7#32 : Word).getLsbD i = decide (3 ≤ i) := by decide
  have hshift : (x + 7#32) &&& ~~~ 7#32 = ((x + 7#32) >>> 3) <<< 3 := by
    apply BitVec.eq_of_getLsbD_eq
    intro i hi
    rw [BitVec.getLsbD_and, hmask i hi, BitVec.getLsbD_shiftLeft, BitVec.getLsbD_ushiftRight]
    by_cases h : 3 ≤ i
    · simp [h, hi, Nat.add_sub_cancel' h]
    · simp [h, Nat.not_le.mp h]
  rw [hshift, BitVec.toNat_shiftLeft, BitVec.toNat_ushiftRight, Nat.shiftLeft_eq,
    Nat.shiftRight_eq_div_pow]
  have := (x + 7#32).isLt
  omega

end Words

section Tags
variable {info : Info} {a tag entry i : Word} {t : Tag} {tags : List Tag} {s : Boot}
  {fuel : Nat}

theorem HoldsWords.type (h : HoldsWords info a t.words) : info a = t.type := h.1

theorem HoldsWords.size (h : HoldsWords info a t.words) :
    tagSize info a = BitVec.ofNat 32 t.size := h.2.1

theorem HoldsWords.body (h : HoldsWords info a t.words) : HoldsWords info (a + 8#32) t.body := by
  have h2 := h.2.2
  rwa [BitVec.add_assoc] at h2

theorem nextTag_eq (hwf : t.WellFormed) (h : HoldsWords info a t.words) (hle : t.stride ≤ 2 ^ 30) :
    nextTag info a = a + BitVec.ofNat 32 t.stride := by
  have hslack : t.slack < 8 := by
    cases t with
    | module => exact hwf.2.1
    | other => exact hwf.2.1
    | _ => exact Nat.zero_lt_succ 7
  have hsize : t.size = t.stride - t.slack := rfl
  have hmod := hwf.1
  have hlow : t.slack ≤ t.stride := by
    cases t with
    | module =>
      have := hwf.2.2
      simp only [Tag.slack, Tag.stride, Tag.body, List.length_cons]
      omega
    | other =>
      have := hwf.2.2.1
      simp only [Tag.slack, Tag.stride, Tag.body]
      omega
    | _ => exact Nat.zero_le _
  have hbits : (BitVec.ofNat 32 t.size + 7#32).toNat = t.size + 7 := by
    rw [BitVec.toNat_add, BitVec.toNat_ofNat]
    change (t.size % 2 ^ 32 + 7) % 2 ^ 32 = _
    omega
  rw [nextTag, h.size]
  congr 1
  apply BitVec.eq_of_toNat_eq
  rw [roundUp, hbits, BitVec.toNat_ofNat]
  omega

/-- The first loop makes the bitmap by the first tag of its type. -/
theorem meminfoLoop_frames (hwf : ∀ t ∈ tags, t.WellFormed) (h : Placed info a tags)
    (hle : tagBytes tags ≤ 2 ^ 30) (hfuel : tags.length < fuel) (hs : s.frames = none) :
    ∃ s', meminfoLoop info fuel a s = some s' ∧ s'.frames = initialFrames tags := by
  induction tags generalizing a fuel with
  | nil =>
    obtain ⟨fuel, rfl⟩ := Nat.exists_eq_add_one.mpr hfuel
    exact ⟨s, by rw [meminfoLoop, if_pos h.1], hs⟩
  | cons t ts ih =>
    obtain ⟨fuel, rfl⟩ := Nat.exists_eq_add_one.mpr (Nat.zero_lt_of_lt hfuel)
    obtain ⟨ht, hts⟩ := h
    have hwf' := (List.forall_mem_cons.mp hwf)
    have hstride : t.stride ≤ 2 ^ 30 := by
      unfold tagBytes at hle
      omega
    have hnext : t.memUpper = none → t.type ≠ tagTypeEnd → t.type ≠ tagTypeBasicMeminfo →
        ∃ s', meminfoLoop info (fuel + 1) a s = some s' ∧
          s'.frames = initialFrames (t :: ts) := by
      intro hnone hend htype
      rw [meminfoLoop, ht.type, if_neg hend, if_pos htype, nextTag_eq hwf'.1 ht hstride,
        initialFrames, List.findSome?_cons, hnone]
      refine ih hwf'.2 hts ?_ ?_
      · unfold tagBytes at hle
        omega
      · rw [List.length_cons] at hfuel
        omega
    cases t with
    | module => exact hnext rfl (show tagTypeModule ≠ _ by decide) (show tagTypeModule ≠ _ by decide)
    | mmap => exact hnext rfl (show tagTypeMmap ≠ _ by decide) (show tagTypeMmap ≠ _ by decide)
    | other type body slack =>
      have hmem := hwf'.1.2.2.2
      refine hnext rfl ?_ ?_
      · intro he
        exact hmem (List.mem_cons.mpr (Or.inl he))
      · intro he
        exact hmem (List.mem_cons_of_mem _ (List.mem_cons_of_mem _
          (List.mem_cons.mpr (Or.inl he))))
    | basicMeminfo memLower memUpper =>
      have hupper : info (a + 12#32) = memUpper := by
        have := ht.body.2.1
        rwa [BitVec.add_assoc] at this
      rw [meminfoLoop, ht.type, Tag.type, if_neg (by decide), if_neg (by decide), hupper]
      exact ⟨_, rfl, rfl⟩

theorem mmapEntry_eq : mmapEntry info entry s = sweepAll (entrySweeps info entry) s := by
  unfold mmapEntry entrySweeps
  split
  · rw [sweepAll_singleton, Sweep.run, if_neg Bool.false_ne_true]
  · rfl

theorem Region.sweeps_eq {r : Region} (h : HoldsWords info entry r.words) :
    entrySweeps info entry = r.sweeps := by
  obtain ⟨haddr, -, hlen, -, htype, -⟩ := h
  have hlen' : info (entry + 8#32) = r.len.setWidth 32 := by
    rwa [BitVec.add_assoc] at hlen
  have htype' : info (entry + 16#32) = r.type := by
    rwa [BitVec.add_assoc, BitVec.add_assoc, BitVec.add_assoc] at htype
  rw [entrySweeps, haddr, hlen', htype', Region.sweeps]

theorem slt_iff {x y : Word} (hx : x.toNat < 2 ^ 31) (hy : y.toNat < 2 ^ 31) :
    x.slt y = true ↔ x.toNat < y.toNat := by
  rw [BitVec.slt_iff_toInt_lt, BitVec.toInt_eq_toNat_of_lt (by omega),
    BitVec.toInt_eq_toNat_of_lt (by omega)]
  omega

/-- The loop over the entries, from the one at `i` on: those that are left, and then what
stands behind them. -/
theorem mmapLoop_eq {entries : List Region} {size more : Nat}
    (hsize : tagSize info tag = BitVec.ofNat 32 size)
    (hentry : info (tag + 8#32) = BitVec.ofNat 32 (24 + 4 * more))
    (hi : i.toNat + (24 + 4 * more) * entries.length + 16 = size) (hle : size ≤ 2 ^ 30)
    (hmore : 24 + 4 * more < 2 ^ 30) (hlen : ∀ r ∈ entries, r.more.length = more)
    (h : HoldsWords info entry (entries.flatMap Region.words)) (hfuel : entries.length + 1 < fuel) :
    mmapLoop info tag fuel i entry s =
      sweepAll (entries.flatMap Region.sweeps ++
        entrySweeps info (entry + BitVec.ofNat 32 ((24 + 4 * more) * entries.length))) s := by
  have hsz : (BitVec.ofNat 32 size).toNat = size := by
    rw [BitVec.toNat_ofNat]
    omega
  have hes : (BitVec.ofNat 32 (24 + 4 * more)).toNat = 24 + 4 * more := by
    rw [BitVec.toNat_ofNat]
    omega
  induction entries generalizing i entry fuel s with
  | nil =>
    obtain ⟨k, rfl⟩ : ∃ k, fuel = k + 2 := Nat.exists_eq_add_of_le' hfuel
    rw [List.length_nil, Nat.mul_zero] at hi
    have hnext : (i + BitVec.ofNat 32 (24 + 4 * more)).toNat = i.toNat + (24 + 4 * more) := by
      rw [BitVec.toNat_add, hes]
      omega
    have hstop : ∀ s, mmapLoop info tag (k + 1) (i + BitVec.ofNat 32 (24 + 4 * more))
        (entry + BitVec.ofNat 32 (24 + 4 * more)) s = some s := by
      intro s
      rw [mmapLoop, hsize, if_neg]
      rw [slt_iff (by omega) (by omega), hnext, hsz]
      omega
    have hhere : i.slt (tagSize info tag) = true := by
      rw [hsize, slt_iff (by omega) (by omega), hsz]
      omega
    rw [mmapLoop, if_pos hhere, hentry]
    simp only [hstop, mmapEntry_eq, Option.bind_fun_some]
    simp
  | cons r rs ih =>
    obtain ⟨fuel, rfl⟩ := Nat.exists_eq_add_one.mpr (Nat.zero_lt_of_lt hfuel)
    rw [List.length_cons] at hfuel
    rw [List.length_cons, Nat.mul_add, Nat.mul_one] at hi
    have hhere : i.slt (tagSize info tag) = true := by
      rw [hsize, slt_iff (by omega) (by omega), hsz]
      omega
    have hnext : (i + BitVec.ofNat 32 (24 + 4 * more)).toNat = i.toNat + (24 + 4 * more) := by
      rw [BitVec.toNat_add, hes]
      omega
    have hr := List.forall_mem_cons.mp hlen
    rw [List.flatMap_cons] at h
    obtain ⟨hhead, htail⟩ := holdsWords_append.mp h
    have hwords : 4 * r.words.length = 24 + 4 * more := by
      rw [← hr.1]
      simp only [Region.words, List.length_append, List.length_cons, List.length_nil]
      omega
    rw [hwords] at htail
    have hend : entry + BitVec.ofNat 32 ((24 + 4 * more) * (r :: rs).length) =
        entry + BitVec.ofNat 32 (24 + 4 * more) +
          BitVec.ofNat 32 ((24 + 4 * more) * rs.length) := by
      rw [List.length_cons, Nat.mul_add, Nat.mul_one, Nat.add_comm, BitVec.ofNat_add,
        BitVec.add_assoc]
    rw [mmapLoop, if_pos hhere, hentry, mmapEntry_eq, Region.sweeps_eq hhead, List.flatMap_cons,
      List.append_assoc, sweepAll_append, hend]
    congr 1
    funext s'
    exact ih (by omega) hr.2 htail (by omega)

theorem mmapTag_other (h : info tag ≠ tagTypeMmap) : mmapTag info tag s = some s := if_neg h

theorem moduleTag_other (h : info tag ≠ tagTypeModule) : moduleTag info tag s = some s := if_neg h

theorem mmapTag_eq {entryVersion : Word} {more : Nat} {entries : List Region}
    (hwf : (Tag.mmap entryVersion more entries).WellFormed)
    (h : HoldsWords info tag (Tag.mmap entryVersion more entries).words)
    (hle : (Tag.mmap entryVersion more entries).stride ≤ 2 ^ 30) :
    mmapTag info tag s = sweepAll ((Tag.mmap entryVersion more entries).sweeps info tag) s := by
  obtain ⟨hentry, -, hentries⟩ := h.body
  obtain ⟨-, hmore, hlen⟩ := hwf.2
  have hcount : ∀ rs : List Region, (∀ r ∈ rs, r.more.length = more) →
      4 * (rs.flatMap Region.words).length = (24 + 4 * more) * rs.length := by
    intro rs
    induction rs with
    | nil => intro _; rfl
    | cons r rs ih =>
      intro hrs
      obtain ⟨hr, hrs⟩ := List.forall_mem_cons.mp hrs
      have hwords : r.words.length = 6 + more := by
        rw [← hr]
        simp only [Region.words, List.length_append, List.length_cons, List.length_nil]
      rw [List.flatMap_cons, List.length_append, Nat.mul_add, ih hrs, hwords, List.length_cons,
        Nat.mul_add (24 + 4 * more)]
      omega
  have hstride : (Tag.mmap entryVersion more entries).stride =
      16 + (24 + 4 * more) * entries.length := by
    rw [← hcount entries hlen]
    simp only [Tag.stride, Tag.body, List.length_cons]
    omega
  have hfirst : HoldsWords info (tag + 16#32) (entries.flatMap Region.words) := by
    rwa [BitVec.add_assoc, BitVec.add_assoc] at hentries
  have hend : tag + BitVec.ofNat 32 (Tag.mmap entryVersion more entries).stride =
      tag + 16#32 + BitVec.ofNat 32 ((24 + 4 * more) * entries.length) := by
    rw [hstride, BitVec.ofNat_add, BitVec.add_assoc]
  have hlength : entries.length ≤ (24 + 4 * more) * entries.length :=
    Nat.le_mul_of_pos_left _ (by omega)
  have htype : info tag = tagTypeMmap := h.type
  rw [mmapTag, if_pos htype, Tag.sweeps, hend]
  refine mmapLoop_eq h.size hentry ?_ ?_ (by omega) hlen hfirst (by omega)
  · have hsize : (Tag.mmap entryVersion more entries).size =
        (Tag.mmap entryVersion more entries).stride := rfl
    rw [hsize, hstride]
    change 0 + _ + 16 = _
    omega
  · exact hle

theorem bind_frames {x y : Option Boot} {f g : Boot → Option Boot}
    (hxy : x.map frames = y.map frames)
    (h : ∀ u v : Boot, u.frames = v.frames → (f u).map frames = (g v).map frames) :
    (x.bind f).map frames = (y.bind g).map frames := by
  cases x with
  | none =>
    cases y with
    | none => rfl
    | some v => cases hxy
  | some u =>
    cases y with
    | none => cases hxy
    | some v => exact h u v (Option.some.inj hxy)

theorem moduleTag_frames {modStart modEnd : Word} {cmdline : List Word} {slack : Nat}
    (h : HoldsWords info a (Tag.module modStart modEnd cmdline slack).words) :
    (moduleTag info a s).map frames =
      (sweepAll ((Tag.module modStart modEnd cmdline slack).sweeps info a) s).map frames := by
  have htype : info a = tagTypeModule := h.type
  obtain ⟨hstart, hend, -⟩ := h.body
  have hend : info (a + 12#32) = modEnd := by
    rwa [BitVec.add_assoc] at hend
  rw [Tag.sweeps, sweepAll_singleton, Sweep.run, if_pos rfl, moduleTag, if_pos htype]
  dsimp only
  rw [hstart, hend, Option.map_map]
  exact frameLoop_congr rfl

theorem tag_frames (hwf : t.WellFormed) (h : HoldsWords info a t.words) (hle : t.stride ≤ 2 ^ 30) :
    ((mmapTag info a s).bind (moduleTag info a)).map frames =
      (sweepAll (t.sweeps info a) s).map frames := by
  -- a tag that is neither a memory map nor a module leaves the frames alone
  have hskip : t.type ≠ tagTypeMmap → t.type ≠ tagTypeModule → t.sweeps info a = [] →
      ((mmapTag info a s).bind (moduleTag info a)).map frames =
        (sweepAll (t.sweeps info a) s).map frames := by
    intro hmmap hmod hnil
    rw [← h.type] at hmmap hmod
    rw [mmapTag_other hmmap, Option.bind_some, moduleTag_other hmod, hnil, sweepAll]
  cases t with
  | basicMeminfo =>
    exact hskip (show tagTypeBasicMeminfo ≠ _ by decide) (show tagTypeBasicMeminfo ≠ _ by decide) rfl
  | other type body slack =>
    have hmem := hwf.2.2.2
    simp only [List.mem_cons, List.not_mem_nil, or_false, not_or] at hmem
    exact hskip hmem.2.2.2 hmem.2.1 rfl
  | mmap entryVersion more entries =>
    have hmod : info a ≠ tagTypeModule := by
      rw [h.type]
      exact show tagTypeMmap ≠ _ by decide
    have hskipped : ∀ x : Option Boot, x.bind (moduleTag info a) = x := by
      intro x
      cases x with
      | none => rfl
      | some u => exact moduleTag_other hmod
    rw [hskipped, mmapTag_eq hwf h hle]
  | module modStart modEnd cmdline slack =>
    have hmmap : info a ≠ tagTypeMmap := by
      rw [h.type]
      exact show tagTypeModule ≠ _ by decide
    rw [mmapTag_other hmmap, Option.bind_some, moduleTag_frames h]

theorem Tag.WellFormed.type_ne_end (hwf : t.WellFormed) : t.type ≠ tagTypeEnd := by
  cases t with
  | module => exact show tagTypeModule ≠ _ by decide
  | basicMeminfo => exact show tagTypeBasicMeminfo ≠ _ by decide
  | mmap => exact show tagTypeMmap ≠ _ by decide
  | other type body slack => exact fun he => hwf.2.2.2 (List.mem_cons.mpr (Or.inl he))

theorem tagLoop_frames (hwf : ∀ t ∈ tags, t.WellFormed) (h : Placed info a tags)
    (hle : tagBytes tags ≤ 2 ^ 30) (hfuel : tags.length < fuel) :
    (tagLoop info fuel a s).map frames = (sweepAll (sweeps info a tags) s).map frames := by
  induction tags generalizing a fuel s with
  | nil =>
    obtain ⟨fuel, rfl⟩ := Nat.exists_eq_add_one.mpr hfuel
    rw [tagLoop, if_pos h.1, sweeps, sweepAll]
  | cons t ts ih =>
    obtain ⟨fuel, rfl⟩ := Nat.exists_eq_add_one.mpr (Nat.zero_lt_of_lt hfuel)
    obtain ⟨ht, hts⟩ := h
    have hwf' := List.forall_mem_cons.mp hwf
    rw [List.length_cons] at hfuel
    rw [tagBytes] at hle
    have htype : info a ≠ tagTypeEnd := by
      rw [ht.type]
      exact hwf'.1.type_ne_end
    rw [tagLoop, if_neg htype, nextTag_eq hwf'.1 ht (by omega), sweeps, sweepAll_append,
      ← Option.bind_assoc]
    refine bind_frames (tag_frames hwf'.1 ht (by omega)) ?_
    intro u v huv
    rw [ih hwf'.2 hts (by omega) (by omega)]
    exact sweepAll_congr huv

end Tags

section Images
variable {info : Info} {mbInfo brk : Word} {tags : List Tag}

theorem Image.tagBytes_le (h : Image info mbInfo tags) :
    tagBytes tags ≤ 2 ^ 30 ∧ 8 * tags.length ≤ tagBytes tags := by
  have hlow : kZero.toNat = 0xC0000000 := by decide
  have htop : kTmpMem.toNat = 0xFFC00000 := by decide
  refine ⟨?_, ?_⟩
  · have := h.low
    have := h.fits
    omega
  · clear h
    induction tags with
    | nil => exact Nat.zero_le _
    | cons t ts ih =>
      rw [List.length_cons, tagBytes, Tag.stride]
      omega

theorem Image.meminfo (h : Image info mbInfo tags) :
    ∃ s, meminfoLoop info (2 ^ 29 + 1) (mbInfo + 8#32) reset = some s ∧
      s.frames = initialFrames tags := by
  obtain ⟨hle, hcount⟩ := h.tagBytes_le
  exact meminfoLoop_frames h.wellFormed h.placed hle (by omega) rfl

theorem multibootMmap_frames (h : Image info mbInfo tags) :
    ∃ s, s.frames = initialFrames tags ∧
      (multibootMmap info mbInfo reset).map frames =
        (sweepAll (sweeps info (mbInfo + 8#32) tags) s).map frames := by
  obtain ⟨hle, hcount⟩ := h.tagBytes_le
  obtain ⟨s, hs, hframes⟩ := h.meminfo
  refine ⟨s, hframes, ?_⟩
  rw [multibootMmap, hs, Option.bind_some]
  exact tagLoop_frames h.wellFormed h.placed hle (by omega)

end Images

section Footprint
variable {info info' : Info} {mbInfo a : Word} {tags : List Tag} {xs : List Word}

/-- The two memories are the same in the `n` bytes from `a` on. -/
def SameWords (info info' : Info) (a : Word) (n : Nat) : Prop :=
  ∀ k, k + 4 ≤ n → info' (a + BitVec.ofNat 32 k) = info (a + BitVec.ofNat 32 k)

theorem SameWords.drop {m n : Nat} (h : SameWords info info' a (m + n)) :
    SameWords info info' (a + BitVec.ofNat 32 m) n := by
  intro k hk
  rw [BitVec.add_assoc, ← BitVec.ofNat_add]
  exact h (m + k) (by omega)

theorem SameWords.take {m n : Nat} (h : SameWords info info' a n) (hle : m ≤ n) :
    SameWords info info' a m :=
  fun k hk => h k (Nat.le_trans hk hle)

theorem HoldsWords.congr (hw : HoldsWords info a xs)
    (h : SameWords info info' a (4 * xs.length)) : HoldsWords info' a xs := by
  induction xs generalizing a with
  | nil => trivial
  | cons x xs ih =>
    rw [List.length_cons, Nat.mul_add, Nat.add_comm] at h
    have hhead := h 0 (by omega)
    rw [BitVec.add_zero] at hhead
    exact ⟨hhead.trans hw.1, ih hw.2 h.drop⟩

theorem Placed.congr (hp : Placed info a tags) (h : SameWords info info' a (tagBytes tags)) :
    Placed info' a tags := by
  induction tags generalizing a with
  | nil =>
    have hend : HoldsWords info a [tagTypeEnd, 8#32] := hp
    exact hend.congr h
  | cons t ts ih =>
    have hwords : 4 * t.words.length = t.stride := by
      rw [Tag.words, Tag.stride, List.length_cons, List.length_cons]
      omega
    rw [tagBytes] at h
    refine ⟨hp.1.congr (h.take ?_), ih hp.2 h.drop⟩
    omega

theorem entrySweeps_congr (h : SameWords info info' a 24) :
    entrySweeps info' a = entrySweeps info a := by
  have hhead := h 0 (by decide)
  rw [BitVec.add_zero] at hhead
  rw [entrySweeps, entrySweeps, hhead, h 8 (by decide), h 16 (by decide)]

theorem sweeps_congr (hr : RecordsInside tags) (h : SameWords info info' a (tagBytes tags)) :
    sweeps info' a tags = sweeps info a tags := by
  induction tags generalizing a with
  | nil => rfl
  | cons t ts ih =>
    rw [tagBytes] at h
    rw [sweeps, sweeps, ih hr.2 h.drop]
    congr 1
    cases t with
    | mmap => exact congrArg _ (entrySweeps_congr (h.drop.take (hr.1 rfl)))
    | _ => rfl

theorem Enclosed.congr (he : Enclosed info mbInfo tags)
    (h : SameWords info info' mbInfo (8 + tagBytes tags)) : Enclosed info' mbInfo tags := by
  have hsize := h 0 (by omega)
  rw [BitVec.add_zero] at hsize
  exact
    { he with
      totalSize := hsize.trans he.totalSize
      placed := he.placed.congr h.drop }

/-- The loops do not read what they write: the bitmap is the same whatever stands outside the
structure. -/
theorem Enclosed.multibootMmap_congr (he : Enclosed info mbInfo tags)
    (h : SameWords info info' mbInfo (8 + tagBytes tags)) :
    (multibootMmap info' mbInfo reset).map frames =
      (multibootMmap info mbInfo reset).map frames := by
  obtain ⟨s, hs, hrun⟩ := multibootMmap_frames he.toImage
  obtain ⟨s', hs', hrun'⟩ := multibootMmap_frames (he.congr h).toImage
  rw [hrun, hrun', sweeps_congr he.records h.drop]
  exact sweepAll_congr (hs'.trans hs.symm)

end Footprint

end AkKernel.Boot
