import AkKernel.Kernel.UserMemory
import AkKernel.Proc.ElfImage
import Mathlib.Algebra.BigOperators.Intervals

/-!
# Loading a segment

A round of the loop of `elf_load`, for an image whose program headers are still in memory when
they are read. The new pages of a segment hold what was left in their frames until its bytes are
copied; what they held before is lost.
-/

set_option autoImplicit false

namespace AkKernel

open Programs Areas

/-- The part of a round behind `pg_alloc_range`. -/
def elfFillSegment (elfData segment baseAddr limAddr brk : Word) : KernM Word := do
  let offset ← loadWord (segment + 4#32)
  let filesz ← loadWord (segment + 16#32)
  memcpy baseAddr (elfData + offset) filesz.toNat
  let filesz ← loadWord (segment + 16#32)
  let memsz ← loadWord (segment + 20#32)
  memset (baseAddr + filesz) 0 (memsz - filesz).toNat
  pure (if brk < limAddr then limAddr else brk)

/-- Round `k` begins: the file is mapped, and the headers from here on are in memory. -/
structure Loading (Q : Word → UInt8 → Prop) (ds : Set Nat) (d : Nat) (elf : Elf) (elfData : Word)
    (k : Nat) (c : Phys) : Prop extends UserPages Q ds c where
  buffer : ∀ ofs, ofs.toNat < elf.length.toNat → byteAt c d (elfData + ofs) ≠ none
  ahead : ∀ ofs, elf.Ahead k ofs → byteAt c d (elfData + ofs) = some (elf.data ofs)

/-- The pages of segment `k` are there. -/
structure Laid (Q : Word → UInt8 → Prop) (ds : Set Nat) (d : Nat) (elf : Elf) (elfData : Word)
    (k : Nat) (c : Phys) : Prop extends UserPages Q ds c where
  buffer : ∀ ofs, ofs.toNat < elf.length.toNat → byteAt c d (elfData + ofs) ≠ none
  reread : ∀ ofs, elf.Reread k ofs → byteAt c d (elfData + ofs) = some (elf.data ofs)
  mapped : ∀ v, elf.InMemory v k → byteAt c d v ≠ none

/-- From `c` to `c'` segment `k` was loaded, from what the file in memory was then. -/
structure Placed (Q : Word → UInt8 → Prop) (d : Nat) (elf : Elf) (elfData : Word) (k : Nat)
    (c c' : Phys) : Prop where
  copied : ∀ v, elf.Copied v k → byteAt c' d v = byteAt c' d (elfData + elf.fileOffset k v)
  zeros : ∀ v, elf.InMemory v k → ¬ elf.Copied v k → byteAt c' d v = some 0
  kept : ∀ v, v < kZero → ¬ elf.InMemory v k → v.toNat / 4096 ∉ elf.pages k →
    byteAt c' d v = byteAt c d v
  fresh : ∀ v, v < kZero → ¬ elf.InMemory v k → v.toNat / 4096 ∈ elf.pages k →
    ∃ b, byteAt c' d v = some b ∧ Q v b

section Segment
variable {Q : Word → UInt8 → Prop} {s : Kern} {c c₁ c₂ c' : Phys} {ds : Set Nat} {elf : Elf}
  {elfData brk : Word} {k fuel : Nat}

theorem Elf.Loadable.pages_inMemory (himage : elf.Loadable elfData) {v : Word}
    (hin : elf.InMemory v k) : v.toNat / 4096 ∈ elf.pages k := by
  apply mem_passed (by decide) (BitVec.le_def.mp hin.from_start)
  rw [himage.limAddr_toNat hin.loads]
  have hwithin := hin.within
  omega

theorem segment_add (field : Word) : elfData + elf.phdr + BitVec.ofNat 32 (32 * k) + field =
    elfData + (elf.phdrAt k + field) := by
  rw [Elf.phdrAt, BitVec.add_assoc, BitVec.add_assoc, BitVec.add_assoc]

section Loaded
variable (hl : Loaded s) (himage : elf.Loadable elfData)

include hl himage

theorem header_run (data : ElfData) (field : Word) (hk : k < elf.numSegments)
    (hfield : field.toNat ≤ 28)
    (hb : ∀ b < 4, byteAt c (frameNo s.proc.cur.pgd)
      (elfData + (elf.phdrAt k + field + BitVec.ofNat 32 b)) =
        some (data (elf.phdrAt k + field + BitVec.ofNat 32 b))) :
    loadWord (elfData + elf.phdr + BitVec.ofNat 32 (32 * k) + field) (s.withPhys c) =
      .ok (elfWord data (elf.phdrAt k + field), s.withPhys c) := by
  have hz : kZero.toNat = 3221225472 := rfl
  have hheaders := himage.headers
  have hbuffer := himage.buffer_lt
  have hofs : (elf.phdrAt k + field).toNat = elf.phdr.toNat + 32 * k + field.toNat := by
    rw [Elf.phdrAt, BitVec.toNat_add, BitVec.toNat_add, BitVec.toNat_ofNat]
    omega
  rw [segment_add]
  apply loadWord_run hl
  · rw [himage.buffer_toNat (by omega)]
    omega
  · intro b hlt
    rw [BitVec.add_assoc elfData]
    exact hb b hlt

theorem Loading.type_run (h : Loading Q ds (frameNo s.proc.cur.pgd) elf elfData k c)
    (hk : k < elf.numSegments) :
    loadWord (elfData + elf.phdr + BitVec.ofNat 32 (32 * k)) (s.withPhys c) =
      .ok (elfWord elf.data (elf.phdrAt k), s.withPhys c) := by
  have htype := header_run hl himage elf.data 0#32 hk (by decide) (c := c) (by
    intro b hb
    exact h.ahead _ (.type k (Nat.le_refl k) hk ⟨0#32, b, by simp, hb⟩))
  rwa [BitVec.add_zero, BitVec.add_zero] at htype

theorem Loading.skip (h : Loading Q ds (frameNo s.proc.cur.pgd) elf elfData k c)
    (hk : k < elf.numSegments) (hno : ¬ elf.Load k) :
    elfLoadSegment fuel elfData (elfData + elf.phdr + BitVec.ofNat 32 (32 * k)) brk
      (s.withPhys c) = .ok (brk, s.withPhys c) := by
  have htype := h.type_run hl himage hk
  have hne : elfWord elf.data (elf.phdrAt k) ≠ ptLoad := fun heq => hno ⟨hk, heq⟩
  unfold elfLoadSegment
  rw [bind_run htype, if_pos hne]
  rfl

/-- What the round reads before it allocates the pages of the segment is as in the file. -/
theorem Loading.begins (h : Loading Q ds (frameNo s.proc.cur.pgd) elf elfData k c)
    (hload : elf.Load k) :
    elfLoadSegment fuel elfData (elfData + elf.phdr + BitVec.ofNat 32 (32 * k)) brk
      (s.withPhys c) =
    (do onMem fun cur => pgAllocRange cur fuel (elf.phVaddr k) (elf.limAddr k)
        elfFillSegment elfData (elfData + elf.phdr + BitVec.ofNat 32 (32 * k)) (elf.phVaddr k)
          (elf.limAddr k) brk : KernM Word) (s.withPhys c) := by
  have hk := hload.1
  have htype := h.type_run hl himage hk
  have hfield : ∀ f ∈ [4#32, 8#32, 16#32, 20#32],
      loadWord (elfData + elf.phdr + BitVec.ofNat 32 (32 * k) + f) (s.withPhys c) =
        .ok (elfWord elf.data (elf.phdrAt k + f), s.withPhys c) := by
    intro f hf
    refine header_run hl himage _ _ hk ?_ ?_
    · revert f
      simp
    · intro b hb
      exact h.ahead _ (.load k (Nat.le_refl k) hload ⟨f, b, hf, hb⟩)
  -- the flags are read, and it makes no difference what they are
  let bytes : ElfData := fun ofs =>
    (byteAt c (frameNo s.proc.cur.pgd) (elfData + ofs)).getD 0
  have hflags := header_run hl himage bytes 24#32 hk (by decide) (c := c) (by
    intro b hb
    have hflag : elf.Field k [24#32] (elf.phdrAt k + 24#32 + BitVec.ofNat 32 b) :=
      ⟨24#32, b, by simp, hb⟩
    have hlt := himage.field_lt hk (by simp) hflag
    obtain ⟨x, hx⟩ := Option.ne_none_iff_exists'.mp (h.buffer _ hlt)
    rw [hx]
    change some x = some ((byteAt c (frameNo s.proc.cur.pgd) _).getD 0)
    rw [hx]
    rfl)
  have hno : ¬ elfWord elf.data (elf.phdrAt k) ≠ ptLoad := not_not.mpr hload.2
  unfold elfLoadSegment
  rw [bind_run htype, if_neg hno, bind_run (hfield 8#32 (by simp)),
    bind_run (hfield 20#32 (by simp))]
  rw [bind_run hflags]
  rfl

end Loaded

theorem Loading.next {d : Nat} (h : Loading Q ds d elf elfData k c) :
    Loading Q ds d elf elfData (k + 1) c :=
  ⟨h.toUserPages, h.buffer, fun ofs ha => h.ahead ofs (ha.mono (Nat.le_succ k))⟩

/-- With its pages there, the segment is mapped, and the file still is. -/
theorem Loading.laid {d : Nat} (h : Loading Q ds d elf elfData k c)
    (himage : elf.Loadable elfData) (hload : elf.Load k)
    (hkept : ∀ ofs, elf.Reread k ofs → (elfData + ofs).toNat / 4096 ∉ elf.pages k)
    (h₁ : UserPages Q ds c₁) (hlaid : Relaid Q d (elf.pages k) c c₁) :
    Laid Q ds d elf elfData k c₁ := by
  have hfresh : ∀ v, v < kZero → v.toNat / 4096 ∈ elf.pages k → byteAt c₁ d v ≠ none := by
    intro v hv hpage
    obtain ⟨b, hb, -⟩ := hlaid.fresh v hv hpage
    rw [hb]
    exact nofun
  refine ⟨h₁, ?_, ?_, ?_⟩
  · intro ofs hofs
    by_cases hpage : (elfData + ofs).toNat / 4096 ∈ elf.pages k
    · exact hfresh _ (himage.buffer_low hofs) hpage
    · rw [hlaid.kept _ (himage.buffer_low hofs) hpage]
      exact h.buffer ofs hofs
  · intro ofs hofs
    have hahead := hofs.ahead hload
    rw [hlaid.kept _ (himage.buffer_low (himage.ahead_lt hahead)) (hkept ofs hofs)]
    exact h.ahead ofs hahead
  · intro v hv
    exact hfresh v (himage.low hv) (himage.pages_inMemory hv)

theorem Laid.written {d n : Nat} {dest : Word} {f : Nat → UInt8}
    (h : Laid Q ds d elf elfData k c) (himage : elf.Loadable elfData) (hload : elf.Load k)
    (hc' : UserPages Q ds c') (hw : Written d dest n f c c')
    (hstart : (elf.phVaddr k).toNat ≤ dest.toNat)
    (hend : dest.toNat + n ≤ (elf.phVaddr k).toNat + (elf.phMemsz k).toNat) :
    Laid Q ds d elf elfData k c' ∧
      ∀ v, v < kZero → ¬ elf.InMemory v k → byteAt c' d v = byteAt c d v := by
  have hout : ∀ v, v < kZero → ¬ elf.InMemory v k → byteAt c' d v = byteAt c d v := by
    intro v hv hnot
    apply hw.outside v hv
    rintro ⟨hle, hlt⟩
    exact hnot ⟨hload.1, hload.2, BitVec.le_def.mpr (by omega), by omega⟩
  have hfile : ∀ ofs, ofs.toNat < elf.length.toNat →
      byteAt c' d (elfData + ofs) = byteAt c d (elfData + ofs) :=
    fun ofs hofs => hout _ (himage.buffer_low hofs) (himage.buffer_outside hofs k)
  refine ⟨⟨hc', ?_, ?_, ?_⟩, hout⟩
  · intro ofs hofs
    rw [hfile ofs hofs]
    exact h.buffer ofs hofs
  · intro ofs hofs
    rw [hfile ofs (himage.ahead_lt (hofs.ahead hload))]
    exact h.reread ofs hofs
  · intro v hv
    by_cases hin : dest.toNat ≤ v.toNat ∧ v.toNat < dest.toNat + n
    · rw [eq_add_offset hin.1, hw.inside _ (by omega)]
      exact nofun
    · rw [hw.outside v (himage.low hv) hin]
      exact h.mapped v hv

/-- What the round does behind `pg_alloc_range`: it fills the segment, from the file as it is. -/
structure SegmentFilled (d : Nat) (elf : Elf) (elfData : Word) (k : Nat) (c c' : Phys) : Prop where
  copied : ∀ v, elf.Copied v k → byteAt c' d v = byteAt c' d (elfData + elf.fileOffset k v)
  zeros : ∀ v, elf.InMemory v k → ¬ elf.Copied v k → byteAt c' d v = some 0
  others : ∀ v, v < kZero → ¬ elf.InMemory v k → byteAt c' d v = byteAt c d v
  frames : ∀ m, FramesFor m c → FramesFor m c'

theorem Laid.filled {d : Nat} {f : Nat → UInt8} (h : Laid Q ds d elf elfData k c)
    (himage : elf.Loadable elfData) (hload : elf.Load k)
    (hf : ∀ i < (elf.phFilesz k).toNat,
      byteAt c d (elfData + elf.phOffset k + BitVec.ofNat 32 i) = some (f i))
    (hcopy : Written d (elf.phVaddr k) (elf.phFilesz k).toNat f c c₁) (h₁ : UserPages Q ds c₁)
    (hzero : Written d (elf.phVaddr k + elf.phFilesz k)
      (elf.phMemsz k - elf.phFilesz k).toNat (fun _ => 0) c₁ c₂) (h₂ : UserPages Q ds c₂) :
    Laid Q ds d elf elfData k c₂ ∧ SegmentFilled d elf elfData k c c₂ := by
  have hsizes := himage.sizes k hload
  have hstart := himage.fileEnd_toNat hload
  have hrest := himage.zeros_toNat hload
  obtain ⟨hlaid₁, hout₁⟩ := h.written himage hload h₁ hcopy (Nat.le_refl _) (by omega)
  obtain ⟨hlaid₂, hout₂⟩ := hlaid₁.written himage hload h₂ hzero (by omega) (by omega)
  refine ⟨hlaid₂, ?_, ?_, ?_, fun m hm => hzero.frames m (hcopy.frames m hm)⟩
  · intro v hv
    have hle := BitVec.le_def.mp hv.from_start
    have hwithin := hv.within
    have hlow := himage.low (himage.inMemory hv)
    have hsrc := himage.source_lt hv
    have hvi := eq_add_offset hle
    have hsub : v - elf.phVaddr k = BitVec.ofNat 32 (v.toNat - (elf.phVaddr k).toNat) := by
      have hlt := v.isLt
      apply BitVec.eq_of_toNat_eq
      rw [BitVec.toNat_sub_of_le hv.from_start, BitVec.toNat_ofNat]
      omega
    have haddr : elfData + elf.fileOffset k v = elfData + elf.phOffset k +
        BitVec.ofNat 32 (v.toNat - (elf.phVaddr k).toNat) := by
      rw [Elf.fileOffset, hsub, BitVec.add_assoc]
    have hbuf := himage.buffer_low hsrc
    have hnot := himage.buffer_outside hsrc k
    rw [hzero.outside v hlow (by omega), hout₂ _ hbuf hnot, hout₁ _ hbuf hnot, haddr,
      hf _ (by omega), hvi, hcopy.inside _ (by omega), ← hvi]
  · intro v hv hnot
    have hle := BitVec.le_def.mp hv.from_start
    have hwithin := hv.within
    have hge : (elf.phVaddr k).toNat + (elf.phFilesz k).toNat ≤ v.toNat := by
      by_contra hlt
      exact hnot ⟨hv.header, hv.load, hv.from_start, by omega⟩
    rw [eq_add_offset (hstart.trans_le hge)]
    exact hzero.inside _ (by omega)
  · intro v hv hnot
    rw [hout₂ v hv hnot, hout₁ v hv hnot]

section Run
variable (hl : Loaded s) (hd : frameNo s.proc.cur.pgd ∈ ds) (himage : elf.Loadable elfData)
  (hload : elf.Load k)

include hl himage hload

/-- The fields that are read when the pages are there. -/
theorem Laid.fields (h : Laid Q ds (frameNo s.proc.cur.pgd) elf elfData k c) :
    loadWord (elfData + elf.phdr + BitVec.ofNat 32 (32 * k) + 4#32) (s.withPhys c) =
        .ok (elf.phOffset k, s.withPhys c) ∧
      loadWord (elfData + elf.phdr + BitVec.ofNat 32 (32 * k) + 16#32) (s.withPhys c) =
        .ok (elf.phFilesz k, s.withPhys c) ∧
      loadWord (elfData + elf.phdr + BitVec.ofNat 32 (32 * k) + 20#32) (s.withPhys c) =
        .ok (elf.phMemsz k, s.withPhys c) := by
  have hfield : ∀ f ∈ [4#32, 16#32, 20#32],
      loadWord (elfData + elf.phdr + BitVec.ofNat 32 (32 * k) + f) (s.withPhys c) =
        .ok (elfWord elf.data (elf.phdrAt k + f), s.withPhys c) := by
    intro f hf
    refine header_run hl himage _ _ hload.1 ?_ ?_
    · revert f
      simp
    · intro b hb
      exact h.reread _ (Or.inl ⟨f, b, hf, hb⟩)
  exact ⟨hfield 4#32 (by simp), hfield 16#32 (by simp), hfield 20#32 (by simp)⟩

include hd

theorem Laid.fill (h : Laid Q ds (frameNo s.proc.cur.pgd) elf elfData k c) (brk : Word) :
    ∃ c', elfFillSegment elfData (elfData + elf.phdr + BitVec.ofNat 32 (32 * k))
        (elf.phVaddr k) (elf.limAddr k) brk (s.withPhys c) =
        .ok (if brk < elf.limAddr k then elf.limAddr k else brk, s.withPhys c') ∧
      Laid Q ds (frameNo s.proc.cur.pgd) elf elfData k c' ∧
      SegmentFilled (frameNo s.proc.cur.pgd) elf elfData k c c' := by
  have hz : kZero.toNat = 3221225472 := rfl
  have hsizes := himage.sizes k hload
  have hbelow := himage.below k hload
  have hfile := himage.file k hload
  have hbuffer := himage.buffer_lt
  have hstart := himage.fileEnd_toNat hload
  have hrest := himage.zeros_toNat hload
  have hsrc : (elfData + elf.phOffset k).toNat = elfData.toNat + (elf.phOffset k).toNat :=
    himage.buffer_toNat (by omega)
  -- every address of the segment
  have hinside : ∀ (a : Word) (i : Nat), (elf.phVaddr k).toNat ≤ a.toNat →
      a.toNat + i < (elf.phVaddr k).toNat + (elf.phMemsz k).toNat →
      elf.InMemory (a + BitVec.ofNat 32 i) k := by
    intro a i hle hlt
    have haddr : (a + BitVec.ofNat 32 i).toNat = a.toNat + i := offset_toNat (by omega)
    exact ⟨hload.1, hload.2, by rw [BitVec.le_def, haddr]; omega, by rw [haddr]; omega⟩
  let f : Nat → UInt8 := fun i => (byteAt c (frameNo s.proc.cur.pgd)
    (elfData + elf.phOffset k + BitVec.ofNat 32 i)).getD 0
  have hf : ∀ i < (elf.phFilesz k).toNat, byteAt c (frameNo s.proc.cur.pgd)
      (elfData + elf.phOffset k + BitVec.ofNat 32 i) = some (f i) := by
    intro i hi
    have hofs : (elf.phOffset k + BitVec.ofNat 32 i).toNat < elf.length.toNat := by
      rw [offset_toNat (by omega)]
      omega
    obtain ⟨x, hx⟩ := Option.ne_none_iff_exists'.mp (h.buffer _ hofs)
    rw [← BitVec.add_assoc] at hx
    change _ = some ((byteAt c (frameNo s.proc.cur.pgd) _).getD 0)
    rw [hx]
    rfl
  have hfits : (elf.phVaddr k).toNat + (elf.phFilesz k).toNat ≤ kZero.toNat := by omega
  have hapart := himage.copy_apart hload
  rw [← hsrc] at hapart
  obtain ⟨c₁, hcopy, h₁, hw₁⟩ := memcpy_written hl hd h.toUserPages hfits
    (fun i hi => h.mapped _ (hinside _ i (Nat.le_refl _) (by omega))) (by omega) hapart hf
  obtain ⟨hlaid₁, -⟩ := h.written himage hload h₁ hw₁ (Nat.le_refl _) (by omega)
  have hrestFits : (elf.phVaddr k + elf.phFilesz k).toNat +
      (elf.phMemsz k - elf.phFilesz k).toNat ≤ kZero.toNat := by omega
  obtain ⟨c₂, hset, h₂, hw₂⟩ := memset_written hl hd h₁ hrestFits
    (fun i hi => hlaid₁.mapped _ (hinside _ i (by omega) (by omega))) 0
  refine ⟨c₂, ?_, h.filled himage hload hf hw₁ h₁ hw₂ h₂⟩
  obtain ⟨hoffset, hfilesz, -⟩ := h.fields hl himage hload
  obtain ⟨-, hfilesz₁, hmemsz₁⟩ := hlaid₁.fields hl himage hload
  unfold elfFillSegment
  rw [bind_run hoffset, bind_run hfilesz, bind_run hcopy, bind_run hfilesz₁, bind_run hmemsz₁,
    bind_run hset]
  rfl

theorem Loading.placed (htmp : Ready [] 6 s.mem.2)
    (h : Loading Q ds (frameNo s.proc.cur.pgd) elf elfData k c)
    (hkept : ∀ ofs, elf.Reread k ofs → (elfData + ofs).toNat / 4096 ∉ elf.pages k)
    (halloc : Direct.pgAllocRange s.proc.cur fuel (elf.phVaddr k) (elf.limAddr k) c =
      .ok ((), c₁)) (brk : Word) :
    ∃ c', elfLoadSegment fuel elfData (elfData + elf.phdr + BitVec.ofNat 32 (32 * k)) brk
        (s.withPhys c) = .ok (if brk < elf.limAddr k then elf.limAddr k else brk, s.withPhys c') ∧
      Loading Q ds (frameNo s.proc.cur.pgd) elf elfData (k + 1) c' ∧
      Placed Q (frameNo s.proc.cur.pgd) elf elfData k c c' ∧
      ∀ m, FramesFor m c₁ → FramesFor m c' := by
  have hbelow := himage.below k hload
  have hlim := himage.limAddr_toNat hload
  obtain ⟨h₁, hrelaid⟩ := h.toUserPages.allocRange (himage.limAddr_ge hload) (by omega) hd halloc
  have hlaid := h.laid himage hload hkept h₁ hrelaid
  obtain ⟨c', hfill, hlaid', hfilled⟩ := hlaid.fill hl hd himage hload brk
  refine ⟨c', ?_, ?_, ?_, hfilled.frames⟩
  · rw [h.begins hl himage hload, bind_run (onMem_allocRange htmp halloc)]
    exact hfill
  · exact ⟨hlaid'.toUserPages, hlaid'.buffer, fun ofs ha => hlaid'.reread ofs (Or.inr ha)⟩
  · refine ⟨hfilled.copied, hfilled.zeros, ?_, ?_⟩
    · intro v hv hnot hpage
      rw [hfilled.others v hv hnot, hrelaid.kept v hv hpage]
    · intro v hv hnot hpage
      rw [hfilled.others v hv hnot]
      exact hrelaid.fresh v hv hpage

end Run

end Segment

/-- The rounds of `pg_alloc_range` for a segment. -/
def Elf.pageRounds (elf : Elf) (k : Nat) : Nat :=
  if elf.Load k then allocRounds (elf.phVaddr k).toNat (elf.limAddr k).toNat else 0

/-- The pages of all segments, with those that are allocated again. -/
def Elf.allPages (elf : Elf) : Nat := ∑ k ∈ Finset.range elf.numSegments, elf.pageRounds k

section Loop
variable {Q : Word → UInt8 → Prop} {s : Kern} {c : Phys} {ds : Set Nat} {elf : Elf}
  {elfData brk : Word} {i k n rounds fuel : Nat} {J : Nat → Phys → Prop}

theorem Elf.brk_max (hload : elf.Load k) (hbrk : brk.toNat = elf.maxEnd k) :
    (if brk < elf.limAddr k then elf.limAddr k else brk).toNat = elf.maxEnd (k + 1) := by
  rw [Elf.maxEnd, Elf.segmentEnd, if_pos hload, ← hbrk]
  split
  · rename_i hlt
    exact (Nat.max_eq_right (Nat.le_of_lt hlt)).symm
  · rename_i hge
    exact (Nat.max_eq_left (Nat.not_lt.mp hge)).symm

theorem Elf.maxEnd_skip (hno : ¬ elf.Load k) : elf.maxEnd (k + 1) = elf.maxEnd k := by
  rw [Elf.maxEnd, Elf.segmentEnd, if_neg hno, Nat.max_zero]

section Loaded
variable (hl : Loaded s) (hd : frameNo s.proc.cur.pgd ∈ ds) (htmp : Ready [] 6 s.mem.2)
  (himage : elf.Loadable elfData) (hkept : elf.HeadersKept elfData)

include hl hd htmp himage hkept

/-- What every round keeps, from any state of the memory that it is in, holds at the end. -/
theorem Loading.loop (hskip : ∀ i c, ¬ elf.Load i → J i c → J (i + 1) c)
    (hstep : ∀ i c c', elf.Load i → Placed Q (frameNo s.proc.cur.pgd) elf elfData i c c' →
      J i c → J (i + 1) c')
    (h : Loading Q ds (frameNo s.proc.cur.pgd) elf elfData i c) (hJ : J i c)
    (hbrk : brk.toNat = elf.maxEnd i) (hi : i + rounds = elf.numSegments) {b : Word} {t : Kern}
    (hrun : elfLoadLoop fuel elfData (elfData + elf.phdr) rounds i brk (s.withPhys c) =
      .ok (b, t)) :
    ∃ c', t = s.withPhys c' ∧ Loading Q ds (frameNo s.proc.cur.pgd) elf elfData
      elf.numSegments c' ∧ J elf.numSegments c' ∧ b.toNat = elf.maxEnd elf.numSegments := by
  induction rounds generalizing i c brk with
  | zero =>
    obtain ⟨rfl, rfl⟩ := pure_ok.mp hrun
    have hlast : i = elf.numSegments := hi
    rw [← hlast]
    exact ⟨c, rfl, h, hJ, hbrk⟩
  | succ rounds ih =>
    obtain ⟨brk', u, hround, hrest⟩ := bind_ok.mp hrun
    by_cases hload : elf.Load i
    · rw [h.begins hl himage hload] at hround
      obtain ⟨⟨⟩, u', halloc, hfill⟩ := bind_ok.mp hround
      have hlift : Lifts (Ready [] 6) (pgAllocRange s.proc.cur fuel (elf.phVaddr i) (elf.limAddr i))
          (Direct.pgAllocRange s.proc.cur fuel (elf.phVaddr i) (elf.limAddr i)) :=
        pgAllocRange_lifts _ _ _ _
      obtain ⟨c₁, hdirect, -⟩ := onMem_ok (s := s.withPhys c)
        (m := fun cur => pgAllocRange cur fuel (elf.phVaddr i) (elf.limAddr i)) hlift htmp halloc
      obtain ⟨c', hsame, hnext, hplaced, -⟩ :=
        h.placed hl hd himage hload htmp (hkept i hload) hdirect brk
      rw [h.begins hl himage hload, hround] at hsame
      cases hsame
      exact ih hnext (hstep i c c' hload hplaced hJ) (Elf.brk_max hload hbrk) (by omega) hrest
    · rw [h.skip hl himage (by omega) hload] at hround
      cases hround
      refine ih h.next (hskip i c hload hJ) ?_ (by omega) hrest
      rw [Elf.maxEnd_skip hload]
      exact hbrk

theorem Loading.loop_ends (hfuel : 2 ^ 20 ≤ fuel)
    (h : Loading Q ds (frameNo s.proc.cur.pgd) elf elfData i c)
    (hi : i + rounds = elf.numSegments)
    (hroom : FramesFor (∑ k ∈ Finset.Ico i elf.numSegments, elf.pageRounds k) c) (brk : Word) :
    ∃ r, elfLoadLoop fuel elfData (elfData + elf.phdr) rounds i brk (s.withPhys c) = .ok r := by
  induction rounds generalizing i c brk with
  | zero => exact ⟨_, rfl⟩
  | succ rounds ih =>
    rw [Finset.sum_eq_sum_Ico_succ_bot (by omega), Elf.pageRounds, Nat.add_comm] at hroom
    by_cases hload : elf.Load i
    · rw [if_pos hload] at hroom
      have hz : kZero.toNat = 3221225472 := rfl
      have hbelow := himage.below i hload
      have hlim := himage.limAddr_toNat hload
      have hrounds : allocRounds (elf.phVaddr i).toNat (elf.limAddr i).toNat ≤ fuel := by
        unfold allocRounds
        omega
      obtain ⟨c₁, halloc, hleft⟩ := FramesFor.allocRange (himage.limAddr_ge hload) (by omega)
        s.proc.cur hrounds hroom
      obtain ⟨c', hround, hnext, -, hframes⟩ :=
        h.placed hl hd himage hload htmp (hkept i hload) halloc brk
      obtain ⟨r, hrest⟩ := ih hnext (by omega) (hframes _ hleft)
        (if brk < elf.limAddr i then elf.limAddr i else brk)
      exact ⟨r, (bind_run hround).trans hrest⟩
    · rw [if_neg hload] at hroom
      obtain ⟨r, hrest⟩ := ih h.next (by omega) hroom brk
      exact ⟨r, (bind_run (h.skip hl himage (by omega) hload)).trans hrest⟩

end Loaded

end Loop

end AkKernel
