import AkKernel.Foundation.Areas
import AkKernel.Mem.Page
import AkKernel.Proc.ElfMap

/-!
# The image that a file describes

The segments that `elf_load` loads, the pages that it allocates for each of them, and what it
still has to read when it has done that. Addresses in the file count from `elfData`, where the
file is in memory.
-/

set_option autoImplicit false

namespace AkKernel

open Areas

namespace Elf

def Load (elf : Elf) (k : Nat) : Prop := k < elf.numSegments ∧ elf.phType k = ptLoad

instance (elf : Elf) (k : Nat) : Decidable (elf.Load k) := inferInstanceAs (Decidable (_ ∧ _))

def limAddr (elf : Elf) (k : Nat) : Word := elf.phVaddr k + elf.phMemsz k

/-- The pages that `pg_alloc_range(base_addr, lim_addr)` comes to. -/
def pages (elf : Elf) (k : Nat) : Set Nat :=
  passed 4096 (elf.phVaddr k).toNat ((elf.limAddr k).toNat + 4096)

def segmentEnd (elf : Elf) (k : Nat) : Nat := if elf.Load k then (elf.limAddr k).toNat else 0

/-- The highest end of the first `n` segments. -/
def maxEnd (elf : Elf) : Nat → Nat
  | 0 => 0
  | n + 1 => max (maxEnd elf n) (elf.segmentEnd n)

/-- A field of a program header: `p_offset`, `p_vaddr`, `p_filesz` and `p_memsz` are read. -/
inductive Field (elf : Elf) (k : Nat) (fields : List Word) : Word → Prop where
  | byte (field : Word) (b : Nat) : field ∈ fields → b < 4 →
      Field elf k fields (elf.phdrAt k + field + BitVec.ofNat 32 b)

/-- The bytes of the program headers that are read from header `k` on. -/
inductive Ahead (elf : Elf) (k : Nat) (ofs : Word) : Prop where
  | type (i : Nat) : k ≤ i → i < elf.numSegments → elf.Field i [0#32] ofs → Ahead elf k ofs
  | load (i : Nat) : k ≤ i → elf.Load i → elf.Field i [4#32, 8#32, 16#32, 20#32] ofs →
      Ahead elf k ofs

/-- What is read of the headers when the pages of segment `k` are allocated. -/
def Reread (elf : Elf) (k : Nat) (ofs : Word) : Prop :=
  elf.Field k [4#32, 16#32, 20#32] ofs ∨ elf.Ahead (k + 1) ofs

/-- The segments lie in the file, and their addresses below `KZERO`, apart from each other and
from the file. The file and the pages that are allocated are not in the kernel's stack, on which
`elf_load` runs. -/
structure Loadable (elf : Elf) (elfData : Word) : Prop where
  headers : elf.phdr.toNat + 32 * elf.numSegments ≤ elf.length.toNat
  buffer : elfData.toNat + elf.length.toNat ≤ kStackPage.toNat
  stack : ∀ k, elf.Load k → kStackPage.toNat / 4096 ∉ elf.pages k
  sizes : ∀ k, elf.Load k → (elf.phFilesz k).toNat ≤ (elf.phMemsz k).toNat
  file : ∀ k, elf.Load k →
    (elf.phOffset k).toNat + (elf.phFilesz k).toNat ≤ elf.length.toNat
  below : ∀ k, elf.Load k → (elf.phVaddr k).toNat + (elf.phMemsz k).toNat ≤ kZero.toNat
  apart : ∀ v j k, elf.InMemory v j → elf.InMemory v k → j = k
  outside : ∀ v k, elf.InMemory v k →
    ¬ (elfData.toNat ≤ v.toNat ∧ v.toNat < elfData.toNat + elf.length.toNat)

/-- The segments are in the order of their addresses. -/
def Ascending (elf : Elf) : Prop :=
  ∀ j k, j < k → elf.Load j → elf.Load k → elf.phVaddr j ≤ elf.phVaddr k

/-- No page that is allocated for a segment holds a header field that is read after that. -/
def HeadersKept (elf : Elf) (elfData : Word) : Prop :=
  ∀ k, elf.Load k → ∀ ofs, elf.Reread k ofs → (elfData + ofs).toNat / 4096 ∉ elf.pages k

/-- None holds a byte of the file that is copied after that. -/
def FileKept (elf : Elf) (elfData : Word) : Prop :=
  ∀ k i, k ≤ i → elf.Load k → ∀ v, elf.Copied v i →
    (elfData + elf.fileOffset i v).toNat / 4096 ∉ elf.pages k

/-- None holds a byte of a segment that was loaded before. -/
def SegmentsKept (elf : Elf) : Prop :=
  ∀ j k, j < k → elf.Load k → ∀ v, elf.InMemory v j → v.toNat / 4096 ∉ elf.pages k

section Image
variable {elf : Elf} {elfData v ofs : Word} {k n : Nat}

theorem InMemory.loads (h : elf.InMemory v k) : elf.Load k := ⟨h.header, h.load⟩

theorem Copied.loads (h : elf.Copied v k) : elf.Load k := ⟨h.header, h.load⟩

theorem Field.mono {fields fields' : List Word} (h : elf.Field k fields ofs)
    (hsub : ∀ f ∈ fields, f ∈ fields') : elf.Field k fields' ofs := by
  obtain ⟨field, b, hf, hb⟩ := h
  exact ⟨field, b, hsub field hf, hb⟩

theorem Ahead.mono {m : Nat} (h : elf.Ahead n ofs) (hle : m ≤ n) : elf.Ahead m ofs := by
  cases h with
  | type i hi hlt hf => exact .type i (Nat.le_trans hle hi) hlt hf
  | load i hi hload hf => exact .load i (Nat.le_trans hle hi) hload hf

theorem Reread.ahead (hload : elf.Load k) (h : elf.Reread k ofs) : elf.Ahead k ofs := by
  rcases h with hown | hahead
  · refine .load k (Nat.le_refl k) hload (hown.mono ?_)
    intro f hf
    simp only [List.mem_cons, List.not_mem_nil, or_false] at hf ⊢
    rcases hf with rfl | rfl | rfl
    · exact Or.inl rfl
    · exact Or.inr (Or.inr (Or.inl rfl))
    · exact Or.inr (Or.inr (Or.inr rfl))
  · exact hahead.mono (Nat.le_succ k)

section Loadable
variable (h : elf.Loadable elfData)

include h

theorem Loadable.limAddr_toNat (hload : elf.Load k) :
    (elf.limAddr k).toNat = (elf.phVaddr k).toNat + (elf.phMemsz k).toNat := by
  have hz : kZero.toNat = 3221225472 := rfl
  have hbelow := h.below k hload
  rw [limAddr, BitVec.toNat_add]
  omega

theorem Loadable.limAddr_ge (hload : elf.Load k) : elf.phVaddr k ≤ elf.limAddr k := by
  rw [BitVec.le_def, h.limAddr_toNat hload]
  exact Nat.le_add_right _ _

theorem Loadable.fileEnd_toNat (hload : elf.Load k) :
    (elf.phVaddr k + elf.phFilesz k).toNat = (elf.phVaddr k).toNat + (elf.phFilesz k).toNat := by
  have hz : kZero.toNat = 3221225472 := rfl
  have hsizes := h.sizes k hload
  have hbelow := h.below k hload
  rw [BitVec.toNat_add]
  omega

theorem Loadable.zeros_toNat (hload : elf.Load k) :
    (elf.phMemsz k - elf.phFilesz k).toNat = (elf.phMemsz k).toNat - (elf.phFilesz k).toNat :=
  BitVec.toNat_sub_of_le (BitVec.le_def.mpr (h.sizes k hload))

theorem Loadable.inMemory (hc : elf.Copied v k) : elf.InMemory v k := by
  have hsizes := h.sizes k hc.loads
  have hwithin := hc.within
  exact ⟨hc.header, hc.load, hc.from_start, by omega⟩

theorem Loadable.low (hin : elf.InMemory v k) : v < kZero := by
  have hbelow := h.below k hin.loads
  have hwithin := hin.within
  rw [BitVec.lt_def]
  omega

theorem Loadable.field_lt {fields : List Word} (hk : k < elf.numSegments)
    (hfields : ∀ f ∈ fields, f.toNat ≤ 28) (hf : elf.Field k fields ofs) :
    ofs.toNat < elf.length.toNat := by
  have hheaders := h.headers
  have hlen := elf.length.isLt
  obtain ⟨field, b, hmem, hb⟩ := hf
  have hfield := hfields field hmem
  rw [phdrAt, BitVec.toNat_add, BitVec.toNat_add, BitVec.toNat_add, BitVec.toNat_ofNat,
    BitVec.toNat_ofNat]
  omega

theorem Loadable.ahead_lt (ha : elf.Ahead k ofs) : ofs.toNat < elf.length.toNat := by
  cases ha with
  | type i hi hlt hf => exact h.field_lt hlt (by simp) hf
  | load i hi hload hf => exact h.field_lt hload.1 (by simp) hf

theorem Loadable.source_lt (hc : elf.Copied v k) :
    (elf.fileOffset k v).toNat < elf.length.toNat := by
  have hfile := h.file k hc.loads
  have hwithin := hc.within
  have hlen := elf.length.isLt
  have hstart := BitVec.le_def.mp hc.from_start
  rw [fileOffset, BitVec.toNat_add, BitVec.toNat_sub_of_le hc.from_start]
  omega

theorem Loadable.buffer_lt : elfData.toNat + elf.length.toNat < kZero.toNat :=
  Nat.lt_of_le_of_lt h.buffer (by decide)

theorem Loadable.buffer_toNat (hofs : ofs.toNat ≤ elf.length.toNat) :
    (elfData + ofs).toNat = elfData.toNat + ofs.toNat := by
  have hz : kZero.toNat = 3221225472 := rfl
  have hbuffer := h.buffer_lt
  rw [BitVec.toNat_add]
  omega

theorem Loadable.buffer_low (hofs : ofs.toNat < elf.length.toNat) : elfData + ofs < kZero := by
  have hbuffer := h.buffer_lt
  rw [BitVec.lt_def, h.buffer_toNat (Nat.le_of_lt hofs)]
  omega

theorem Loadable.buffer_outside (hofs : ofs.toNat < elf.length.toNat) (k : Nat) :
    ¬ elf.InMemory (elfData + ofs) k := by
  intro hin
  apply h.outside _ k hin
  rw [h.buffer_toNat (Nat.le_of_lt hofs)]
  omega

theorem Loadable.copy_apart (hload : elf.Load k) :
    (elf.phVaddr k).toNat + (elf.phFilesz k).toNat ≤
        elfData.toNat + (elf.phOffset k).toNat ∨
      elfData.toNat + (elf.phOffset k).toNat + (elf.phFilesz k).toNat ≤
        (elf.phVaddr k).toNat := by
  have hz : kZero.toNat = 3221225472 := rfl
  have hsizes := h.sizes k hload
  have hfile := h.file k hload
  have hbelow := h.below k hload
  have hbuffer := h.buffer_lt
  by_contra hmeet
  -- the higher of the two starts is in both
  let a := max (elf.phVaddr k).toNat (elfData.toNat + (elf.phOffset k).toNat)
  have ha : (BitVec.ofNat 32 a).toNat = a := by
    rw [BitVec.toNat_ofNat]
    omega
  have hin : elf.InMemory (BitVec.ofNat 32 a) k := by
    refine ⟨hload.1, hload.2, ?_, ?_⟩
    · rw [BitVec.le_def, ha]
      omega
    · rw [ha]
      omega
  apply h.outside _ k hin
  rw [ha]
  omega

/-- In an image in order, without empty segments: no segment begins in the page that one before it
ends in. -/
theorem Loadable.segmentsKept_iff (hasc : elf.Ascending)
    (hpos : ∀ k, elf.Load k → 0 < (elf.phMemsz k).toNat) : elf.SegmentsKept ↔
    ∀ j k, j < k → elf.Load j → elf.Load k →
      ((elf.limAddr j).toNat - 1) / 4096 < (elf.phVaddr k).toNat / 4096 := by
  have hz : kZero.toNat = 3221225472 := rfl
  constructor
  · intro hkept j k hjk hj hk
    have hlim := h.limAddr_toNat hj
    have hbelow := h.below j hj
    have hasc' := BitVec.le_def.mp (hasc j k hjk hj hk)
    have hpos' := hpos j hj
    have hpos'' := hpos k hk
    have hlast : (BitVec.ofNat 32 ((elf.limAddr j).toNat - 1)).toNat =
        (elf.limAddr j).toNat - 1 := by
      rw [BitVec.toNat_ofNat]
      omega
    -- the segments are apart, so the first one ends before the second
    have hend : (elf.limAddr j).toNat ≤ (elf.phVaddr k).toNat := by
      by_contra hmeet
      refine absurd (h.apart (elf.phVaddr k) j k ⟨hj.1, hj.2, hasc j k hjk hj hk, by omega⟩
        ⟨hk.1, hk.2, BitVec.le_refl _, by omega⟩) (Nat.ne_of_lt hjk)
    have hnot := hkept j k hjk hk (BitVec.ofNat 32 ((elf.limAddr j).toNat - 1))
      ⟨hj.1, hj.2, by rw [BitVec.le_def, hlast]; omega, by rw [hlast]; omega⟩
    rw [hlast] at hnot
    by_contra hpage
    apply hnot
    have hlim' := h.limAddr_toNat hk
    refine ⟨by omega, ?_⟩
    omega
  · rintro hpages j k hjk hk v hv ⟨hle, -⟩
    have hlt := hpages j k hjk hv.loads hk
    have hwithin := hv.within
    have hlim := h.limAddr_toNat hv.loads
    have hpage : v.toNat / 4096 ≤ ((elf.limAddr j).toNat - 1) / 4096 :=
      Nat.div_le_div_right (by omega)
    omega

end Loadable

end Image

end Elf

end AkKernel
