import AkKernel.Proc.Elf
import Mathlib.Data.Nat.Find

/-!
# Where an address of the program is in the file

`elf_map_vaddr` of `kernel/proc/elf/read_elf.c`, against the bytes that `elf_load` copies. The
one looks at the headers behind the first, of every type, and inside their bounds only; the other
at those of type `PT_LOAD`, from the first on.
-/

set_option autoImplicit false

namespace AkKernel

namespace Elf

/-- `&elf->phdr[segment]`, whose elements have 32 bytes. -/
def phdrAt (elf : Elf) (segment : Nat) : Word := elf.phdr + BitVec.ofNat 32 (32 * segment)

def phType (elf : Elf) (segment : Nat) : Word := elfWord elf.data (elf.phdrAt segment)
def phOffset (elf : Elf) (segment : Nat) : Word := elfWord elf.data (elf.phdrAt segment + 4#32)
def phVaddr (elf : Elf) (segment : Nat) : Word := elfWord elf.data (elf.phdrAt segment + 8#32)
def phFilesz (elf : Elf) (segment : Nat) : Word := elfWord elf.data (elf.phdrAt segment + 16#32)
def phMemsz (elf : Elf) (segment : Nat) : Word := elfWord elf.data (elf.phdrAt segment + 20#32)

/-- The test of `elf_map_vaddr`. -/
def Inside (elf : Elf) (vaddr : Word) (segment : Nat) : Prop :=
  elf.phVaddr segment < vaddr ∧ vaddr < elf.phVaddr segment + elf.phMemsz segment

instance (elf : Elf) (vaddr : Word) (segment : Nat) : Decidable (elf.Inside vaddr segment) :=
  inferInstanceAs (Decidable (_ ∧ _))

def fileOffset (elf : Elf) (segment : Nat) (vaddr : Word) : Word :=
  elf.phOffset segment + (vaddr - elf.phVaddr segment)

/-- `elf_load` copies a byte to `vaddr` for this segment. -/
structure Copied (elf : Elf) (vaddr : Word) (segment : Nat) : Prop where
  header : segment < elf.numSegments
  load : elf.phType segment = ptLoad
  from_start : elf.phVaddr segment ≤ vaddr
  within : vaddr.toNat < (elf.phVaddr segment).toNat + (elf.phFilesz segment).toNat

/-- `vaddr` is an address of this segment. -/
structure InMemory (elf : Elf) (vaddr : Word) (segment : Nat) : Prop where
  header : segment < elf.numSegments
  load : elf.phType segment = ptLoad
  from_start : elf.phVaddr segment ≤ vaddr
  within : vaddr.toNat < (elf.phVaddr segment).toNat + (elf.phMemsz segment).toNat

end Elf

/-- The loop of `elf_map_vaddr`, with so many headers left from the one it is at. -/
def elfMapLoop (elf : Elf) (vaddr : Word) : Nat → Nat → Option Word
  | 0, _ => none
  | rounds + 1, i =>
    if elf.Inside vaddr i then some (elf.fileOffset i vaddr) else elfMapLoop elf vaddr rounds (i + 1)

/-- The offset that is stored with the return value 0; `none` is `ELF_UNMAPPED`. -/
def elfMapVaddr (elf : Elf) (vaddr : Word) : Option Word :=
  elfMapLoop elf vaddr (elf.numSegments - 1) 1

/-- What `elf_load` copies to `vaddr` is at the offset that is found, and what is in no segment
is not found. -/
structure MapsAsLoaded (elf : Elf) (vaddr : Word) : Prop where
  copied : ∀ k, elf.Copied vaddr k → ∃ f, elfMapVaddr elf vaddr = some f ∧
    elf.data f = elf.data (elf.fileOffset k vaddr)
  unmapped : (∀ k, ¬ elf.InMemory vaddr k) → elfMapVaddr elf vaddr = none

/-- The first header behind header 0 that has the address inside its bounds. -/
structure FirstInside (elf : Elf) (vaddr : Word) (i : Nat) : Prop where
  pos : 1 ≤ i
  header : i < elf.numSegments
  inside : elf.Inside vaddr i
  first : ∀ j, 1 ≤ j → j < i → ¬ elf.Inside vaddr j

section Search
variable {elf : Elf} {vaddr f : Word} {rounds i j : Nat}

theorem elfMapLoop_none : elfMapLoop elf vaddr rounds i = none ↔
    ∀ j, i ≤ j → j < i + rounds → ¬ elf.Inside vaddr j := by
  induction rounds generalizing i with
  | zero => exact iff_of_true rfl fun j h1 h2 => absurd h2 (by omega)
  | succ rounds ih =>
    rw [elfMapLoop]
    split
    · rename_i hin
      exact iff_of_false nofun fun h => h i (Nat.le_refl i) (by omega) hin
    · rename_i hout
      rw [ih]
      constructor
      · intro h j h1 h2
        rcases Nat.eq_or_lt_of_le h1 with he | hlt
        · rw [← he]
          exact hout
        · exact h j hlt (by omega)
      · intro h j h1 h2
        exact h j (by omega) (by omega)

theorem elfMapLoop_first (hj : i ≤ j) (hlt : j < i + rounds) (hin : elf.Inside vaddr j)
    (hfirst : ∀ k, i ≤ k → k < j → ¬ elf.Inside vaddr k) :
    elfMapLoop elf vaddr rounds i = some (elf.fileOffset j vaddr) := by
  induction rounds generalizing i with
  | zero => omega
  | succ rounds ih =>
    rw [elfMapLoop]
    rcases Nat.eq_or_lt_of_le hj with he | hlt'
    · rw [he, if_pos hin]
    · rw [if_neg (hfirst i (Nat.le_refl i) hlt')]
      exact ih hlt' (by omega) fun k hk => hfirst k (by omega)

theorem elfMapVaddr_none : elfMapVaddr elf vaddr = none ↔
    ∀ j, 1 ≤ j → j < elf.numSegments → ¬ elf.Inside vaddr j := by
  rw [elfMapVaddr, elfMapLoop_none]
  constructor
  · intro h j h1 h2
    exact h j h1 (by omega)
  · intro h j h1 h2
    exact h j h1 (by omega)

theorem FirstInside.run (h : FirstInside elf vaddr i) :
    elfMapVaddr elf vaddr = some (elf.fileOffset i vaddr) := by
  have := h.header
  exact elfMapLoop_first h.pos (by omega) h.inside h.first

theorem exists_firstInside (h1 : 1 ≤ j) (h2 : j < elf.numSegments) (hin : elf.Inside vaddr j) :
    ∃ i, FirstInside elf vaddr i := by
  have hsome : ∃ i, 1 ≤ i ∧ i < elf.numSegments ∧ elf.Inside vaddr i := ⟨j, h1, h2, hin⟩
  obtain ⟨hpos, hlt, hfound⟩ := Nat.find_spec hsome
  refine ⟨Nat.find hsome, hpos, hlt, hfound, ?_⟩
  intro k hk hless hinside
  exact Nat.find_min hsome hless ⟨hk, by omega, hinside⟩

theorem elfMapVaddr_some : elfMapVaddr elf vaddr = some f ↔
    ∃ i, FirstInside elf vaddr i ∧ f = elf.fileOffset i vaddr := by
  constructor
  · intro h
    have hne : ¬ ∀ j, 1 ≤ j → j < elf.numSegments → ¬ elf.Inside vaddr j := by
      rw [← elfMapVaddr_none, h]
      exact nofun
    push Not at hne
    obtain ⟨j, h1, h2, hin⟩ := hne
    obtain ⟨i, hi⟩ := exists_firstInside h1 h2 hin
    refine ⟨i, hi, ?_⟩
    rw [hi.run] at h
    exact (Option.some_inj.mp h).symm
  · rintro ⟨i, hi, rfl⟩
    exact hi.run

/-- The first address of a segment, and every address of header 0, are found through another
header or not at all, and a header that is not loaded is found all the same. -/
theorem mapsAsLoaded_iff : MapsAsLoaded elf vaddr ↔
    (∀ k, elf.Copied vaddr k → ∃ i, FirstInside elf vaddr i ∧
      elf.data (elf.fileOffset i vaddr) = elf.data (elf.fileOffset k vaddr)) ∧
    ((∀ k, ¬ elf.InMemory vaddr k) →
      ∀ j, 1 ≤ j → j < elf.numSegments → ¬ elf.Inside vaddr j) := by
  constructor
  · intro h
    refine ⟨?_, fun hout => elfMapVaddr_none.mp (h.unmapped hout)⟩
    intro k hk
    obtain ⟨f, hf, hbyte⟩ := h.copied k hk
    obtain ⟨i, hi, rfl⟩ := elfMapVaddr_some.mp hf
    exact ⟨i, hi, hbyte⟩
  · rintro ⟨hcopied, hout⟩
    refine ⟨?_, fun h => elfMapVaddr_none.mpr (hout h)⟩
    intro k hk
    obtain ⟨i, hi, hbyte⟩ := hcopied k hk
    exact ⟨_, hi.run, hbyte⟩

/-- As in an image that a linker made: the segments are apart, and what another header describes
is in one of them, as far from the start of the file as the segment has it. -/
structure Elf.Regular (elf : Elf) : Prop where
  apart : ∀ v k k', elf.InMemory v k → elf.InMemory v k' → k = k'
  sizes : ∀ v k, elf.Copied v k → elf.InMemory v k
  described : ∀ v i, 1 ≤ i → i < elf.numSegments → elf.Inside v i →
    ∃ k, elf.InMemory v k ∧ elf.fileOffset i v = elf.fileOffset k v

/-- In such an image what is copied must be found by any header at all. -/
theorem mapsAsLoaded_regular (h : Elf.Regular elf) : MapsAsLoaded elf vaddr ↔
    ((∃ k, elf.Copied vaddr k) → ∃ i, 1 ≤ i ∧ i < elf.numSegments ∧ elf.Inside vaddr i) := by
  rw [mapsAsLoaded_iff]
  constructor
  · rintro ⟨hcopied, -⟩ ⟨k, hk⟩
    obtain ⟨i, hi, -⟩ := hcopied k hk
    exact ⟨i, hi.pos, hi.header, hi.inside⟩
  · intro hfound
    constructor
    · intro k hk
      obtain ⟨j, h1, h2, hin⟩ := hfound ⟨k, hk⟩
      obtain ⟨i, hi⟩ := exists_firstInside h1 h2 hin
      obtain ⟨k', hk', hoffset⟩ := h.described vaddr i hi.pos hi.header hi.inside
      refine ⟨i, hi, ?_⟩
      rw [h.apart vaddr k k' (h.sizes vaddr k hk) hk', hoffset]
    · intro hout j h1 h2 hin
      obtain ⟨k, hk, -⟩ := h.described vaddr j h1 h2 hin
      exact hout k hk

/-- One segment of four bytes from 0x1000 on, and the bytes of its header. -/
def oneSegment : Elf where
  data := fun ofs => ([1, 0, 0, 0, 32, 0, 0, 0, 0, 0x10, 0, 0, 0, 0, 0, 0,
    4, 0, 0, 0, 4, 0, 0, 0, 5, 0, 0, 0, 0, 0x10, 0, 0, 7, 8, 9, 10] : List UInt8).getD ofs.toNat 0
  length := 36#32
  shdr := 0#32
  phdr := 0#32
  symtab := 0#32
  numSegments := 1
  numSections := 0
  numSymbols := 0
  secStrtab := 0
  secShstrtab := 0

/-- The address of the second byte. -/
theorem not_mapsAsLoaded_oneSegment : ¬ MapsAsLoaded oneSegment 0x1001#32 := by
  intro h
  have hcopied : oneSegment.Copied 0x1001#32 0 :=
    ⟨by decide, by decide, by decide, by decide⟩
  obtain ⟨f, hf, -⟩ := h.copied 0 hcopied
  exact nomatch hf

end Search

end AkKernel
