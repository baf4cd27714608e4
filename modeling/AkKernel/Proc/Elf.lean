import AkKernel.Fault
import AkKernel.Foundation.Bytes
import AkKernel.Foundation.Runs

/-!
# Reading an executable

`kernel/proc/elf/read_elf.c`, on the bytes that are in memory from `elf_data` on. Behind
the end of the file these are what was there before. An address in the file is its offset
from `elf_data`.
-/

set_option autoImplicit false

namespace AkKernel

open Bytes Runs

/-- `kassert` of `kernel/assert.h`. It stops the kernel; the error that is to be returned,
its second argument, is not used. -/
def kassert (condition : Bool) (text : String) : Except Fault Unit :=
  if condition then .ok () else .error (.panic ("assert failed: " ++ text ++ "\n") [])

abbrev ElfData := Word → UInt8

/-- The bytes of a file, and behind them what was in memory. -/
def fileData (buf : List UInt8) (stale : ElfData) : ElfData := fun ofs => buf.getD ofs.toNat (stale ofs)

def elfHalf (data : ElfData) (ofs : Word) : Nat := read16 data ofs

def elfWord (data : ElfData) (ofs : Word) : Word :=
  BitVec.ofNat 32 (read16 data ofs + 65536 * read16 data (ofs + 2#32))

/-- `elf_t`. `secStrtab` is an index of a section when there is one of that name. -/
structure Elf where
  data : ElfData
  length : Word
  shdr : Word
  phdr : Word
  symtab : Word
  numSegments : Nat
  numSections : Nat
  numSymbols : Nat
  secStrtab : Int
  secShstrtab : Int

def ptLoad : Word := 1#32

/-- What `sys_execve` and `elf_read_symtab` find in their variables before they set them. -/
structure Stale where
  elf : Elf
  symtabSec : Int

def strtabName : CString :=
  [⟨0x2E, by decide⟩, ⟨0x73, by decide⟩, ⟨0x74, by decide⟩, ⟨0x72, by decide⟩, ⟨0x74, by decide⟩,
    ⟨0x61, by decide⟩, ⟨0x62, by decide⟩]

def symtabName : CString :=
  [⟨0x2E, by decide⟩, ⟨0x73, by decide⟩, ⟨0x79, by decide⟩, ⟨0x6D, by decide⟩, ⟨0x74, by decide⟩,
    ⟨0x61, by decide⟩, ⟨0x62, by decide⟩]

/-- `&elf->shdr[section]`, whose elements have 40 bytes. -/
def Elf.shdrAt (elf : Elf) (sec : Int) : Word := elf.shdr + BitVec.ofInt 32 (sec * 40)

def Elf.shName (elf : Elf) (sec : Int) : Word := elfWord elf.data (elf.shdrAt sec)
def Elf.shOffset (elf : Elf) (sec : Int) : Word := elfWord elf.data (elf.shdrAt sec + 16#32)
def Elf.shSize (elf : Elf) (sec : Int) : Word := elfWord elf.data (elf.shdrAt sec + 20#32)

def elfGetSectionData (elf : Elf) (sec : Int) : Except Fault Word := do
  kassert (sec < elf.numSections) "section < elf->num_sections"
  .ok (elf.shOffset sec)

/-- The string is copied to a buffer of 32 bytes. -/
def elfGetStrtabEntry (elf : Elf) (strtab : Int) (ofs : Word) : Except Fault CString := do
  let shstrtab ← elfGetSectionData elf strtab
  match readStr elf.data (shstrtab + ofs) 32 with
  | some name => .ok name
  | none => .error .outOfBounds

def elfGetSectionName (elf : Elf) (sec : Int) : Except Fault CString := do
  kassert (sec < elf.numSections) "section < elf->num_sections"
  elfGetStrtabEntry elf elf.secShstrtab (elf.shName sec)

/-- The loop of `elf_get_section_by_name`: the last section of the name is kept, and
without one `out` stays as it is. -/
def elfSectionLoop (elf : Elf) (name : CString) : Nat → Nat → Int → Except Fault Int
  | 0, _, out => .ok out
  | rounds + 1, i, out => do
    let secName ← elfGetSectionName elf i
    elfSectionLoop elf name rounds (i + 1) (if strcmp secName name = 0 then i else out)

def elfGetSectionByName (elf : Elf) (name : CString) (out : Int) : Except Fault Int :=
  elfSectionLoop elf name (elf.numSections - 1) 1 out

def elfReadHeader (elf : Elf) : Except Fault Unit := do
  kassert (elf.data 0#32 = 0x7F) "elf->header->e_ident[EI_MAG0] == ELFMAG0"
  kassert (elf.data 1#32 = 0x45) "elf->header->e_ident[EI_MAG1] == ELFMAG1"
  kassert (elf.data 2#32 = 0x4C) "elf->header->e_ident[EI_MAG2] == ELFMAG2"
  kassert (elf.data 3#32 = 0x46) "elf->header->e_ident[EI_MAG3] == ELFMAG3"
  kassert (elf.data 4#32 = 1) "elf->header->e_ident[EI_CLASS] == ELFCLASS32"
  kassert (elfHalf elf.data 16#32 = 2) "elf->header->e_type == ET_EXEC"

def elfReadShdr (elf : Elf) : Except Fault Elf := do
  let elf := { elf with
    shdr := elfWord elf.data 32#32
    numSections := elfHalf elf.data 48#32
    secShstrtab := elfHalf elf.data 50#32 }
  let strtab ← elfGetSectionByName elf strtabName elf.secStrtab
  .ok { elf with secStrtab := strtab }

/-- A symbol has 16 bytes. -/
def elfReadSymtab (elf : Elf) (symtabSec : Int) : Except Fault Elf := do
  let symtabSec ← elfGetSectionByName elf symtabName symtabSec
  .ok { elf with symtab := elf.shOffset symtabSec, numSymbols := (elf.shSize symtabSec).toNat / 16 }

def elfReadPhdr (elf : Elf) : Elf :=
  { elf with phdr := elfWord elf.data 28#32, numSegments := elfHalf elf.data 44#32 }

/-- The part of `elf_read` behind the `fclose`; every function it calls returns 0 when it
returns. -/
def elfParse (elf : Elf) (symtabSec : Int) : Except Fault Elf := do
  elfReadHeader elf
  let elf ← elfReadShdr elf
  let elf ← elfReadSymtab elf symtabSec
  .ok (elfReadPhdr elf)

/-- What `elf_read` checks: an ELF image, for 32 bits, that is an executable. -/
def Executable (data : ElfData) : Prop :=
  data 0#32 = 0x7F ∧ data 1#32 = 0x45 ∧ data 2#32 = 0x4C ∧ data 3#32 = 0x46 ∧
    data 4#32 = 1 ∧ elfHalf data 16#32 = 2

theorem Executable.congr {data data' : ElfData} (h : Executable data)
    (heq : ∀ ofs : Word, ofs.toNat < 18 → data' ofs = data ofs) : Executable data' := by
  have hhalf : elfHalf data' 16#32 = elfHalf data 16#32 := by
    unfold elfHalf read16
    rw [heq 16#32 (by decide), heq (16#32 + 1#32) (by decide)]
  unfold Executable
  rw [heq 0#32 (by decide), heq 1#32 (by decide), heq 2#32 (by decide), heq 3#32 (by decide),
    heq 4#32 (by decide), hhalf]
  exact h

theorem kassert_ok {c : Bool} {text : String} {u : Unit} :
    kassert c text = .ok u ↔ c = true := by
  unfold kassert
  split
  · rename_i hc
    exact ⟨fun _ => hc, fun _ => rfl⟩
  · rename_i hc
    exact ⟨fun h => (nomatch h), fun h => absurd h hc⟩

theorem kassert_bind {α : Type} {c : Bool} {text : String} {f : Unit → Except Fault α} :
    (kassert c text >>= f) = if c then f () else .error (.panic ("assert failed: " ++ text ++ "\n") []) := by
  unfold kassert
  split <;> rfl

theorem elfParse_steps {elf elf₁ elf₂ : Elf} {symtabSec : Int}
    (hheader : elfReadHeader elf = .ok ()) (hshdr : elfReadShdr elf = .ok elf₁)
    (hsymtab : elfReadSymtab elf₁ symtabSec = .ok elf₂) :
    elfParse elf symtabSec = .ok (elfReadPhdr elf₂) := by
  unfold elfParse
  rw [hheader]
  change (elfReadShdr elf >>= fun elf =>
    elfReadSymtab elf symtabSec >>= fun elf => Except.ok (elfReadPhdr elf)) = _
  rw [hshdr]
  change (elfReadSymtab elf₁ symtabSec >>= fun elf => Except.ok (elfReadPhdr elf)) = _
  rw [hsymtab]
  rfl

theorem elfReadHeader_panics {elf : Elf} (h : ¬ Executable elf.data) :
    ∃ text, elfReadHeader elf = .error (.panic ("assert failed: " ++ text ++ "\n") []) := by
  unfold elfReadHeader
  simp only [kassert_bind, decide_eq_true_eq]
  unfold Executable at h
  split
  swap
  · exact ⟨_, rfl⟩
  split
  swap
  · exact ⟨_, rfl⟩
  split
  swap
  · exact ⟨_, rfl⟩
  split
  swap
  · exact ⟨_, rfl⟩
  split
  swap
  · exact ⟨_, rfl⟩
  rename_i h0 h1 h2 h3 h4
  refine ⟨"elf->header->e_type == ET_EXEC", ?_⟩
  unfold kassert
  rw [if_neg]
  simpa [h0, h1, h2, h3, h4] using h

end AkKernel
