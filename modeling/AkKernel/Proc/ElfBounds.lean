import AkKernel.Foundation.Logged
import AkKernel.Proc.ElfMap
import AkKernel.Proc.ElfSections

/-!
# What reading an executable reads

`elf_read` on any bytes. The length of the file is kept and never looked at: the bytes that the
parser goes to by the offsets it finds, and those that `elf_load` copies, are in the file when
the tables of the file say so.
-/

set_option autoImplicit false

namespace AkKernel

open Bytes Logs Runs

/-- A byte that is read, or a name that is copied. -/
inductive ElfUse where
  | byte (ofs : Word)
  | name (length : Nat)
deriving DecidableEq, Repr

/-- A function with what it uses of the image. -/
abbrev OnElf := Logged ElfUse Fault

def ofsFrom (ofs : Word) (n : Nat) : List ElfUse :=
  (List.range n).map fun i => .byte (ofs + BitVec.ofNat 32 i)

namespace OnElf

def elfGetSectionData (elf : Elf) (sec : Int) : OnElf Word := do
  .lift (kassert (sec < elf.numSections) "section < elf->num_sections")
  .note (ofsFrom (elf.shdrAt sec + 16#32) 4)
  pure (elf.shOffset sec)

/-- `strcpy` copies the whole name, however long it is. -/
def elfGetStrtabEntry (elf : Elf) (strtab : Int) (ofs : Word) : OnElf CString := do
  let shstrtab ← elfGetSectionData elf strtab
  match readStr elf.data (shstrtab + ofs) (2 ^ 32) with
  | some name =>
    .note (ofsFrom (shstrtab + ofs) (name.length + 1) ++ [.name name.length])
    pure name
  | none => .lift (.error .diverges)

def elfGetSectionName (elf : Elf) (sec : Int) : OnElf CString := do
  .lift (kassert (sec < elf.numSections) "section < elf->num_sections")
  .note (ofsFrom (elf.shdrAt sec) 4)
  elfGetStrtabEntry elf elf.secShstrtab (elf.shName sec)

def elfSectionLoop (elf : Elf) (name : CString) : Nat → Nat → Int → OnElf Int
  | 0, _, out => pure out
  | rounds + 1, i, out => do
    let secName ← elfGetSectionName elf i
    elfSectionLoop elf name rounds (i + 1) (if strcmp secName name = 0 then i else out)

def elfGetSectionByName (elf : Elf) (name : CString) (out : Int) : OnElf Int :=
  elfSectionLoop elf name (elf.numSections - 1) 1 out

def elfReadHeader (elf : Elf) : OnElf Unit := do
  .note (ofsFrom 0#32 1)
  .lift (kassert (elf.data 0#32 = 0x7F) "elf->header->e_ident[EI_MAG0] == ELFMAG0")
  .note (ofsFrom 1#32 1)
  .lift (kassert (elf.data 1#32 = 0x45) "elf->header->e_ident[EI_MAG1] == ELFMAG1")
  .note (ofsFrom 2#32 1)
  .lift (kassert (elf.data 2#32 = 0x4C) "elf->header->e_ident[EI_MAG2] == ELFMAG2")
  .note (ofsFrom 3#32 1)
  .lift (kassert (elf.data 3#32 = 0x46) "elf->header->e_ident[EI_MAG3] == ELFMAG3")
  .note (ofsFrom 4#32 1)
  .lift (kassert (elf.data 4#32 = 1) "elf->header->e_ident[EI_CLASS] == ELFCLASS32")
  .note (ofsFrom 16#32 2)
  .lift (kassert (elfHalf elf.data 16#32 = 2) "elf->header->e_type == ET_EXEC")

def elfReadShdr (elf : Elf) : OnElf Elf := do
  .note (ofsFrom 32#32 4 ++ ofsFrom 48#32 2 ++ ofsFrom 50#32 2)
  let elf := elfSections elf
  let strtab ← elfGetSectionByName elf strtabName elf.secStrtab
  pure { elf with secStrtab := strtab }

def elfReadSymtab (elf : Elf) (symtabSec : Int) : OnElf Elf := do
  let symtabSec ← elfGetSectionByName elf symtabName symtabSec
  .note (ofsFrom (elf.shdrAt symtabSec + 16#32) 4 ++ ofsFrom (elf.shdrAt symtabSec + 20#32) 4)
  pure { elf with symtab := elf.shOffset symtabSec, numSymbols := (elf.shSize symtabSec).toNat / 16 }

def elfReadPhdr (elf : Elf) : OnElf Elf := do
  .note (ofsFrom 28#32 4 ++ ofsFrom 44#32 2)
  pure (AkKernel.elfReadPhdr elf)

def elfParse (elf : Elf) (symtabSec : Int) : OnElf Elf := do
  elfReadHeader elf
  let elf ← elfReadShdr elf
  let elf ← elfReadSymtab elf symtabSec
  elfReadPhdr elf

end OnElf

/-- Inside a file of `n` bytes, and inside the buffer for a name. -/
def ElfUse.Fits (n : Nat) : ElfUse → Prop
  | .byte ofs => ofs.toNat < n
  | .name length => length < 32

def InElf (n : Nat) (ofs : Word) (k : Nat) : Prop :=
  ∀ i < k, (ofs + BitVec.ofNat 32 i).toNat < n

/-- The header of a segment that is loaded is in the file, and so is what is copied from it; the
rest of the segment has a length. -/
structure SegmentFits (n : Nat) (elf : Elf) (segment : Nat) : Prop where
  header : InElf n (elf.phdrAt segment) 32
  extent : (elf.phOffset segment).toNat + (elf.phFilesz segment).toNat ≤ n
  sizes : elf.phFilesz segment ≤ elf.phMemsz segment

/-- A file that is read to where `before` was. -/
def fileElf (file : List UInt8) (before : ElfData) (stale : Stale) : Elf :=
  { stale.elf with
    data := fileData file before
    length := BitVec.ofNat 32 file.length }

/-- The file is an executable for which the lookups of `elf_read` come to an end. -/
structure Accepted (elf : Elf) : Prop where
  executable : Executable elf.data
  table : 2 ≤ elf.numSections → elf.secShstrtab < elf.numSections
  names : ∀ sec, 1 ≤ sec → sec < elf.numSections → ∃ s, elf.sectionName sec = some s

/-- What the lookup of a section reads is in the file. -/
structure NameFits (n : Nat) (elf : Elf) (sec : Nat) : Prop where
  header : InElf n (elf.shdrAt sec) 4
  table : InElf n (elf.shdrAt elf.secShstrtab + 16#32) 4
  name : ∀ s, elf.sectionName sec = some s → InElf n (elf.nameAt sec) (s.length + 1) ∧ s.length < 32

/-- The last section of the name, or what the variable had before. -/
def LastNamed (elf : Elf) (name : CString) (stale sec : Int) : Prop :=
  (∃ k : Nat, sec = k ∧ elf.Named name k ∧ ∀ j, k < j → ¬ elf.Named name j) ∨
    sec = stale ∧ ∀ k, ¬ elf.Named name k

theorem LastNamed.unique {elf : Elf} {name : CString} {stale sec sec' : Int}
    (h : LastNamed elf name stale sec) (h' : LastNamed elf name stale sec') : sec = sec' := by
  rcases h with ⟨k, rfl, hk, hlast⟩ | ⟨rfl, hnone⟩
  · rcases h' with ⟨j, rfl, hj, hlast'⟩ | ⟨-, hnone⟩
    · rcases Nat.lt_trichotomy k j with hlt | he | hlt
      · exact absurd hj (hlast j hlt)
      · rw [he]
      · exact absurd hk (hlast' k hlt)
    · exact absurd hk (hnone k)
  · rcases h' with ⟨j, -, hj, -⟩ | ⟨rfl, -⟩
    · exact absurd hj (hnone j)
    · rfl

/-- The tables of the image are in its file. -/
structure TablesFit (n : Nat) (elf : Elf) (stale : Int) : Prop where
  header : 52 ≤ n
  names : ∀ sec, 1 ≤ sec → sec < elf.numSections → NameFits n elf sec
  symtab : ∀ sec, LastNamed elf symtabName stale sec → InElf n (elf.shdrAt sec + 16#32) 8
  segments : ∀ i < (elfReadPhdr elf).numSegments, (elfReadPhdr elf).phType i = ptLoad →
    SegmentFits n (elfReadPhdr elf) i

/-- If the file is accepted, what is read is in the file, the names fit, and the segments that
are loaded are in it too. -/
def ReadsInBounds (file : List UInt8) (before : ElfData) (stale : Stale) : Prop :=
  ∀ elf, (OnElf.elfParse (fileElf file before stale) stale.symtabSec).res = .ok elf →
    Logged.Only (ElfUse.Fits file.length)
      (OnElf.elfParse (fileElf file before stale) stale.symtabSec) ∧
    ∀ i < elf.numSegments, elf.phType i = ptLoad → SegmentFits file.length elf i

section Uses
variable {n k m : Nat} {ofs : Word}

theorem forall_ofsFrom : (∀ u ∈ ofsFrom ofs k, ElfUse.Fits n u) ↔ InElf n ofs k := by
  unfold ofsFrom InElf
  simp only [List.forall_mem_map, List.mem_range, ElfUse.Fits]

theorem forall_append {l l' : List ElfUse} : (∀ u ∈ l ++ l', ElfUse.Fits n u) ↔
    (∀ u ∈ l, ElfUse.Fits n u) ∧ ∀ u ∈ l', ElfUse.Fits n u := by
  simp only [List.mem_append, or_imp, forall_and]

theorem InElf.append (ofs : Word) : InElf n ofs (k + m) ↔
    InElf n ofs k ∧ InElf n (ofs + BitVec.ofNat 32 k) m := by
  constructor
  · intro h
    refine ⟨fun i hi => h i (by omega), ?_⟩
    intro i hi
    rw [BitVec.add_assoc, ← BitVec.ofNat_add]
    exact h (k + i) (by omega)
  · rintro ⟨h, h'⟩ i hi
    rcases Nat.lt_or_ge i k with hlt | hge
    · exact h i hlt
    · have := h' (i - k) (by omega)
      rwa [BitVec.add_assoc, ← BitVec.ofNat_add, Nat.add_sub_cancel' hge] at this

theorem inElf_header (h : 52 ≤ n) (hk : ofs.toNat + k ≤ 52) : InElf n ofs k := by
  intro i hi
  have := ofs.isLt
  rw [BitVec.toNat_add, BitVec.toNat_ofNat]
  omega

end Uses

section Names
variable {elf : Elf} {name : CString} {n rounds i sec : Nat} {out : Int}

def nameUses (elf : Elf) (sec : Nat) (s : CString) : List ElfUse :=
  ofsFrom (elf.shdrAt sec) 4 ++ (ofsFrom (elf.shdrAt elf.secShstrtab + 16#32) 4 ++
    (ofsFrom (elf.nameAt sec) (s.length + 1) ++ [.name s.length]))

theorem onElf_getSectionData {sec : Int} (h : sec < elf.numSections) :
    OnElf.elfGetSectionData elf sec =
      ⟨ofsFrom (elf.shdrAt sec + 16#32) 4, .ok (elf.shOffset sec)⟩ := by
  have hok : kassert (sec < elf.numSections) "section < elf->num_sections" = .ok () :=
    kassert_ok.mpr (decide_eq_true h)
  unfold OnElf.elfGetSectionData
  rw [hok, Logged.lift_ok_bind, Logged.note, Logged.bind_ok]
  exact congrArg (fun l => Logged.mk l (Except.ok (elf.shOffset sec))) (List.append_nil _)

theorem onElf_getStrtabEntry {strtab : Int} (h : strtab < elf.numSections) {ofs : Word}
    {s : CString} (hs : readStr elf.data (elf.shOffset strtab + ofs) (2 ^ 32) = some s) :
    OnElf.elfGetStrtabEntry elf strtab ofs =
      ⟨ofsFrom (elf.shdrAt strtab + 16#32) 4 ++
        (ofsFrom (elf.shOffset strtab + ofs) (s.length + 1) ++ [.name s.length]), .ok s⟩ := by
  unfold OnElf.elfGetStrtabEntry
  rw [onElf_getSectionData h, Logged.bind_ok, hs]
  dsimp only
  rw [Logged.note, Logged.bind_ok]
  exact congrArg (fun l => Logged.mk (_ ++ l) (Except.ok s)) (List.append_nil _)

theorem onElf_getSectionName (htable : elf.secShstrtab < elf.numSections) {sec : Nat}
    (hsec : sec < elf.numSections) {s : CString} (hs : elf.sectionName sec = some s) :
    OnElf.elfGetSectionName elf sec = ⟨nameUses elf sec s, .ok s⟩ := by
  have hok : kassert ((sec : Int) < elf.numSections) "section < elf->num_sections" = .ok () :=
    kassert_ok.mpr (decide_eq_true (by omega))
  unfold OnElf.elfGetSectionName
  rw [hok, Logged.lift_ok_bind, onElf_getStrtabEntry htable hs, Logged.note, Logged.bind_ok]
  rfl

theorem forall_nameUses {s : CString} (hs : elf.sectionName sec = some s) :
    (∀ u ∈ nameUses elf sec s, ElfUse.Fits n u) ↔ NameFits n elf sec := by
  unfold nameUses
  rw [forall_append, forall_append, forall_append, forall_ofsFrom, forall_ofsFrom, forall_ofsFrom,
    List.forall_mem_singleton]
  constructor
  · rintro ⟨h1, h2, h3, h4⟩
    refine ⟨h1, h2, ?_⟩
    intro t ht
    rw [hs] at ht
    cases ht
    exact ⟨h3, h4⟩
  · rintro ⟨h1, h2, h3⟩
    exact ⟨h1, h2, h3 s hs⟩

/-- The lookup goes through all the sections, and gives the last of the name. -/
theorem onElf_sectionLoop (name : CString) (out : Int) (hacc : Accepted elf) (hi : 1 ≤ i)
    (hend : i + rounds ≤ elf.numSections) :
    ∃ r, (OnElf.elfSectionLoop elf name rounds i out).res = .ok r ∧
      LastIn elf name i (i + rounds) out r ∧
      (Logged.Only (ElfUse.Fits n) (OnElf.elfSectionLoop elf name rounds i out) ↔
        ∀ k, i ≤ k → k < i + rounds → NameFits n elf k) := by
  induction rounds generalizing i out with
  | zero =>
    refine ⟨out, rfl, .empty elf name i out, ?_⟩
    exact iff_of_true (Logged.only_pure out) fun k h1 h2 => absurd h2 (by omega)
  | succ rounds ih =>
    obtain ⟨s, hs⟩ := hacc.names i hi (by omega)
    have hin : i < elf.numSections := by omega
    have hrun := onElf_getSectionName (hacc.table (by omega)) hin hs
    obtain ⟨r, hres, hr, honly⟩ := ih (i := i + 1) (if strcmp s name = 0 then i else out) (by omega)
      (by omega)
    rw [Nat.add_right_comm] at hr
    refine ⟨r, ?_, hr.cons hs hi hin, ?_⟩
    · rw [OnElf.elfSectionLoop, Logged.res_bind, hrun]
      exact hres
    · rw [OnElf.elfSectionLoop, Logged.only_bind_ok (a := s) (by rw [hrun]), honly, hrun]
      change (∀ u ∈ nameUses elf i s, _) ∧ _ ↔ _
      rw [forall_nameUses hs]
      constructor
      · rintro ⟨hfirst, hrest⟩ k h1 h2
        rcases Nat.eq_or_lt_of_le h1 with he | hlt
        · rw [← he]
          exact hfirst
        · exact hrest k hlt (by omega)
      · intro h
        exact ⟨h i (Nat.le_refl i) (by omega), fun k h1 h2 => h k (by omega) (by omega)⟩

theorem onElf_getSectionByName (name : CString) (out : Int) (hacc : Accepted elf) :
    ∃ r, (OnElf.elfGetSectionByName elf name out).res = .ok r ∧ LastNamed elf name out r ∧
      (Logged.Only (ElfUse.Fits n) (OnElf.elfGetSectionByName elf name out) ↔
        ∀ k, 1 ≤ k → k < elf.numSections → NameFits n elf k) := by
  rcases Nat.eq_zero_or_pos elf.numSections with hzero | hpos
  · unfold OnElf.elfGetSectionByName
    rw [hzero]
    refine ⟨out, rfl, .inr ⟨rfl, fun k hk => ?_⟩, ?_⟩
    · have := hk.header
      omega
    · exact iff_of_true (Logged.only_pure out) fun k h1 h2 => absurd h2 (by omega)
  · obtain ⟨r, hres, hr, honly⟩ := onElf_sectionLoop (n := n) name out hacc (Nat.le_refl 1)
      (show 1 + (elf.numSections - 1) ≤ elf.numSections by omega)
    have hbound : 1 + (elf.numSections - 1) = elf.numSections := by omega
    rw [hbound] at hr honly
    refine ⟨r, hres, ?_, honly⟩
    rcases hr with ⟨k, hk, -, hn, hlast⟩ | ⟨hr, hnone⟩
    · exact .inl ⟨k, hk, hn, fun j h1 hj => hlast j h1 hj.header hj⟩
    · exact .inr ⟨hr, fun k hk => hnone k hk.pos hk.header hk⟩

theorem onElf_sectionLoop_strtab (elf : Elf) (name : CString) (s : Int) (rounds i : Nat)
    (out : Int) : OnElf.elfSectionLoop { elf with secStrtab := s } name rounds i out =
      OnElf.elfSectionLoop elf name rounds i out := by
  induction rounds generalizing i out with
  | zero => rfl
  | succ rounds ih =>
    rw [OnElf.elfSectionLoop, OnElf.elfSectionLoop]
    simp only [ih]
    rfl

end Names

section Acceptance
variable {elf elf' : Elf} {name s : CString} {n rounds i sec : Nat} {out r stale : Int}

theorem elfReadHeader_ok : elfReadHeader elf = .ok () ↔ Executable elf.data := by
  unfold elfReadHeader Executable
  simp only [bind_eq_ok, kassert_ok, decide_eq_true_eq, exists_const]

theorem onElf_readHeader_res (elf : Elf) : (OnElf.elfReadHeader elf).res = elfReadHeader elf := by
  unfold OnElf.elfReadHeader elfReadHeader
  simp only [Logged.res_bind, Logged.res_lift]
  rfl

theorem onElf_getSectionName_ok (h : (OnElf.elfGetSectionName elf sec).res = .ok s) :
    elf.secShstrtab < elf.numSections ∧ ∃ t, elf.sectionName sec = some t := by
  unfold OnElf.elfGetSectionName OnElf.elfGetStrtabEntry OnElf.elfGetSectionData at h
  simp only [Logged.res_bind, Logged.res_lift, bind_eq_ok, kassert_ok, decide_eq_true_eq,
    Logged.res_pure] at h
  obtain ⟨⟨⟩, -, ⟨⟩, -, shstrtab, ⟨⟨⟩, htable, ⟨⟩, -, hshstrtab⟩, hname⟩ := h
  cases hshstrtab
  refine ⟨htable, ?_⟩
  split at hname
  · rename_i t ht
    exact ⟨t, ht⟩
  · cases hname

theorem onElf_sectionLoop_ok (h : (OnElf.elfSectionLoop elf name rounds i out).res = .ok r) :
    ∀ k, i ≤ k → k < i + rounds →
      elf.secShstrtab < elf.numSections ∧ ∃ t, elf.sectionName k = some t := by
  induction rounds generalizing i out with
  | zero =>
    intro k h1 h2
    omega
  | succ rounds ih =>
    rw [OnElf.elfSectionLoop, Logged.res_bind] at h
    obtain ⟨s, hs, hrest⟩ := bind_eq_ok.mp h
    intro k h1 h2
    rcases Nat.eq_or_lt_of_le h1 with he | hlt
    · rw [← he]
      exact onElf_getSectionName_ok hs
    · exact ih hrest k hlt (by omega)

theorem onElf_getSectionName_same (h : elfGetSectionName elf sec = .ok s) :
    (OnElf.elfGetSectionName elf sec).res = .ok s := by
  unfold elfGetSectionName elfGetStrtabEntry elfGetSectionData at h
  simp only [bind_eq_ok, kassert_ok, decide_eq_true_eq] at h
  obtain ⟨⟨⟩, hsec, shstrtab, ⟨⟨⟩, htable, hshstrtab⟩, hname⟩ := h
  cases hshstrtab
  split at hname
  · rename_i ht
    cases hname
    have hlen := (readStr_some ht).1
    have hs : elf.sectionName sec = some s := readStr_of_lt ht (by omega)
    rw [onElf_getSectionName htable (by omega) hs]
  · cases hname

theorem onElf_sectionLoop_same (h : elfSectionLoop elf name rounds i out = .ok r) :
    (OnElf.elfSectionLoop elf name rounds i out).res = .ok r := by
  induction rounds generalizing i out with
  | zero => exact h
  | succ rounds ih =>
    obtain ⟨s, hs, hrest⟩ := bind_eq_ok.mp h
    rw [OnElf.elfSectionLoop, Logged.res_bind, onElf_getSectionName_same hs]
    exact ih hrest

theorem onElf_parse_same (h : elfParse elf stale = .ok elf') :
    (OnElf.elfParse elf stale).res = .ok elf' := by
  obtain ⟨⟨⟩, hheader, h⟩ := bind_eq_ok.mp h
  obtain ⟨elf₁, hshdr, h⟩ := bind_eq_ok.mp h
  obtain ⟨elf₂, hsymtab, h⟩ := bind_eq_ok.mp h
  obtain ⟨strtab, hstr, hret⟩ := bind_eq_ok.mp hshdr
  obtain ⟨sec, hsec, hret'⟩ := bind_eq_ok.mp hsymtab
  cases h
  cases hret
  cases hret'
  have hshdr' : (OnElf.elfReadShdr elf).res =
      .ok { elfSections elf with secStrtab := strtab } := by
    unfold OnElf.elfReadShdr
    rw [Logged.res_note_bind, Logged.res_bind]
    exact bind_eq_ok.mpr ⟨strtab, onElf_sectionLoop_same hstr, rfl⟩
  unfold OnElf.elfParse
  rw [Logged.res_bind, onElf_readHeader_res]
  refine bind_eq_ok.mpr ⟨(), hheader, ?_⟩
  rw [Logged.res_bind]
  refine bind_eq_ok.mpr ⟨_, hshdr', ?_⟩
  unfold OnElf.elfReadSymtab
  rw [Logged.res_bind, Logged.res_bind]
  exact bind_eq_ok.mpr ⟨_, bind_eq_ok.mpr ⟨sec, onElf_sectionLoop_same hsec, rfl⟩, rfl⟩

theorem accepted_of_ok (h : (OnElf.elfParse elf stale).res = .ok elf') :
    Accepted (elfSections elf) := by
  unfold OnElf.elfParse at h
  rw [Logged.res_bind, onElf_readHeader_res] at h
  obtain ⟨⟨⟩, hheader, h⟩ := bind_eq_ok.mp h
  rw [Logged.res_bind] at h
  obtain ⟨elf₁, hshdr, -⟩ := bind_eq_ok.mp h
  unfold OnElf.elfReadShdr at hshdr
  rw [Logged.res_note_bind, Logged.res_bind] at hshdr
  obtain ⟨sec, hloop, -⟩ := bind_eq_ok.mp hshdr
  have hnames := onElf_sectionLoop_ok hloop
  refine ⟨elfReadHeader_ok.mp hheader, ?_, ?_⟩
  · intro h2
    exact (hnames 1 (Nat.le_refl 1) (by omega)).1
  · intro k h1 h2
    exact (hnames k h1 (by omega)).2

theorem onElf_readHeader_fits (elf : Elf) (h : 52 ≤ n) :
    Logged.Only (ElfUse.Fits n) (OnElf.elfReadHeader elf) := by
  have hbytes : ∀ {ofs : Word} {k : Nat}, ofs.toNat + k ≤ 52 → ∀ u ∈ ofsFrom ofs k, u.Fits n :=
    fun hk => forall_ofsFrom.mpr (inElf_header h hk)
  unfold OnElf.elfReadHeader
  refine Logged.only_note_bind.mpr ⟨hbytes (by decide), (Logged.only_lift _).bind fun _ => ?_⟩
  refine Logged.only_note_bind.mpr ⟨hbytes (by decide), (Logged.only_lift _).bind fun _ => ?_⟩
  refine Logged.only_note_bind.mpr ⟨hbytes (by decide), (Logged.only_lift _).bind fun _ => ?_⟩
  refine Logged.only_note_bind.mpr ⟨hbytes (by decide), (Logged.only_lift _).bind fun _ => ?_⟩
  refine Logged.only_note_bind.mpr ⟨hbytes (by decide), (Logged.only_lift _).bind fun _ => ?_⟩
  exact Logged.only_note_bind.mpr ⟨hbytes (by decide), Logged.only_lift _⟩

theorem onElf_parse (stale : Int) (h : Accepted (elfSections elf)) : ∃ strtab sec,
    LastNamed (elfSections elf) symtabName stale sec ∧
    (OnElf.elfParse elf stale).res = .ok (elfReadPhdr { elfSections elf with
      secStrtab := strtab
      symtab := (elfSections elf).shOffset sec
      numSymbols := ((elfSections elf).shSize sec).toNat / 16 }) ∧
    (Logged.Only (ElfUse.Fits n) (OnElf.elfParse elf stale) ↔ 52 ≤ n ∧
      (∀ k, 1 ≤ k → k < (elfSections elf).numSections → NameFits n (elfSections elf) k) ∧
      InElf n ((elfSections elf).shdrAt sec + 16#32) 8) := by
  obtain ⟨strtab, hstr, -, honly⟩ := onElf_getSectionByName (n := n) strtabName
    (elfSections elf).secStrtab h
  obtain ⟨sec, hsym, hlast, honly'⟩ := onElf_getSectionByName (n := n) symtabName stale h
  have hheader : (OnElf.elfReadHeader elf).res = .ok () :=
    (onElf_readHeader_res elf).trans (elfReadHeader_ok.mpr h.executable)
  have hshdr : (OnElf.elfReadShdr elf).res =
      .ok { elfSections elf with secStrtab := strtab } := by
    unfold OnElf.elfReadShdr
    rw [Logged.res_note_bind, Logged.res_bind, hstr]
    rfl
  have hsame : OnElf.elfGetSectionByName { elfSections elf with secStrtab := strtab } symtabName
      stale = OnElf.elfGetSectionByName (elfSections elf) symtabName stale :=
    onElf_sectionLoop_strtab _ _ _ _ _ _
  have hsymtab : (OnElf.elfReadSymtab { elfSections elf with secStrtab := strtab } stale).res =
      .ok { elfSections elf with
        secStrtab := strtab
        symtab := (elfSections elf).shOffset sec
        numSymbols := ((elfSections elf).shSize sec).toNat / 16 } := by
    unfold OnElf.elfReadSymtab
    rw [Logged.res_bind, hsame, hsym]
    rfl
  refine ⟨strtab, sec, hlast, ?_, ?_⟩
  · unfold OnElf.elfParse
    rw [Logged.res_bind, hheader]
    change (OnElf.elfReadShdr elf >>= _).res = _
    rw [Logged.res_bind, hshdr]
    change (OnElf.elfReadSymtab _ stale >>= _).res = _
    rw [Logged.res_bind, hsymtab]
    rfl
  · unfold OnElf.elfParse
    rw [Logged.only_bind_ok hheader, Logged.only_bind_ok hshdr, Logged.only_bind_ok hsymtab]
    unfold OnElf.elfReadShdr OnElf.elfReadSymtab OnElf.elfReadPhdr
    rw [hsame, Logged.only_bind_ok hsym]
    simp only [Logged.only_note_bind, forall_append, forall_ofsFrom, Logged.only_bind_ok hstr,
      Logged.only_pure, and_true, honly, honly']
    have hsplit : InElf n ((elfSections elf).shdrAt sec + 16#32) 8 ↔
        InElf n ((elfSections elf).shdrAt sec + 16#32) 4 ∧
          InElf n ((elfSections elf).shdrAt sec + 20#32) 4 := by
      have h := InElf.append ((elfSections elf).shdrAt sec + 16#32) (n := n) (k := 4) (m := 4)
      rwa [BitVec.add_assoc] at h
    rw [hsplit]
    constructor
    · rintro ⟨-, ⟨⟨-, h50⟩, hnames⟩, ⟨-, hsymtab⟩, -⟩
      exact ⟨h50 1 (by decide), hnames, hsymtab⟩
    · rintro ⟨h52, hnames, hsymtab⟩
      have hfield : ∀ {ofs : Word} {k : Nat}, ofs.toNat + k ≤ 52 → InElf n ofs k :=
        fun hk => inElf_header h52 hk
      exact ⟨onElf_readHeader_fits elf h52,
        ⟨⟨⟨hfield (by decide), hfield (by decide)⟩, hfield (by decide)⟩, hnames⟩,
        ⟨hnames, hsymtab⟩, hfield (by decide), hfield (by decide)⟩

theorem accepted_runs (stale : Int) (h : Accepted (elfSections elf)) :
    ∃ elf', (OnElf.elfParse elf stale).res = .ok elf' ∧ elf'.data = elf.data ∧
      elf'.phdr = elfWord elf.data 28#32 ∧ elf'.numSegments = elfHalf elf.data 44#32 := by
  obtain ⟨strtab, sec, -, hrun, -⟩ := onElf_parse (n := 0) stale h
  exact ⟨_, hrun, rfl, rfl, rfl⟩

/-- An image is read in bounds exactly when its tables and segments are in the file. -/
theorem readsInBounds_iff {file : List UInt8} {before : ElfData} {old : Stale} :
    ReadsInBounds file before old ↔
      (Accepted (elfSections (fileElf file before old)) →
        TablesFit file.length (elfSections (fileElf file before old)) old.symtabSec) := by
  constructor
  · intro h hacc
    obtain ⟨strtab, sec, hlast, hrun, honly⟩ := onElf_parse (n := file.length) old.symtabSec hacc
    obtain ⟨hread, hsegments⟩ := h _ hrun
    obtain ⟨h52, hnames, hsymtab⟩ := honly.mp hread
    refine ⟨h52, hnames, ?_, fun i hi ht => ?_⟩
    · intro sec' hlast'
      rw [hlast'.unique hlast]
      exact hsymtab
    · have := hsegments i hi ht
      exact ⟨this.header, this.extent, this.sizes⟩
  · intro h elf hrun
    have hacc := accepted_of_ok hrun
    obtain ⟨strtab, sec, hlast, hrun', honly⟩ := onElf_parse (n := file.length) old.symtabSec hacc
    have hfit := h hacc
    rw [hrun'] at hrun
    cases hrun
    refine ⟨honly.mpr ⟨hfit.header, hfit.names, hfit.symtab sec hlast⟩, fun i hi ht => ?_⟩
    have := hfit.segments i hi ht
    exact ⟨this.header, this.extent, this.sizes⟩

/-- A file of 84 bytes, with one segment, of which it is to have 4096. -/
def longSegment : List UInt8 :=
  [0x7F, 0x45, 0x4C, 0x46, 1] ++ List.replicate 11 0 ++ le16 2 ++ List.replicate 10 0 ++ le32 52 ++
    List.replicate 12 0 ++ le16 1 ++ List.replicate 6 0 ++
  (le32 1 ++ le32 0 ++ le32 0x1000 ++ le32 0 ++ le32 0x1000 ++ le32 0x1000 ++ le32 5 ++ le32 0x1000)

theorem not_readsInBounds_longSegment :
    ¬ ReadsInBounds longSegment (fun _ => 0) ⟨oneSegment, 0⟩ := by
  intro h
  have hnum : (elfSections (fileElf longSegment (fun _ => 0) ⟨oneSegment, 0⟩)).numSections = 0 := by
    decide
  have hacc : Accepted (elfSections (fileElf longSegment (fun _ => 0) ⟨oneSegment, 0⟩)) := by
    refine ⟨⟨by decide, by decide, by decide, by decide, by decide, by decide⟩, ?_, ?_⟩
    · intro h2
      omega
    · intro sec h1 h2
      omega
  obtain ⟨elf, hrun, hdata, hphdr, hnum⟩ := accepted_runs 0 hacc
  have hphdr : elf.phdr = 52#32 := by
    rw [hphdr]
    decide
  have hsegments : 0 < elf.numSegments := by
    rw [hnum]
    decide
  have hload : elf.phType 0 = ptLoad := by
    unfold Elf.phType Elf.phdrAt
    rw [hdata, hphdr]
    decide
  have hfilesz : elf.phFilesz 0 = 0x1000#32 := by
    unfold Elf.phFilesz Elf.phdrAt
    rw [hdata, hphdr]
    decide
  have hextent := ((h elf hrun).2 0 hsegments hload).extent
  have hlen : longSegment.length = 84 := by decide
  have hsize : (0x1000#32 : Word).toNat = 4096 := rfl
  rw [hfilesz, hlen, hsize] at hextent
  omega

end Acceptance

end AkKernel
