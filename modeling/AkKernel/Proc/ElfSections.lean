import AkKernel.Proc.Elf

/-!
# Sections by their names

`elf_get_section_by_name` of `kernel/proc/elf/read_elf.c` and the two functions that use it. It
returns 0 whether it found the name or not, and its callers look at nothing else.
-/

set_option autoImplicit false

namespace AkKernel

open Bytes Runs

namespace Elf

def nameAt (elf : Elf) (sec : Int) : Word := elf.shOffset elf.secShstrtab + elf.shName sec

def sectionName (elf : Elf) (sec : Nat) : Option CString :=
  readStr elf.data (elf.nameAt sec) (2 ^ 32)

/-- A section, other than section 0, of that name. -/
structure Named (elf : Elf) (name : CString) (sec : Nat) : Prop where
  pos : 1 ≤ sec
  header : sec < elf.numSections
  named : elf.sectionName sec = some name

/-- The section headers and the table of their names are in the file. -/
structure SectionsInBounds (elf : Elf) : Prop where
  headers : elf.shdr.toNat + 40 * elf.numSections ≤ elf.length.toNat
  nonneg : 0 ≤ elf.secShstrtab
  table : elf.secShstrtab < elf.numSections
  inside : (elf.shOffset elf.secShstrtab).toNat + (elf.shSize elf.secShstrtab).toNat ≤
    elf.length.toNat
  names : ∀ sec : Nat, 1 ≤ sec → sec < elf.numSections →
    ∃ len : Nat, (elf.shName sec).toNat + len < (elf.shSize elf.secShstrtab).toNat ∧
      elf.data (elf.nameAt sec + BitVec.ofNat 32 len) = 0

/-- No name is longer than the buffer it is copied to. -/
def ShortNames (elf : Elf) : Prop :=
  ∀ sec : Nat, 1 ≤ sec → sec < elf.numSections →
    ∀ name, elf.sectionName sec = some name → name.length < 32

end Elf

/-- What `elf_read_shdr` has found when it looks for the first section. -/
def elfSections (elf : Elf) : Elf :=
  { elf with
    shdr := elfWord elf.data 32#32
    numSections := elfHalf elf.data 48#32
    secShstrtab := elfHalf elf.data 50#32 }

/-- `elf_get_section_by_name` with the value that it returns. -/
def elfSectionCall (elf : Elf) (name : CString) (out : Int) : Except Fault (Int × Int) :=
  (elfGetSectionByName elf name out).map fun out => (0, out)

/-- The call returns 0 exactly when there is a section of the name, and then gives one. -/
def FindsByName (elf : Elf) (name : CString) : Prop :=
  ∀ out, ∃ ret sec, elfSectionCall elf name out = .ok (ret, sec) ∧
    (ret = 0 ↔ ∃ k, elf.Named name k) ∧ (ret = 0 → ∃ k : Nat, sec = k ∧ elf.Named name k)

/-- Whatever the variable had before, a call that returned 0 has set it to the index of a
section. -/
def Assigns (elf : Elf) (name : CString) : Prop :=
  ∀ out sec, elfSectionCall elf name out = .ok (0, sec) → 0 ≤ sec ∧ sec < elf.numSections

/-- What is promised of the lookup in an image, and of the index that `elf_read_shdr` keeps and
the one that `elf_read_symtab` goes on with. -/
structure LooksUp (elf : Elf) (name : CString) : Prop where
  finds : FindsByName (elfSections elf) name
  strtab : ∀ stale elf', elfReadShdr { elf with secStrtab := stale } = .ok elf' →
    0 ≤ elf'.secStrtab ∧ elf'.secStrtab < elf'.numSections
  symtab : ∀ elf', elfReadShdr elf = .ok elf' → Assigns elf' symtabName

/-- `r` is the last section of the name from `i` up to `limit`, or what was there before. -/
def LastIn (elf : Elf) (name : CString) (i limit : Nat) (out r : Int) : Prop :=
  (∃ k : Nat, r = k ∧ i ≤ k ∧ elf.Named name k ∧ ∀ j, k < j → j < limit → ¬ elf.Named name j) ∨
    r = out ∧ ∀ k, i ≤ k → k < limit → ¬ elf.Named name k

section Lookup
variable {elf : Elf} {name : CString} {rounds i sec : Nat} {out r : Int}

theorem Elf.SectionsInBounds.exists_name (h : elf.SectionsInBounds) (h1 : 1 ≤ sec)
    (h2 : sec < elf.numSections) : ∃ s, elf.sectionName sec = some s := by
  obtain ⟨len, hlen, hnul⟩ := h.names sec h1 h2
  have hlt := (elf.shSize elf.secShstrtab).isLt
  exact readStr_of_nul (i := len) (by omega) hnul

theorem elfGetSectionName_run (h : elf.SectionsInBounds) (hsec : sec < elf.numSections) :
    elfGetSectionName elf sec = match readStr elf.data (elf.nameAt sec) 32 with
      | some s => .ok s
      | none => .error .outOfBounds := by
  have hsec' : decide ((sec : Int) < elf.numSections) = true := by
    rw [decide_eq_true_eq]
    omega
  unfold elfGetSectionName elfGetStrtabEntry elfGetSectionData
  rw [kassert_bind, if_pos hsec', kassert_bind, if_pos (decide_eq_true h.table)]
  rfl

theorem elfGetSectionName_short (h : elf.SectionsInBounds) (h1 : 1 ≤ sec)
    (h2 : sec < elf.numSections) (hshort : elf.ShortNames) :
    ∃ s, elf.sectionName sec = some s ∧ elfGetSectionName elf sec = .ok s := by
  obtain ⟨s, hs⟩ := h.exists_name h1 h2
  refine ⟨s, hs, ?_⟩
  rw [elfGetSectionName_run h h2, readStr_of_lt hs (hshort sec h1 h2 s hs)]

/-- The buffer for a name is left where the name is too long for it. -/
theorem elfGetSectionName_long (h : elf.SectionsInBounds) (h2 : sec < elf.numSections)
    {s : CString} (hs : elf.sectionName sec = some s) (hlong : 32 ≤ s.length) :
    elfGetSectionName elf sec = .error .outOfBounds := by
  have hnone : readStr elf.data (elf.nameAt sec) 32 = none := by
    by_contra hsome
    obtain ⟨t, ht⟩ := Option.ne_none_iff_exists'.mp hsome
    have hlen := (readStr_some ht).1
    have heq := readStr_of_lt ht (n := 2 ^ 32) (by omega)
    rw [Elf.sectionName, heq] at hs
    cases hs
    omega
  rw [elfGetSectionName_run h h2, hnone]

theorem named_iff (name : CString) {s : CString} (hs : elf.sectionName i = some s) (hi : 1 ≤ i)
    (hlt : i < elf.numSections) : strcmp s name = 0 ↔ elf.Named name i := by
  rw [strcmp_eq_zero]
  constructor
  · intro he
    exact ⟨hi, hlt, by rw [hs, he]⟩
  · intro hn
    exact Option.some_inj.mp (hs.symm.trans hn.named)

theorem LastIn.empty (elf : Elf) (name : CString) (i : Nat) (out : Int) :
    LastIn elf name i i out out :=
  .inr ⟨rfl, fun k h1 h2 => absurd h2 (by omega)⟩

theorem LastIn.cons {s : CString} {limit : Nat} (hs : elf.sectionName i = some s) (hi : 1 ≤ i)
    (hlt : i < elf.numSections)
    (h : LastIn elf name (i + 1) limit (if strcmp s name = 0 then i else out) r) :
    LastIn elf name i limit out r := by
  have hnamed := named_iff name hs hi hlt
  rcases h with ⟨k, hk, hle, hn, hlast⟩ | ⟨hr, hnone⟩
  · exact .inl ⟨k, hk, by omega, hn, hlast⟩
  · by_cases hmatch : strcmp s name = 0
    · rw [if_pos hmatch] at hr
      exact .inl ⟨i, hr, Nat.le_refl i, hnamed.mp hmatch, hnone⟩
    · rw [if_neg hmatch] at hr
      refine .inr ⟨hr, ?_⟩
      intro k h1 h2
      rcases Nat.eq_or_lt_of_le h1 with he | hlt'
      · rw [← he]
        exact fun hn => hmatch (hnamed.mpr hn)
      · exact hnone k hlt' h2

theorem elfSectionLoop_short (name : CString) (out : Int) (h : elf.SectionsInBounds)
    (hshort : elf.ShortNames) (hi : 1 ≤ i) (hend : i + rounds ≤ elf.numSections) :
    ∃ r, elfSectionLoop elf name rounds i out = .ok r ∧
      LastIn elf name i (i + rounds) out r := by
  induction rounds generalizing i out with
  | zero => exact ⟨out, rfl, .empty elf name i out⟩
  | succ rounds ih =>
    obtain ⟨s, hs, hrun⟩ := elfGetSectionName_short h hi (by omega) hshort
    obtain ⟨r, hloop, hr⟩ := ih (i := i + 1) (if strcmp s name = 0 then i else out) (by omega)
      (by omega)
    rw [Nat.add_right_comm] at hr
    exact ⟨r, bind_eq_ok.mpr ⟨s, hrun, hloop⟩, hr.cons hs hi (by omega)⟩

theorem elfSectionLoop_ok (h : elf.SectionsInBounds) (hi : 1 ≤ i)
    (hend : i + rounds ≤ elf.numSections) (hrun : elfSectionLoop elf name rounds i out = .ok r) :
    ∀ sec, i ≤ sec → sec < i + rounds → ∀ s, elf.sectionName sec = some s → s.length < 32 := by
  induction rounds generalizing i out with
  | zero =>
    intro sec h1 h2
    omega
  | succ rounds ih =>
    obtain ⟨s, hs, hloop⟩ := bind_eq_ok.mp hrun
    intro sec h1 h2 t ht
    rcases Nat.eq_or_lt_of_le h1 with he | hlt
    · by_contra hlong
      rw [← he] at ht
      rw [elfGetSectionName_long h (by omega) ht (Nat.not_lt.mp hlong)] at hs
      cases hs
    · exact ih (by omega) (by omega) hloop sec hlt (by omega) t ht

theorem elfSectionCall_ok {ret : Int} : elfSectionCall elf name out = .ok (ret, r) ↔
    ret = 0 ∧ elfGetSectionByName elf name out = .ok r := by
  unfold elfSectionCall
  cases elfGetSectionByName elf name out with
  | error e => exact iff_of_false nofun fun h => nomatch h.2
  | ok x =>
    constructor
    · intro h
      cases h
      exact ⟨rfl, rfl⟩
    · rintro ⟨rfl, h⟩
      cases h
      rfl

theorem elfSectionCall_short (name : CString) (out : Int) (h : elf.SectionsInBounds)
    (hshort : elf.ShortNames) : ∃ r, elfSectionCall elf name out = .ok (0, r) ∧
      ((∃ k : Nat, r = k ∧ elf.Named name k) ∨ r = out ∧ ∀ k, ¬ elf.Named name k) := by
  rcases Nat.eq_zero_or_pos elf.numSections with hnone | hsome
  · refine ⟨out, elfSectionCall_ok.mpr ⟨rfl, ?_⟩, .inr ⟨rfl, fun k hk => ?_⟩⟩
    · rw [elfGetSectionByName, hnone]
      rfl
    · have := hk.header
      omega
  · obtain ⟨r, hrun, hr⟩ := elfSectionLoop_short name out h hshort (Nat.le_refl 1)
      (show 1 + (elf.numSections - 1) ≤ elf.numSections by omega)
    refine ⟨r, elfSectionCall_ok.mpr ⟨rfl, hrun⟩, ?_⟩
    rcases hr with ⟨k, hk, -, hn, -⟩ | ⟨hr, hnone⟩
    · exact .inl ⟨k, hk, hn⟩
    · refine .inr ⟨hr, ?_⟩
      intro k hk
      have := hk.header
      exact hnone k hk.pos (by omega) hk

theorem shortNames_of_call (h : elf.SectionsInBounds)
    (hrun : elfSectionCall elf name out = .ok (0, r)) : elf.ShortNames := by
  intro sec h1 h2
  exact elfSectionLoop_ok h (Nat.le_refl 1) (by omega) (elfSectionCall_ok.mp hrun).2 sec h1
    (by omega)

theorem findsByName_iff (h : elf.SectionsInBounds) : FindsByName elf name ↔
    elf.ShortNames ∧ ∃ k, elf.Named name k := by
  constructor
  · intro hfinds
    obtain ⟨ret, r, hrun, hiff, -⟩ := hfinds 0
    have hret := (elfSectionCall_ok.mp hrun).1
    rw [hret] at hrun
    exact ⟨shortNames_of_call h hrun, hiff.mp hret⟩
  · rintro ⟨hshort, k, hk⟩ out
    obtain ⟨r, hrun, hr⟩ := elfSectionCall_short name out h hshort
    refine ⟨0, r, hrun, iff_of_true rfl ⟨k, hk⟩, fun _ => ?_⟩
    exact hr.resolve_right fun hnone => hnone.2 k hk

/-- Where the lookup returns, the variable is set when there is a section to find. -/
theorem assigns_iff (h : elf.SectionsInBounds) (hshort : elf.ShortNames) : Assigns elf name ↔
    ∃ k, elf.Named name k := by
  constructor
  · intro hassigns
    obtain ⟨r, hrun, hr⟩ := elfSectionCall_short name (-1) h hshort
    rcases hr with ⟨k, -, hk⟩ | ⟨hr, -⟩
    · exact ⟨k, hk⟩
    · have := (hassigns _ _ hrun).1
      omega
  · rintro ⟨k, hk⟩ out sec hrun
    obtain ⟨r, hrun', hr⟩ := elfSectionCall_short name out h hshort
    rw [hrun'] at hrun
    cases hrun
    obtain ⟨j, rfl, hj⟩ := hr.resolve_right fun hnone => hnone.2 k hk
    have := hj.header
    omega

/-- The index that was kept of an earlier lookup does not matter to the next. -/
theorem elfSectionLoop_strtab (elf : Elf) (name : CString) (s : Int) (rounds i : Nat) (out : Int) :
    elfSectionLoop { elf with secStrtab := s } name rounds i out =
      elfSectionLoop elf name rounds i out := by
  induction rounds generalizing i out with
  | zero => rfl
  | succ rounds ih =>
    rw [elfSectionLoop, elfSectionLoop]
    simp only [ih]
    rfl

theorem elfSectionCall_strtab (elf : Elf) (name : CString) (s out : Int) :
    elfSectionCall { elf with secStrtab := s } name out = elfSectionCall elf name out := by
  unfold elfSectionCall elfGetSectionByName
  rw [elfSectionLoop_strtab]

theorem elfReadShdr_ok {elf' : Elf} : elfReadShdr elf = .ok elf' ↔ ∃ sec,
    elfSectionCall (elfSections elf) strtabName elf.secStrtab = .ok (0, sec) ∧
      elf' = { elfSections elf with secStrtab := sec } := by
  unfold elfReadShdr
  rw [bind_eq_ok]
  constructor
  · rintro ⟨sec, hrun, hret⟩
    cases hret
    exact ⟨sec, elfSectionCall_ok.mpr ⟨rfl, hrun⟩, rfl⟩
  · rintro ⟨sec, hrun, rfl⟩
    exact ⟨sec, (elfSectionCall_ok.mp hrun).2, rfl⟩

/-- `elf_read_shdr` keeps the index of a section when the lookup gives it one. -/
theorem elfReadShdr_assigns : (∀ stale elf', elfReadShdr { elf with secStrtab := stale } = .ok elf' →
      0 ≤ elf'.secStrtab ∧ elf'.secStrtab < elf'.numSections) ↔
    Assigns (elfSections elf) strtabName := by
  have hcall (stale : Int) : elfSectionCall (elfSections { elf with secStrtab := stale })
      strtabName stale = elfSectionCall (elfSections elf) strtabName stale :=
    elfSectionCall_strtab (elfSections elf) strtabName stale stale
  constructor
  · intro h stale sec hrun
    exact h stale _ (elfReadShdr_ok.mpr ⟨sec, (hcall stale).trans hrun, rfl⟩)
  · intro h stale elf' hread
    obtain ⟨sec, hrun, rfl⟩ := elfReadShdr_ok.mp hread
    exact h stale sec ((hcall stale).symm.trans hrun)

theorem assigns_strtab (s : Int) : Assigns { elf with secStrtab := s } name ↔ Assigns elf name := by
  unfold Assigns
  simp only [elfSectionCall_strtab]

/-- A name that no section has is reported as found, and what the variable had before is used. -/
theorem looksUp_iff (h : (elfSections elf).SectionsInBounds) : LooksUp elf name ↔
    (elfSections elf).ShortNames ∧ (∃ k, (elfSections elf).Named name k) ∧
      (∃ k, (elfSections elf).Named strtabName k) ∧
      ∃ k, (elfSections elf).Named symtabName k := by
  constructor
  · rintro ⟨hfinds, hstr, hsym⟩
    obtain ⟨hshort, hname⟩ := (findsByName_iff h).mp hfinds
    obtain ⟨sec, hrun, -⟩ := elfSectionCall_short strtabName elf.secStrtab h hshort
    have hsym := (assigns_strtab sec).mp (hsym _ (elfReadShdr_ok.mpr ⟨sec, hrun, rfl⟩))
    exact ⟨hshort, hname, (assigns_iff h hshort).mp (elfReadShdr_assigns.mp hstr),
      (assigns_iff h hshort).mp hsym⟩
  · rintro ⟨hshort, hname, hstr, hsym⟩
    refine ⟨(findsByName_iff h).mpr ⟨hshort, hname⟩,
      elfReadShdr_assigns.mpr ((assigns_iff h hshort).mpr hstr), ?_⟩
    intro elf' hread
    obtain ⟨sec, -, rfl⟩ := elfReadShdr_ok.mp hread
    exact (assigns_strtab sec).mpr ((assigns_iff h hshort).mpr hsym)

end Lookup

section Images

def le32 (n : Nat) : List UInt8 := le16 (n % 65536) ++ le16 (n / 65536)

def elfHeader (shnum shstrndx : Nat) : List UInt8 :=
  [0x7F, 0x45, 0x4C, 0x46, 1] ++ List.replicate 11 0 ++ le16 2 ++ List.replicate 14 0 ++ le32 52 ++
    List.replicate 12 0 ++ le16 shnum ++ le16 shstrndx

def sectionHeader (name offset size : Nat) : List UInt8 :=
  le32 name ++ List.replicate 12 0 ++ le32 offset ++ le32 size ++ List.replicate 16 0

/-- The headers of sections that are all where the table of names is. -/
def sectionHeaders (offset size : Nat) : Nat → List CString → List UInt8
  | _, [] => []
  | name, s :: names =>
    sectionHeader name offset size ++ sectionHeaders offset size (name + s.length + 1) names

def shstrtabName : CString := strtabName.take 2 ++ ⟨0x68, by decide⟩ :: strtabName.tail

/-- An executable with sections of these names and the table of the names behind them. -/
def elfBytes (names : List CString) : List UInt8 :=
  let table := (names ++ [shstrtabName]).flatMap terminated
  elfHeader (names.length + 2) (names.length + 1) ++ sectionHeader 0 0 0 ++
    sectionHeaders (52 + 40 * (names.length + 2)) (table.length + 1) 1 (names ++ [shstrtabName]) ++
    0 :: table

def elfImage (names : List CString) : Elf where
  data := fun ofs => (elfBytes names).getD ofs.toNat 0
  length := BitVec.ofNat 32 (elfBytes names).length
  shdr := 0#32
  phdr := 0#32
  symtab := 0#32
  numSegments := 0
  numSections := 0
  numSymbols := 0
  secStrtab := 0
  secShstrtab := 0

/-- The lookups for an image with a symbol table. -/
theorem looksUp_symbols : LooksUp (elfImage [symtabName, strtabName]) symtabName := by
  have hnames : ∀ sec : Nat, sec < 4 → 1 ≤ sec → ∃ len < 27,
      ((elfSections (elfImage [symtabName, strtabName])).shName sec).toNat + len < 27 ∧
      (elfImage [symtabName, strtabName]).data
        ((elfSections (elfImage [symtabName, strtabName])).nameAt sec + BitVec.ofNat 32 len) = 0 := by
    decide
  have hshort : ∀ sec : Nat, sec < 4 → 1 ≤ sec →
      (((elfSections (elfImage [symtabName, strtabName])).sectionName sec).getD []).length < 32 := by
    decide
  refine (looksUp_iff ⟨by decide +kernel, by decide, by decide, by decide +kernel, ?_⟩).mpr
    ⟨?_, ⟨1, by decide, by decide, by decide⟩, ⟨2, by decide, by decide, by decide⟩,
      1, by decide, by decide, by decide⟩
  · intro sec h1 h2
    obtain ⟨len, -, hlen, hnul⟩ := hnames sec h2 h1
    exact ⟨len, hlen, hnul⟩
  · intro sec h1 h2 name hname
    have := hshort sec h2 h1
    rw [hname] at this
    exact this

/-- In a stripped image the name of the string table is found, at the index that was there. -/
theorem not_looksUp_stripped : ¬ LooksUp (elfImage []) strtabName := by
  intro h
  obtain ⟨ret, sec, hrun, hiff, -⟩ := h.finds 0
  have hret := (elfSectionCall_ok.mp hrun).1
  obtain ⟨k, hk⟩ := hiff.mp hret
  have hnone : ∀ k < 2, 1 ≤ k → (elfSections (elfImage [])).sectionName k ≠ some strtabName := by
    decide
  exact hnone k hk.header hk.pos hk.named

end Images

end AkKernel
