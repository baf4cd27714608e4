import AkKernel.Foundation.Logged
import AkKernel.Fs.Tree

/-!
# What mounting an archive reads

`cpiofs_mount` on any bytes. It goes from header to header by the sizes it finds, and looks at
nothing that says where the archive ends: the bytes that it reads and the files that it makes
lie in the image when the image is a sequence of entries that leads to a last one.
-/

set_option autoImplicit false

namespace AkKernel

open Bytes Logs Runs

/-- A byte that is read, or the bytes that a new file has. -/
inductive ArchiveUse where
  | byte (addr : Word)
  | extent (data length : Word)
deriving DecidableEq, Repr

/-- A function with what it uses of the archive. -/
abbrev OnArchive := Logged ArchiveUse Fault

def bytesFrom (addr : Word) (n : Nat) : List ArchiveUse :=
  (List.range n).map fun i => .byte (addr + BitVec.ofNat 32 i)

def cpioData (mem : Word → UInt8) (hdr : Word) : Word :=
  hdr + 26#32 + evenUp (BitVec.ofNat 32 (read16 mem (hdr + 20#32)))

def cpioLength (mem : Word → UInt8) (hdr : Word) : Word :=
  BitVec.ofNat 32 (read16 mem (hdr + 22#32)) <<< 16 +
    BitVec.ofNat 32 (read16 mem (hdr + 24#32))

/-- What `strcpy` reads of a name; one that is too long is read at least as far as the field
that it is copied to goes. -/
def nameBytes (mem : Word → UInt8) (name : Word) : Nat :=
  match readStr mem name fsNameMax with
  | some s => s.length + 1
  | none => fsNameMax

namespace OnArchive

def cpiofsUnpackFile (fuel : Nat) (parent : NodePtr) (hdr : Word) (fs : Fs) :
    OnArchive (HdrPtr × Fs) := do
  let name := hdr + 26#32
  .note (bytesFrom hdr 2)
  if read16 fs.mem hdr ≠ cpioMagic then pure (.null, fs)
  else do
    .note (bytesFrom name (compared fs.mem name trailerName))
    if readStr fs.mem name (trailerName.length + 1) = some trailerName then pure (.eof, fs)
    else do
      .note (bytesFrom (hdr + 20#32) 6)
      let data := cpioData fs.mem hdr
      let length := cpioLength fs.mem hdr
      let fs := { fs with
        dev := Function.update fs.dev fs.ndev (.cpio ⟨0#32, length, data⟩)
        ndev := fs.ndev + 1 }
      .note [.extent data length]
      .note (bytesFrom name (nameBytes fs.mem name))
      let (node, fs) ← .lift (newNode fs (readStr fs.mem name fsNameMax) (.cpioFile (fs.ndev - 1)))
      let nodes ← .lift (fsLinkChild fuel fs.node parent node)
      pure (hdrPtr (data + evenUp length), { fs with node := nodes })

def cpiofsMountLoop (fuel : Nat) (parent : NodePtr) : Nat → HdrPtr → Fs →
    OnArchive (Option NodePtr × Fs)
  | 0, _, _ => .lift (.error .diverges)
  | _ + 1, .eof, fs => pure (some parent, fs)
  | _ + 1, .null, fs => pure (none, fs)
  | rounds + 1, .at hdr, fs => do
    let (hdr, fs) ← cpiofsUnpackFile fuel parent hdr fs
    cpiofsMountLoop fuel parent rounds hdr fs

def cpiofsMount (fuel : Nat) (name : CString) (hdr : Word) (fs : Fs) :
    OnArchive (Option NodePtr × Fs) := do
  let (dir, fs) ← .lift (newNode fs (if name.length < fsNameMax then some name else none) .dir)
  cpiofsMountLoop fuel dir fuel (.at hdr) fs

end OnArchive

section Erase
variable {fuel : Nat} {parent : NodePtr}

theorem res_cpiofsUnpackFile (hdr : Word) (fs : Fs) :
    (OnArchive.cpiofsUnpackFile fuel parent hdr fs).res = cpiofsUnpackFile fuel parent hdr fs := by
  unfold OnArchive.cpiofsUnpackFile cpiofsUnpackFile
  rw [Logged.res_note_bind]
  by_cases hmagic : read16 fs.mem hdr ≠ cpioMagic
  · rw [if_pos hmagic, if_pos hmagic]
    rfl
  rw [if_neg hmagic, if_neg hmagic, Logged.res_note_bind]
  by_cases hlast : readStr fs.mem (hdr + 26#32) (trailerName.length + 1) = some trailerName
  · rw [if_pos hlast, if_pos hlast]
    rfl
  · rw [if_neg hlast, if_neg hlast]
    simp only [Logged.res_note_bind]
    exact Logged.res_bind_of rfl fun _ => Logged.res_bind_of rfl fun _ => rfl

theorem res_cpiofsMountLoop (rounds : Nat) : ∀ hdr fs,
    (OnArchive.cpiofsMountLoop fuel parent rounds hdr fs).res =
      cpiofsMountLoop fuel parent rounds hdr fs := by
  induction rounds with
  | zero => exact fun _ _ => rfl
  | succ rounds ih =>
    intro hdr fs
    cases hdr with
    | null => rfl
    | eof => rfl
    | «at» hdr => exact Logged.res_bind_of (res_cpiofsUnpackFile hdr fs) fun _ => ih _ _

theorem res_cpiofsMount (name : CString) (hdr : Word) (fs : Fs) :
    (OnArchive.cpiofsMount fuel name hdr fs).res = cpiofsMount fuel name hdr fs :=
  Logged.res_bind_of rfl fun _ => res_cpiofsMountLoop _ _ _

end Erase

/-- The use is of bytes among the `n` from `initrd` on. -/
def ArchiveUse.Inside (initrd : Word) (n : Nat) : ArchiveUse → Prop
  | .byte addr => (addr - initrd).toNat < n
  | .extent data length => ∀ i < length.toNat, (data + BitVec.ofNat 32 i - initrd).toNat < n

/-- The next `k` bytes are in the image. -/
def InImage (initrd : Word) (n : Nat) (addr : Word) (k : Nat) : Prop :=
  ∀ i < k, (addr + BitVec.ofNat 32 i - initrd).toNat < n

/-- The header that `cpiofs_unpack_file` returns behind the file of the header at `hdr`. -/
def nextHdr (mem : Word → UInt8) (hdr : Word) : Word :=
  cpioData mem hdr + evenUp (cpioLength mem hdr)

/-- An image of `n` bytes at `initrd`, from a header on: entries with their names and files, up
to the one named `TRAILER!!!`, to a halfword that is not the magic number, or to the end of the
address space. -/
inductive Enclosed (mem : Word → UInt8) (initrd : Word) (n : Nat) : Word → Prop where
  | noMagic {hdr : Word} : InImage initrd n hdr 2 → read16 mem hdr ≠ cpioMagic →
      Enclosed mem initrd n hdr
  | trailer {hdr : Word} : InImage initrd n hdr 2 → read16 mem hdr = cpioMagic →
      readStr mem (hdr + 26#32) fsNameMax = some trailerName →
      InImage initrd n (hdr + 26#32) (trailerName.length + 1) → Enclosed mem initrd n hdr
  | entry {hdr : Word} {name : CString} : InImage initrd n hdr 2 → read16 mem hdr = cpioMagic →
      InImage initrd n (hdr + 20#32) 6 → readStr mem (hdr + 26#32) fsNameMax = some name →
      name ≠ trailerName → InImage initrd n (hdr + 26#32) (name.length + 1) →
      InImage initrd n (cpioData mem hdr) (cpioLength mem hdr).toNat →
      (nextHdr mem hdr ≠ 0#32 → Enclosed mem initrd n (nextHdr mem hdr)) → Enclosed mem initrd n hdr

section Unpack
variable {mem : Word → UInt8} {initrd hdr : Word} {n fuel : Nat} {parent : NodePtr}
variable {fs fs' : Fs} {kids : NodePtr → List NodePtr}

theorem bytesFrom_inside {addr : Word} {k : Nat} :
    (∀ a ∈ bytesFrom addr k, a.Inside initrd n) ↔ InImage initrd n addr k := by
  simp [bytesFrom, InImage, ArchiveUse.Inside]

theorem InImage.mono {addr : Word} {k l : Nat} (h : InImage initrd n addr l) (hle : k ≤ l) :
    InImage initrd n addr k :=
  fun i hi => h i (Nat.lt_of_lt_of_le hi hle)

/-- What one header makes `cpiofs_unpack_file` use. -/
def unpackUses (mem : Word → UInt8) (hdr : Word) : List ArchiveUse :=
  let name := hdr + 26#32
  bytesFrom hdr 2 ++
    if read16 mem hdr ≠ cpioMagic then []
    else bytesFrom name (compared mem name trailerName) ++
      if readStr mem name (trailerName.length + 1) = some trailerName then []
      else bytesFrom (hdr + 20#32) 6 ++ ([.extent (cpioData mem hdr) (cpioLength mem hdr)] ++
        bytesFrom name (nameBytes mem name))

theorem unpack_log :
    (OnArchive.cpiofsUnpackFile fuel parent hdr fs).log = unpackUses fs.mem hdr := by
  unfold OnArchive.cpiofsUnpackFile unpackUses
  rw [Logged.log_note_bind]
  apply congrArg (bytesFrom hdr 2 ++ ·)
  split
  · rfl
  rw [Logged.log_note_bind]
  apply congrArg (bytesFrom (hdr + 26#32) _ ++ ·)
  split
  · rfl
  simp only [Logged.log_note_bind]
  rw [Logged.log_lift_bind fun _ => Logged.log_lift_bind fun _ => rfl, List.append_nil]

theorem trailer_read {name : Word} :
    readStr mem name (trailerName.length + 1) = some trailerName ↔
      readStr mem name fsNameMax = some trailerName :=
  ⟨fun h => readStr_of_lt h (by decide), fun h => readStr_of_lt h (by decide)⟩

theorem name_ne_trailer {addr : Word} {name : CString} (hname : readStr mem addr fsNameMax = some name)
    (hne : name ≠ trailerName) : readStr mem addr fsNameMax ≠ some trailerName := by
  rw [hname]
  exact fun h => hne (Option.some.inj h)

theorem uses_noMagic (h : read16 mem hdr ≠ cpioMagic) :
    (∀ a ∈ unpackUses mem hdr, a.Inside initrd n) ↔ InImage initrd n hdr 2 := by
  unfold unpackUses
  simp only [if_pos h, List.append_nil, bytesFrom_inside]

theorem uses_trailer (hmagic : read16 mem hdr = cpioMagic)
    (hlast : readStr mem (hdr + 26#32) fsNameMax = some trailerName) :
    (∀ a ∈ unpackUses mem hdr, a.Inside initrd n) ↔
      InImage initrd n hdr 2 ∧ InImage initrd n (hdr + 26#32) (trailerName.length + 1) := by
  unfold unpackUses
  simp only [if_neg (not_not.mpr hmagic), if_pos (trailer_read.mpr hlast), List.append_nil,
    List.forall_mem_append, bytesFrom_inside, compared_eq hlast]

/-- The comparison with `TRAILER!!!` reads no more of the name than `strcpy` does. -/
theorem uses_entry {name : CString} (hmagic : read16 mem hdr = cpioMagic)
    (hname : readStr mem (hdr + 26#32) fsNameMax = some name) (hne : name ≠ trailerName) :
    (∀ a ∈ unpackUses mem hdr, a.Inside initrd n) ↔
      InImage initrd n hdr 2 ∧ InImage initrd n (hdr + 20#32) 6 ∧
        InImage initrd n (hdr + 26#32) (name.length + 1) ∧
        InImage initrd n (cpioData mem hdr) (cpioLength mem hdr).toNat := by
  have hlast := mt trailer_read.mp (name_ne_trailer hname hne)
  have hbytes : nameBytes mem (hdr + 26#32) = name.length + 1 := by
    unfold nameBytes
    rw [hname]
  unfold unpackUses
  simp only [if_neg (not_not.mpr hmagic), if_neg hlast, List.forall_mem_append, bytesFrom_inside,
    List.forall_mem_singleton, hbytes]
  constructor
  · rintro ⟨hhdr, -, hsizes, hdata, hall⟩
    exact ⟨hhdr, hsizes, hall, hdata⟩
  · rintro ⟨hhdr, hsizes, hall, hdata⟩
    exact ⟨hhdr, hall.mono (compared_le hname), hsizes, hdata, hall⟩

theorem unpack_noMagic (h : read16 fs.mem hdr ≠ cpioMagic) :
    cpiofsUnpackFile fuel parent hdr fs = .ok (.null, fs) :=
  if_pos h

theorem unpack_trailer (hmagic : read16 fs.mem hdr = cpioMagic)
    (hlast : readStr fs.mem (hdr + 26#32) fsNameMax = some trailerName) :
    cpiofsUnpackFile fuel parent hdr fs = .ok (.eof, fs) := by
  unfold cpiofsUnpackFile
  rw [if_neg (not_not.mpr hmagic), if_pos (trailer_read.mpr hlast)]

theorem unpack_entry (hmagic : read16 fs.mem hdr = cpioMagic)
    (hlast : readStr fs.mem (hdr + 26#32) fsNameMax ≠ some trailerName) :
    cpiofsUnpackFile fuel parent hdr fs = (do
      let fs₁ := { fs with
        dev := Function.update fs.dev fs.ndev
          (.cpio ⟨0#32, cpioLength fs.mem hdr, cpioData fs.mem hdr⟩)
        ndev := fs.ndev + 1 }
      let (node, fs₂) ← newNode fs₁ (readStr fs.mem (hdr + 26#32) fsNameMax) (.cpioFile fs.ndev)
      let nodes ← fsLinkChild fuel fs₂.node parent node
      .ok (hdrPtr (nextHdr fs.mem hdr), { fs₂ with node := nodes })) := by
  unfold cpiofsUnpackFile
  rw [if_neg (not_not.mpr hmagic), if_neg fun h => hlast (trailer_read.mp h)]
  rfl

theorem unpack_entry_ok {r : HdrPtr} (hmagic : read16 fs.mem hdr = cpioMagic)
    (hlast : readStr fs.mem (hdr + 26#32) fsNameMax ≠ some trailerName)
    (hr : cpiofsUnpackFile fuel parent hdr fs = .ok (r, fs')) :
    (∃ name, readStr fs.mem (hdr + 26#32) fsNameMax = some name ∧ name ≠ trailerName) ∧
      r = hdrPtr (nextHdr fs.mem hdr) ∧ fs'.mem = fs.mem := by
  rw [unpack_entry hmagic hlast] at hr
  cases hname : readStr fs.mem (hdr + 26#32) fsNameMax with
  | none =>
    rw [hname] at hr
    cases hr
  | some name =>
    rw [hname] at hr hlast
    obtain ⟨⟨node, fs₂⟩, hnew, hrest⟩ := bind_eq_ok.mp hr
    obtain ⟨nodes, -, hret⟩ := bind_eq_ok.mp hrest
    cases hnew
    cases Except.ok.inj hret
    exact ⟨⟨name, rfl, fun h => hlast (congrArg some h)⟩, rfl, rfl⟩

/-- With enough rounds for the children that are there, the file is linked among them. -/
theorem Tree.unpack_ends (h : Tree fs kids) (parent : NodePtr) {name : CString}
    (hmagic : read16 fs.mem hdr = cpioMagic)
    (hname : readStr fs.mem (hdr + 26#32) fsNameMax = some name) (hne : name ≠ trailerName) :
    ∃ fs', fs'.mem = fs.mem ∧ ∀ fuel, (kids parent).length < fuel →
      cpiofsUnpackFile fuel parent hdr fs = .ok (hdrPtr (nextHdr fs.mem hdr), fs') := by
  have hlast := name_ne_trailer hname hne
  have hdev := h.addDevice (.cpio ⟨0#32, cpioLength fs.mem hdr, cpioData fs.mem hdr⟩)
  obtain ⟨⟨node, fs₂⟩, hnew⟩ : ∃ r, AkKernel.newNode { fs with
      dev := Function.update fs.dev fs.ndev
        (.cpio ⟨0#32, cpioLength fs.mem hdr, cpioData fs.mem hdr⟩)
      ndev := fs.ndev + 1 } (some name) (.cpioFile fs.ndev) = .ok r := ⟨_, rfl⟩
  obtain ⟨-, hinv, -⟩ := hdev.tree.inv.newNode hnew
  obtain ⟨nodes, hlink⟩ : ∃ nodes, fsLinkChild ((kids parent).length + 1) fs₂.node parent node =
      .ok nodes := fsLinkChild_ends hinv.forest (Nat.lt_succ_self _)
  refine ⟨{ fs₂ with node := nodes }, ?_, ?_⟩
  · cases hnew
    rfl
  intro fuel hfuel
  rw [fsLinkChild_fuel hinv.forest (Nat.lt_succ_self _) hfuel] at hlink
  simp only [unpack_entry hmagic hlast, hname, hnew, hlink, bind, Except.bind]

end Unpack

section Mount
variable {initrd : Word} {n : Nat} {parent : NodePtr} {fs : Fs} {kids : NodePtr → List NodePtr}

/-- One round, when what it uses is in the image. -/
theorem loop_at {fuel rounds : Nat} {hdr : Word} {next : HdrPtr} {fs' : Fs}
    (hr : cpiofsUnpackFile fuel parent hdr fs = .ok (next, fs')) :
    (OnArchive.cpiofsMountLoop fuel parent (rounds + 1) (.at hdr) fs).Only
        (ArchiveUse.Inside initrd n) ↔
      (∀ a ∈ unpackUses fs.mem hdr, a.Inside initrd n) ∧
        (OnArchive.cpiofsMountLoop fuel parent rounds next fs').Only
          (ArchiveUse.Inside initrd n) := by
  have hres : (OnArchive.cpiofsUnpackFile fuel parent hdr fs).res = .ok (next, fs') := by
    rw [res_cpiofsUnpackFile, hr]
  rw [OnArchive.cpiofsMountLoop, Logged.only_bind_ok hres, Logged.Only, unpack_log]

/-- A mount that ends and stays in the image has gone over entries to a last one. -/
theorem enclosed_of_mount {fuel rounds : Nat} {hdr : Word} {r : Option NodePtr × Fs}
    (hr : cpiofsMountLoop fuel parent rounds (.at hdr) fs = .ok r)
    (hin : (OnArchive.cpiofsMountLoop fuel parent rounds (.at hdr) fs).Only
      (ArchiveUse.Inside initrd n)) :
    Enclosed fs.mem initrd n hdr := by
  induction rounds generalizing hdr fs with
  | zero => cases hr
  | succ rounds ih =>
    obtain ⟨⟨next, fs'⟩, hunpack, hrest⟩ := bind_eq_ok.mp hr
    obtain ⟨huses, hin⟩ := (loop_at hunpack).mp hin
    by_cases hmagic : read16 fs.mem hdr = cpioMagic
    · by_cases hlast : readStr fs.mem (hdr + 26#32) fsNameMax = some trailerName
      · obtain ⟨hhdr, hname⟩ := (uses_trailer hmagic hlast).mp huses
        exact .trailer hhdr hmagic hlast hname
      · obtain ⟨⟨name, hname, hne⟩, rfl, hmem⟩ := unpack_entry_ok hmagic hlast hunpack
        obtain ⟨hhdr, hsizes, hall, hdata⟩ := (uses_entry hmagic hname hne).mp huses
        refine .entry hhdr hmagic hsizes hname hne hall hdata ?_
        intro hnext
        rw [hdrPtr, if_neg hnext] at hrest hin
        have henc := ih hrest hin
        rwa [hmem] at henc
    · exact .noMagic ((uses_noMagic hmagic).mp huses) hmagic

/-- The loop ends with this result and has stayed in the image, from some number of rounds on. -/
def LoopInside (parent : NodePtr) (hdr : HdrPtr) (fs : Fs) (initrd : Word) (n : Nat) : Prop :=
  ∃ bound r, ∀ fuel rounds, bound ≤ fuel → bound ≤ rounds →
    cpiofsMountLoop fuel parent rounds hdr fs = .ok r ∧
      (OnArchive.cpiofsMountLoop fuel parent rounds hdr fs).Only (ArchiveUse.Inside initrd n)

theorem loopInside_null : LoopInside parent .null fs initrd n := by
  refine ⟨1, (none, fs), ?_⟩
  rintro fuel (_ | rounds) - hrounds
  · cases hrounds
  · exact ⟨rfl, Logged.only_pure _⟩

theorem loopInside_eof : LoopInside parent .eof fs initrd n := by
  refine ⟨1, (some parent, fs), ?_⟩
  rintro fuel (_ | rounds) - hrounds
  · cases hrounds
  · exact ⟨rfl, Logged.only_pure _⟩

theorem LoopInside.at {hdr : Word} {next : HdrPtr} {fs' : Fs} {k : Nat}
    (hunpack : ∀ fuel, k < fuel → cpiofsUnpackFile fuel parent hdr fs = .ok (next, fs'))
    (huses : ∀ a ∈ unpackUses fs.mem hdr, a.Inside initrd n)
    (h : LoopInside parent next fs' initrd n) : LoopInside parent (.at hdr) fs initrd n := by
  obtain ⟨bound, r, hloop⟩ := h
  refine ⟨k + bound + 1, r, ?_⟩
  rintro fuel (_ | rounds) hfuel hrounds
  · cases hrounds
  have hstep := hunpack fuel (by omega)
  obtain ⟨hok, hin⟩ := hloop fuel rounds (by omega) (by omega)
  refine ⟨?_, (loop_at hstep).mpr ⟨huses, hin⟩⟩
  rw [cpiofsMountLoop, hstep]
  exact hok

/-- The induction is on the entries that the image is made of. -/
theorem Enclosed.loopInside {mem : Word → UInt8} {hdr : Word} (h : Enclosed mem initrd n hdr)
    (hmem : fs.mem = mem) (htree : Tree fs kids) (hparent : parent < fs.nnodes) :
    LoopInside parent (.at hdr) fs initrd n := by
  induction h generalizing fs kids with
  | noMagic hhdr hmagic =>
    subst hmem
    exact .at (fun _ (_ : 0 < _) => unpack_noMagic hmagic) ((uses_noMagic hmagic).mpr hhdr)
      loopInside_null
  | trailer hhdr hmagic hlast hname =>
    subst hmem
    exact .at (fun _ (_ : 0 < _) => unpack_trailer hmagic hlast)
      ((uses_trailer hmagic hlast).mpr ⟨hhdr, hname⟩) loopInside_eof
  | entry hhdr hmagic hsizes hname hne hall hdata _ ih =>
    subst hmem
    obtain ⟨fs', hsame, hunpack⟩ := htree.unpack_ends parent hmagic hname hne
    have huses := (uses_entry hmagic hname hne).mpr ⟨hhdr, hsizes, hall, hdata⟩
    refine .at hunpack huses ?_
    obtain ⟨kids', hext⟩ := htree.unpack hparent (hunpack _ (Nat.lt_succ_self _))
    unfold hdrPtr
    split
    · exact loopInside_null
    · rename_i hnext
      exact ih hnext hsame hext.tree (Nat.lt_of_lt_of_le hparent hext.nodes)

end Mount

section Written
variable {mem : Word → UInt8} {initrd : Word} {n : Nat} {files : List CpioFile}

theorem inImage_of_le {pos k : Nat} (h : pos + k ≤ n) :
    InImage initrd n (initrd + BitVec.ofNat 32 pos) k := by
  intro i hi
  have hsub : initrd + BitVec.ofNat 32 pos + BitVec.ofNat 32 i - initrd =
      BitVec.ofNat 32 (pos + i) := by
    rw [add_ofNat_add, BitVec.add_comm, BitVec.add_sub_cancel]
  rw [hsub, BitVec.toNat_ofNat]
  exact Nat.lt_of_le_of_lt (Nat.mod_le _ _) (by omega)

/-- What an archiver writes is such a sequence of entries. -/
theorem enclosed_archive {last : CpioFile} {pos : Nat}
    (hmem : Holds mem (initrd + BitVec.ofNat 32 pos) (archive files last))
    (hfit : pos + (archive files last).length ≤ n) (hs : ∀ f ∈ files, Storable f)
    (hlast : last.name = trailerName) (hempty : last.contents = []) :
    Enclosed mem initrd n (initrd + BitVec.ofNat 32 pos) := by
  induction files generalizing pos with
  | nil =>
    have he : EntryAt mem _ last := entryAt_of_holds hmem (by rw [hlast]; decide)
      (by rw [hempty]; decide)
    have hlen : 26 + (trailerName.length + 1) ≤ (archive [] last).length := by
      simp only [archive, List.flatMap_nil, List.nil_append, entry_length, pad_length, hlast,
        terminated, List.length_append, List.length_map, List.length_singleton]
      omega
    refine .trailer (inImage_of_le (by omega)) he.magic ?_ ?_
    · rw [he.name.readStr_eq (by rw [hlast]; decide), hlast]
    · rw [add_ofNat_add _ pos 26]
      exact inImage_of_le (by omega)
  | cons f files ih =>
    have hf := hs f List.mem_cons_self
    have hsize : f.contents.length < 2 ^ 32 := Nat.lt_trans hf.size (by decide)
    have hsplit : archive (f :: files) last = entry f ++ archive files last := by
      simp only [archive, List.flatMap_cons, List.append_assoc]
    rw [hsplit, holds_append] at hmem
    rw [hsplit, List.length_append] at hfit
    have he : EntryAt mem _ f :=
      entryAt_of_holds hmem.1 (Nat.lt_trans hf.short (by decide)) hsize
    have hdata : cpioData mem (initrd + BitVec.ofNat 32 pos) =
        initrd + BitVec.ofNat 32 (pos + (26 + (pad (terminated f.name)).length)) :=
      he.data_addr.trans (add_ofNat_add _ _ _)
    have hlength : cpioLength mem (initrd + BitVec.ofNat 32 pos) =
        BitVec.ofNat 32 f.contents.length := he.data_size
    have hnext : nextHdr mem (initrd + BitVec.ofNat 32 pos) =
        initrd + BitVec.ofNat 32 (pos + (entry f).length) := by
      rw [nextHdr, hdata, hlength, ← add_ofNat_add, entry_end, add_ofNat_add]
    have hname : (terminated f.name).length = f.name.length + 1 := by simp [terminated]
    have hlen := entry_length f
    rw [pad_length, pad_length, hname] at hlen
    refine .entry (inImage_of_le (by omega)) he.magic ?_ (he.name.readStr_eq hf.short)
      hf.notTrailer ?_ ?_ ?_
    · rw [add_ofNat_add _ pos 20]
      exact inImage_of_le (by omega)
    · rw [add_ofNat_add _ pos 26]
      exact inImage_of_le (by omega)
    · rw [hdata, hlength, BitVec.toNat_ofNat, Nat.mod_eq_of_lt hsize, pad_length, hname]
      exact inImage_of_le (by omega)
    · intro _
      rw [hnext]
      rw [add_ofNat_add] at hmem
      exact ih hmem.2 (by omega) fun g hg => hs g (List.mem_cons_of_mem _ hg)

end Written

section Inside
variable {fs : Fs} {kids : NodePtr → List NodePtr} {initrd : Word} {n : Nat}

/-- From some number of rounds on `cpiofs_mount` ends with one result, a new directory or `NULL`,
and all that it has used is in the `n` bytes at `initrd`. -/
def MountsInside (fs : Fs) (name : CString) (initrd : Word) (n : Nat) : Prop :=
  ∃ bound r, (r.1 = none ∨ r.1 = some fs.nnodes) ∧ ∀ fuel, bound ≤ fuel →
    cpiofsMount fuel name initrd fs = .ok r ∧
      (OnArchive.cpiofsMount fuel name initrd fs).Only (ArchiveUse.Inside initrd n)

theorem Tree.mountsInside_iff (h : Tree fs kids) {name : CString} (hname : name.length < fsNameMax) :
    MountsInside fs name initrd n ↔ Enclosed fs.mem initrd n initrd := by
  obtain ⟨⟨dir, fs₁⟩, hnew⟩ : ∃ r, AkKernel.newNode fs
      (if name.length < fsNameMax then some name else none) .dir = .ok r := by
    rw [if_pos hname]
    exact ⟨_, rfl⟩
  obtain ⟨hext, hloose, -⟩ := h.newNode (by
    intro d hd
    cases hd) hnew
  have hmem : fs₁.mem = fs.mem := by
    rw [if_pos hname] at hnew
    cases hnew
    rfl
  have hdir : dir = fs.nnodes := (h.inv.newNode hnew).1
  have hmount : ∀ fuel, cpiofsMount fuel name initrd fs =
      cpiofsMountLoop fuel dir fuel (.at initrd) fs₁ := by
    intro fuel
    rw [cpiofsMount, hnew]
    rfl
  have honly : ∀ fuel, (OnArchive.cpiofsMount fuel name initrd fs).Only
      (ArchiveUse.Inside initrd n) ↔ (OnArchive.cpiofsMountLoop fuel dir fuel (.at initrd) fs₁).Only
        (ArchiveUse.Inside initrd n) := by
    intro fuel
    rw [OnArchive.cpiofsMount, Logged.only_bind_ok (a := (dir, fs₁)) hnew]
    exact and_iff_right (Logged.only_lift _)
  constructor
  · rintro ⟨bound, r, -, hall⟩
    obtain ⟨hok, hin⟩ := hall bound (Nat.le_refl _)
    rw [hmount] at hok
    rw [← hmem]
    exact enclosed_of_mount hok ((honly bound).mp hin)
  · intro henc
    obtain ⟨bound, r, hloop⟩ := henc.loopInside hmem hext.tree hloose.allocated
    refine ⟨bound, r, ?_, ?_⟩
    · rw [← hdir]
      exact (hext.tree.mountLoop hloose.allocated
        (hloop bound bound (Nat.le_refl _) (Nat.le_refl _)).1).1
    · intro fuel hfuel
      obtain ⟨hok, hin⟩ := hloop fuel fuel hfuel hfuel
      exact ⟨(hmount fuel).trans hok, (honly fuel).mpr hin⟩

/-- In every tree that the kernel builds, for any bytes and any number `n` of them. -/
theorem cpiofsMount_inside_iff (dev : DevPtr → Device) (ndev : Nat) (mem : Word → UInt8)
    (tr : List (MountOp × Unit)) (m : Mounts) (hrun : Run MountStep (Mounts.start dev ndev mem) tr m)
    (name : CString) (hname : name.length < fsNameMax) (initrd : Word) (n : Nat) :
    MountsInside m.fs name initrd n ↔ Enclosed m.fs.mem initrd n initrd := by
  obtain ⟨kids, h⟩ := run_built hrun
  exact h.tree.mountsInside_iff hname

/-- The image of two files is mounted without a look behind it. -/
theorem cpiofsMount_inside_iff_image :
    MountsInside (Mounts.start (fun _ => .chr) 1 imageFs.mem).fs initrdName 0xC0200000#32
      image.length := by
  apply (cpiofsMount_inside_iff _ _ _ [] _ .nil initrdName (by decide) _ _).mpr
  have hall : 0 + image.length ≤ image.length := Nat.le_of_eq (Nat.zero_add _)
  exact enclosed_archive (by decide +kernel) hall imageFiles_storable rfl rfl

/-- A header whose sizes lead back to it is unpacked for ever. -/
theorem loop_stands_still {parent : NodePtr} {hdr : Word} {fuel rounds : Nat} {fs : Fs}
    (hmagic : read16 fs.mem hdr = cpioMagic)
    (hlast : readStr fs.mem (hdr + 26#32) fsNameMax ≠ some trailerName)
    (hnext : nextHdr fs.mem hdr = hdr) (hne : hdr ≠ 0#32) (r : Option NodePtr × Fs) :
    cpiofsMountLoop fuel parent rounds (.at hdr) fs ≠ .ok r := by
  induction rounds generalizing fs with
  | zero => exact fun h => nomatch h
  | succ rounds ih =>
    intro h
    obtain ⟨⟨next, fs'⟩, hunpack, hrest⟩ := bind_eq_ok.mp h
    obtain ⟨-, rfl, hmem⟩ := unpack_entry_ok hmagic hlast hunpack
    rw [hnext, hdrPtr, if_neg hne] at hrest
    exact ih (by rwa [hmem]) (by rwa [hmem]) (by rwa [hmem]) hrest

/-- One header with the name `a` and a length of -28 bytes. -/
def stillImage : List UInt8 :=
  le16 cpioMagic ++ List.replicate 18 0 ++ le16 2 ++ le16 0xFFFF ++ le16 0xFFE4 ++
    terminated [charA]

def stillFs : Fs :=
  (Mounts.start (fun _ => .chr) 1 fun a => stillImage.getD (a - 0xC0200000#32).toNat 0).fs

theorem mount_stands_still :
    (∀ fuel r, cpiofsMount fuel initrdName 0xC0200000#32 stillFs ≠ .ok r) ∧
      ¬ MountsInside stillFs initrdName 0xC0200000#32 stillImage.length := by
  have hnever : ∀ fuel r, cpiofsMount fuel initrdName 0xC0200000#32 stillFs ≠ .ok r := by
    intro fuel r
    exact loop_stands_still (by decide +kernel) (by decide +kernel) (by decide +kernel)
      (by decide) r
  refine ⟨hnever, ?_⟩
  rintro ⟨bound, r, -, hall⟩
  exact hnever bound r (hall bound (Nat.le_refl _)).1

end Inside

end AkKernel
