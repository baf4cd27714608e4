import AkKernel.Fs.File

/-!
# The initrd

`cpiofs_mount` of `kernel/fs/cpiofs.c` on an archive in the old binary cpio format. What
`archive` writes for a list of files is mounted as one child per file, which is found
under its name and read back in chunks of any sizes.
-/

set_option autoImplicit false

namespace AkKernel

open Bytes Chains

def cpioMagic : Nat := 0o070707

/-- `TRAILER!!!`, the name of the last entry. -/
def trailerName : CString :=
  [⟨0x54, by decide⟩, ⟨0x52, by decide⟩, ⟨0x41, by decide⟩, ⟨0x49, by decide⟩, ⟨0x4C, by decide⟩,
    ⟨0x45, by decide⟩, ⟨0x52, by decide⟩, ⟨0x21, by decide⟩, ⟨0x21, by decide⟩, ⟨0x21, by decide⟩]

/-- The results of `cpiofs_unpack_file`: `&CpioEOF` is no address of the archive. -/
inductive HdrPtr where
  | null
  | eof
  | at (addr : Word)
deriving DecidableEq, Repr

def hdrPtr (addr : Word) : HdrPtr := if addr = 0#32 then .null else .at addr

/-- Rounded up to the next even number. -/
def evenUp (n : Word) : Word := if n % 2#32 = 0#32 then n else n + 1#32

/-- The fields of `cpiohdr_t` are at 0 (`magic`), 20 (`namesize`) and 22 (`filesize`) of
its 26 bytes. -/
def cpiofsUnpackFile (fuel : Nat) (parent : NodePtr) (hdr : Word) (fs : Fs) :
    Except Fault (HdrPtr × Fs) :=
  let name := hdr + 26#32
  if read16 fs.mem hdr ≠ cpioMagic then .ok (.null, fs)
  else if readStr fs.mem name (trailerName.length + 1) = some trailerName then .ok (.eof, fs)
  else do
    let data := name + evenUp (BitVec.ofNat 32 (read16 fs.mem (hdr + 20#32)))
    let length := BitVec.ofNat 32 (read16 fs.mem (hdr + 22#32)) <<< 16 +
      BitVec.ofNat 32 (read16 fs.mem (hdr + 24#32))
    let fs := { fs with
      dev := Function.update fs.dev fs.ndev (.cpio ⟨0#32, length, data⟩)
      ndev := fs.ndev + 1 }
    let (node, fs) ← newNode fs (readStr fs.mem name fsNameMax) (.cpioFile (fs.ndev - 1))
    let nodes ← fsLinkChild fuel fs.node parent node
    .ok (hdrPtr (data + evenUp length), { fs with node := nodes })

def cpiofsMountLoop (fuel : Nat) (parent : NodePtr) : Nat → HdrPtr → Fs →
    Except Fault (Option NodePtr × Fs)
  | 0, _, _ => .error .diverges
  | _ + 1, .eof, fs => .ok (some parent, fs)
  | _ + 1, .null, fs => .ok (none, fs)
  | rounds + 1, .at hdr, fs => do
    let (hdr, fs) ← cpiofsUnpackFile fuel parent hdr fs
    cpiofsMountLoop fuel parent rounds hdr fs

def cpiofsMount (fuel : Nat) (name : CString) (hdr : Word) (fs : Fs) :
    Except Fault (Option NodePtr × Fs) := do
  let (dir, fs) ← newNode fs (if name.length < fsNameMax then some name else none) .dir
  cpiofsMountLoop fuel dir fuel (.at hdr) fs

/-- The size that `cpiofs_stat_file` gives for a file's node. -/
def cpiofsStatFile (fs : Fs) (node : NodePtr) : Option Word :=
  match (fs.node node).ops with
  | .cpioFile device =>
    match fs.dev device with
    | .cpio file => some file.length
    | _ => none
  | _ => none

/-- A file in an archive, with the 18 bytes of its header that the kernel does not read. -/
structure CpioFile where
  fields : List UInt8
  fields_length : fields.length = 18
  name : CString
  contents : List UInt8

def pad (l : List UInt8) : List UInt8 := if l.length % 2 = 0 then l else l ++ [0]

/-- The sizes are written with the high halfword first. -/
def entry (f : CpioFile) : List UInt8 :=
  le16 cpioMagic ++ f.fields ++ le16 (f.name.length + 1) ++ le16 (f.contents.length / 65536) ++
    le16 (f.contents.length % 65536) ++ pad (terminated f.name) ++ pad f.contents

def trailer (fields : List UInt8) (h : fields.length = 18) : CpioFile := ⟨fields, h, trailerName, []⟩

def archive (files : List CpioFile) (last : CpioFile) : List UInt8 :=
  files.flatMap entry ++ entry last

/-- What the archiver asks of a file. -/
structure Storable (f : CpioFile) : Prop where
  name_ne : f.name ≠ []
  noDelim : fsPathDelim ∉ f.name
  short : f.name.length < fsNameMax
  notTrailer : f.name ≠ trailerName
  size : f.contents.length < 2 ^ 31

section Entries
variable {mem : Word → UInt8} {hdr : Word} {f : CpioFile}

theorem pad_length (l : List UInt8) : (pad l).length = l.length + l.length % 2 := by
  unfold pad
  split
  · omega
  · simp only [List.length_append, List.length_singleton]
    omega

theorem holds_of_pad {a : Word} {l : List UInt8} (h : Holds mem a (pad l)) : Holds mem a l := by
  unfold pad at h
  split at h
  · exact h
  · exact (holds_append.mp h).1

theorem evenUp_ofNat (n : Nat) : evenUp (BitVec.ofNat 32 n) = BitVec.ofNat 32 (n + n % 2) := by
  have heven : BitVec.ofNat 32 n % 2#32 = 0#32 ↔ n % 2 = 0 := by
    rw [← BitVec.toNat_inj]
    simp only [BitVec.toNat_umod, BitVec.toNat_ofNat, Nat.reducePow, Nat.reduceMod]
    omega
  unfold evenUp
  split
  · rename_i h
    rw [heven.mp h, Nat.add_zero]
  · rename_i h
    rcases Nat.mod_two_eq_zero_or_one n with h0 | h1
    · exact absurd (heven.mpr h0) h
    · rw [h1, BitVec.ofNat_add]

theorem sizeWord (n : Nat) :
    BitVec.ofNat 32 (n / 65536) <<< 16 + BitVec.ofNat 32 (n % 65536) = BitVec.ofNat 32 n := by
  apply BitVec.eq_of_toNat_eq
  simp only [BitVec.toNat_add, BitVec.toNat_shiftLeft, BitVec.toNat_ofNat, Nat.shiftLeft_eq]
  omega

theorem add_ofNat_add (a : Word) (m n : Nat) :
    a + BitVec.ofNat 32 m + BitVec.ofNat 32 n = a + BitVec.ofNat 32 (m + n) := by
  rw [BitVec.add_assoc, ← BitVec.ofNat_add]

/-- What the kernel reads of an entry. -/
structure EntryAt (mem : Word → UInt8) (hdr : Word) (f : CpioFile) : Prop where
  magic : read16 mem hdr = cpioMagic
  namesize : read16 mem (hdr + 20#32) = f.name.length + 1
  high : read16 mem (hdr + 22#32) = f.contents.length / 65536
  low : read16 mem (hdr + 24#32) = f.contents.length % 65536
  name : Holds mem (hdr + 26#32) (terminated f.name)
  data : Holds mem (hdr + BitVec.ofNat 32 (26 + (pad (terminated f.name)).length)) f.contents

theorem entryAt_of_holds (h : Holds mem hdr (entry f)) (hname : f.name.length < 65535)
    (hsize : f.contents.length < 2 ^ 32) : EntryAt mem hdr f := by
  simp only [entry, holds_append, List.length_append, f.fields_length] at h
  obtain ⟨⟨⟨⟨⟨⟨h0, -⟩, h1⟩, h2⟩, h3⟩, h4⟩, h5⟩ := h
  have hlen : ∀ n, (le16 n).length = 2 := fun _ => rfl
  simp only [hlen] at h1 h2 h3 h4 h5
  refine ⟨h0.read16_eq (by decide), ?_, ?_, ?_, holds_of_pad h4, ?_⟩
  · exact h1.read16_eq (by omega)
  · exact h2.read16_eq (by omega)
  · exact h3.read16_eq (by omega)
  · exact holds_of_pad h5

theorem EntryAt.data_addr (he : EntryAt mem hdr f) :
    hdr + 26#32 + evenUp (BitVec.ofNat 32 (read16 mem (hdr + 20#32))) =
      hdr + BitVec.ofNat 32 (26 + (pad (terminated f.name)).length) := by
  have hname : (terminated f.name).length = f.name.length + 1 := by simp [terminated]
  rw [he.namesize, evenUp_ofNat, pad_length, hname]
  exact add_ofNat_add hdr 26 _

theorem EntryAt.data_size (he : EntryAt mem hdr f) :
    BitVec.ofNat 32 (read16 mem (hdr + 22#32)) <<< 16 +
      BitVec.ofNat 32 (read16 mem (hdr + 24#32)) = BitVec.ofNat 32 f.contents.length := by
  rw [he.high, he.low, sizeWord]

theorem entry_length (f : CpioFile) :
    (entry f).length = 26 + (pad (terminated f.name)).length + (pad f.contents).length := by
  simp only [entry, List.length_append, f.fields_length, le16, List.length_cons, List.length_nil]

theorem entry_end (hdr : Word) (f : CpioFile) :
    hdr + BitVec.ofNat 32 (26 + (pad (terminated f.name)).length) +
      evenUp (BitVec.ofNat 32 f.contents.length) = hdr + BitVec.ofNat 32 (entry f).length := by
  rw [evenUp_ofNat, add_ofNat_add, entry_length, pad_length f.contents]

end Entries

/-- The lists of children are made of allocated nodes. -/
structure FsInv (fs : Fs) (kids : NodePtr → List NodePtr) : Prop where
  forest : Forest fs.node kids
  allocated : ∀ p x, x ∈ kids p → x < fs.nnodes
  fresh : ∀ n, fs.nnodes ≤ n → (fs.node n).firstChild = none

/-- Node `n` is what the mount makes of the file. -/
structure IsFile (fs : Fs) (f : CpioFile) (n : NodePtr) : Prop where
  allocated : n < fs.nnodes
  name : (fs.node n).name = f.name
  device : ∃ d data, d < fs.ndev ∧ (fs.node n).ops = .cpioFile d ∧
    fs.dev d = .cpio ⟨0#32, BitVec.ofNat 32 f.contents.length, data⟩ ∧
    Holds fs.mem data f.contents

/-- The children of `dir` are the nodes `ns` of the files, in some order. -/
structure Mounted (fs : Fs) (dir : NodePtr) (files : List CpioFile)
    (kids : NodePtr → List NodePtr) (ns : List NodePtr) : Prop where
  inv : FsInv fs kids
  perm : List.Perm (kids dir) ns
  isFile : List.Forall₂ (IsFile fs) files ns

section Mount
variable {fs fs' : Fs} {kids : NodePtr → List NodePtr} {dir n : NodePtr} {ns : List NodePtr}
variable {files : List CpioFile} {f : CpioFile} {hdr : Word} {fuel : Nat}

theorem FsInv.newNode (h : FsInv fs kids) {name : Option CString} {ops : NodeOps}
    (hn : newNode fs name ops = .ok (n, fs')) :
    n = fs.nnodes ∧ FsInv fs' kids ∧ fs'.nnodes = fs.nnodes + 1 ∧ kids n = [] ∧
      (fs'.node n).nextSibling = none := by
  cases name with
  | none => cases hn
  | some name =>
    cases hn
    have hlt : ∀ p x, x ∈ kids p → x ≠ fs.nnodes := fun p x hx => Nat.ne_of_lt (h.allocated p x hx)
    have hnil : kids fs.nnodes = [] := h.forest.kids_nil (h.fresh _ (Nat.le_refl _))
    refine ⟨rfl, ⟨⟨?_, h.forest.nodup, h.forest.disjoint⟩, ?_, ?_⟩, rfl, hnil, by simp⟩
    · intro p
      by_cases hp : p = fs.nnodes
      · subst hp
        simp [hnil, Chain]
      · simp only [Function.update_of_ne hp]
        apply (h.forest.chain p).congr
        intro x hx
        simp [hlt p x hx]
    · intro p x hx
      exact Nat.lt_succ_of_lt (h.allocated p x hx)
    · intro m hm
      have hne : m ≠ fs.nnodes := Nat.ne_of_gt hm
      simp only [Function.update_of_ne hne]
      exact h.fresh m (Nat.le_of_succ_le hm)

/-- What the kernel makes of an entry that is not the last one. -/
theorem unpack_run (he : EntryAt fs.mem hdr f) (hs : Storable f)
    (hnext : hdr + BitVec.ofNat 32 (entry f).length ≠ 0#32) :
    cpiofsUnpackFile fuel dir hdr fs = (do
      let file : CpioFileDev := ⟨0#32, BitVec.ofNat 32 f.contents.length,
        hdr + BitVec.ofNat 32 (26 + (pad (terminated f.name)).length)⟩
      let fs₁ := { fs with
        dev := Function.update fs.dev fs.ndev (.cpio file)
        ndev := fs.ndev + 1 }
      let (node, fs₂) ← newNode fs₁ (some f.name) (.cpioFile fs.ndev)
      let nodes ← fsLinkChild fuel fs₂.node dir node
      .ok (.at (hdr + BitVec.ofNat 32 (entry f).length), { fs₂ with node := nodes })) := by
  have htrailer : readStr fs.mem (hdr + 26#32) (trailerName.length + 1) ≠ some trailerName :=
    he.name.readStr_ne hs.notTrailer
  simp only [cpiofsUnpackFile, he.magic, ne_eq, not_true_eq_false, if_false, htrailer,
    he.data_addr, he.data_size, entry_end, he.name.readStr_eq hs.short, Nat.add_sub_cancel, hdrPtr,
    if_neg hnext]

theorem IsFile.persist {g : CpioFile} {m : NodePtr} (h : IsFile fs g m)
    (hnode : m < fs.nnodes →
      (fs'.node m).name = (fs.node m).name ∧ (fs'.node m).ops = (fs.node m).ops)
    (hdev : ∀ d, d < fs.ndev → fs'.dev d = fs.dev d) (hle : fs.ndev ≤ fs'.ndev)
    (hnodes : fs.nnodes ≤ fs'.nnodes) (hmem : fs'.mem = fs.mem) : IsFile fs' g m := by
  obtain ⟨hm, hname, d, data, hd, hops, hfile, hdata⟩ := h
  have hsame := hnode hm
  refine ⟨Nat.lt_of_lt_of_le hm hnodes, hsame.1.trans hname, d, data, Nat.lt_of_lt_of_le hd hle,
    hsame.2.trans hops, (hdev d hd).trans hfile, ?_⟩
  rw [hmem]
  exact hdata

theorem FsInv.linked {nodes : Nodes} {l : List NodePtr} (h : FsInv fs kids) (hdir : dir < fs.nnodes)
    (hn : n < fs.nnodes) (hl : List.Perm l (n :: kids dir))
    (hforest : Forest nodes (withKids kids dir l)) :
    FsInv { fs with node := nodes } (withKids kids dir l) := by
  refine ⟨hforest, ?_, ?_⟩
  · intro p x hp
    by_cases hpd : p = dir
    · subst hpd
      simp only [withKids, Function.update_self, hl.mem_iff] at hp
      rcases List.mem_cons.mp hp with hxn | hxk
      · rw [hxn]
        exact hn
      · exact h.allocated p x hxk
    · simp only [withKids, Function.update_of_ne hpd] at hp
      exact h.allocated p x hp
  · intro m hm
    have hmd : m ≠ dir := Nat.ne_of_gt (Nat.lt_of_lt_of_le hdir hm)
    have hchain := hforest.chain m
    simp only [withKids, Function.update_of_ne hmd, h.forest.kids_nil (h.fresh m hm)] at hchain
    exact hchain

theorem Mounted.unpack (h : Mounted fs dir files kids ns) (hdir : dir < fs.nnodes)
    (he : EntryAt fs.mem hdr f) (hs : Storable f)
    (hnext : hdr + BitVec.ofNat 32 (entry f).length ≠ 0#32) (hfuel : (kids dir).length < fuel) :
    ∃ fs' kids', cpiofsUnpackFile fuel dir hdr fs =
        .ok (.at (hdr + BitVec.ofNat 32 (entry f).length), fs') ∧
      Mounted fs' dir (files ++ [f]) kids' (ns ++ [fs.nnodes]) ∧ dir < fs'.nnodes ∧
      fs'.mem = fs.mem := by
  rw [unpack_run he hs hnext]
  let fs₁ : Fs := { fs with
    dev := Function.update fs.dev fs.ndev (.cpio ⟨0#32, BitVec.ofNat 32 f.contents.length,
      hdr + BitVec.ofNat 32 (26 + (pad (terminated f.name)).length)⟩)
    ndev := fs.ndev + 1 }
  have hinv₁ : FsInv fs₁ kids := ⟨h.inv.forest, h.inv.allocated, h.inv.fresh⟩
  obtain ⟨r, hnew⟩ : ∃ r, newNode fs₁ (some f.name) (.cpioFile fs.ndev) = .ok r := ⟨_, rfl⟩
  obtain ⟨node, fs₂⟩ := r
  obtain ⟨hn, hinv₂, hcount, -, hlast⟩ := hinv₁.newNode hnew
  have hcount : fs₂.nnodes = fs.nnodes + 1 := hcount
  have hn : node = fs.nnodes := hn
  have hold : ∀ m, m ≠ node → fs₂.node m = fs.node m := by
    intro m hm
    cases hnew
    simp [Function.update_of_ne hm, fs₁]
  have hself : (fs₂.node node).name = f.name ∧ (fs₂.node node).ops = .cpioFile fs.ndev := by
    cases hnew
    simp
  have hdev : fs₂.dev = fs₁.dev ∧ fs₂.ndev = fs.ndev + 1 ∧ fs₂.mem = fs.mem := by
    cases hnew
    exact ⟨rfl, rfl, rfl⟩
  have hx : ∀ p, node ∉ kids p := by
    intro p hp
    have hlt := h.inv.allocated p node hp
    rw [hn] at hlt
    exact Nat.lt_irrefl _ hlt
  obtain ⟨nodes, hlink⟩ : ∃ nodes, fsLinkChild fuel fs₂.node dir node = .ok nodes :=
    fsLinkChild_ends hinv₂.forest hfuel
  obtain ⟨l, hspliced, hforest, hsame⟩ := hinv₂.forest.link hx hlast hlink
  have hl := hspliced.perm
  have hdir₂ : dir < fs₂.nnodes := by
    rw [hcount]
    exact Nat.lt_succ_of_lt hdir
  have hnode₂ : node < fs₂.nnodes := by
    rw [hcount, hn]
    exact Nat.lt_succ_self _
  refine ⟨{ fs₂ with node := nodes }, withKids kids dir l, ?_,
    ⟨hinv₂.linked hdir₂ hnode₂ hl hforest, ?_, ?_⟩, hdir₂, hdev.2.2⟩
  · change (newNode fs₁ (some f.name) (.cpioFile fs.ndev) >>= _) = _
    rw [hnew]
    change (fsLinkChild fuel fs₂.node dir node >>= _) = _
    rw [hlink]
    rfl
  · simp only [withKids, Function.update_self]
    rw [← hn]
    exact (hl.trans (h.perm.cons node)).trans (List.perm_append_singleton node ns).symm
  · apply List.rel_append
    · apply h.isFile.imp
      intro g m hg
      apply hg.persist
      · intro hm
        have hmn : m ≠ node := hn ▸ Nat.ne_of_lt hm
        simp only [hsame m, hold m hmn, and_self]
      · intro d hd
        simp only [hdev.1, fs₁, Function.update_of_ne (Nat.ne_of_lt hd)]
      · exact Nat.le_of_lt (by simp only [hdev.2.1]; exact Nat.lt_succ_self _)
      · exact Nat.le_of_lt (by simp only [hcount]; exact Nat.lt_succ_self _)
      · exact hdev.2.2
    · refine List.Forall₂.cons ⟨?_, ?_, fs.ndev,
        hdr + BitVec.ofNat 32 (26 + (pad (terminated f.name)).length), ?_, ?_, ?_, ?_⟩
        List.Forall₂.nil
      · rw [← hn]
        exact hnode₂
      · rw [← hn]
        exact (hsame node).1.trans hself.1
      · simp only [hdev.2.1]
        exact Nat.lt_succ_self _
      · rw [← hn]
        exact (hsame node).2.trans hself.2
      · simp only [hdev.1, fs₁, Function.update_self]
      · simp only [hdev.2.2]
        exact he.data

theorem Mounted.length (h : Mounted fs dir files kids ns) : (kids dir).length = files.length :=
  h.perm.length_eq.trans h.isFile.length_eq.symm

theorem unpack_last {last : CpioFile} (he : EntryAt fs.mem hdr last)
    (hname : last.name = trailerName) : cpiofsUnpackFile fuel dir hdr fs = .ok (.eof, fs) := by
  have hread : readStr fs.mem (hdr + 26#32) (trailerName.length + 1) = some trailerName := by
    rw [he.name.readStr_eq (by rw [hname]; exact Nat.lt_succ_self _), hname]
  simp only [cpiofsUnpackFile, he.magic, ne_eq, not_true_eq_false, if_false, hread, if_true]

/-- The loop unpacks entry after entry; `files` were unpacked before. -/
theorem Mounted.loop {rest : List CpioFile} {last : CpioFile} {rounds : Nat}
    (h : Mounted fs dir files kids ns) (hdir : dir < fs.nnodes)
    (hmem : Holds fs.mem hdr (archive rest last))
    (hfit : hdr.toNat + (archive rest last).length ≤ 2 ^ 32) (hs : ∀ f ∈ rest, Storable f)
    (hlast : last.name = trailerName) (hsize : last.contents = [])
    (hrounds : rest.length + 2 ≤ rounds) (hfuel : files.length + rest.length < fuel) :
    ∃ fs' kids' ns', cpiofsMountLoop fuel dir rounds (.at hdr) fs = .ok (some dir, fs') ∧
      Mounted fs' dir (files ++ rest) kids' ns' ∧ fs'.mem = fs.mem := by
  induction rest generalizing fs kids ns files hdr rounds with
  | nil =>
    obtain ⟨rounds, rfl⟩ : ∃ k, rounds = k + 2 := ⟨rounds - 2, by omega⟩
    have he : EntryAt fs.mem hdr last := entryAt_of_holds hmem (by rw [hlast]; decide)
      (by rw [hsize]; decide)
    refine ⟨fs, kids, ns, ?_, by simpa using h, rfl⟩
    rw [cpiofsMountLoop, unpack_last he hlast]
    rfl
  | cons f rest ih =>
    obtain ⟨rounds, rfl⟩ : ∃ k, rounds = k + 1 := ⟨rounds - 1, by omega⟩
    have hsf := hs f List.mem_cons_self
    have harch : archive (f :: rest) last = entry f ++ archive rest last := by
      simp [archive]
    have hpos : 0 < (archive rest last).length := by
      simp only [archive, entry, le16, List.length_append, List.length_cons]
      omega
    rw [harch, holds_append] at hmem
    rw [harch, List.length_append] at hfit
    have hshort : f.name.length < 65535 := Nat.lt_trans hsf.short (by decide)
    have he := entryAt_of_holds hmem.1 hshort (Nat.lt_trans hsf.size (by decide))
    have hnat : (hdr + BitVec.ofNat 32 (entry f).length).toNat = hdr.toNat + (entry f).length := by
      rw [BitVec.toNat_add, BitVec.toNat_ofNat]
      omega
    have hlen : 0 < (entry f).length := by
      simp only [entry, le16, List.length_append, List.length_cons]
      omega
    have hnext : hdr + BitVec.ofNat 32 (entry f).length ≠ 0#32 := by
      intro h0
      rw [h0, BitVec.toNat_ofNat] at hnat
      omega
    have hkids : (kids dir).length < fuel := by
      rw [h.length]
      omega
    obtain ⟨fs₁, kids₁, hrun, hmounted, hdir₁, hmem₁⟩ := h.unpack hdir he hsf hnext hkids
    have hrounds' : rest.length + 2 ≤ rounds := by
      simp only [List.length_cons] at hrounds
      omega
    obtain ⟨fs', kids', ns', hloop, hm', hmem'⟩ := ih hmounted hdir₁ (hmem₁ ▸ hmem.2)
      (by rw [hnat]; omega) (fun g hg => hs g (List.mem_cons_of_mem f hg)) hrounds'
      (by simp only [List.length_append, List.length_cons, List.length_nil] at hfuel ⊢; omega)
    refine ⟨fs', kids', ns', ?_, by simpa using hm', hmem'.trans hmem₁⟩
    rw [cpiofsMountLoop, hrun]
    exact hloop

theorem cpiofsMount_mounted {name : CString} {last : CpioFile} (h : FsInv fs kids)
    (hname : name.length < fsNameMax) (hmem : Holds fs.mem hdr (archive files last))
    (hfit : hdr.toNat + (archive files last).length ≤ 2 ^ 32) (hs : ∀ f ∈ files, Storable f)
    (hlast : last.name = trailerName) (hsize : last.contents = [])
    (hfuel : files.length + 2 ≤ fuel) :
    ∃ fs' kids' ns', cpiofsMount fuel name hdr fs = .ok (some fs.nnodes, fs') ∧
      Mounted fs' fs.nnodes files kids' ns' ∧ fs'.mem = fs.mem := by
  obtain ⟨r, hnew⟩ : ∃ r, newNode fs (some name) .dir = .ok r := ⟨_, rfl⟩
  obtain ⟨dir, fs₁⟩ := r
  obtain ⟨hdir, hinv, hcount, hnil, -⟩ := h.newNode hnew
  have hmem₁ : fs₁.mem = fs.mem := by
    cases hnew
    rfl
  have h₀ : Mounted fs₁ dir [] kids [] := ⟨hinv, by rw [hnil], List.Forall₂.nil⟩
  have hfuel' : ([] : List CpioFile).length + files.length < fuel := by
    rw [List.length_nil]
    omega
  obtain ⟨fs', kids', ns', hloop, hm, hmem'⟩ := h₀.loop
    (by rw [hcount, hdir]; exact Nat.lt_succ_self _) (hmem₁ ▸ hmem) hfit hs hlast hsize hfuel hfuel'
  rw [← hdir]
  refine ⟨fs', kids', ns', ?_, by simpa using hm, hmem'.trans hmem₁⟩
  change (newNode fs (if name.length < fsNameMax then some name else none) .dir >>= _) = _
  rw [if_pos hname, hnew]
  exact hloop

end Mount

/-- Reads chunk after chunk, `n` times. -/
def readChunks (mem : Word → UInt8) (chunk : Nat → Word) : Nat → CpioFileDev →
    List UInt8 × CpioFileDev
  | 0, file => ([], file)
  | n + 1, file =>
    let (buf, file) := cpiofsReadFile mem file (chunk 0)
    let (rest, file) := readChunks mem (fun i => chunk (i + 1)) n file
    (buf ++ rest, file)

section Reads
variable {mem : Word → UInt8} {file : CpioFileDev} {contents : List UInt8}

/-- The device of a file at position `p`. -/
structure DevAt (mem : Word → UInt8) (contents : List UInt8) (p : Nat) (file : CpioFileDev) :
    Prop where
  pos : file.pos = BitVec.ofNat 32 p
  length : file.length = BitVec.ofNat 32 contents.length
  data : Holds mem file.data contents

theorem readCount_eq {p n : Nat} {nbyte : Word} (hp : p ≤ n) (hn : n < 2 ^ 31)
    (hb : nbyte.toNat < 2 ^ 31) :
    readCount (BitVec.ofNat 32 p) (BitVec.ofNat 32 n) nbyte =
      BitVec.ofNat 32 (min nbyte.toNat (n - p)) := by
  apply BitVec.eq_of_toNat_eq
  unfold readCount
  split
  · rename_i hlt
    rw [BitVec.lt_def, BitVec.toNat_add] at hlt
    simp only [BitVec.toNat_ofNat, BitVec.toNat_sub] at hlt ⊢
    omega
  · rename_i hlt
    rw [BitVec.lt_def, BitVec.toNat_add] at hlt
    simp only [BitVec.toNat_ofNat] at hlt ⊢
    omega

theorem cpiofsReadFile_at {p : Nat} {nbyte : Word} (h : DevAt mem contents p file)
    (hp : p ≤ contents.length) (hn : contents.length < 2 ^ 31) (hb : nbyte.toNat < 2 ^ 31) :
    (cpiofsReadFile mem file nbyte).1 = (contents.drop p).take nbyte.toNat ∧
      DevAt mem contents (p + min nbyte.toNat (contents.length - p))
        (cpiofsReadFile mem file nbyte).2 := by
  have hcount := readCount_eq hp hn hb
  refine ⟨?_, ?_, h.length, h.data⟩
  · have hread := ((h.data.drop hp).take (min nbyte.toNat (contents.length - p))).read_eq
    simp only [cpiofsReadFile, h.pos, h.length, hcount]
    have hlen : (BitVec.ofNat 32 (min nbyte.toNat (contents.length - p))).toNat =
        min nbyte.toNat (contents.length - p) := by
      rw [BitVec.toNat_ofNat]
      omega
    rw [hlen]
    rw [List.length_take, List.length_drop, Nat.min_assoc, Nat.min_self] at hread
    rw [hread, ← List.length_drop, ← List.take_eq_take_min]
  · simp only [cpiofsReadFile, h.pos, h.length, hcount, BitVec.ofNat_add]

/-- Whatever the sizes of the chunks, the reads give the rest of the file, none of them
nothing until the file has ended. -/
theorem readChunks_all (p : Nat) (chunk : Nat → Word) (h : DevAt mem contents p file)
    (hp : p ≤ contents.length) (hn : contents.length < 2 ^ 31)
    (hc : ∀ i, 0 < (chunk i).toNat ∧ (chunk i).toNat < 2 ^ 31) :
    ∃ n, (readChunks mem chunk n file).1 = contents.drop p ∧
      (cpiofsReadFile mem (readChunks mem chunk n file).2 (chunk n)).1 = [] ∧
      ∀ k < n, (cpiofsReadFile mem (readChunks mem chunk k file).2 (chunk k)).1 ≠ [] := by
  -- by induction on the number of bytes that are left
  induction hk : contents.length - p using Nat.strongRecOn generalizing p chunk file with
  | _ left ih =>
    subst hk
    obtain ⟨hread, hdev⟩ := cpiofsReadFile_at h hp hn (hc 0).2
    rcases Nat.eq_or_lt_of_le hp with heq | hlt
    · refine ⟨0, ?_, ?_, ?_⟩
      · simp [readChunks, heq]
      · simp only [readChunks, hread, heq, List.drop_length, List.take_nil]
      · intro k hk
        exact absurd hk (Nat.not_lt_zero k)
    · have hpos := (hc 0).1
      obtain ⟨n, hall, hend, hne⟩ := ih (contents.length - (p + min (chunk 0).toNat
        (contents.length - p))) (by omega) (p + min (chunk 0).toNat (contents.length - p))
        (fun i => chunk (i + 1)) hdev (by omega) (fun i => hc (i + 1)) rfl
      refine ⟨n + 1, ?_, hend, ?_⟩
      · simp only [readChunks, hread, hall]
        rw [← List.drop_drop]
        have htake : (contents.drop p).take (chunk 0).toNat =
            (contents.drop p).take (min (chunk 0).toNat (contents.length - p)) := by
          rw [← List.length_drop, ← List.take_eq_take_min]
        rw [htake, List.take_append_drop]
      · intro k hk
        cases k with
        | zero =>
          simp only [readChunks, hread, ne_eq, List.take_eq_nil_iff, List.drop_eq_nil_iff]
          omega
        | succ k => exact hne k (Nat.lt_of_succ_lt_succ hk)

end Reads

section Found
variable {fs : Fs} {kids : NodePtr → List NodePtr} {dir : NodePtr} {ns : List NodePtr}
variable {files : List CpioFile} {f : CpioFile}

theorem Mounted.names (h : Mounted fs dir files kids ns) :
    (ns.map fun n => (fs.node n).name) = files.map CpioFile.name := by
  have hfile := h.isFile
  clear h
  induction hfile with
  | nil => rfl
  | cons hf _ ih => rw [List.map_cons, List.map_cons, ih, hf.name]

theorem Mounted.child (h : Mounted fs dir files kids ns) (hf : f ∈ files) :
    ∃ n ∈ kids dir, IsFile fs f n := by
  have hex : ∃ n ∈ ns, IsFile fs f n := by
    have hfile := h.isFile
    clear h
    induction hfile with
    | nil => cases hf
    | cons hg _ ih =>
      rcases List.mem_cons.mp hf with rfl | hf
      · exact ⟨_, List.mem_cons_self, hg⟩
      · obtain ⟨n, hn, hfile⟩ := ih hf
        exact ⟨n, List.mem_cons_of_mem _ hn, hfile⟩
  obtain ⟨n, hn, hfile⟩ := hex
  exact ⟨n, h.perm.mem_iff.mpr hn, hfile⟩

/-- With names that differ, looking for a file's name finds its node. -/
theorem Mounted.find (h : Mounted fs dir files kids ns)
    (hd : (files.map CpioFile.name).Nodup) {n : NodePtr} (hn : n ∈ kids dir)
    (hfile : IsFile fs f n) : (kids dir).find? (fun k => (fs.node k).name = f.name) = some n := by
  have hnames : ((kids dir).map fun k => (fs.node k).name).Nodup := by
    rw [(h.perm.map _).nodup_iff, h.names]
    exact hd
  cases hfind : (kids dir).find? fun k => (fs.node k).name = f.name with
  | none =>
    have hno := List.find?_eq_none.mp hfind n hn
    simp [hfile.name] at hno
  | some k =>
    have hk := List.mem_of_find?_eq_some hfind
    have hkn : (fs.node k).name = f.name := by
      have hsome := List.find?_some hfind
      exact of_decide_eq_true hsome
    rw [List.inj_on_of_nodup_map hnames hk hn (hkn.trans hfile.name.symm)]

end Found

/-- An archive that is loaded at `hdr` is mounted with one child per file; under its name
each file is found with its size, and reading it from the start until a read returns
nothing gives its contents. -/
theorem cpiofsMount_roundtrip (fs : Fs) (kids : NodePtr → List NodePtr) (h : FsInv fs kids)
    (name : CString) (hname : name.length < fsNameMax) (hdr : Word) (files : List CpioFile)
    (fields : List UInt8) (hfields : fields.length = 18)
    (hmem : Holds fs.mem hdr (archive files (trailer fields hfields)))
    (hfit : hdr.toNat + (archive files (trailer fields hfields)).length ≤ 2 ^ 32)
    (hs : ∀ f ∈ files, Storable f) (hd : (files.map CpioFile.name).Nodup)
    (fuel : Nat) (hfuel : files.length + 2 ≤ fuel) :
    ∃ dir fs' ns, cpiofsMount fuel name hdr fs = .ok (some dir, fs') ∧
      ChildIter fs'.node dir none ns ∧ ns.Nodup ∧
      List.Perm (ns.map fun n => (fs'.node n).name) (files.map CpioFile.name) ∧
      ∀ f ∈ files, ∃ n d file size,
        (∃ bound, ∀ rounds, bound ≤ rounds → fsLocate rounds fs'.node dir f.name = .ok (some n)) ∧
        (fs'.node n).ops = .cpioFile d ∧ fs'.dev d = .cpio file ∧
        cpiofsStatFile fs' n = some size ∧ size.toNat = f.contents.length ∧
        ∀ chunk : Nat → Word, (∀ i, 0 < (chunk i).toNat ∧ (chunk i).toNat < 2 ^ 31) →
          ∃ m, (readChunks fs'.mem chunk m file).1 = f.contents ∧
            (cpiofsReadFile fs'.mem (readChunks fs'.mem chunk m file).2 (chunk m)).1 = [] ∧
            ∀ k < m, (cpiofsReadFile fs'.mem (readChunks fs'.mem chunk k file).2
              (chunk k)).1 ≠ [] := by
  obtain ⟨fs', kids', ns, hmount, hm, -⟩ := cpiofsMount_mounted h hname hmem hfit hs rfl rfl hfuel
  have hiter : ∀ p, ChildIter fs'.node p none (kids' p) := fun p =>
    childIter_iff.mpr (hm.inv.forest.chain p)
  refine ⟨fs.nnodes, fs', kids' fs.nnodes, hmount, hiter _, hm.inv.forest.nodup _, ?_, ?_⟩
  · rw [← hm.names]
    exact hm.perm.map _
  · intro f hf
    have hsf := hs f hf
    obtain ⟨n, hn, hfile⟩ := hm.child hf
    obtain ⟨d, data, -, hops, hdev, hdata⟩ := hfile.device
    refine ⟨n, d, _, BitVec.ofNat 32 f.contents.length, ?_, hops, hdev, ?_, ?_, ?_⟩
    · obtain ⟨bound, hlocate⟩ := fsLocateLoop_follows hiter f.name [] fs.nnodes
      refine ⟨bound, ?_⟩
      intro rounds hrounds
      rw [fsLocate, strtok_name hsf.name_ne hsf.noDelim, List.head?_cons, List.tail_cons,
        hlocate rounds hrounds, follow, hm.find hd hn hfile]
      rfl
    · simp only [cpiofsStatFile, hops, hdev]
    · rw [BitVec.toNat_ofNat]
      exact Nat.mod_eq_of_lt (Nat.lt_trans hsf.size (by decide))
    · intro chunk hc
      exact readChunks_all 0 chunk ⟨rfl, rfl, hdata⟩ (Nat.zero_le _) hsf.size hc

section Image

/-- The files `a`, with three bytes, and `b`, which is empty. -/
def imageFiles : List CpioFile :=
  [⟨List.replicate 18 0, rfl, [charA], [1, 2, 3]⟩, ⟨List.replicate 18 0, rfl, [charB], []⟩]

def image : List UInt8 := archive imageFiles (trailer (List.replicate 18 0) rfl)

/-- No nodes yet, and the image at 0xC0200000. -/
def imageFs : Fs where
  node := fun _ => { name := [], ops := .dir, firstChild := none, nextSibling := none }
  nnodes := 0
  dev := fun _ => .chr
  ndev := 0
  mem := fun a => image.getD (a - 0xC0200000#32).toNat 0

theorem imageFs_inv : FsInv imageFs fun _ => [] := by
  refine ⟨⟨fun _ => rfl, fun _ => List.nodup_nil, ?_⟩, ?_, fun _ _ => rfl⟩
  · intro p q x hx
    cases hx
  · intro p x hx
    cases hx

theorem imageFiles_storable : ∀ f ∈ imageFiles, Storable f := by
  intro f hf
  simp only [imageFiles, List.mem_cons, List.not_mem_nil, or_false] at hf
  rcases hf with rfl | rfl
  · exact ⟨by decide, by decide, by decide, by decide, by decide⟩
  · exact ⟨by decide, by decide, by decide, by decide, by decide⟩

/-- The image is mounted with its two files as children. -/
theorem cpiofsMount_roundtrip_image : ∃ dir fs' ns,
    cpiofsMount 4 [charA] 0xC0200000#32 imageFs = .ok (some dir, fs') ∧
      ChildIter fs'.node dir none ns ∧ ns.length = 2 := by
  obtain ⟨dir, fs', ns, hmount, hiter, -, hperm, -⟩ := cpiofsMount_roundtrip imageFs (fun _ => [])
    imageFs_inv [charA] (by decide) 0xC0200000#32 imageFiles (List.replicate 18 0) rfl
    (by decide +kernel) (by decide +kernel) imageFiles_storable (by decide) 4 (by decide)
  refine ⟨dir, fs', ns, hmount, hiter, ?_⟩
  have hlen := hperm.length_eq
  rw [List.length_map, List.length_map] at hlen
  exact hlen

end Image

end AkKernel
