import AkKernel.Fs.Cpio

/-!
# The tree that the kernel builds

`fs_create_rootfs` of `kernel/fs/node.c`, `devfs_register_device` of `kernel/fs/devfs.c` and
`initrd_mount` of `kernel/initrd.c`, called in any order together with `tmpfs_create_file`.
The lists of children stay well formed, `devfs` is a child of the root, and the `stat` of a
file of the initrd finds its device.
-/

set_option autoImplicit false

namespace AkKernel

open Bytes Chains Runs

/-- The one node that is not allocated. -/
def devfsGet : NodePtr := 0

/-- The characters up to a NUL. -/
def toCString : List UInt8 → CString
  | [] => []
  | b :: l => if h : b ≠ 0 then ⟨b, h⟩ :: toCString l else []

def rootName : CString := toCString [0x72, 0x6F, 0x6F, 0x74]

def devName : CString := toCString [0x64, 0x65, 0x76]

def initrdName : CString := toCString [0x69, 0x6E, 0x69, 0x74, 0x72, 0x64]

def fsCreateRootfs (fuel : Nat) (fs : Fs) : Except Fault (NodePtr × Fs) := do
  let (root, fs) ← tmpfsCreate rootName fs
  let nodes ← fsLinkChild fuel fs.node root devfsGet
  .ok (root, { fs with node := nodes })

/-- The `stat` of the new node stays as `malloc` found it. -/
def devfsRegisterDevice (fuel : Nat) (devname : CString) (device : DevPtr) (fs : Fs) :
    Except Fault Fs := do
  let (node, fs) ← newNode fs (if devname.length < fsNameMax then some devname else none)
    (.dev device)
  let nodes ← fsLinkChild fuel fs.node devfsGet node
  .ok { fs with node := nodes }

def initrdMount (fuel : Nat) (mountpoint : NodePtr) (initrd : Word) (fs : Fs) : Except Fault Fs := do
  match ← cpiofsMount fuel initrdName initrd fs with
  | (none, fs) => .ok fs
  | (some ird, fs) =>
    let nodes ← fsLinkChild fuel fs.node mountpoint ird
    .ok { fs with node := nodes }

/-- The file systems, and `FSRootNode`. -/
structure Mounts where
  fs : Fs
  root : Option NodePtr

/-- Before any call: nothing but `devfs`. -/
def Mounts.start (dev : DevPtr → Device) (ndev : Nat) (mem : Word → UInt8) : Mounts where
  fs :=
    { node := fun n =>
        { name := if n = devfsGet then devName else []
          ops := .dir
          firstChild := none
          nextSibling := none }
      nnodes := 1
      dev := dev
      ndev := ndev
      mem := mem }
  root := none

inductive MountOp where
  | createRootfs
  | registerDevice (devname : CString) (device : DevPtr)
  | mountInitrd (mountpoint : NodePtr) (initrd : Word)
  | createFile (parent : NodePtr) (name : CString)

/-- The root is created once, and there is a node to mount at or to create a file in. A device
that is registered is a character device: the templates of file devices have no `open`, which
`devfs_open_dev` calls. -/
def MountOp.Enabled (s : Mounts) : MountOp → Prop
  | .createRootfs => s.root = none
  | .registerDevice _ device => device < s.fs.ndev ∧ s.fs.dev device = .chr
  | .mountInitrd mountpoint _ => mountpoint < s.fs.nnodes
  | .createFile parent _ => parent < s.fs.nnodes

instance decidableMountEnabled (s : Mounts) (op : MountOp) : Decidable (op.Enabled s) :=
  match op with
  | .createRootfs => inferInstanceAs (Decidable (_ = _))
  | .registerDevice _ _ => inferInstanceAs (Decidable (_ ∧ _))
  | .mountInitrd _ _ => inferInstanceAs (Decidable (_ < _))
  | .createFile _ _ => inferInstanceAs (Decidable (_ < _))

def MountOp.exec (fuel : Nat) (op : MountOp) (s : Mounts) : Except Fault (Unit × Mounts) :=
  match op with
  | .createRootfs => do
    let (root, fs) ← fsCreateRootfs fuel s.fs
    .ok ((), { fs, root := some root })
  | .registerDevice devname device => do
    let fs ← devfsRegisterDevice fuel devname device s.fs
    .ok ((), { s with fs })
  | .mountInitrd mountpoint initrd => do
    let fs ← initrdMount fuel mountpoint initrd s.fs
    .ok ((), { s with fs })
  | .createFile parent name => do
    let (_, fs) ← tmpfsCreateFile fuel parent name s.fs
    .ok ((), { s with fs })

def MountStep (s : Mounts) (lbl : MountOp × Unit) (s' : Mounts) : Prop :=
  lbl.1.Enabled s ∧ ∃ fuel, lbl.1.exec fuel s = .ok ((), s')

/-- The lists of children are well formed, and the file of a node of the initrd is there. -/
structure Tree (fs : Fs) (kids : NodePtr → List NodePtr) : Prop where
  inv : FsInv fs kids
  file : ∀ n d, (fs.node n).ops = .cpioFile d → d < fs.ndev ∧ ∃ file, fs.dev d = .cpio file

/-- An allocated node that has not been linked. -/
structure Loose (fs : Fs) (kids : NodePtr → List NodePtr) (n : NodePtr) : Prop where
  allocated : n < fs.nnodes
  last : (fs.node n).nextSibling = none
  apart : ∀ p, n ∉ kids p

/-- More nodes and more links than before, none of nodes that were there and not linked. -/
structure Extends (fs : Fs) (kids : NodePtr → List NodePtr) (fs' : Fs)
    (kids' : NodePtr → List NodePtr) : Prop where
  tree : Tree fs' kids'
  nodes : fs.nnodes ≤ fs'.nnodes
  links : ∀ p x, x ∈ kids p → x ∈ kids' p
  loose : ∀ n, Loose fs kids n → Loose fs' kids' n

section Grow
variable {fs fs' fs'' : Fs} {kids kids' kids'' : NodePtr → List NodePtr} {fuel : Nat}
variable {parent child n : NodePtr} {nodes : Nodes}

theorem Extends.refl (h : Tree fs kids) : Extends fs kids fs kids :=
  ⟨h, Nat.le_refl _, fun _ _ hx => hx, fun _ hn => hn⟩

theorem Extends.trans (h : Extends fs kids fs' kids') (h' : Extends fs' kids' fs'' kids'') :
    Extends fs kids fs'' kids'' :=
  ⟨h'.tree, Nat.le_trans h.nodes h'.nodes, fun p x hx => h'.links p x (h.links p x hx),
    fun n hn => h'.loose n (h.loose n hn)⟩

theorem Tree.addDevice (h : Tree fs kids) (v : Device) :
    Extends fs kids { fs with dev := Function.update fs.dev fs.ndev v, ndev := fs.ndev + 1 }
      kids := by
  refine ⟨⟨⟨h.inv.forest, h.inv.allocated, h.inv.fresh⟩, ?_⟩, Nat.le_refl _, fun _ _ hx => hx,
    fun _ hn => ⟨hn.allocated, hn.last, hn.apart⟩⟩
  intro n d hd
  obtain ⟨hlt, file, hfile⟩ := h.file n d hd
  refine ⟨Nat.lt_succ_of_lt hlt, file, ?_⟩
  simp only [Function.update_of_ne (Nat.ne_of_lt hlt)]
  exact hfile

theorem Tree.newNode (h : Tree fs kids) {name : Option CString} {ops : NodeOps}
    (hops : ∀ d, ops = .cpioFile d → d < fs.ndev ∧ ∃ file, fs.dev d = .cpio file)
    (hn : newNode fs name ops = .ok (n, fs')) :
    Extends fs kids fs' kids ∧ Loose fs' kids n ∧ fs.nnodes ≤ n := by
  obtain ⟨rfl, hinv, hcount, -, hlast⟩ := h.inv.newNode hn
  cases name with
  | none => cases hn
  | some name =>
    cases hn
    refine ⟨⟨⟨hinv, ?_⟩, Nat.le_succ _, fun _ _ hx => hx, ?_⟩, ⟨Nat.lt_succ_self _, hlast, ?_⟩,
      Nat.le_refl _⟩
    · intro m d hd
      by_cases hm : m = fs.nnodes
      · simp only [hm, Function.update_self] at hd
        exact hops d hd
      · simp only [Function.update_of_ne hm] at hd
        exact h.file m d hd
    · intro m hm
      refine ⟨Nat.lt_succ_of_lt hm.allocated, ?_, hm.apart⟩
      simp only [Function.update_of_ne (Nat.ne_of_lt hm.allocated)]
      exact hm.last
    · intro p hp
      exact Nat.lt_irrefl _ (h.inv.allocated p _ hp)

/-- What links a node moves no other one that is in no list. -/
theorem fsLinkChild_apart (h : Forest fs.node kids)
    (hr : fsLinkChild fuel fs.node parent child = .ok nodes) (hn : n ≠ child)
    (hapart : ∀ p, n ∉ kids p) : (nodes n).nextSibling = (fs.node n).nextSibling := by
  rcases fsLinkChild_cases h hr with ⟨-, rfl⟩ | ⟨-, rfl⟩ | ⟨i, hi, rfl⟩
  · simp
  · simp [hn]
  · have hni : n ≠ i := by
      rintro rfl
      exact hapart parent (firstNotLess_some hi).1
    simp [hn, hni]

theorem Tree.link (h : Tree fs kids) (hparent : parent < fs.nnodes) (hc : Loose fs kids child)
    (hr : fsLinkChild fuel fs.node parent child = .ok nodes) :
    ∃ kids', Tree { fs with node := nodes } kids' ∧ (∀ p x, x ∈ kids p → x ∈ kids' p) ∧
      child ∈ kids' parent ∧
      ∀ n, n ≠ child → Loose fs kids n → Loose { fs with node := nodes } kids' n := by
  obtain ⟨l, hspliced, hforest, hsame⟩ := h.inv.forest.link hc.apart hc.last hr
  have hl := hspliced.perm
  have hmem : ∀ p x, x ∈ withKids kids parent l p ↔
      (p = parent ∧ x = child) ∨ x ∈ kids p := by
    intro p x
    by_cases hp : p = parent
    · subst hp
      simp [withKids, hl.mem_iff]
    · simp [withKids, hp]
  refine ⟨_, ⟨h.inv.linked hparent hc.allocated hl hforest, ?_⟩, ?_, ?_, ?_⟩
  · intro m d hd
    rw [show (({ fs with node := nodes } : Fs).node m).ops = (fs.node m).ops from (hsame m).2] at hd
    exact h.file m d hd
  · intro p x hx
    exact (hmem p x).mpr (Or.inr hx)
  · exact (hmem parent child).mpr (Or.inl ⟨rfl, rfl⟩)
  · intro m hm hloose
    refine ⟨hloose.allocated, ?_, ?_⟩
    · exact (fsLinkChild_apart h.inv.forest hr hm hloose.apart).trans hloose.last
    · intro p hp
      rcases (hmem p m).mp hp with ⟨-, hmc⟩ | hp
      · exact hm hmc
      · exact hloose.apart p hp

theorem Tree.addNode (h : Tree fs kids) {name : Option CString} {ops : NodeOps}
    (hops : ∀ d, ops = .cpioFile d → d < fs.ndev ∧ ∃ file, fs.dev d = .cpio file)
    (hn : AkKernel.newNode fs name ops = .ok (n, fs')) (hparent : parent < fs.nnodes)
    (hr : fsLinkChild fuel fs'.node parent n = .ok nodes) :
    ∃ kids', Extends fs kids { fs' with node := nodes } kids' := by
  obtain ⟨hext, hloose, hnew⟩ := h.newNode hops hn
  obtain ⟨kids', htree, hlinks, -, hrest⟩ :=
    hext.tree.link (Nat.lt_of_lt_of_le hparent hext.nodes) hloose hr
  refine ⟨kids', htree, hext.nodes, hlinks, ?_⟩
  intro m hm
  have hne : m ≠ n := Nat.ne_of_lt (Nat.lt_of_lt_of_le hm.allocated hnew)
  exact hrest m hne (hext.loose m hm)

theorem Tree.unpack (h : Tree fs kids) (hparent : parent < fs.nnodes) {hdr : Word} {r : HdrPtr}
    (hr : cpiofsUnpackFile fuel parent hdr fs = .ok (r, fs')) :
    ∃ kids', Extends fs kids fs' kids' := by
  unfold cpiofsUnpackFile at hr
  dsimp only at hr
  split at hr
  · cases hr
    exact ⟨kids, .refl h⟩
  split at hr
  · cases hr
    exact ⟨kids, .refl h⟩
  obtain ⟨⟨node, fs₂⟩, hnew, hrest⟩ := bind_eq_ok.mp hr
  obtain ⟨nodes, hlink, hret⟩ := bind_eq_ok.mp hrest
  cases Except.ok.inj hret
  have hdev := h.addDevice (.cpio ⟨0#32, BitVec.ofNat 32 (read16 fs.mem (hdr + 22#32)) <<< 16 +
    BitVec.ofNat 32 (read16 fs.mem (hdr + 24#32)),
    hdr + 26#32 + evenUp (BitVec.ofNat 32 (read16 fs.mem (hdr + 20#32)))⟩)
  obtain ⟨kids', hext⟩ := hdev.tree.addNode (by
    intro d hd
    cases hd
    exact ⟨Nat.lt_succ_self _, _, Function.update_self _ _ _⟩) hnew hparent hlink
  exact ⟨kids', hdev.trans hext⟩

theorem Tree.mountLoop (h : Tree fs kids) (hparent : parent < fs.nnodes) {rounds : Nat}
    {hdr : HdrPtr} {r : Option NodePtr}
    (hr : cpiofsMountLoop fuel parent rounds hdr fs = .ok (r, fs')) :
    (r = none ∨ r = some parent) ∧ ∃ kids', Extends fs kids fs' kids' := by
  induction rounds generalizing hdr fs kids with
  | zero => cases hr
  | succ rounds ih =>
    cases hdr with
    | eof =>
      cases hr
      exact ⟨Or.inr rfl, kids, .refl h⟩
    | null =>
      cases hr
      exact ⟨Or.inl rfl, kids, .refl h⟩
    | «at» hdr =>
      obtain ⟨⟨next, fs₁⟩, hunpack, hrest⟩ := bind_eq_ok.mp hr
      obtain ⟨kids₁, hext₁⟩ := h.unpack hparent hunpack
      obtain ⟨hret, kids', hext⟩ :=
        ih hext₁.tree (Nat.lt_of_lt_of_le hparent hext₁.nodes) hrest
      exact ⟨hret, kids', hext₁.trans hext⟩

theorem Tree.initrdMount (h : Tree fs kids) (hparent : parent < fs.nnodes) {initrd : Word}
    (hr : initrdMount fuel parent initrd fs = .ok fs') : ∃ kids', Extends fs kids fs' kids' := by
  obtain ⟨⟨r, fs₁⟩, hmount, hrest⟩ := bind_eq_ok.mp hr
  obtain ⟨⟨dir, fs₂⟩, hnew, hloop⟩ := bind_eq_ok.mp hmount
  obtain ⟨hext₂, hloose, hfresh⟩ := h.newNode (by
    intro d hd
    cases hd) hnew
  obtain ⟨hret, kids₁, hext₁⟩ := hext₂.tree.mountLoop hloose.allocated hloop
  have hext := hext₂.trans hext₁
  rcases hret with rfl | rfl
  · cases Except.ok.inj hrest
    exact ⟨kids₁, hext⟩
  · obtain ⟨nodes, hlink, hret⟩ := bind_eq_ok.mp hrest
    cases Except.ok.inj hret
    obtain ⟨kids', htree, hlinks, -, hothers⟩ := hext.tree.link
      (Nat.lt_of_lt_of_le hparent hext.nodes) (hext₁.loose _ hloose) hlink
    refine ⟨kids', htree, hext.nodes, fun p x hx => hlinks p x (hext.links p x hx), ?_⟩
    intro m hm
    have hne : m ≠ dir := Nat.ne_of_lt (Nat.lt_of_lt_of_le hm.allocated hfresh)
    exact hothers m hne (hext.loose m hm)

end Grow

/-- `devfs` is not linked before there is a root, and is a child of the root then. -/
structure Built (s : Mounts) (kids : NodePtr → List NodePtr) : Prop where
  tree : Tree s.fs kids
  devfs : devfsGet < s.fs.nnodes
  before : s.root = none → Loose s.fs kids devfsGet
  after : ∀ root, s.root = some root → devfsGet ∈ kids root

section Runs
variable {s s' : Mounts} {kids : NodePtr → List NodePtr} {tr : List (MountOp × Unit)}
variable {dev : DevPtr → Device} {ndev : Nat} {mem : Word → UInt8}

theorem Built.extends (h : Built s kids) {fs' : Fs} {kids' : NodePtr → List NodePtr}
    (hext : Extends s.fs kids fs' kids') : Built { s with fs := fs' } kids' :=
  ⟨hext.tree, Nat.lt_of_lt_of_le h.devfs hext.nodes, fun hr => hext.loose _ (h.before hr),
    fun root hr => hext.links _ _ (h.after root hr)⟩

theorem Built.createRootfs (h : Built s kids) (hroot : s.root = none) {fuel : Nat} {root : NodePtr}
    {fs' : Fs} (hr : fsCreateRootfs fuel s.fs = .ok (root, fs')) :
    ∃ kids', Built { fs := fs', root := some root } kids' := by
  obtain ⟨⟨dir, fs₁⟩, hnew, hrest⟩ := bind_eq_ok.mp hr
  obtain ⟨nodes, hlink, hret⟩ := bind_eq_ok.mp hrest
  cases Except.ok.inj hret
  obtain ⟨hext, hloose, -⟩ := h.tree.newNode (by
    intro d hd
    cases hd) hnew
  obtain ⟨kids', htree, -, hchild, -⟩ :=
    hext.tree.link hloose.allocated (hext.loose _ (h.before hroot)) hlink
  refine ⟨kids', htree, Nat.lt_of_lt_of_le h.devfs hext.nodes, fun hnone => (nomatch hnone), ?_⟩
  intro root hroot
  cases hroot
  exact hchild

theorem Built.step (h : Built s kids) {lbl : MountOp × Unit} (hs : MountStep s lbl s') :
    ∃ kids', Built s' kids' := by
  obtain ⟨op, ⟨⟩⟩ := lbl
  obtain ⟨hen, fuel, hex⟩ := hs
  cases op with
  | createRootfs =>
    obtain ⟨⟨root, fs'⟩, hr, hret⟩ := bind_eq_ok.mp hex
    cases Except.ok.inj hret
    exact h.createRootfs hen hr
  | registerDevice devname device =>
    obtain ⟨fs', hr, hret⟩ := bind_eq_ok.mp hex
    cases Except.ok.inj hret
    obtain ⟨⟨node, fs₁⟩, hnew, hrest⟩ := bind_eq_ok.mp hr
    obtain ⟨nodes, hlink, hret'⟩ := bind_eq_ok.mp hrest
    cases Except.ok.inj hret'
    obtain ⟨kids', hext⟩ := h.tree.addNode (by
      intro d hd
      cases hd) hnew h.devfs hlink
    exact ⟨kids', h.extends hext⟩
  | mountInitrd mountpoint initrd =>
    obtain ⟨fs', hr, hret⟩ := bind_eq_ok.mp hex
    cases Except.ok.inj hret
    obtain ⟨kids', hext⟩ := h.tree.initrdMount hen hr
    exact ⟨kids', h.extends hext⟩
  | createFile parent name =>
    obtain ⟨⟨file, fs'⟩, hr, hret⟩ := bind_eq_ok.mp hex
    cases Except.ok.inj hret
    obtain ⟨⟨node, fs₁⟩, hnew, hrest⟩ := bind_eq_ok.mp hr
    obtain ⟨nodes, hlink, hret'⟩ := bind_eq_ok.mp hrest
    cases Except.ok.inj hret'
    have hdev := h.tree.addDevice (.tmp ⟨0#32, 0#32, some []⟩)
    obtain ⟨kids', hext⟩ := hdev.tree.addNode (by
      intro d hd
      cases hd) hnew hen hlink
    exact ⟨kids', h.extends (hdev.trans hext)⟩

theorem run_built (hrun : Run MountStep (Mounts.start dev ndev mem) tr s) :
    ∃ kids, Built s kids := by
  induction hrun with
  | nil =>
    have hnolinks : NoLinks (Mounts.start dev ndev mem).fs.node := fun _ => ⟨rfl, rfl⟩
    refine ⟨fun _ => [], ⟨⟨hnolinks.forest, fun _ _ hx => (nomatch hx), fun _ _ => rfl⟩, ?_⟩,
      Nat.zero_lt_one, fun _ => ⟨Nat.zero_lt_one, rfl, fun _ hx => (nomatch hx)⟩,
      fun _ hr => (nomatch hr)⟩
    intro n d hd
    cases hd
  | snoc _ hstep ih =>
    obtain ⟨kids, h⟩ := ih
    exact h.step hstep

end Runs

/-- The executable form of a step. -/
def MountOp.tryExec (op : MountOp) (s : Mounts) : Except Fault (Unit × Mounts) :=
  if op.Enabled s then op.exec 4 s else .error .diverges

end AkKernel
