import AkKernel.Fs.Cpio
import AkKernel.Io.Files
import AkKernel.Kernel.State
import AkKernel.Mem.Space
import AkKernel.Proc.Elf

/-!
# Running an executable

`sys_execve`, with `elf_load` of `kernel/proc/elf/exec.c`. The kernel reads and writes the
memory of the program by its addresses, under the directory that is loaded. Of the C
library, `stat`, `mmap`, `fopen`, `fseek`, `fread` and `fclose` are taken for the calls
that they end in; what the library keeps for a stream is left out.
-/

set_option autoImplicit false

namespace AkKernel

open Programs Bytes

/-- The frame behind an address: the last table of every directory is `TmpPageTbl`. -/
def walk (s : Kern) (addr : Word) : Option Nat :=
  if kTmpMem ≤ addr then
    if s.mem.2 (addrPte addr) = nilPgEnt then none else some (frameNo (s.mem.2 (addrPte addr)))
  else (translate s.mem.1 (frameNo s.proc.cr3) addr).map Prod.fst

/-- An access to memory: one that faults is tried again when the handler returns. -/
def access (addr : Word) : KernM Nat := fun s =>
  match walk s addr with
  | some n => .ok (n, s)
  | none =>
    match pgFault addr s with
    | .error e => .error e
    | .ok (_, s') =>
      match walk s' addr with
      | some n => .ok (n, s')
      | none => .error .diverges

def byteOf (w : Word) (addr : Word) : UInt8 := UInt8.ofBitVec ((w >>> (8 * (addr.toNat % 4))).setWidth 8)

def withByte (w addr : Word) (b : UInt8) : Word :=
  (w &&& ~~~ (0xFF#32 <<< (8 * (addr.toNat % 4)))) |||
    (b.toBitVec.setWidth 32 <<< (8 * (addr.toNat % 4)))

def loadByte (addr : Word) : KernM UInt8 := do
  let n ← access addr
  let s ← get
  pure (byteOf (s.mem.1.mem n (wordIdx addr)) addr)

def storeByte (addr : Word) (b : UInt8) : KernM Unit := do
  let n ← access addr
  let s ← get
  let w := withByte (s.mem.1.mem n (wordIdx addr)) addr b
  set { s with mem := (s.mem.1.setWord n (wordIdx addr) w, s.mem.2) }

def memcpy (dest src : Word) (n : Nat) : KernM Unit :=
  upTo (fun i => do
    let b ← loadByte (src + BitVec.ofNat 32 i)
    storeByte (dest + BitVec.ofNat 32 i) b) n

def memset (dest : Word) (b : UInt8) (n : Nat) : KernM Unit :=
  upTo (fun i => storeByte (dest + BitVec.ofNat 32 i) b) n

def loadWord (addr : Word) : KernM Word := do
  let b0 ← loadByte addr
  let b1 ← loadByte (addr + 1#32)
  let b2 ← loadByte (addr + 2#32)
  let b3 ← loadByte (addr + 3#32)
  pure (b3.toBitVec ++ b2.toBitVec ++ b1.toBitVec ++ b0.toBitVec)

/-- A round of the loop of `elf_load`, for the program header at `segment`; gives the
highest limit so far. The header is in the memory of the program and is read where the
source names its fields. Whether a segment is writable makes no difference to
`pg_alloc_range`. -/
def elfLoadSegment (fuel : Nat) (elfData segment brk : Word) : KernM Word := do
  let type ← loadWord segment
  if type ≠ ptLoad then pure brk
  else
    let baseAddr ← loadWord (segment + 8#32)
    let memsz ← loadWord (segment + 20#32)
    let limAddr := baseAddr + memsz
    let _ ← loadWord (segment + 24#32)
    onMem fun cur => pgAllocRange cur fuel baseAddr limAddr
    let offset ← loadWord (segment + 4#32)
    let filesz ← loadWord (segment + 16#32)
    memcpy baseAddr (elfData + offset) filesz.toNat
    let filesz ← loadWord (segment + 16#32)
    let memsz ← loadWord (segment + 20#32)
    memset (baseAddr + filesz) 0 (memsz - filesz).toNat
    pure (if brk < limAddr then limAddr else brk)

/-- A program header has 32 bytes. -/
def elfLoadLoop (fuel : Nat) (elfData phdr : Word) : Nat → Nat → Word → KernM Word
  | 0, _, brk => pure brk
  | rounds + 1, i, brk => do
    let brk ← elfLoadSegment fuel elfData (phdr + BitVec.ofNat 32 (32 * i)) brk
    elfLoadLoop fuel elfData phdr rounds (i + 1) brk

/-- `elf_load` of the image at `elfData` with the program headers at `phdr`. -/
def elfLoad (fuel : Nat) (elfData phdr : Word) (numSegments : Nat) : KernM Unit := do
  let brk ← elfLoadLoop fuel elfData phdr numSegments 0 0#32
  setCur fun t => { t with brk := brk }

/-- The kernel and its file systems. -/
structure Machine where
  kern : Kern
  fs : Fs
  root : NodePtr

abbrev MachineM (α : Type) := Prog Fault Machine α

def onKern {α : Type} (m : KernM α) : MachineM α := fun s =>
  match m s.kern with
  | .error e => .error e
  | .ok (a, kern) => .ok (a, { s with kern := kern })

def onFiles {α : Type} (f : Files → Except Fault (α × Files)) : MachineM α := fun s =>
  match f ⟨s.kern.proc, s.fs, s.root⟩ with
  | .error e => .error e
  | .ok (a, files) => .ok (a, ⟨{ s.kern with proc := files.proc }, files.fs, files.root⟩)

def check {α : Type} (r : Except Fault α) : MachineM α := fun s =>
  match r with
  | .error e => .error e
  | .ok a => .ok (a, s)

/-- `sys_newstat`: the size, or `none` for -1. Only the files of the initrd have a `stat`. -/
def sysNewstat (fuel : Nat) (path : CString) (s : Files) : Except Fault (Option Word × Files) := do
  match ← fsLocate fuel s.fs.node s.root path with
  | none => .ok (none, s)
  | some fsn =>
    match cpiofsStatFile s.fs fsn with
    | none => .error .badPointer
    | some size => .ok (some size, s)

/-- What `malloc` returns for a descriptor, and what is behind a descriptor table. -/
structure Heap where
  descr : DescrPtr
  behind : Nat → Option DescrPtr

/-- `fopen`: the descriptor of the stream, or `none` for `NULL`. -/
def fopen (fuel : Nat) (path : CString) (heap : Heap) (s : Files) :
    Except Fault (Option Fd × Files) := do
  match ← fsLocate fuel s.fs.node s.root path with
  | none => .ok (none, s)
  | some fsn =>
    let d ← openNode s.fs.node fsn
    let (fd, p) ← fdOpen s.proc d heap.descr heap.behind
    .ok (some fd, { s with proc := p })

/-- The bytes that `fread` reads. -/
def fread (fd : Fd) (nbyte : Word) (s : Files) : Except Fault (List UInt8 × Files) := do
  match ← sysRead fd nbyte s with
  | (.got _ _ _ buf, s) => .ok (buf, s)
  | (_, s) => .ok ([], s)

/-- Returns 1 when it returns. `before` is what is in memory where the file is read to. -/
def elfRead (fuel : Nat) (path : CString) (heap : Heap) (before : ElfData) (stale : Stale) :
    MachineM (Int × Word × Elf) := do
  let size ← onFiles (sysNewstat fuel path)
  check (kassert size.isSome "ret == 0")
  let length := size.getD 0#32
  let elfData ← onKern (sysMmapPgoff fuel length mapAnonymous)
  let elfFd ← onFiles (fopen fuel path heap)
  check (kassert elfFd.isSome "elf_fd != 0")
  let fd := elfFd.getD 0#16
  let _ ← onFiles (sysLseek fd 0#32 seekSet)
  let buf ← onFiles (fread fd length)
  onKern (upTo (fun i => storeByte (elfData + BitVec.ofNat 32 i) (buf.getD i 0)) buf.length)
  check (kassert (buf.length = length.toNat) "ret == (int)elf->elf_length")
  let _ ← onFiles (sysClose fd)
  let elf ← check (elfParse { stale.elf with data := fileData buf before, length := length }
    stale.symtabSec)
  pure (1, elfData, elf)

/-- `sys_execve` returns, or the program runs from its entry on. -/
inductive ExecOut where
  | ret (r : Int)
  | started (entry : Word)
deriving DecidableEq, Repr

/-- `elf_start`; the stack that `arch_exec` makes for the program is left out. -/
def elfStart (elf : Elf) : MachineM ExecOut := do
  onKern (onMem fun cur => pgAlloc cur 0#32)
  pure (.started (elfWord elf.data 24#32))

def sysExecve (fuel : Nat) (path : CString) (heap : Heap) (before : ElfData) (stale : Stale) :
    MachineM ExecOut := do
  let (ret, elfData, elf) ← elfRead fuel path heap before stale
  if ret = 0 then pure (.ret (-1))
  else
    onKern (elfLoad fuel elfData (elfData + elf.phdr) elf.numSegments)
    elfStart elf

/-- The file of the path: `none` when there is none. -/
def fileOf (s : Files) (fuel : Nat) (path : CString) : Except Fault (Option (List UInt8)) := do
  match ← fsLocate fuel s.fs.node s.root path with
  | none => .ok none
  | some fsn =>
    match (s.fs.node fsn).ops with
    | .cpioFile d =>
      match s.fs.dev d with
      | .cpio file => .ok (some (Bytes.read s.fs.mem file.data file.length.toNat))
      | _ => .error .badPointer
    | _ => .error .badPointer

/-- The contents of an ELF image for 32 bits that is an executable. -/
def ExecutableFile (contents : List UInt8) : Prop :=
  18 ≤ contents.length ∧ Executable fun ofs => contents.getD ofs.toNat 0

/-- There is no such file, or it is not an executable. -/
def Unfit (s : Files) (fuel : Nat) (path : CString) : Prop :=
  fileOf s fuel path = .ok none ∨
    ∃ contents, fileOf s fuel path = .ok (some contents) ∧ ¬ ExecutableFile contents

/-- The tasks are as they were, and so are the pages of every address space and what they
hold. -/
structure SameMachine (s s' : Machine) : Prop where
  tasks : s'.kern.proc.task = s.kern.proc.task
  descrs : s'.kern.proc.descr = s.kern.proc.descr
  pages : ∀ t addr, translate s'.kern.mem.1 (frameNo (s.kern.proc.task t).pgd) addr =
    translate s.kern.mem.1 (frameNo (s.kern.proc.task t).pgd) addr
  contents : ∀ t addr, loadVia s'.kern.mem.1 (frameNo (s.kern.proc.task t).pgd) addr =
    loadVia s.kern.mem.1 (frameNo (s.kern.proc.task t).pgd) addr

/-- The call returns -1 and nothing has changed. -/
def Harmless (s : Machine) (r : Except Fault (ExecOut × Machine)) : Prop :=
  ∃ s', r = .ok (.ret (-1), s') ∧ SameMachine s s'

section Execve
variable {fuel : Nat} {path : CString} {heap : Heap} {before : ElfData} {stale : Stale}
  {s s' : Machine}

theorem onFiles_ok {α : Type} {f : Files → Except Fault (α × Files)} {a : α} :
    onFiles f s = .ok (a, s') ↔ ∃ t : Files, f ⟨s.kern.proc, s.fs, s.root⟩ = .ok (a, t) ∧
      s' = ⟨{ s.kern with proc := t.proc }, t.fs, t.root⟩ := by
  unfold onFiles
  split
  · rename_i e he
    rw [he]
    exact ⟨fun h => (nomatch h), fun ⟨_, h, _⟩ => (nomatch h)⟩
  · rename_i b t hf
    rw [hf]
    constructor
    · intro h
      cases h
      exact ⟨t, rfl, rfl⟩
    · rintro ⟨u, hu, hs'⟩
      cases hu
      rw [hs']

theorem onKern_ok {α : Type} {m : KernM α} {a : α} :
    onKern m s = .ok (a, s') ↔ ∃ k, m s.kern = .ok (a, k) ∧ s' = { s with kern := k } := by
  unfold onKern
  split
  · rename_i e he
    rw [he]
    exact ⟨fun h => (nomatch h), fun ⟨_, h, _⟩ => (nomatch h)⟩
  · rename_i b k hm
    rw [hm]
    constructor
    · intro h
      cases h
      exact ⟨k, rfl, rfl⟩
    · rintro ⟨u, hu, hs'⟩
      cases hu
      rw [hs']

theorem check_ok {α : Type} {r : Except Fault α} {a : α} :
    check r s = .ok (a, s') ↔ r = .ok a ∧ s' = s := by
  cases r with
  | error e => exact ⟨fun h => (nomatch h), fun h => (nomatch h.1)⟩
  | ok b =>
    constructor
    · intro h
      cases h
      exact ⟨rfl, rfl⟩
    · rintro ⟨h, rfl⟩
      cases h
      rfl

theorem sysNewstat_ok {t u : Files} {size : Option Word}
    (h : sysNewstat fuel path t = .ok (size, u)) : u = t := by
  obtain ⟨found, _, h⟩ := Runs.bind_eq_ok.mp h
  cases found with
  | none =>
    cases h
    rfl
  | some fsn =>
    dsimp only at h
    split at h
    · cases h
    · cases h
      rfl

/-- What `elf_read` did when it returns: the file was opened and read from its start, and
its bytes passed every check. -/
theorem elfRead_ok {ret : Int} {a : Word} {elf : Elf}
    (h : elfRead fuel path heap before stale s = .ok ((ret, a, elf), s')) :
    ret = 1 ∧ ∃ (size : Word) (k : Kern) (fd : Fd) (t₁ t₂ t₃ : Files) (out : FileOut)
      (buf : List UInt8),
      sysNewstat fuel path ⟨s.kern.proc, s.fs, s.root⟩ = .ok (some size, ⟨s.kern.proc, s.fs, s.root⟩) ∧
      fopen fuel path heap ⟨k.proc, s.fs, s.root⟩ = .ok (some fd, t₁) ∧
      sysLseek fd 0#32 seekSet t₁ = .ok (out, t₂) ∧ fread fd size t₂ = .ok (buf, t₃) ∧
      elfParse { stale.elf with data := fileData buf before, length := size } stale.symtabSec =
        .ok elf := by
  obtain ⟨size, s₁, hstat, h⟩ := bind_ok.mp h
  obtain ⟨⟨⟩, s₂, hsome, h⟩ := bind_ok.mp h
  obtain ⟨elfData, s₃, hmmap, h⟩ := bind_ok.mp h
  obtain ⟨elfFd, s₄, hopen, h⟩ := bind_ok.mp h
  obtain ⟨⟨⟩, s₅, hfd, h⟩ := bind_ok.mp h
  obtain ⟨seek, s₆, hseek, h⟩ := bind_ok.mp h
  obtain ⟨buf, s₇, hread, h⟩ := bind_ok.mp h
  obtain ⟨⟨⟩, s₈, _, h⟩ := bind_ok.mp h
  obtain ⟨⟨⟩, s₉, _, h⟩ := bind_ok.mp h
  obtain ⟨close, s₁₀, _, h⟩ := bind_ok.mp h
  obtain ⟨elf', s₁₁, hparse, h⟩ := bind_ok.mp h
  cases h
  obtain ⟨t₀, hstat', rfl⟩ := onFiles_ok.mp hstat
  obtain rfl := sysNewstat_ok hstat'
  obtain ⟨hsome', rfl⟩ := check_ok.mp hsome
  obtain ⟨size, rfl⟩ := Option.isSome_iff_exists.mp (kassert_ok.mp hsome')
  obtain ⟨k, _, rfl⟩ := onKern_ok.mp hmmap
  obtain ⟨t₁, hopen', rfl⟩ := onFiles_ok.mp hopen
  obtain ⟨hfd', rfl⟩ := check_ok.mp hfd
  obtain ⟨fd, rfl⟩ := Option.isSome_iff_exists.mp (kassert_ok.mp hfd')
  obtain ⟨t₂, hseek', rfl⟩ := onFiles_ok.mp hseek
  obtain ⟨t₃, hread', rfl⟩ := onFiles_ok.mp hread
  exact ⟨rfl, size, k, fd, t₁, t₂, t₃, seek, buf, hstat', hopen', hseek', hread',
    (check_ok.mp hparse).1⟩

theorem sysExecve_no_return {r : Int} :
    sysExecve fuel path heap before stale s ≠ .ok (.ret r, s') := by
  intro h
  obtain ⟨⟨ret, a, elf⟩, s₁, hread, h⟩ := bind_ok.mp h
  have hret := (elfRead_ok hread).1
  dsimp only at h
  rw [if_neg (by rw [hret]; decide)] at h
  obtain ⟨⟨⟩, s₂, _, h⟩ := bind_ok.mp h
  obtain ⟨⟨⟩, s₃, _, h⟩ := bind_ok.mp h
  cases h

theorem sysExecve_missing (h : fileOf ⟨s.kern.proc, s.fs, s.root⟩ fuel path = .ok none) :
    sysExecve fuel path heap before stale s = .error (.panic "assert failed: ret == 0\n" []) := by
  have hloc : fsLocate fuel s.fs.node s.root path = .ok none := by
    obtain ⟨found, hl, h⟩ := Runs.bind_eq_ok.mp h
    cases found with
    | none => exact hl
    | some fsn =>
      dsimp only at h
      split at h
      · split at h <;> cases h
      · cases h
  have hstat : sysNewstat fuel path ⟨s.kern.proc, s.fs, s.root⟩ =
      .ok (none, ⟨s.kern.proc, s.fs, s.root⟩) := Runs.bind_eq_ok.mpr ⟨none, hloc, rfl⟩
  have hread : elfRead fuel path heap before stale s =
      .error (.panic "assert failed: ret == 0\n" []) :=
    bind_run (onFiles_ok.mpr ⟨_, hstat, rfl⟩)
  change (elfRead fuel path heap before stale s >>= _) = _
  rw [hread]
  rfl

theorem fopen_device {t t' : Files} {fd : Fd} (h : fopen fuel path heap t = .ok (some fd, t')) :
    ∃ fsn d, fsLocate fuel t.fs.node t.root path = .ok (some fsn) ∧
      openNode t.fs.node fsn = .ok d ∧ t'.fs = t.fs ∧ fdDevice t' fd = .ok (some (heap.descr, d)) := by
  obtain ⟨found, hl, h⟩ := Runs.bind_eq_ok.mp h
  cases found with
  | none => cases h
  | some fsn =>
    obtain ⟨d, hd, h⟩ := Runs.bind_eq_ok.mp h
    obtain ⟨⟨fd', p⟩, hp, h⟩ := Runs.bind_eq_ok.mp h
    cases h
    refine ⟨fsn, d, hl, hd, rfl, ?_⟩
    have hdescr : p.descr heap.descr = some ⟨d, 1⟩ := by
      rw [fdOpen_descr hp, Function.update_self]
    have hderef : deref (p.descr heap.descr) = .ok ⟨d, 1⟩ := deref_eq_ok.mpr hdescr
    exact Runs.bind_eq_ok.mpr ⟨_, fdOpen_lookup hp, Runs.bind_eq_ok.mpr ⟨_, hderef, rfl⟩⟩

theorem fread_start {t t₁ t₂ : Files} {fd : Fd} {r : DescrPtr} {d : DevPtr} {file : CpioFileDev}
    {out : FileOut} {buf : List UInt8} (hd : fdDevice t fd = .ok (some (r, d)))
    (hfile : t.fs.dev d = .cpio file) (hseek : sysLseek fd 0#32 seekSet t = .ok (out, t₁))
    (hread : fread fd file.length t₁ = .ok (buf, t₂)) :
    buf = Bytes.read t.fs.mem file.data file.length.toNat := by
  obtain ⟨o, ho, h⟩ := Runs.bind_eq_ok.mp hseek
  rw [hd] at ho
  cases ho
  dsimp only at h
  rw [hfile] at h
  cases h
  obtain ⟨res, hres, h⟩ := Runs.bind_eq_ok.mp hread
  have hd₁ : fdDevice (t.setDev d (.cpio (cpiofsSeekFile file 0#32 seekSet).2)) fd =
      .ok (some (r, d)) := hd
  obtain ⟨o, ho, hres⟩ := Runs.bind_eq_ok.mp hres
  have ho' := hd₁.symm.trans ho
  cases ho'
  dsimp only at hres
  rw [setDev_self] at hres
  cases hres
  cases h
  change Bytes.read t.fs.mem (file.data + 0#32) (readCount 0#32 file.length file.length).toNat = _
  have hcount : readCount 0#32 file.length file.length = file.length := by simp [readCount]
  rw [hcount, BitVec.add_zero]

theorem sysExecve_rejects {contents : List UInt8}
    (hfile : fileOf ⟨s.kern.proc, s.fs, s.root⟩ fuel path = .ok (some contents))
    (hlen : 18 ≤ contents.length) (hbad : ¬ Executable fun ofs => contents.getD ofs.toNat 0)
    (r : ExecOut × Machine) : sysExecve fuel path heap before stale s ≠ .ok r := by
  intro h
  obtain ⟨⟨ret, a, elf⟩, s₁, hread, _⟩ := bind_ok.mp h
  obtain ⟨_, size, k, fd, t₁, t₂, t₃, out, buf, hstat, hopen, hseek, hfread, hparse⟩ :=
    elfRead_ok hread
  obtain ⟨fsn, d, hloc, hd, hfs, hdev⟩ := fopen_device hopen
  -- the file that is opened is the one whose size was asked for
  obtain ⟨fsn', hloc', hfile⟩ := Runs.bind_eq_ok.mp hfile
  rw [hloc] at hloc'
  cases hloc'
  dsimp only at hfile
  split at hfile
  swap
  · cases hfile
  rename_i d' hops
  rw [openNode, hops] at hd
  cases hd
  split at hfile
  swap
  · cases hfile
  rename_i file hcpio
  cases hfile
  have hsize : size = file.length := by
    obtain ⟨fsn', hloc', hstat⟩ := Runs.bind_eq_ok.mp hstat
    rw [hloc] at hloc'
    cases hloc'
    dsimp only at hstat
    rw [cpiofsStatFile, hops] at hstat
    dsimp only at hstat
    rw [hcpio] at hstat
    cases hstat
    rfl
  subst hsize
  have hbuf := fread_start hdev (by rw [hfs]; exact hcpio) hseek hfread
  rw [hfs] at hbuf
  subst hbuf
  obtain ⟨⟨⟩, hheader, _⟩ := Runs.bind_eq_ok.mp hparse
  have hnot : ¬ Executable (fileData (Bytes.read s.fs.mem file.data file.length.toNat) before) := by
    intro hex
    apply hbad
    apply hex.congr
    intro ofs hofs
    have hlt : ofs.toNat < (Bytes.read s.fs.mem file.data file.length.toNat).length := by omega
    unfold fileData
    rw [List.getD_eq_getElem?_getD, List.getD_eq_getElem?_getD, List.getElem?_eq_getElem hlt]
    rfl
  obtain ⟨text, htext⟩ : ∃ text, elfReadHeader { stale.elf with
      data := fileData (Bytes.read s.fs.mem file.data file.length.toNat) before
      length := file.length } = .error (.panic ("assert failed: " ++ text ++ "\n") []) :=
    elfReadHeader_panics hnot
  rw [htext] at hheader
  cases hheader

/-- For every path without a file and every file that is not an executable: the call does
not return -1 with everything as it was, it does not return at all. Without a file, and
for a file with a whole header, the program is not started either. -/
theorem sysExecve_not_harmless (heap : Heap) (before : ElfData) (stale : Stale)
    (hunfit : Unfit ⟨s.kern.proc, s.fs, s.root⟩ fuel path) :
    ¬ Harmless s (sysExecve fuel path heap before stale s) ∧
    (fileOf ⟨s.kern.proc, s.fs, s.root⟩ fuel path = .ok none →
      sysExecve fuel path heap before stale s =
        .error (.panic "assert failed: ret == 0\n" [])) ∧
    (∀ contents, fileOf ⟨s.kern.proc, s.fs, s.root⟩ fuel path = .ok (some contents) →
      18 ≤ contents.length → ∀ r, sysExecve fuel path heap before stale s ≠ .ok r) := by
  refine ⟨?_, sysExecve_missing, ?_⟩
  · rintro ⟨s', hret, _⟩
    exact sysExecve_no_return hret
  · intro contents hfile hlen
    rcases hunfit with hnone | ⟨contents', hfile', hbad⟩
    · rw [hnone] at hfile
      cases hfile
    · rw [hfile'] at hfile
      cases hfile
      exact sysExecve_rejects hfile' hlen fun hex => hbad ⟨hlen, hex⟩

end Execve

section Missing

/-- The kernel as it starts, with an empty directory as its root. -/
def emptyRoot : Machine where
  kern :=
    { proc := bootProc 0#32 0#32
      mem := (⟨fun _ _ => 0, firstFourMb, true, 0, 0, true⟩, fun _ => 0)
      earlyMallocEnabled := false
      allocStack := []
      allocSP := 0 }
  fs :=
    { node := fun _ => { name := [], ops := .dir, firstChild := none, nextSibling := none }
      nnodes := 1
      dev := fun _ => .chr
      ndev := 0
      mem := fun _ => 0 }
  root := 0

def noHeap : Heap := ⟨0, fun _ => none⟩

def noElf : Stale := ⟨⟨fun _ => 0, 0, 0, 0, 0, 0, 0, 0, 0, 0⟩, 0⟩

theorem emptyRoot_unfit :
    fileOf ⟨emptyRoot.kern.proc, emptyRoot.fs, emptyRoot.root⟩ 2 pathA = .ok none := by
  rfl

/-- A path without a file. -/
theorem sysExecve_not_harmless_missing :
    ¬ Harmless emptyRoot (sysExecve 2 pathA noHeap (fun _ => 0) noElf emptyRoot) :=
  (sysExecve_not_harmless noHeap (fun _ => 0) noElf (.inl emptyRoot_unfit)).1

/-- `execve` of a path that does not exist stops the kernel. -/
theorem sysExecve_panics :
    Unfit ⟨emptyRoot.kern.proc, emptyRoot.fs, emptyRoot.root⟩ 2 pathA ∧
    sysExecve 2 pathA noHeap (fun _ => 0) noElf emptyRoot =
      .error (.panic "assert failed: ret == 0\n" []) :=
  ⟨.inl emptyRoot_unfit, rfl⟩

end Missing

end AkKernel
