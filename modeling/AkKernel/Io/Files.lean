import AkKernel.Fs.File
import AkKernel.Io.Fdio
import AkKernel.Proc.System

/-!
# Calls on files

`sys_open`, `sys_read`, `sys_write`, `sys_lseek` and `sys_close` of
`kernel/syscall/fdio.c`. `open` of a file's node hands out the one device that the node
has, and a descriptor refers to that device.
-/

set_option autoImplicit false

namespace AkKernel

open Bytes Runs

/-- The tasks, the file systems, and `FSRootNode`. -/
structure Files where
  proc : Proc
  fs : Fs
  root : NodePtr

def Files.setDev (s : Files) (d : DevPtr) (v : Device) : Files :=
  { s with fs := { s.fs with dev := Function.update s.fs.dev d v } }

namespace Device

def pos : Device → Word
  | .cpio file => file.pos
  | .tmp file => file.pos
  | .chr => 0#32

def withPos (p : Word) : Device → Device
  | .cpio file => .cpio { file with pos := p }
  | .tmp file => .tmp { file with pos := p }
  | .chr => .chr

/-- `dev->read`. The drivers of character devices touch no file. -/
def read (mem : Word → UInt8) (nbyte : Word) : Device → Except Fault (List UInt8 × Device)
  | .cpio file => .ok ((cpiofsReadFile mem file nbyte).1, .cpio (cpiofsReadFile mem file nbyte).2)
  | .tmp file => do
    let (buf, file) ← tmpfsReadFile file nbyte
    .ok (buf, .tmp file)
  | .chr => .ok ([], .chr)

/-- `dev->write`, which is `NULL` for a file of the initrd. -/
def write (buf : List UInt8) (fresh : Nat → UInt8) : Device → Except Fault Device
  | .cpio _ => .error .badPointer
  | .tmp file => do
    let (_, file) ← tmpfsWriteFile file buf fresh
    .ok (.tmp file)
  | .chr => .ok .chr

def seek (offset whence : Word) : Device → Word × Device
  | .cpio file => ((cpiofsSeekFile file offset whence).1, .cpio (cpiofsSeekFile file offset whence).2)
  | .tmp file => ((tmpfsSeekFile file offset whence).1, .tmp (tmpfsSeekFile file offset whence).2)
  | .chr => (0#32, .chr)

def close : Device → Except Fault Device
  | .cpio file => .ok (.cpio file)
  | .tmp file => do
    let file ← tmpfsCloseFile file
    .ok (.tmp file)
  | .chr => .ok .chr

end Device

/-- What a call did: the descriptor and the device it went through, the position it found
there, and the bytes it moved. -/
inductive FileOut where
  | done (ret : Int)
  | opened (r : DescrPtr) (d : DevPtr) (pos : Word)
  | got (r : DescrPtr) (d : DevPtr) (pos : Word) (buf : List UInt8)
  | wrote (r : DescrPtr) (d : DevPtr) (pos : Word) (buf : List UInt8)
  | sought (r : DescrPtr) (d : DevPtr) (pos ret : Word)
  | closed (r : DescrPtr) (d : DevPtr)
deriving DecidableEq, Repr

/-- `fsn->open`, which is `NULL` for a directory. `devfs_open_dev` calls the `open` of the device
that was registered, the console's, which does nothing. -/
def openNode (nodes : Nodes) (n : NodePtr) : Except Fault DevPtr :=
  match (nodes n).ops with
  | .dir => .error .badPointer
  | .tmpFile d => .ok d
  | .cpioFile d => .ok d
  | .dev d => .ok d

def sysOpen (fuel : Nat) (path : CString) (descr : DescrPtr) (behind : Nat → Option DescrPtr)
    (s : Files) : Except Fault (FileOut × Files) := do
  match ← fsLocate fuel s.fs.node s.root path with
  | none => .ok (.done (-1), s)
  | some fsn =>
    let d ← openNode s.fs.node fsn
    let (_, p) ← fdOpen s.proc d descr behind
    .ok (.opened descr d (s.fs.dev d).pos, { s with proc := p })

/-- The descriptor in the slot and its device, or `none` for an empty slot. -/
def fdDevice (s : Files) (fd : Fd) : Except Fault (Option (DescrPtr × DevPtr)) := do
  match ← fdLookup s.proc fd with
  | none => .ok none
  | some r =>
    let v ← deref (s.proc.descr r)
    .ok (some (r, v.dev))

def sysRead (fd : Fd) (nbyte : Word) (s : Files) : Except Fault (FileOut × Files) := do
  match ← fdDevice s fd with
  | none => .ok (.done (-1), s)
  | some (r, d) =>
    let (buf, v) ← (s.fs.dev d).read s.fs.mem nbyte
    .ok (.got r d (s.fs.dev d).pos buf, s.setDev d v)

def sysWrite (fd : Fd) (buf : List UInt8) (fresh : Nat → UInt8) (s : Files) :
    Except Fault (FileOut × Files) := do
  match ← fdDevice s fd with
  | none => .ok (.done (-1), s)
  | some (r, d) =>
    let v ← (s.fs.dev d).write buf fresh
    .ok (.wrote r d (s.fs.dev d).pos buf, s.setDev d v)

def sysLseek (fd : Fd) (offset whence : Word) (s : Files) : Except Fault (FileOut × Files) := do
  match ← fdDevice s fd with
  | none => .ok (.done (-1), s)
  | some (r, d) =>
    let (ret, v) := (s.fs.dev d).seek offset whence
    .ok (.sought r d (s.fs.dev d).pos ret, s.setDev d v)

/-- The device is closed whoever else has it open. -/
def sysClose (fd : Fd) (s : Files) : Except Fault (FileOut × Files) := do
  match ← fdDevice s fd with
  | none => .ok (.done (-1), s)
  | some (r, d) =>
    let v ← (s.fs.dev d).close
    let (_, p) ← fdClose s.proc fd
    .ok (.closed r d, { s.setDev d v with proc := p })

inductive FileOp where
  | enter (task : TaskPtr)
  | openFile (path : CString) (descr : DescrPtr) (behind : Nat → Option DescrPtr)
  | read (fd : Fd) (nbyte : Word)
  | write (fd : Fd) (buf : List UInt8) (fresh : Nat → UInt8)
  | lseek (fd : Fd) (offset whence : Word)
  | close (fd : Fd)
  | dupfd (src dest : Fd)
  | fork (pgd : Word)

/-- `malloc` returns a descriptor that is not in use, and a buffer has fewer than 2^32
bytes. -/
def FileOp.Enabled (s : Files) : FileOp → Prop
  | .enter task => task < s.proc.ntasks
  | .openFile _ descr _ => s.proc.descr descr = none
  | .write _ buf _ => buf.length < 2 ^ 32
  | _ => True

instance (s : Files) (op : FileOp) : Decidable (op.Enabled s) :=
  match op with
  | .enter _ => inferInstanceAs (Decidable (_ < _))
  | .openFile _ _ _ => inferInstanceAs (Decidable (_ = _))
  | .write _ _ _ => inferInstanceAs (Decidable (_ < _))
  | .read _ _ | .lseek _ _ _ | .close _ | .dupfd _ _ | .fork _ => .isTrue trivial

def FileOp.exec (fuel : Nat) (op : FileOp) (s : Files) : Except Fault (FileOut × Files) :=
  match op with
  | .enter task => .ok (.done 0, { s with proc := taskEnter s.proc task })
  | .openFile path descr behind => sysOpen fuel path descr behind s
  | .read fd nbyte => sysRead fd nbyte s
  | .write fd buf fresh => sysWrite fd buf fresh s
  | .lseek fd offset whence => sysLseek fd offset whence s
  | .close fd => sysClose fd s
  | .dupfd src dest => do
    let (r, p) ← fdDupfd s.proc src dest
    .ok (.done r, { s with proc := p })
  | .fork pgd => do
    let (c, p) ← taskFork pgd s.proc
    .ok (.done c, { s with proc := p })

def FileStep (s : Files) (lbl : FileOp × FileOut) (s' : Files) : Prop :=
  lbl.1.Enabled s ∧ ∃ fuel, lbl.1.exec fuel s = .ok (lbl.2, s')

/-- The descriptor keeps its device. -/
def SameDevs (descr descr' : DescrPtr → Option Fdescr) : Prop :=
  ∀ r, (descr' r).map Fdescr.dev = (descr r).map Fdescr.dev

/-- What a step does to the descriptors and the devices. -/
inductive FileEffect (s : Files) : FileOp → FileOut → Files → Prop where
  | quiet (op : FileOp) (ret : Int) (p : Proc) : SameDevs s.proc.descr p.descr →
      FileEffect s op (.done ret) { s with proc := p }
  | opened (path : CString) (r : DescrPtr) (behind : Nat → Option DescrPtr) (d : DevPtr) (p : Proc) :
      s.proc.descr r = none → p.descr = Function.update s.proc.descr r (some ⟨d, 1⟩) →
      FileEffect s (.openFile path r behind) (.opened r d (s.fs.dev d).pos) { s with proc := p }
  | got (fd : Fd) (nbyte : Word) (r : DescrPtr) (d : DevPtr) (buf : List UInt8) (v : Device) :
      fdDevice s fd = .ok (some (r, d)) → (s.fs.dev d).read s.fs.mem nbyte = .ok (buf, v) →
      FileEffect s (.read fd nbyte) (.got r d (s.fs.dev d).pos buf) (s.setDev d v)
  | wrote (fd : Fd) (buf : List UInt8) (fresh : Nat → UInt8) (r : DescrPtr) (d : DevPtr)
      (v : Device) : fdDevice s fd = .ok (some (r, d)) → buf.length < 2 ^ 32 →
      (s.fs.dev d).write buf fresh = .ok v →
      FileEffect s (.write fd buf fresh) (.wrote r d (s.fs.dev d).pos buf) (s.setDev d v)
  | sought (fd : Fd) (offset whence : Word) (r : DescrPtr) (d : DevPtr) :
      fdDevice s fd = .ok (some (r, d)) →
      FileEffect s (.lseek fd offset whence)
        (.sought r d (s.fs.dev d).pos ((s.fs.dev d).seek offset whence).1)
        (s.setDev d ((s.fs.dev d).seek offset whence).2)
  | closed (fd : Fd) (r : DescrPtr) (d : DevPtr) (v : Device) (p : Proc) :
      fdDevice s fd = .ok (some (r, d)) → (s.fs.dev d).close = .ok v →
      (∀ q, q ≠ r → p.descr q = s.proc.descr q) →
      (p.descr r).map Fdescr.dev = none ∨ (p.descr r).map Fdescr.dev = some d →
      FileEffect s (.close fd) (.closed r d) { s.setDev d v with proc := p }

section Effects
variable {s s' : Files}

theorem setDev_self (s : Files) (d : DevPtr) (v : Device) : (s.setDev d v).fs.dev d = v :=
  Function.update_self _ _ _

theorem setDev_of_ne (s : Files) {d e : DevPtr} (v : Device) (h : d ≠ e) :
    (s.setDev e v).fs.dev d = s.fs.dev d :=
  Function.update_of_ne h _ _

theorem fdDevice_some {fd : Fd} {r : DescrPtr} {d : DevPtr}
    (h : fdDevice s fd = .ok (some (r, d))) :
    fdLookup s.proc fd = .ok (some r) ∧ ∃ v, s.proc.descr r = some v ∧ v.dev = d := by
  obtain ⟨slot, hl, hrest⟩ := bind_eq_ok.mp h
  cases slot with
  | none => cases hrest
  | some q =>
    obtain ⟨v, hv, hret⟩ := bind_eq_ok.mp hrest
    rw [deref_eq_ok] at hv
    cases hret
    exact ⟨hl, v, hv, rfl⟩

theorem fdDevice_bind {fd : Fd} {f : DescrPtr → DevPtr → Except Fault (FileOut × Files)}
    {out : FileOut} {g : Option (DescrPtr × DevPtr) → Except Fault (FileOut × Files)}
    (hnone : g none = .ok (.done (-1), s)) (hsome : ∀ r d, g (some (r, d)) = f r d)
    (h : (fdDevice s fd >>= g) = .ok (out, s')) :
    (out = .done (-1) ∧ s' = s) ∨
      ∃ r d, fdDevice s fd = .ok (some (r, d)) ∧ f r d = .ok (out, s') := by
  obtain ⟨o, ho, hrest⟩ := bind_eq_ok.mp h
  cases o with
  | none =>
    rw [hnone] at hrest
    cases hrest
    exact .inl ⟨rfl, rfl⟩
  | some q =>
    obtain ⟨r, d⟩ := q
    rw [hsome] at hrest
    exact .inr ⟨r, d, ho, hrest⟩

theorem FileEffect.still (op : FileOp) (ret : Int) : FileEffect s op (.done ret) s :=
  .quiet op ret s.proc fun _ => rfl

theorem fdOpen_descr {p p' : Proc} {dev : DevPtr} {r : DescrPtr}
    {behind : Nat → Option DescrPtr} {fd : Fd} (h : fdOpen p dev r behind = .ok (fd, p')) :
    p'.descr = Function.update p.descr r (some ⟨dev, 1⟩) := by
  obtain ⟨q, ha, hset⟩ := fdOpen_ok.mp h
  obtain ⟨t, -, -, rfl⟩ := fdAlloc_home_ok ha
  rw [(fdSetSlot_ok.mp hset).2]
  rfl

theorem fdOpen_lookup {p p' : Proc} {dev : DevPtr} {r : DescrPtr}
    {behind : Nat → Option DescrPtr} {fd : Fd} (h : fdOpen p dev r behind = .ok (fd, p')) :
    fdLookup p' fd = .ok (some r) := by
  obtain ⟨q, -, hset⟩ := fdOpen_ok.mp h
  obtain ⟨hlt, hq'⟩ := fdSetSlot_ok.mp hset
  rw [fdLookup_ok, hq']
  simp only [Proc.setTask, Proc.cur, Function.update_self]
  exact List.getElem?_set_self hlt

theorem fdDupfd_descr {p p' : Proc} {src dest : Fd} {ret : Int}
    (h : fdDupfd p src dest = .ok (ret, p')) : p'.descr = p.descr := by
  obtain ⟨slot, _, hrest⟩ := bind_eq_ok.mp h
  cases slot with
  | none =>
    cases hrest
    rfl
  | some d =>
    obtain ⟨fd, _, hset⟩ := bind_eq_ok.mp hrest
    obtain ⟨q, hq, hret⟩ := bind_eq_ok.mp hset
    cases Except.ok.inj hret
    rw [(fdSetSlot_ok.mp hq).2]
    rfl

theorem taskFork_sameDevs {p p' : Proc} {pgd : Word} {c : TaskPtr}
    (h : taskFork pgd p = .ok (c, p')) : SameDevs p.descr p'.descr := by
  obtain ⟨list, descr, _, _, hfds, hp'⟩ := taskFork_cases h
  unfold cloneFds at hfds
  split at hfds
  · cases hfds
  · intro r
    rw [hp']
    change (descr r).map Fdescr.dev = _
    rw [addRefs_ok hfds r, Option.map_map]
    rfl

theorem fdClose_descr {p p' : Proc} {fd : Fd} {r : DescrPtr} {v : Fdescr} {ret : Int}
    (hl : fdLookup p fd = .ok (some r)) (hv : p.descr r = some v)
    (h : fdClose p fd = .ok (ret, p')) : p'.descr = dropRef p.descr r v := by
  rw [fdClose_home] at h
  obtain ⟨slot, hslot, hrest⟩ := bind_eq_ok.mp h
  rw [hl] at hslot
  cases hslot
  obtain ⟨w, hw, hset⟩ := bind_eq_ok.mp hrest
  rw [deref_eq_ok, hv] at hw
  cases hw
  obtain ⟨q, hq, hret⟩ := bind_eq_ok.mp hset
  cases Except.ok.inj hret
  rw [(fdSetSlot_ok.mp hq).2]
  rfl

theorem dropRef_dev (descr : DescrPtr → Option Fdescr) (r : DescrPtr) (v : Fdescr) :
    (dropRef descr r v r).map Fdescr.dev = none ∨
      (dropRef descr r v r).map Fdescr.dev = some v.dev := by
  unfold dropRef
  rw [Function.update_self]
  split
  · exact .inl rfl
  · exact .inr rfl

theorem sysOpen_effect {fuel : Nat} {path : CString} {r : DescrPtr}
    {behind : Nat → Option DescrPtr} {out : FileOut} (hfresh : s.proc.descr r = none)
    (h : sysOpen fuel path r behind s = .ok (out, s')) :
    FileEffect s (.openFile path r behind) out s' := by
  obtain ⟨found, _, hrest⟩ := bind_eq_ok.mp h
  cases found with
  | none =>
    cases hrest
    exact .still _ _
  | some fsn =>
    obtain ⟨d, _, hopen⟩ := bind_eq_ok.mp hrest
    obtain ⟨⟨fd, p⟩, hp, hret⟩ := bind_eq_ok.mp hopen
    cases Except.ok.inj hret
    exact .opened path r behind d p hfresh (fdOpen_descr hp)

theorem sysClose_effect {fd : Fd} {out : FileOut} (h : sysClose fd s = .ok (out, s')) :
    FileEffect s (.close fd) out s' := by
  rcases fdDevice_bind rfl (fun _ _ => rfl) h with ⟨rfl, rfl⟩ | ⟨r, d, hd, hrest⟩
  · exact .still _ _
  obtain ⟨v, hv, hclose⟩ := bind_eq_ok.mp hrest
  obtain ⟨⟨ret, p⟩, hp, hret⟩ := bind_eq_ok.mp hclose
  cases Except.ok.inj hret
  obtain ⟨hl, w, hw, rfl⟩ := fdDevice_some hd
  have hdescr : p.descr = dropRef s.proc.descr r w := fdClose_descr hl hw hp
  refine .closed fd r w.dev v p hd hv ?_ ?_
  · intro q hq
    rw [hdescr, dropRef, Function.update_of_ne hq]
  · rw [hdescr]
    exact dropRef_dev _ _ _

theorem FileStep.effect {op : FileOp} {out : FileOut} (h : FileStep s (op, out) s') :
    FileEffect s op out s' := by
  obtain ⟨hen, fuel, hex⟩ := h
  cases op with
  | enter task =>
    cases Except.ok.inj hex
    refine .quiet _ 0 _ ?_
    intro r
    rw [taskEnter_eq]
  | openFile path r behind => exact sysOpen_effect hen hex
  | read fd nbyte =>
    rcases fdDevice_bind rfl (fun _ _ => rfl) hex with ⟨rfl, rfl⟩ | ⟨r, d, hd, hrest⟩
    · exact .still _ _
    obtain ⟨⟨buf, v⟩, hv, hret⟩ := bind_eq_ok.mp hrest
    cases Except.ok.inj hret
    exact .got fd nbyte r d buf v hd hv
  | write fd buf fresh =>
    rcases fdDevice_bind rfl (fun _ _ => rfl) hex with ⟨rfl, rfl⟩ | ⟨r, d, hd, hrest⟩
    · exact .still _ _
    obtain ⟨v, hv, hret⟩ := bind_eq_ok.mp hrest
    cases Except.ok.inj hret
    exact .wrote fd buf fresh r d v hd hen hv
  | lseek fd offset whence =>
    rcases fdDevice_bind rfl (fun _ _ => rfl) hex with ⟨rfl, rfl⟩ | ⟨r, d, hd, hrest⟩
    · exact .still _ _
    cases Except.ok.inj hrest
    exact .sought fd offset whence r d hd
  | close fd => exact sysClose_effect hex
  | dupfd src dest =>
    obtain ⟨⟨ret, p⟩, hp, hret⟩ := bind_eq_ok.mp hex
    cases Except.ok.inj hret
    refine .quiet _ ret p ?_
    intro r
    rw [fdDupfd_descr hp]
  | fork pgd =>
    obtain ⟨⟨c, p⟩, hp, hret⟩ := bind_eq_ok.mp hex
    cases Except.ok.inj hret
    exact .quiet _ _ p (taskFork_sameDevs hp)

/-- A call leaves the tasks alone or does to them what a call on descriptors does. -/
theorem FileStep.fdStep {lbl : FileOp × FileOut} (h : FileStep s lbl s') :
    s'.proc = s.proc ∨ ∃ lbl', FdStep s.proc lbl' s'.proc := by
  obtain ⟨op, out⟩ := lbl
  obtain ⟨hen, fuel, hex⟩ := h
  cases op with
  | enter task =>
    cases Except.ok.inj hex
    exact .inr ⟨(.enter task, 0), hen, rfl⟩
  | openFile path r behind =>
    obtain ⟨found, _, hrest⟩ := bind_eq_ok.mp hex
    cases found with
    | none =>
      cases hrest
      exact .inl rfl
    | some fsn =>
      obtain ⟨d, _, hopen⟩ := bind_eq_ok.mp hrest
      obtain ⟨⟨fd, p⟩, hp, hret⟩ := bind_eq_ok.mp hopen
      cases Except.ok.inj hret
      exact .inr ⟨(.openDev d r behind, fd.toNat), hen, bind_eq_ok.mpr ⟨_, hp, rfl⟩⟩
  | read fd nbyte =>
    left
    rcases fdDevice_bind rfl (fun _ _ => rfl) hex with ⟨rfl, rfl⟩ | ⟨r, d, _, hrest⟩
    · rfl
    obtain ⟨⟨buf, v⟩, _, hret⟩ := bind_eq_ok.mp hrest
    cases Except.ok.inj hret
    rfl
  | write fd buf fresh =>
    left
    rcases fdDevice_bind rfl (fun _ _ => rfl) hex with ⟨rfl, rfl⟩ | ⟨r, d, _, hrest⟩
    · rfl
    obtain ⟨v, _, hret⟩ := bind_eq_ok.mp hrest
    cases Except.ok.inj hret
    rfl
  | lseek fd offset whence =>
    left
    rcases fdDevice_bind rfl (fun _ _ => rfl) hex with ⟨rfl, rfl⟩ | ⟨r, d, _, hrest⟩
    · rfl
    cases Except.ok.inj hrest
    rfl
  | close fd =>
    rcases fdDevice_bind rfl (fun _ _ => rfl) hex with ⟨rfl, rfl⟩ | ⟨r, d, _, hrest⟩
    · exact .inl rfl
    obtain ⟨v, _, hclose⟩ := bind_eq_ok.mp hrest
    obtain ⟨⟨ret, p⟩, hp, hret⟩ := bind_eq_ok.mp hclose
    cases Except.ok.inj hret
    exact .inr ⟨(.close fd, ret), trivial, hp⟩
  | dupfd src dest =>
    obtain ⟨⟨ret, p⟩, hp, hret⟩ := bind_eq_ok.mp hex
    cases Except.ok.inj hret
    exact .inr ⟨(.dupfd src dest, ret), trivial, hp⟩
  | fork pgd =>
    obtain ⟨⟨c, p⟩, hp, hret⟩ := bind_eq_ok.mp hex
    cases Except.ok.inj hret
    exact .inr ⟨(.fork pgd, c), trivial, bind_eq_ok.mpr ⟨_, hp, rfl⟩⟩

end Effects

/-- The executable form of a step. -/
def FileOp.tryExec (op : FileOp) (s : Files) : Except Fault (FileOut × Files) :=
  if op.Enabled s then op.exec 4 s else .error .diverges

/-- A directory with the file `a`, whose device is number 0, and no descriptors. -/
def oneFile (ops : NodeOps) (v : Device) (mem : Word → UInt8) : Files where
  proc := bootProc 0#32 0#32
  fs :=
    { node := fun n =>
        { name := if n = 0 then [] else [charA]
          ops := if n = 0 then .dir else ops
          firstChild := if n = 0 then some 1 else none
          nextSibling := none }
      nnodes := 2
      dev := fun d => if d = 0 then v else .chr
      ndev := 1
      mem := mem }
  root := 0

def pathA : CString := [fsPathDelim, charA]

end AkKernel
