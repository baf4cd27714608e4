import AkKernel.Foundation.Logged
import AkKernel.Io.Files
import AkKernel.Io.Refs

/-!
# Calls from a program

`syscall_interrupt` of `arch/x86/syscall.c` takes the number of a call and its arguments
from the registers and uses them as they are: as index of the tables of calls, of the
task's descriptors and of its signal handlers.
-/

set_option autoImplicit false

namespace AkKernel

open Runs Logs

def numSyscalls : Nat := 0xFF

def nsig : Nat := 65

def fDupfd : Word := 0#32

inductive Handler where
  | sysExit
  | sysFork
  | sysRead
  | sysWrite
  | sysOpen
  | sysClose
  | sysExecve
  | sysLseek
  | sysGetpid
  | sysBrk
  | sysSignal
  | sysIoctl
  | sysFcntl
  | sysGetppid
  | sysMmap
  | sysNewstat
  | sysWait4
  | sysUname
  | sysSchedYield
  | sysRtSigaction
  | sysRtSigsuspend
  | sysGetcwd
  | sysMmapPgoff
  | sysFakeGetid
  | sysGetpgid
  | sysGetpgrp
  | sysSetpgid
deriving DecidableEq, Repr

/-- An access to one of the tables, at an index of the type that the source has. -/
inductive Access where
  | funcs (i : Int)
  | argc (i : Int)
  | fdtbl (i : Nat)
  | sigact (i : Int)
deriving DecidableEq, Repr

/-- The access is to an element of its table, for a descriptor table of `fdcap` slots. -/
def Access.InBounds (fdcap : Nat) : Access → Prop
  | .funcs i => 0 ≤ i ∧ i < numSyscalls
  | .argc i => 0 ≤ i ∧ i < numSyscalls
  | .fdtbl i => i < fdcap
  | .sigact i => 0 ≤ i ∧ i < nsig

/-- A function with the accesses that it makes. -/
abbrev Touched := Logged Access Fault

namespace Touched

def fdLookup (p : Proc) (fd : Fd) : Touched (Option DescrPtr) :=
  .touch (.fdtbl fd.toNat) (AkKernel.fdLookup p fd)

def fdSetSlot (p : Proc) (fd : Fd) (slot : Option DescrPtr) : Touched Proc :=
  .touch (.fdtbl fd.toNat) (AkKernel.fdSetSlot p fd slot)

def fdDupfdLoop (p : Proc) : Nat → Fd → Touched Fd
  | 0, _ => .lift (.error .diverges)
  | fuel + 1, dest => do
    match ← fdLookup p dest with
    | some _ => fdDupfdLoop p fuel (dest + 1#16)
    | none => pure dest

def fdDupfd (p : Proc) (src dest : Fd) : Touched (Int × Proc) := do
  match ← fdLookup p src with
  | none => pure (-1, p)
  | some d =>
    let dest ← fdDupfdLoop p (2 ^ 16) dest
    let p ← fdSetSlot p dest (some d)
    pure (0, p)

def fdClose (p : Proc) (fd : Fd) : Touched (Int × Proc) := do
  match ← fdLookup p fd with
  | none => pure (-1, p)
  | some d =>
    let v ← .lift (deref (p.descr d))
    let p ← fdSetSlot { p with descr := dropRef p.descr d v } fd none
    pure (0, p)

def fdDevice (s : Files) (fd : Fd) : Touched (Option (DescrPtr × DevPtr)) := do
  match ← fdLookup s.proc fd with
  | none => pure none
  | some r =>
    let v ← .lift (deref (s.proc.descr r))
    pure (some (r, v.dev))

def sysRead (fd : Fd) (nbyte : Word) (s : Files) : Touched (FileOut × Files) := do
  match ← fdDevice s fd with
  | none => pure (.done (-1), s)
  | some (r, d) =>
    let (buf, v) ← .lift ((s.fs.dev d).read s.fs.mem nbyte)
    pure (.got r d (s.fs.dev d).pos buf, s.setDev d v)

def sysWrite (fd : Fd) (buf : List UInt8) (fresh : Nat → UInt8) (s : Files) :
    Touched (FileOut × Files) := do
  match ← fdDevice s fd with
  | none => pure (.done (-1), s)
  | some (r, d) =>
    let v ← .lift ((s.fs.dev d).write buf fresh)
    pure (.wrote r d (s.fs.dev d).pos buf, s.setDev d v)

def sysLseek (fd : Fd) (offset whence : Word) (s : Files) : Touched (FileOut × Files) := do
  match ← fdDevice s fd with
  | none => pure (.done (-1), s)
  | some (r, d) =>
    let (ret, v) := (s.fs.dev d).seek offset whence
    pure (.sought r d (s.fs.dev d).pos ret, s.setDev d v)

def sysClose (fd : Fd) (s : Files) : Touched (FileOut × Files) := do
  match ← fdDevice s fd with
  | none => pure (.done (-1), s)
  | some (r, d) =>
    let v ← .lift (s.fs.dev d).close
    let (_, p) ← fdClose s.proc fd
    pure (.closed r d, { s.setDev d v with proc := p })

end Touched

section Erase
variable (p : Proc) (s : Files)

theorem res_fdDupfdLoop (fuel : Nat) :
    ∀ dest, (Touched.fdDupfdLoop p fuel dest).res = fdDupfdLoop p fuel dest := by
  induction fuel with
  | zero => exact fun _ => rfl
  | succ fuel ih =>
    intro dest
    apply Logged.res_bind_of rfl
    intro o
    cases o with
    | none => rfl
    | some d => exact ih _

theorem res_fdDupfd (src dest : Fd) : (Touched.fdDupfd p src dest).res = fdDupfd p src dest := by
  apply Logged.res_bind_of rfl
  intro o
  cases o with
  | none => rfl
  | some d =>
    apply Logged.res_bind_of (res_fdDupfdLoop p _ _)
    intro dest
    exact Logged.res_bind_of rfl fun _ => rfl

theorem res_fdClose (fd : Fd) : (Touched.fdClose p fd).res = fdClose p fd := by
  rw [fdClose_home]
  apply Logged.res_bind_of rfl
  intro o
  cases o with
  | none => rfl
  | some d =>
    apply Logged.res_bind_of rfl
    intro v
    exact Logged.res_bind_of rfl fun _ => rfl

theorem res_fdDevice (fd : Fd) : (Touched.fdDevice s fd).res = fdDevice s fd := by
  apply Logged.res_bind_of rfl
  intro o
  cases o with
  | none => rfl
  | some d => exact Logged.res_bind_of rfl fun _ => rfl

theorem res_sysRead (fd : Fd) (nbyte : Word) :
    (Touched.sysRead fd nbyte s).res = sysRead fd nbyte s := by
  apply Logged.res_bind_of (res_fdDevice s fd)
  intro o
  cases o with
  | none => rfl
  | some q => exact Logged.res_bind_of rfl fun _ => rfl

theorem res_sysWrite (fd : Fd) (buf : List UInt8) (fresh : Nat → UInt8) :
    (Touched.sysWrite fd buf fresh s).res = sysWrite fd buf fresh s := by
  apply Logged.res_bind_of (res_fdDevice s fd)
  intro o
  cases o with
  | none => rfl
  | some q => exact Logged.res_bind_of rfl fun _ => rfl

theorem res_sysLseek (fd : Fd) (offset whence : Word) :
    (Touched.sysLseek fd offset whence s).res = sysLseek fd offset whence s := by
  apply Logged.res_bind_of (res_fdDevice s fd)
  intro o
  cases o with
  | none => rfl
  | some q => rfl

theorem res_sysClose (fd : Fd) : (Touched.sysClose fd s).res = sysClose fd s := by
  apply Logged.res_bind_of (res_fdDevice s fd)
  intro o
  cases o with
  | none => rfl
  | some q =>
    apply Logged.res_bind_of rfl
    intro v
    exact Logged.res_bind_of (res_fdClose s.proc fd) fun _ => rfl

end Erase

def taskSignal (p : Proc) (task : TaskPtr) (signum handler : Word) : Word × Proc :=
  let t := p.task task
  (t.sigact signum, p.setTask task { t with sigact := Function.update t.sigact signum handler })

namespace Touched

/-- An access to the `sigact` of the running task; what is behind it is not known. -/
def touchSigact {α : Type} (signum : Word) (r : α) : Touched α :=
  .touch (.sigact signum.toInt) (if signum.toNat < nsig then .ok r else .error .outOfBounds)

def sysSignal (signum handler : Word) (p : Proc) : Touched (Word × Proc) :=
  touchSigact signum (taskSignal p p.currentTask signum handler)

/-- `act` is the handler in the structure that the second argument refers to; what is
written for `oldact` is left out. -/
def sysRtSigaction (signum act oldact : Word) (p : Proc) : Touched (Word × Proc) := do
  let _ ← if oldact ≠ 0#32 then touchSigact signum (p.cur.sigact signum) else pure 0#32
  let (_, p) ← touchSigact signum (taskSignal p p.currentTask signum act)
  pure (0#32, p)

def sysFcntl (fd : Fd) (cmd arg : Word) (p : Proc) : Touched (Word × Proc) := do
  if cmd = fDupfd then
    let (ret, p) ← fdDupfd p fd (arg.setWidth 16)
    pure (BitVec.ofInt 32 ret, p)
  else pure (0#32, p)

end Touched

structure IsrArgs where
  eax : Word
  ebx : Word
  ecx : Word
  edx : Word
  esi : Word
  edi : Word
  ebp : Word

/-- What the kernel reads for the program: its memory, the handler in a `struct sigaction`
of it, and what `realloc` finds behind a block. -/
structure UserMem where
  mem : Word → UInt8
  handlerAt : Word → Word
  fresh : Nat → UInt8

inductive SysOut where
  | file (out : FileOut)
  | ret (r : Word)
deriving DecidableEq, Repr

/-- The calls that are not looked into here. -/
abbrev OtherCalls := Handler → List Word → Files → Except Fault (SysOut × Files)

def fileReply (x : Touched (FileOut × Files)) : Touched (SysOut × Files) := do
  let (out, s) ← x
  pure (.file out, s)

def procReply (s : Files) (x : Touched (Word × Proc)) : Touched (SysOut × Files) := do
  let (ret, p) ← x
  pure (.ret ret, { s with proc := p })

/-- `fn(all_regs[0], ..)`; a descriptor is an argument of 16 bits. -/
def Handler.call (other : OtherCalls) (user : UserMem) (fn : Handler) (args : List Word)
    (s : Files) : Touched (SysOut × Files) :=
  let arg i := args.getD i 0#32
  let fd : Fd := (arg 0).setWidth 16
  match fn with
  | .sysRead => fileReply (Touched.sysRead fd (arg 2) s)
  | .sysWrite =>
    fileReply (Touched.sysWrite fd (Bytes.read user.mem (arg 1) (arg 2).toNat) user.fresh s)
  | .sysLseek => fileReply (Touched.sysLseek fd (arg 1) (arg 2) s)
  | .sysClose => fileReply (Touched.sysClose fd s)
  | .sysFcntl => procReply s (Touched.sysFcntl fd (arg 1) (arg 2) s.proc)
  | .sysSignal => procReply s (Touched.sysSignal (arg 0) (arg 1) s.proc)
  | .sysRtSigaction =>
    procReply s (Touched.sysRtSigaction (arg 0) (user.handlerAt (arg 1)) (arg 2) s.proc)
  | fn => .lift (other fn args s)

section Bounds
variable {p : Proc} {s : Files} {cap : Nat}

end Bounds

section Dispatch
variable {s : Files} {cap : Nat} {other : OtherCalls} {user : UserMem} {regs : IsrArgs}

end Dispatch

section Runs
variable {s₀ s : Files} {tr : List (FileOp × FileOut)}

end Runs

end AkKernel
