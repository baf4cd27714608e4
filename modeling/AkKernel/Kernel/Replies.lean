import AkKernel.Io.Positions
import AkKernel.Kernel.Execve
import AkKernel.Kernel.Ops
import AkKernel.Kernel.Syscall

/-!
# What a program gets back from a call

The handlers of `syscall_interrupt` with the values that they return and the `errno` that they
set in the kernel. The memory of the program is read through `UserMem`; what a handler writes to
it is left out.
-/

set_option autoImplicit false

namespace AkKernel

open Bytes Logs Programs Runs

/-- The values of `errno` that handlers set. -/
inductive Errno where
  | enoent
  | esrch
  | ebadf
  | eacces
deriving DecidableEq, Repr

def Errno.code : Errno → Word
  | .enoent => 2#32
  | .esrch => 3#32
  | .ebadf => 9#32
  | .eacces => 13#32

/-- How a handler ends: it returns what was asked for, it fails and returns, with `errno` set or
not, or it does not come back to its caller. -/
inductive Reply where
  | done (ret : Word)
  | failed (ret : Word) (errno : Option Errno)
  | left
deriving DecidableEq, Repr

/-- What a call depends on besides its arguments and the kernel: the program's memory, what
`malloc` gives, what is in memory where an executable is read to, the characters that
`console_rbuf_getc` will give, what `eax` holds after a `close` function of a file, which returns
nothing, and the state in which a call that sleeps goes on. `fuel` bounds the rounds of loops. -/
structure CallEnv where
  fuel : Nat
  user : UserMem
  heap : Heap
  before : ElfData
  stale : Stale
  keys : List UInt8
  closeRet : Word
  resumed : Machine

def oCreat : Word := 0x40#32

/-- A string of the program; one without an end is never read to its end. -/
def strAt (mem : Word → UInt8) (addr : Word) : Except Fault CString :=
  match readStr mem addr (2 ^ 32) with
  | some str => .ok str
  | none => .error .diverges

def wordAt (mem : Word → UInt8) (addr : Word) : Word :=
  (mem (addr + 3#32)).toBitVec ++ (mem (addr + 2#32)).toBitVec ++ (mem (addr + 1#32)).toBitVec ++
    (mem addr).toBitVec

/-- The loop of `console_read`, `c` being the number of characters in the buffer. It waits
when there are no more. -/
def consoleReadLoop : List UInt8 → Word → Except Fault Word
  | [], _ => .error .diverges
  | char :: keys, c =>
    if char = 8 then consoleReadLoop keys (if (0#32).slt c then c - 1#32 else c)
    else if char = 10 ∨ char = 0 then .ok (c + 1#32)
    else consoleReadLoop keys (c + 1#32)

def Machine.files (s : Machine) : Files := ⟨s.kern.proc, s.fs, s.root⟩

abbrev FilesM (α : Type) := Files → Except Fault (α × Files)

namespace Reply

/-- A call on a descriptor: `fd_lookup`, then what is done with the device. -/
def onDevice (fd : Fd) (f : DevPtr → FilesM Reply) : FilesM Reply := fun s => do
  match ← fdDevice s fd with
  | none => .ok (.failed (-1#32) (some .ebadf), s)
  | some (_, d) => f d s

def sysOpen (fuel : Nat) (heap : Heap) (path : CString) (flags : Word) : FilesM Reply := fun s => do
  match ← fsLocate fuel s.fs.node s.root path with
  | none =>
    if flags &&& oCreat ≠ 0#32 then .ok (.failed (-1#32) (some .eacces), s)
    else .ok (.failed (-1#32) (some .enoent), s)
  | some fsn =>
    let d ← openNode s.fs.node fsn
    let (fd, p) ← fdOpen s.proc d heap.descr heap.behind
    .ok (.done (fd.setWidth 32), { s with proc := p })

def sysRead (keys : List UInt8) (fd : Fd) (nbyte : Word) : FilesM Reply := onDevice fd fun d s =>
  match s.fs.dev d with
  | .chr => do
    let ret ← consoleReadLoop keys 0#32
    .ok (.done ret, s)
  | v => do
    let (buf, v) ← v.read s.fs.mem nbyte
    .ok (.done (BitVec.ofNat 32 buf.length), s.setDev d v)

/-- `sys_write`; both a file in memory and the console return `nbyte`. -/
def sysWrite (fd : Fd) (buf : List UInt8) (nbyte : Word) (fresh : Nat → UInt8) : FilesM Reply :=
  onDevice fd fun d s => do
    let v ← (s.fs.dev d).write buf fresh
    .ok (.done nbyte, s.setDev d v)

/-- `sys_lseek`. The console has no `seek`. -/
def sysLseek (fd : Fd) (offset whence : Word) : FilesM Reply := onDevice fd fun d s =>
  match s.fs.dev d with
  | .chr => .error .badPointer
  | v =>
    let (ret, v) := v.seek offset whence
    .ok (.done ret, s.setDev d v)

/-- What `dev->close` returns. -/
def closeRet (ret : Word) : Device → Word
  | .chr => 0#32
  | _ => ret

def sysClose (ret : Word) (fd : Fd) : FilesM Reply := onDevice fd fun d s => do
  let v ← (s.fs.dev d).close
  let (fdRet, p) ← fdClose s.proc fd
  let s' := { s.setDev d v with proc := p }
  if fdRet = -1 then .ok (.failed (-1#32) (some .ebadf), s')
  else if closeRet ret (s.fs.dev d) = -1#32 then .ok (.failed (-1#32) none, s')
  else .ok (.done 0#32, s')

def sysFcntl (fd : Fd) (cmd arg : Word) : FilesM Reply := fun s => do
  if cmd = fDupfd then
    let (ret, p) ← fdDupfd s.proc fd (arg.setWidth 16)
    let s' := { s with proc := p }
    if ret = -1 then .ok (.failed (-1#32) (some .ebadf), s') else .ok (.done 0#32, s')
  else .ok (.done 0#32, s)

/-- `sys_newstat`; the `stat` of a file of the initrd returns 0. -/
def sysNewstat (fuel : Nat) (path : CString) : FilesM Reply := fun s => do
  match ← AkKernel.sysNewstat fuel path s with
  | (none, s) => .ok (.failed (-1#32) (some .enoent), s)
  | (some _, s) => .ok (.done 0#32, s)

/-- The task that `sys_getpgid` and `sys_setpgid` ask for. -/
def pidOf (p : Proc) (pid : Word) : Word := if pid = 0#32 then p.cur.pid else pid

def sysGetpgid (fuel : Nat) (pid : Word) : FilesM Reply := fun s => do
  match ← taskGet fuel s.proc (pidOf s.proc pid) with
  | none => .ok (.failed (-1#32) (some .esrch), s)
  | some task => .ok (.done (s.proc.task task).pid, s)

def sysSetpgid (fuel : Nat) (pid pgid : Word) : FilesM Reply := fun s => do
  match ← taskGet fuel s.proc (pidOf s.proc pid) with
  | none => .ok (.failed (-1#32) (some .esrch), s)
  | some task =>
    let t := s.proc.task task
    let pgid := if pgid = 0#32 then t.pid else pgid
    .ok (.done 0#32, { s with proc := s.proc.setTask task { t with pgid := pgid } })

/-- A call on the tasks that returns a value. -/
def onTasks {α : Type} (f : Proc → Except Fault (α × Proc)) : FilesM α := fun s => do
  let (a, p) ← f s.proc
  .ok (a, { s with proc := p })

/-- A call that gives up the processor, until its task is entered again. -/
def sleep (env : CallEnv) (f : Proc → Except Fault Proc) : MachineM Unit := do
  onFiles (onTasks fun p => do let p ← f p; .ok ((), p))
  set env.resumed

def sysWait4 (env : CallEnv) (options : Word) : MachineM Reply := do
  let s ← get
  if wait4Early s.kern.proc.cur options then pure (.done 0#32)
  else
    sleep env fun p => AkKernel.sysWait4 env.fuel p options
    let s ← get
    pure (.done s.kern.proc.cur.sigchldpid)

/-- The bytes at `buf` after `strncpy` of a working directory, which is `/` in every task. -/
def cwdCopied (mem : Word → UInt8) (buf size : Word) : Word → UInt8 := fun a =>
  if a - buf < size then (if a = buf then 0x2F else 0) else mem a

/-- `sys_getcwd`: `strlen` of what is at `buf` then. -/
def sysGetcwd (mem : Word → UInt8) (buf size : Word) : Except Fault Reply := do
  let str ← strAt (cwdCopied mem buf size) buf
  .ok (.done (BitVec.ofNat 32 str.length))

def sysExecve (env : CallEnv) (path : CString) : MachineM Reply := do
  match ← AkKernel.sysExecve env.fuel path env.heap env.before env.stale with
  | .ret r => pure (.failed (BitVec.ofInt 32 r) none)
  | .started _ => pure .left

end Reply

/-- `fn(all_regs[0], ..)`, with what it returns. -/
def Handler.reply (env : CallEnv) (fn : Handler) (args : List Word) : MachineM Reply :=
  let arg i := args.getD i 0#32
  let fd : Fd := (arg 0).setWidth 16
  match fn with
  | .sysExit => do
    onFiles (Reply.onTasks fun p => do
      let p ← taskExit env.fuel p p.currentTask (arg 0)
      .ok ((), p))
    pure .left
  | .sysFork => do
    let clone ← onKern AkKernel.sysFork
    -- what the caller gets; the clone goes on with 0
    let s ← get
    pure (.done (s.kern.proc.task clone).pid)
  | .sysRead => onFiles (Reply.sysRead env.keys fd (arg 2))
  | .sysWrite =>
    let buf := Bytes.read env.user.mem (arg 1) (arg 2).toNat
    onFiles (Reply.sysWrite fd buf (arg 2) env.user.fresh)
  | .sysOpen => do
    let path ← check (strAt env.user.mem (arg 0))
    onFiles (Reply.sysOpen env.fuel env.heap path (arg 1))
  | .sysClose => onFiles (Reply.sysClose env.closeRet fd)
  | .sysExecve => do
    let path ← check (strAt env.user.mem (arg 0))
    Reply.sysExecve env path
  | .sysLseek => onFiles (Reply.sysLseek fd (arg 1) (arg 2))
  | .sysGetpid => do
    let s ← get
    pure (.done s.kern.proc.cur.pid)
  | .sysBrk => do
    let ret ← onKern (AkKernel.sysBrk env.fuel (arg 0))
    pure (.done ret)
  | .sysSignal => do
    let ret ← onFiles (Reply.onTasks fun p => (Touched.sysSignal (arg 0) (arg 1) p).res)
    pure (.done ret)
  | .sysIoctl => pure (.done 0#32)
  | .sysFcntl => onFiles (Reply.sysFcntl fd (arg 1) (arg 2))
  | .sysGetppid => do
    let s ← get
    pure (.done s.kern.proc.cur.ppid)
  | .sysMmap => do
    let length := wordAt env.user.mem (arg 0 + 4#32)
    let flags := wordAt env.user.mem (arg 0 + 12#32)
    let ret ← onKern (AkKernel.sysMmapPgoff env.fuel length flags)
    pure (.done ret)
  | .sysNewstat => do
    let path ← check (strAt env.user.mem (arg 0))
    onFiles (Reply.sysNewstat env.fuel path)
  | .sysWait4 => Reply.sysWait4 env (arg 2)
  | .sysUname => pure (.done 0#32)
  | .sysSchedYield => do
    Reply.sleep env fun p => kernSchedYield env.fuel p
    pure (.done 0#32)
  | .sysRtSigaction => do
    let ret ← onFiles (Reply.onTasks fun p =>
      (Touched.sysRtSigaction (arg 0) (env.user.handlerAt (arg 1)) (arg 2) p).res)
    pure (.done ret)
  | .sysRtSigsuspend => do
    Reply.sleep env fun p => taskSigwait env.fuel (p.setCtx p.currentTask .sigsuspend) p.currentTask
    pure (.done 0#32)
  | .sysGetcwd => check (Reply.sysGetcwd env.user.mem (arg 0) (arg 1))
  | .sysMmapPgoff => do
    let ret ← onKern (AkKernel.sysMmapPgoff env.fuel (arg 1) (arg 3))
    pure (.done ret)
  | .sysFakeGetid => pure (.done 1000#32)
  | .sysGetpgid => onFiles (Reply.sysGetpgid env.fuel (arg 0))
  | .sysGetpgrp => onFiles (Reply.sysGetpgid env.fuel 0#32)
  | .sysSetpgid => onFiles (Reply.sysSetpgid env.fuel (arg 0) (arg 1))

section Steps
variable {fd : Fd} {s s' : Files} {r : Reply}

/-- The slot is empty: the call sets `EBADF` and does nothing. -/
def BadFd (s : Files) (fd : Fd) (r : Reply) (s' : Files) : Prop :=
  fdDevice s fd = .ok none ∧ r = .failed (-1#32) (some .ebadf) ∧ s' = s

theorem onDevice_ok {f : DevPtr → FilesM Reply} (h : Reply.onDevice fd f s = .ok (r, s')) :
    BadFd s fd r s' ∨ ∃ x d, fdDevice s fd = .ok (some (x, d)) ∧ f d s = .ok (r, s') := by
  obtain ⟨found, hdev, hrest⟩ := bind_eq_ok.mp h
  cases found with
  | none =>
    cases hrest
    exact .inl ⟨hdev, rfl, rfl⟩
  | some q => exact .inr ⟨q.1, q.2, hdev, hrest⟩

/-- A read of the console gives the length of a line, one of a file the bytes that it read. -/
theorem sysRead_ok {keys : List UInt8} {nbyte : Word}
    (h : Reply.sysRead keys fd nbyte s = .ok (r, s')) :
    BadFd s fd r s' ∨ ∃ x d, fdDevice s fd = .ok (some (x, d)) ∧
      ((s.fs.dev d = .chr ∧ ∃ c, consoleReadLoop keys 0#32 = .ok c ∧ r = .done c ∧ s' = s) ∨
        (s.fs.dev d).Regular ∧ ∃ buf v, (s.fs.dev d).read s.fs.mem nbyte = .ok (buf, v) ∧
          r = .done (BitVec.ofNat 32 buf.length) ∧ s' = s.setDev d v) := by
  apply (onDevice_ok h).imp_right
  rintro ⟨x, d, hdev, hd⟩
  refine ⟨x, d, hdev, ?_⟩
  dsimp only at hd
  cases hv : s.fs.dev d with
  | chr =>
    rw [hv] at hd
    obtain ⟨c, hc, hret⟩ := bind_eq_ok.mp hd
    cases hret
    exact .inl ⟨rfl, c, hc, rfl, rfl⟩
  | cpio file =>
    rw [hv] at hd
    obtain ⟨⟨buf, v⟩, hread, hret⟩ := bind_eq_ok.mp hd
    cases hret
    exact .inr ⟨trivial, buf, v, hread, rfl, rfl⟩
  | tmp file =>
    rw [hv] at hd
    obtain ⟨⟨buf, v⟩, hread, hret⟩ := bind_eq_ok.mp hd
    cases hret
    exact .inr ⟨trivial, buf, v, hread, rfl, rfl⟩

theorem sysWrite_ok {buf : List UInt8} {nbyte : Word} {fresh : Nat → UInt8}
    (h : Reply.sysWrite fd buf nbyte fresh s = .ok (r, s')) :
    BadFd s fd r s' ∨ ∃ x d v, fdDevice s fd = .ok (some (x, d)) ∧
      (s.fs.dev d).write buf fresh = .ok v ∧ r = .done nbyte ∧ s' = s.setDev d v := by
  apply (onDevice_ok h).imp_right
  rintro ⟨x, d, hdev, hd⟩
  obtain ⟨v, hwrite, hret⟩ := bind_eq_ok.mp hd
  cases hret
  exact ⟨x, d, v, hdev, hwrite, rfl, rfl⟩

theorem sysLseek_ok {offset whence : Word}
    (h : Reply.sysLseek fd offset whence s = .ok (r, s')) :
    BadFd s fd r s' ∨ ∃ x d, fdDevice s fd = .ok (some (x, d)) ∧ (s.fs.dev d).Regular ∧
      r = .done ((s.fs.dev d).seek offset whence).1 ∧
      s' = s.setDev d ((s.fs.dev d).seek offset whence).2 := by
  apply (onDevice_ok h).imp_right
  rintro ⟨x, d, hdev, hd⟩
  refine ⟨x, d, hdev, ?_⟩
  dsimp only at hd
  cases hv : s.fs.dev d with
  | chr =>
    rw [hv] at hd
    cases hd
  | cpio file =>
    rw [hv] at hd
    cases hd
    exact ⟨trivial, rfl, rfl⟩
  | tmp file =>
    rw [hv] at hd
    cases hd
    exact ⟨trivial, rfl, rfl⟩

theorem fdClose_ret {p p' : Proc} {ret : Int} {d : DescrPtr} (hl : fdLookup p fd = .ok (some d))
    (h : fdClose p fd = .ok (ret, p')) : ret ≠ -1 := by
  obtain ⟨slot, hslot, hrest⟩ := bind_eq_ok.mp h
  rw [hl] at hslot
  cases hslot
  obtain ⟨v, _, hset⟩ := bind_eq_ok.mp hrest
  obtain ⟨p₁, _, hret⟩ := bind_eq_ok.mp hset
  cases hret
  decide

theorem sysClose_ok {ret : Word} (h : Reply.sysClose ret fd s = .ok (r, s')) :
    BadFd s fd r s' ∨ ∃ x d v fdRet p, fdDevice s fd = .ok (some (x, d)) ∧
      (s.fs.dev d).close = .ok v ∧ fdClose s.proc fd = .ok (fdRet, p) ∧
      (r = .failed (-1#32) none ∨ r = .done 0#32) ∧ s' = { s.setDev d v with proc := p } := by
  apply (onDevice_ok h).imp_right
  rintro ⟨x, d, hdev, hd⟩
  obtain ⟨v, hv, hd⟩ := bind_eq_ok.mp hd
  obtain ⟨⟨fdRet, p⟩, hclose, hd⟩ := bind_eq_ok.mp hd
  refine ⟨x, d, v, fdRet, p, hdev, hv, hclose, ?_⟩
  dsimp only at hd
  rw [if_neg (fdClose_ret (fdDevice_some hdev).1 hclose)] at hd
  split at hd
  · cases hd
    exact ⟨.inl rfl, rfl⟩
  · cases hd
    exact ⟨.inr rfl, rfl⟩

theorem setDev_eq_self (s : Files) (d : DevPtr) : s.setDev d (s.fs.dev d) = s := by
  unfold Files.setDev
  rw [Function.update_eq_self]

theorem BadFd.exec {g : Option (DescrPtr × DevPtr) → Except Fault (FileOut × Files)}
    (h : BadFd s fd r s') (hnone : g none = .ok (.done (-1), s)) :
    ∃ out, (fdDevice s fd >>= g) = .ok (out, s') := by
  obtain ⟨hdev, -, rfl⟩ := h
  exact ⟨_, bind_eq_ok.mpr ⟨none, hdev, hnone⟩⟩

theorem sysRead_exec (fuel : Nat) {keys : List UInt8} {nbyte : Word}
    (h : Reply.sysRead keys fd nbyte s = .ok (r, s')) :
    ∃ out, (FileOp.read fd nbyte).exec fuel s = .ok (out, s') := by
  rcases sysRead_ok h with hbad | ⟨x, d, hdev, ⟨hv, c, _, _, hs'⟩ | ⟨_, buf, v, hread, _, hs'⟩⟩
  · exact hbad.exec rfl
  · have hread : (s.fs.dev d).read s.fs.mem nbyte = .ok ([], s.fs.dev d) := by
      rw [hv]
      rfl
    have hstep : (FileOp.read fd nbyte).exec fuel s =
        .ok (.got x d (s.fs.dev d).pos [], s.setDev d (s.fs.dev d)) :=
      bind_eq_ok.mpr ⟨_, hdev, bind_eq_ok.mpr ⟨_, hread, rfl⟩⟩
    rw [setDev_eq_self] at hstep
    rw [hs']
    exact ⟨_, hstep⟩
  · rw [hs']
    exact ⟨_, bind_eq_ok.mpr ⟨_, hdev, bind_eq_ok.mpr ⟨_, hread, rfl⟩⟩⟩

theorem sysWrite_exec (fuel : Nat) {buf : List UInt8} {nbyte : Word} {fresh : Nat → UInt8}
    (h : Reply.sysWrite fd buf nbyte fresh s = .ok (r, s')) :
    ∃ out, (FileOp.write fd buf fresh).exec fuel s = .ok (out, s') := by
  rcases sysWrite_ok h with hbad | ⟨x, d, v, hdev, hwrite, _, hs'⟩
  · exact hbad.exec rfl
  · rw [hs']
    exact ⟨_, bind_eq_ok.mpr ⟨_, hdev, bind_eq_ok.mpr ⟨v, hwrite, rfl⟩⟩⟩

theorem sysLseek_exec (fuel : Nat) {offset whence : Word}
    (h : Reply.sysLseek fd offset whence s = .ok (r, s')) :
    ∃ out, (FileOp.lseek fd offset whence).exec fuel s = .ok (out, s') := by
  rcases sysLseek_ok h with hbad | ⟨x, d, hdev, _, _, hs'⟩
  · exact hbad.exec rfl
  · rw [hs']
    exact ⟨_, bind_eq_ok.mpr ⟨_, hdev, rfl⟩⟩

theorem sysClose_exec (fuel : Nat) {ret : Word} (h : Reply.sysClose ret fd s = .ok (r, s')) :
    ∃ out, (FileOp.close fd).exec fuel s = .ok (out, s') := by
  rcases sysClose_ok h with hbad | ⟨x, d, v, fdRet, p, hdev, hv, hclose, _, hs'⟩
  · exact hbad.exec rfl
  · rw [hs']
    exact ⟨_, bind_eq_ok.mpr ⟨_, hdev, bind_eq_ok.mpr ⟨v, hv, bind_eq_ok.mpr ⟨_, hclose, rfl⟩⟩⟩⟩

theorem sysOpen_exec {fuel : Nat} {heap : Heap} {path : CString} {flags : Word}
    (h : Reply.sysOpen fuel heap path flags s = .ok (r, s')) :
    ∃ out, (FileOp.openFile path heap.descr heap.behind).exec fuel s = .ok (out, s') := by
  obtain ⟨found, hfound, hrest⟩ := bind_eq_ok.mp h
  cases found with
  | none =>
    dsimp only at hrest
    split at hrest
    · cases hrest
      exact ⟨_, bind_eq_ok.mpr ⟨none, hfound, rfl⟩⟩
    · cases hrest
      exact ⟨_, bind_eq_ok.mpr ⟨none, hfound, rfl⟩⟩
  | some fsn =>
    obtain ⟨d, hd, hopen⟩ := bind_eq_ok.mp hrest
    obtain ⟨⟨fd, p⟩, hp, hret⟩ := bind_eq_ok.mp hopen
    cases hret
    exact ⟨_, bind_eq_ok.mpr ⟨some fsn, hfound,
      bind_eq_ok.mpr ⟨d, hd, bind_eq_ok.mpr ⟨_, hp, rfl⟩⟩⟩⟩

/-- A reply to a call on a file goes with a step of the model of the files. -/
theorem reply_fileStep {env : CallEnv} {s s' : Machine} {fn : Handler} {args : List Word}
    (hfn : fn ∈ [.sysOpen, .sysRead, .sysWrite, .sysLseek, .sysClose])
    (hheap : s.kern.proc.descr env.heap.descr = none) (h : fn.reply env args s = .ok (r, s')) :
    ∃ op out, FileStep s.files (op, out) s'.files := by
  simp only [List.mem_cons, List.not_mem_nil, or_false] at hfn
  rcases hfn with rfl | rfl | rfl | rfl | rfl
  · obtain ⟨path, t, hpath, hopen⟩ := bind_ok.mp h
    obtain ⟨_, rfl⟩ := check_ok.mp hpath
    obtain ⟨t, ht, rfl⟩ := onFiles_ok.mp hopen
    obtain ⟨out, hexec⟩ := sysOpen_exec ht
    exact ⟨.openFile _ _ _, out, hheap, _, hexec⟩
  · obtain ⟨t, ht, rfl⟩ := onFiles_ok.mp h
    obtain ⟨out, hexec⟩ := sysRead_exec 0 ht
    exact ⟨.read _ _, out, trivial, _, hexec⟩
  · obtain ⟨t, ht, rfl⟩ := onFiles_ok.mp h
    obtain ⟨out, hexec⟩ := sysWrite_exec 0 ht
    exact ⟨_, out, (Bytes.read_length _ _ _).trans_lt (BitVec.isLt _), _, hexec⟩
  · obtain ⟨t, ht, rfl⟩ := onFiles_ok.mp h
    obtain ⟨out, hexec⟩ := sysLseek_exec 0 ht
    exact ⟨.lseek _ _ _, out, trivial, _, hexec⟩
  · obtain ⟨t, ht, rfl⟩ := onFiles_ok.mp h
    obtain ⟨out, hexec⟩ := sysClose_exec 0 ht
    exact ⟨.close _, out, trivial, _, hexec⟩

end Steps

section Values
variable {fuel : Nat} {s s' : Kern} {ret : Word}

theorem taskBrk_ret {cur : Task} {old new : Word} {t t' : Mem}
    (h : taskBrk cur fuel old new t = .ok (ret, t')) : ret = if new = 0#32 then old else new := by
  unfold taskBrk at h
  split
  · rename_i h0
    rw [if_pos h0] at h
    exact (pure_ok.mp h).1
  · rename_i h0
    rw [if_neg h0] at h
    split at h
    · obtain ⟨⟨⟩, u, _, hret⟩ := bind_ok.mp h
      exact (pure_ok.mp hret).1
    split at h
    · obtain ⟨⟨⟩, u, _, hret⟩ := bind_ok.mp h
      exact (pure_ok.mp hret).1
    · rename_i hup hdown
      rw [(pure_ok.mp h).1]
      exact BitVec.le_antisymm (BitVec.not_lt.mp hdown) (BitVec.not_lt.mp hup)

theorem sysBrk_ret {brk : Word} (h : sysBrk fuel brk s = .ok (ret, s')) :
    ret = if brk = 0#32 then s.proc.cur.brk else brk := by
  obtain ⟨b, s₁, hmem, hrest⟩ := bind_ok.mp h
  obtain ⟨⟨⟩, s₂, _, hret⟩ := bind_ok.mp hrest
  obtain ⟨mem, hrun, _⟩ := onMem_eq_ok.mp hmem
  rw [(pure_ok.mp hret).1]
  exact taskBrk_ret hrun

end Values

end AkKernel
