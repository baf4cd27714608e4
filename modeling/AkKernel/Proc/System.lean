import AkKernel.Proc.Sched

/-!
# System calls on tasks, and runs of them

`sys_fork`, `sys_exit`, `sys_wait4` and `sys_rt_sigsuspend` on top of the scheduler,
and the runs they make together with preemption. The two calls that sleep are cut
where the task gives up the processor: a task resumed inside `sys_wait4` may be
preempted again before it reads its child's exit, because `kern_sched_yield` turns
interrupts on before it returns.
-/

set_option autoImplicit false

namespace AkKernel

open LinkedRing Runs

def wNoHang : Word := 1#32
def wUntraced : Word := 2#32

/-- `fdio_tbl_init` of `kernel/io/fdio.c`, for the current task. -/
def fdioTblInit (p : Proc) : Proc :=
  p.setTask p.currentTask { p.cur with fdnext := 0, fdcap := 16, fdtbl := List.replicate 16 none }

/-- `KernelTask` as it is initialised in `kernel/proc/task.c`, its directory set by `pg_init`. -/
def kernelTaskInit (kernEnd pgd : Word) : Task :=
  { zeroTask with
    pid := kernelPid
    ppid := kernelPid
    childcount := 0
    brk := kernEnd
    state := .taskReady
    sid := 1
    pgid := 1
    pgd := pgd
    mmapbrk := 0 }

/-- The task table when `sched_init` returns in `kmain`. -/
def bootProc (kernEnd pgd : Word) : Proc :=
  schedInit (fdioTblInit
    { task := fun t => if t = kernelTask then kernelTaskInit kernEnd pgd else zeroTask
      list := fun _ => ⟨none, none⟩
      ctx := fun _ => .user
      ntasks := 1
      currentTask := kernelTask
      userTask := none
      nextPid := kernelPid + 1#32
      cr3 := pgd
      descr := fun _ => none })

/-- Puts the task to sleep and gives up the processor. -/
def taskSigwait (fuel : Nat) (p : Proc) (task : TaskPtr) : Except Fault Proc :=
  kernSchedYield fuel (p.setTask task { p.task task with state := .taskSigWait })

/-- `sys_wait4` returns 0 at once when it may not block and there is no child. -/
def wait4Early (t : Task) (options : Word) : Bool :=
  (options &&& wNoHang != 0#32 || options &&& wUntraced != 0#32) && t.childcount == 0

inductive Op where
  | fork (pgd : Word)
  | exit (status : Word)
  | wait4 (options : Word)
  | wait4Return
  | sigsuspend
  | sigsuspendReturn
  | yield
deriving DecidableEq, Repr

/-- What a completed `sys_wait4` returned to the task that called it. -/
structure Report where
  parent : TaskPtr
  pid : Word
  status : Word
deriving DecidableEq, Repr

/-- What the running task can do next. A task that has quit spins in `sys_exit`. -/
def Op.Enabled (p : Proc) : Op → Prop
  | .wait4Return => p.ctx p.currentTask = .wait4
  | .sigsuspendReturn => p.ctx p.currentTask = .sigsuspend
  | .yield => True
  | _ => p.ctx p.currentTask = .user ∧ p.cur.state ≠ .taskQuit

instance (p : Proc) (op : Op) : Decidable (op.Enabled p) :=
  match op with
  | .wait4Return | .sigsuspendReturn => inferInstanceAs (Decidable (_ = _))
  | .yield => .isTrue trivial
  | .fork _ | .exit _ | .wait4 _ | .sigsuspend => inferInstanceAs (Decidable (_ ∧ _))

def sysWait4 (fuel : Nat) (p : Proc) (options : Word) : Except Fault Proc :=
  if wait4Early p.cur options then .ok p
  else
    let p := p.setTask p.currentTask { p.cur with sigwait := sigChld }
    taskSigwait fuel (p.setCtx p.currentTask .wait4) p.currentTask

/-- `alloc` is what the allocator does to `CurrentTask` and `UserTask`. -/
def Op.exec (fuel : Nat) (p : Proc) (op : Op) (alloc : Proc → Proc := id) :
    Except Fault (Option Report × Proc) :=
  match op with
  | .fork pgd => do
    let (_, p) ← taskFork pgd p alloc
    .ok (none, p)
  | .exit status => do
    let p ← taskExit fuel p p.currentTask status
    .ok (none, p)
  | .wait4 options => do
    let p ← sysWait4 fuel p options
    .ok (none, p)
  | .wait4Return =>
    .ok (some ⟨p.currentTask, p.cur.sigchldpid, p.cur.sigchldexit⟩,
      p.setCtx p.currentTask .user)
  | .sigsuspend => do
    let p ← taskSigwait fuel (p.setCtx p.currentTask .sigsuspend) p.currentTask
    .ok (none, p)
  | .sigsuspendReturn => .ok (none, p.setCtx p.currentTask .user)
  | .yield => do
    let p ← kernSchedYield fuel p
    .ok (none, p)

/-- One step of the running task; the label holds what the call returned. The allocator leaves
`CurrentTask` as it is. -/
def Step (p : Proc) (l : Op × Option Report) (p' : Proc) : Prop :=
  l.1.Enabled p ∧ ∃ fuel, l.1.exec fuel p = .ok (l.2, p')

/-- One step of the running task with the kernel's allocator. -/
def WrapStep (p : Proc) (l : Op × Option Report) (p' : Proc) : Prop :=
  l.1.Enabled p ∧ ∃ fuel, l.1.exec fuel p allocated = .ok (l.2, p')

/-- The executable form of a step, for runs on given operations. -/
def Op.tryExec (fuel : Nat) (op : Op) (p : Proc) : Except Fault (Option Report × Proc) :=
  if op.Enabled p then op.exec fuel p else .error .diverges

def Op.tryWrapped (fuel : Nat) (op : Op) (p : Proc) : Except Fault (Option Report × Proc) :=
  if op.Enabled p then op.exec fuel p allocated else .error .diverges

theorem wrapStep_of_tryWrapped (fuel : Nat) (op : Op) (p : Proc) (r : Option Report) (p' : Proc)
    (h : op.tryWrapped fuel p = .ok (r, p')) : WrapStep p (op, r) p' := by
  unfold Op.tryWrapped at h
  split at h
  · exact ⟨by assumption, fuel, h⟩
  · cases h

theorem step_of_tryExec (fuel : Nat) (op : Op) (p : Proc) (r : Option Report) (p' : Proc)
    (h : op.tryExec fuel p = .ok (r, p')) : Step p (op, r) p' := by
  unfold Op.tryExec at h
  split at h
  · exact ⟨by assumption, fuel, h⟩
  · cases h

end AkKernel
