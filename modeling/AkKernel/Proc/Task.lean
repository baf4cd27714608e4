import AkKernel.ListHead

/-!
# Tasks

The `task_t` of `kernel/proc/task.h`, the globals of `kernel/proc/task.c`, and the
functions of that file together with `task_enter` and `task_fork` of
`arch/x86/proc/task.c`. A `task_t` is never freed, so the `i`-th one handed out is
named by the number `i`; `KernelTask`, which is static, is number 0. The `list`
member is kept apart from the other fields, as the heap of links of `kernel/list.c`.
-/

set_option autoImplicit false

namespace AkKernel

open LinkedRing

inductive TState where
  | taskInit
  | taskReady
  | taskSigWait
  | taskQuit
deriving DecidableEq, Repr

abbrev TaskPtr := Nat
abbrev DescrPtr := Nat
abbrev DevPtr := Nat

def kernelPid : Word := 0#32
def sigTerm : Word := 15#32
def sigChld : Word := 17#32
def sigIgn : Word := 1#32

/-- `fdescr_t` of `kernel/io/fdio.h`. -/
structure Fdescr where
  dev : DevPtr
  refs : Int
deriving DecidableEq, Repr

/-- `task_t` without its list links, its saved stack pointers, its signal mask and
its working directory. `fdtbl` is the array the task points to. -/
structure Task where
  pid : Word
  ppid : Word
  childcount : Int
  brk : Word
  state : TState
  fdnext : BitVec 16
  fdcap : BitVec 16
  fdtbl : List (Option DescrPtr)
  exitcode : Word
  sid : Word
  pgid : Word
  pgd : Word
  mmapbrk : Word
  sigact : Word → Word
  sigpend : Word
  sigwait : Word
  sigchldpid : Word
  sigchldexit : Word

/-- Where the saved context of a task resumes: in its own code, behind
`task_fork_context` as a new clone, or inside one of the two calls that sleep. -/
inductive Ctx where
  | user
  | forked
  | wait4
  | sigsuspend
deriving DecidableEq, Repr

structure Proc where
  task : TaskPtr → Task
  list : Links TaskPtr
  ctx : TaskPtr → Ctx
  ntasks : Nat
  currentTask : TaskPtr
  userTask : Option TaskPtr
  nextPid : Word
  cr3 : Word
  descr : DescrPtr → Option Fdescr

def kernelTask : TaskPtr := 0

/-- A `task_t` as `calloc` hands it out. -/
def zeroTask : Task where
  pid := 0
  ppid := 0
  childcount := 0
  brk := 0
  state := .taskInit
  fdnext := 0
  fdcap := 0
  fdtbl := []
  exitcode := 0
  sid := 0
  pgid := 0
  pgd := 0
  mmapbrk := 0
  sigact := fun _ => 0
  sigpend := 0
  sigwait := 0
  sigchldpid := 0
  sigchldexit := 0

namespace Proc

def cur (p : Proc) : Task := p.task p.currentTask

def setTask (p : Proc) (t : TaskPtr) (v : Task) : Proc :=
  { p with task := Function.update p.task t v }

def setCtx (p : Proc) (t : TaskPtr) (c : Ctx) : Proc :=
  { p with ctx := Function.update p.ctx t c }

def withUser (p : Proc) (u : Option TaskPtr) : Proc := { p with userTask := u }

end Proc

theorem setTask_cur (p : Proc) (t : Task) : (p.setTask p.currentTask t).cur = t := by
  simp [Proc.setTask, Proc.cur]

def enterKernel (p : Proc) : Proc :=
  if p.currentTask ≠ kernelTask then
    { p with userTask := some p.currentTask, currentTask := kernelTask }
  else p

def leaveKernel (p : Proc) : Proc :=
  match p.userTask with
  | some u => { p with currentTask := u }
  | none => p

theorem leaveKernel_some {p : Proc} {u : TaskPtr} (h : p.userTask = some u) :
    leaveKernel p = { p with currentTask := u } := by
  unfold leaveKernel
  split
  · rename_i v hv
    rw [h] at hv
    cases hv
    rfl
  · rename_i hv
    rw [h] at hv
    cases hv

theorem leaveKernel_none {p : Proc} (h : p.userTask = none) : leaveKernel p = p := by
  unfold leaveKernel
  split
  · rename_i v hv
    rw [h] at hv
    cases hv
  · rfl

/-- What a call of `__wrap_malloc` or `__wrap_free` leaves in `CurrentTask` and `UserTask`; the
allocator between the two assigns to neither. -/
def allocated (p : Proc) : Proc := leaveKernel (enterKernel p)

/-- Where the call returns with the `CurrentTask` that it was made with. -/
def HomeAlloc (p : Proc) : Prop := p.currentTask ≠ kernelTask ∨ p.userTask = none

instance (p : Proc) : Decidable (HomeAlloc p) := inferInstanceAs (Decidable (_ ∨ _))

/-- `UserTask` is a task that `enter_kernel` stored. -/
def UserStored (p : Proc) : Prop := ∀ u, p.userTask = some u → u < p.ntasks ∧ u ≠ kernelTask

theorem allocated_of_task {p : Proc} (h : p.currentTask ≠ kernelTask) :
    allocated p = { p with userTask := some p.currentTask } := by
  unfold allocated enterKernel
  rw [if_pos h, leaveKernel_some rfl]

theorem allocated_of_none {p : Proc} (hc : p.currentTask = kernelTask) (hu : p.userTask = none) :
    allocated p = p := by
  unfold allocated enterKernel
  rw [if_neg (not_not.mpr hc), leaveKernel_none hu]

theorem allocated_of_stored {p : Proc} {u : TaskPtr} (hc : p.currentTask = kernelTask)
    (hu : p.userTask = some u) : allocated p = { p with currentTask := u } := by
  unfold allocated enterKernel
  rw [if_neg (not_not.mpr hc), leaveKernel_some hu]

theorem allocated_eq (p : Proc) : allocated p =
    { p with currentTask := (allocated p).currentTask, userTask := (allocated p).userTask } := by
  by_cases hc : p.currentTask = kernelTask
  · cases hu : p.userTask with
    | none => rw [allocated_of_none hc hu]
    | some u => rw [allocated_of_stored hc hu]
  · rw [allocated_of_task hc]

theorem allocated_of_home {p : Proc} (h : HomeAlloc p) :
    allocated p = p.withUser (allocated p).userTask := by
  by_cases hc : p.currentTask = kernelTask
  · rw [allocated_of_none hc (h.resolve_left (not_not.mpr hc))]
    rfl
  · rw [allocated_of_task hc]
    rfl

theorem HomeAlloc.allocated {p : Proc} (h : HomeAlloc p) : HomeAlloc (allocated p) := by
  by_cases hc : p.currentTask = kernelTask
  · rw [allocated_of_none hc (h.resolve_left (not_not.mpr hc))]
    exact h
  · rw [allocated_of_task hc]
    exact .inl hc

theorem not_homeAlloc_iff {p : Proc} :
    ¬ HomeAlloc p ↔ p.currentTask = kernelTask ∧ ∃ u, p.userTask = some u := by
  rw [HomeAlloc, not_or, not_not, ← ne_eq, Option.ne_none_iff_exists']

theorem allocated_allocated (p : Proc) : allocated (allocated p) = allocated p := by
  by_cases hc : p.currentTask = kernelTask
  · cases hu : p.userTask with
    | none => rw [allocated_of_none hc hu, allocated_of_none hc hu]
    | some u =>
      rw [allocated_of_stored hc hu]
      by_cases huk : u = kernelTask
      · exact allocated_of_stored huk (hu.trans (by rw [huk]))
      · rw [allocated_of_task huk, hu]
  · rw [allocated_of_task hc]
    exact allocated_of_task hc

theorem UserStored.allocated {p : Proc} (h : UserStored p) (hc : p.currentTask < p.ntasks) :
    UserStored (allocated p) ∧ (allocated p).currentTask < (allocated p).ntasks := by
  by_cases hk : p.currentTask = kernelTask
  · cases hu : p.userTask with
    | none =>
      rw [allocated_of_none hk hu]
      exact ⟨h, hc⟩
    | some u =>
      rw [allocated_of_stored hk hu]
      exact ⟨h, (h u hu).1⟩
  · rw [allocated_of_task hk]
    refine ⟨?_, hc⟩
    intro u hu
    cases hu
    exact ⟨hc, hk⟩

def taskSignalRaise (p : Proc) (task : TaskPtr) (signum : Word) : Proc :=
  p.setTask task { p.task task with sigpend := signum }

/-- Also gives the handler that is called and its argument. The handler is code of
the task itself: the system calls it makes are further steps of the task. -/
def taskSignalExec (p : Proc) (task : TaskPtr) : Proc × Option (Word × Word) :=
  let t := p.task task
  if t.sigpend ≠ 0#32 then
    let signum := t.sigpend
    let t := if t.sigwait = t.sigpend then { t with sigwait := 0#32 } else t
    let t := { t with sigpend := 0#32 }
    let hndl := t.sigact signum
    (p.setTask task t, if hndl ≠ 0#32 ∧ hndl ≠ sigIgn then some (hndl, signum) else none)
  else (p, none)

/-- `task_enter` up to the resumed task's own code: its context is loaded, and
unless that context was saved by `task_fork_context` the pending signal is taken. -/
def taskEnter (p : Proc) (task : TaskPtr) : Proc :=
  let p := { p with currentTask := task, cr3 := (p.task task).pgd }
  if p.ctx task = .forked then p.setCtx task .user
  else (taskSignalExec p task).1

def taskNextPid (p : Proc) : Word × Proc :=
  (p.nextPid, { p with nextPid := p.nextPid + 1#32 })

def taskInsert (p : Proc) (task : TaskPtr) : Except Fault Proc := do
  let list ← listInsertAfter p.list p.currentTask task
  .ok { p with list := list }

/-- The loop of `task_get`; `nextTask` is the loop variable. -/
def taskGetLoop (p : Proc) (pid : Word) : Nat → TaskPtr → Except Fault (Option TaskPtr)
  | 0, _ => .error .diverges
  | fuel + 1, nextTask => do
    let nextTask ← deref (p.list nextTask).next
    if (p.task nextTask).pid = pid then .ok (some nextTask)
    else if (p.task nextTask).pid ≠ p.cur.pid then taskGetLoop p pid fuel nextTask
    else .ok none

def taskGet (fuel : Nat) (p : Proc) (pid : Word) : Except Fault (Option TaskPtr) :=
  taskGetLoop p pid fuel p.currentTask

/-- The first half of `task_exit`, on the exiting task itself. -/
def quitTask (p : Proc) (task : TaskPtr) (status : Word) : Proc :=
  let p := p.setTask task { p.task task with state := .taskQuit, exitcode := status }
  taskSignalRaise p task sigTerm

/-- The second half of `task_exit`, on the parent that was found. -/
def reportExit (p : Proc) (task parent : TaskPtr) : Proc :=
  let p := p.setTask parent { p.task parent with
    sigchldpid := (p.task task).pid, sigchldexit := (p.task task).exitcode }
  let p := taskSignalRaise p parent sigChld
  p.setTask parent { p.task parent with childcount := (p.task parent).childcount - 1 }

def taskExit (fuel : Nat) (p : Proc) (task : TaskPtr) (status : Word) : Except Fault Proc := do
  let p := quitTask p task status
  let parent ← taskGet fuel p (p.task task).ppid
  match parent with
  | none => .ok p
  | some parent => .ok (reportExit p task parent)

/-- `clone->fdtbl[i]->refs++` for each non-null slot of the list. -/
def addRefs (descr : DescrPtr → Option Fdescr) :
    List (Option DescrPtr) → Except Fault (DescrPtr → Option Fdescr)
  | [] => .ok descr
  | none :: slots => addRefs descr slots
  | some d :: slots => do
    let v ← deref (descr d)
    addRefs (Function.update descr d (some { v with refs := v.refs + 1 })) slots

/-- The fields `task_clone` gives the new task, over the zeroes of `calloc`. -/
def cloneOf (t : Task) (pid : Word) : Task :=
  { zeroTask with
    pid := pid
    brk := t.brk
    mmapbrk := t.mmapbrk
    sid := t.sid
    pgid := t.pgid
    sigpend := t.sigpend
    sigwait := t.sigwait
    state := .taskReady
    sigact := t.sigact
    childcount := 0
    ppid := t.pid
    fdcap := t.fdcap
    fdnext := t.fdnext
    fdtbl := t.fdtbl.take t.fdcap.toNat }

/-- The reference counts after the table of `t` was copied to `clone`: the `memcpy`
reads `fdcap` slots, the loop the first `fdnext` of the copy. -/
def cloneFds (descr : DescrPtr → Option Fdescr) (t clone : Task) :
    Except Fault (DescrPtr → Option Fdescr) :=
  if t.fdtbl.length < clone.fdcap.toNat ∨ clone.fdcap.toNat < clone.fdnext.toNat then
    .error .outOfBounds
  else addRefs descr (clone.fdtbl.take clone.fdnext.toNat)

/-- The clone is the next `task_t` of `calloc`. `alloc` is what `calloc` does to `CurrentTask` and
`UserTask`: nothing, where it is assumed to leave the task that calls it, and else `allocated`. The
`malloc` that follows finds them as `calloc` left them (`allocated_allocated`). -/
def taskClone (p : Proc) (alloc : Proc → Proc := id) : Except Fault (TaskPtr × Proc) := do
  let p := alloc p
  let clone := p.ntasks
  let t := p.cur
  let (pid, p) := taskNextPid p
  let c := cloneOf t pid
  let p := p.setTask p.currentTask { t with childcount := t.childcount + 1 }
  let descr ← cloneFds p.descr t c
  let p := { p with ntasks := clone + 1, descr := descr }
  .ok (clone, (p.setTask clone c).setCtx clone .forked)

/-- `task_fork`, with the directory that `task_fork_context` obtains from
`pg_clone_dir` given as `pgd`. -/
def taskFork (pgd : Word) (p : Proc) (alloc : Proc → Proc := id) :
    Except Fault (TaskPtr × Proc) := do
  let (clone, p) ← taskClone p alloc
  let p ← taskInsert p clone
  .ok (clone, p.setTask clone { p.task clone with pgd := pgd })

end AkKernel
