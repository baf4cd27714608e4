import AkKernel.Mem.Clone
import AkKernel.Proc.System

/-!
# The kernel's state, and the calls that need tasks and memory together

`fuel` bounds the rounds of loops over pages, whose addresses may wrap around.
-/

set_option autoImplicit false

namespace AkKernel

open Programs

structure Kern where
  proc : Proc
  mem : Mem
  earlyMallocEnabled : Bool
  allocStack : List Word
  allocSP : Nat

/-- 1056 frames, of which those of the first 4 MB are in use. -/
def firstFourMb : FrameBitmap := ⟨List.replicate 32 0xFFFFFFFF#32 ++ [0#32], 1056, rfl, by decide⟩

abbrev KernM (α : Type) := Prog Fault Kern α

/-- A function of the memory subsystem, called by `CurrentTask`. -/
def onMem {α : Type} (m : Task → MemM α) : KernM α := fun s =>
  match m s.proc.cur s.mem with
  | .error e => .error e
  | .ok (a, mem) => .ok (a, { s with mem := mem })

def onProc (f : Proc → Proc) : KernM Unit := fun s => .ok ((), { s with proc := f s.proc })

def setCur (f : Task → Task) : KernM Unit := fun s =>
  .ok ((), { s with proc := s.proc.setTask s.proc.currentTask (f s.proc.cur) })

/-- `task_brk(CurrentTask, brk)`; it is also `sys_brk`. -/
def sysBrk (fuel : Nat) (brk : Word) : KernM Word := do
  let b ← onMem fun cur => taskBrk cur fuel cur.brk brk
  setCur fun t => { t with brk := b }
  pure b

def mapAnonymous : Word := 0x20#32

def sysMmapPgoff (fuel : Nat) (length flags : Word) : KernM Word := do
  if flags &&& mapAnonymous ≠ 0#32 then
    let s ← get
    let mem := s.proc.cur.mmapbrk
    onMem fun cur => pgAllocRange cur fuel mem (mem + length + pageSize)
    setCur fun t => { t with mmapbrk := mem + length + pageSize }
    pure mem
  else throw (.panic "sys_mmap: not implemented\n" [])

/-- `task_fork`; `task_fork_context` clones the directory that is loaded. -/
def sysFork : KernM TaskPtr := do
  let s ← get
  let pgd ← onMem fun _ => pgCloneDir s.proc.cr3
  fun s =>
    match taskFork pgd s.proc with
    | .error e => .error e
    | .ok (clone, proc) => .ok (clone, { s with proc := proc })

def pgFault (addr : Word) : KernM Unit := fun s =>
  onMem (fun cur => pgFaultHandler cur (s.proc.task kernelTask).pgd
    (s.proc.userTask.map fun u => (s.proc.task u).pgd) addr) s

end AkKernel
