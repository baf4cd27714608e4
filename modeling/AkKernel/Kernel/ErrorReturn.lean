import AkKernel.Kernel.Replies

/-!
# Errors and the caller

The C library takes the last 4095 numbers in `eax` for negated values of `errno`. The kernel sets
an `errno` of its own and returns -1, and what it returns otherwise is not looked at.
-/

set_option autoImplicit false

namespace AkKernel

open Bytes Logs Programs Runs

/-- `INTERNAL_SYSCALL_ERROR_P` of the C library: the value is one of -4095 to -1. -/
def InternalSyscallErrorP (val : Word) : Prop := -4095#32 ≤ val

instance (val : Word) : Decidable (InternalSyscallErrorP val) := inferInstanceAs (Decidable (_ ≤ _))

/-- What is in `eax` when the program goes on. -/
def eaxAfter (regs : IsrArgs) : Option Reply → Option Word
  | none => some regs.eax
  | some (.done ret) => some ret
  | some (.failed ret _) => some ret
  | some .left => none

/-- The convention of the i386: an error is the negated `errno`, and nothing else looks like one. -/
def Convention : Option Reply → Word → Prop
  | none, eax => InternalSyscallErrorP eax
  | some (.done _), eax => ¬ InternalSyscallErrorP eax
  | some (.failed _ (some e)), eax => eax = -e.code
  | some (.failed _ none), _ => True
  | some .left, _ => True

def Delivered (regs : IsrArgs) (out : Option Reply) : Prop :=
  ∀ eax, eaxAfter regs out = some eax → Convention out eax

/-- The slot of the descriptor is in use, and `P` holds of its device. -/
def OnOpen (s : Files) (fd : Fd) (P : Device → Prop) : Prop :=
  ∃ r d, fdDevice s fd = .ok (some (r, d)) ∧ P (s.fs.dev d)

section Eax
variable {regs : IsrArgs} {ret : Word} {e : Errno}

theorem delivered_some {r : Reply} {eax : Word} (h : eaxAfter regs (some r) = some eax) :
    Delivered regs (some r) ↔ Convention (some r) eax := by
  constructor
  · intro hd
    exact hd eax h
  · intro hc eax' h'
    rw [h] at h'
    cases h'
    exact hc

/-- -1 is the negation of no `errno` that is set. -/
theorem not_delivered_errno : ¬ Delivered regs (some (.failed (-1#32) (some e))) := by
  rw [delivered_some rfl]
  change ¬ -1#32 = -e.code
  cases e <;> decide

end Eax

section Descriptors
variable {regs : IsrArgs} {fd : Fd} {s s' : Files} {r : Reply}

/-- A call on a descriptor reports `EBADF` for an empty slot, which does not reach the caller. -/
theorem BadFd.delivered {P : Device → Prop} (h : BadFd s fd r s') :
    Delivered regs (some r) ↔ OnOpen s fd P := by
  obtain ⟨hdev, rfl, rfl⟩ := h
  apply iff_of_false not_delivered_errno
  rintro ⟨x, d, hopen, -⟩
  rw [hdev] at hopen
  cases hopen

end Descriptors

section Paths
variable {env : CallEnv} {fuel : Nat} {mem : Word → UInt8} {addr : Word} {regs : IsrArgs}
  {s s' : Files} {r : Reply} {path : CString}

end Paths

section Tasks
variable {fuel : Nat} {regs : IsrArgs} {p : Proc} {s s' : Files} {r : Reply} {pid : Word}

end Tasks

section Calls
variable {env : CallEnv} {regs : IsrArgs} {s s' : Machine} {out : Option Reply}

end Calls

section Refused

end Refused

end AkKernel
