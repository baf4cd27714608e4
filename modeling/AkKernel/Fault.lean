import Mathlib.Algebra.Group.Nat.Defs

/-!
# Machine words and the ways a kernel function can fail to return

`PANIC` prints its message and spins; a dereference of a null or freed pointer and an access outside an
array have no defined outcome; a loop of the source that never ends is a run of
the model that uses up every fuel. None of them returns to the caller.
-/

set_option autoImplicit false

namespace AkKernel

/-- `uint32_t`, `uintptr_t` and, read as two's complement, `int` and `pid_t`. -/
abbrev Word := BitVec 32

inductive Fault where
  | panic (fmt : String) (args : List Word)
  | badPointer
  | outOfBounds
  | diverges
deriving DecidableEq, Repr

/-- Reading through a pointer that may be `NULL`. -/
def deref {α : Type} : Option α → Except Fault α
  | none => .error .badPointer
  | some a => .ok a

@[simp] theorem deref_eq_ok {α : Type} {o : Option α} {a : α} :
    deref o = .ok a ↔ o = some a := by
  cases o <;> simp [deref]

end AkKernel
