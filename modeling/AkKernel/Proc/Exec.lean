import AkKernel.Fault
import AkKernel.Foundation.Logged
import Mathlib.Logic.Function.Basic

/-!
# The stack of a new process

The vector that `arch_exec` of `arch/x86/proc/exec.c` makes of the arguments and the
environment, and the loop that pushes it. The log has the indices of the vector that are
stored to. The page at address 0 and the jump to the program are left out.
-/

set_option autoImplicit false

namespace AkKernel

open Logs

/-- An array of pointers with a `NULL` behind them, no longer than memory. -/
structure PtrArray where
  ptrs : List Word
  nonnull : ∀ p ∈ ptrs, p ≠ 0#32
  fits : ptrs.length < 2 ^ 30

/-- The vector: how many bytes were allocated for it, its words, and `sp`. -/
structure ArgVector where
  size : Word
  words : Nat → Word
  sp : Nat

abbrev StoreM (α : Type) := Logged Nat Fault α

namespace PtrArray

def count (a : PtrArray) : Nat := a.ptrs.length

def get (a : PtrArray) (n : Nat) : Except Fault Word :=
  match (a.ptrs ++ [0#32])[n]? with
  | some p => .ok p
  | none => .error .outOfBounds

end PtrArray

def argCountLoop (arr : PtrArray) : Nat → Nat → Except Fault Nat
  | 0, _ => .error .diverges
  | fuel + 1, n => do
    let p ← arr.get n
    if p = 0#32 then pure n else argCountLoop arr fuel (n + 1)

def argCount (arr : PtrArray) : Except Fault Nat := argCountLoop arr (2 ^ 30) 0

def putArg (p : Word) (v : ArgVector) : StoreM ArgVector :=
  .touch v.sp (.ok { v with words := Function.update v.words v.sp p, sp := v.sp + 1 })

/-- `for (int i = n - 1; i >= 0; i--) stack[sp++] = arr[i]` -/
def putArgs (arr : PtrArray) : Nat → ArgVector → StoreM ArgVector
  | 0, v => pure v
  | n + 1, v => do
    let p ← Logged.lift (arr.get n)
    let v ← putArg p v
    putArgs arr n v

/-- `arch_exec` up to the assembly, where `malloc` returned a block with these words. -/
def archExecVector (argv envp : PtrArray) (words : Nat → Word) : StoreM ArgVector := do
  let envc ← Logged.lift (argCount envp)
  let argc ← Logged.lift (argCount argv)
  let v ← putArg 0#32 ⟨BitVec.ofNat 32 (envc + argc + 4), words, 0⟩
  let v ← putArgs envp envc v
  let v ← putArg 0#32 v
  let v ← putArgs argv argc v
  putArg (BitVec.ofNat 32 argc) v

/-- The assembly loop, with `%ecx`, the index of the word that `%edx` points to, and the words
from the stack pointer upwards. -/
def pushLoop (words : Nat → Word) : Nat → Word → Nat → List Word → Except Fault (List Word)
  | 0, _, _, _ => .error .diverges
  | fuel + 1, ecx, i, stack =>
    if ecx - 1#32 = 0#32 then .ok (words i :: stack)
    else pushLoop words fuel (ecx - 1#32) (i + 1) (words i :: stack)

/-- The process starts with `stack` below what is pushed. -/
def archExecStack (argv envp : PtrArray) (words : Nat → Word) (stack : List Word) :
    Except Fault (List Word) := do
  let v ← (archExecVector argv envp words).res
  pushLoop v.words (2 ^ 32) (BitVec.ofNat 32 v.sp) 0 stack

/-- Every store is inside the block, and the stack has the arguments in their order. -/
structure BuildsStack (argv envp : PtrArray) : Prop where
  inside : ∀ words v, (archExecVector argv envp words).res = .ok v →
    ∀ i ∈ (archExecVector argv envp words).log, 4 * i + 4 ≤ v.size.toNat
  ordered : ∀ words stack, archExecStack argv envp words stack =
    .ok (BitVec.ofNat 32 argv.count :: argv.ptrs ++ [0#32] ++ envp.ptrs ++ [0#32] ++ stack)

section Count
variable {a : PtrArray} {n : Nat}

theorem PtrArray.get_lt (hn : n < a.count) : ∃ p, a.ptrs[n]? = some p ∧ p ≠ 0#32 ∧
    a.get n = .ok p := by
  have hx : a.ptrs[n]? = some a.ptrs[n] := List.getElem?_eq_getElem hn
  refine ⟨a.ptrs[n], hx, a.nonnull _ (List.getElem_mem hn), ?_⟩
  rw [PtrArray.get, List.getElem?_append_left hn, hx]

theorem PtrArray.get_count (a : PtrArray) : a.get a.count = .ok 0#32 := by
  rw [PtrArray.count, PtrArray.get, List.getElem?_append_right (Nat.le_refl _), Nat.sub_self]
  rfl

theorem argCountLoop_run {fuel : Nat} (hn : n ≤ a.count) (hfuel : a.count < n + fuel) :
    argCountLoop a fuel n = .ok a.count := by
  induction fuel generalizing n with
  | zero => omega
  | succ fuel ih =>
    rw [argCountLoop]
    rcases Nat.lt_or_ge n a.count with hlt | hge
    · obtain ⟨p, -, hp, hget⟩ := PtrArray.get_lt hlt
      rw [hget]
      change (if p = 0#32 then _ else _) = _
      rw [if_neg hp]
      exact ih hlt (by omega)
    · have he : n = a.count := by omega
      rw [he, PtrArray.get_count]
      rfl

theorem argCount_run (a : PtrArray) : argCount a = .ok a.count :=
  argCountLoop_run (Nat.zero_le _) (by
    have := a.fits
    rw [PtrArray.count]
    omega)

end Count

section Vector
variable {f g : ArgVector → StoreM ArgVector} {l ps qs : List Word} {v : ArgVector}

/-- The words below `sp`. -/
structure VectorHolds (l : List Word) (v : ArgVector) : Prop where
  sp : v.sp = l.length
  words : ∀ i < l.length, l[i]? = some (v.words i)

/-- `f` stores these words, one behind the other. -/
def Puts (ps : List Word) (f : ArgVector → StoreM ArgVector) : Prop :=
  ∀ l v, VectorHolds l v → ∃ v', f v = ⟨List.range' v.sp ps.length, .ok v'⟩ ∧
    VectorHolds (l ++ ps) v' ∧ v'.size = v.size

theorem puts_pure : Puts [] (fun v => pure v) := by
  intro l v h
  rw [List.append_nil]
  exact ⟨v, rfl, h, rfl⟩

theorem Puts.bind (hf : Puts ps f) (hg : Puts qs g) : Puts (ps ++ qs) fun v => f v >>= g := by
  intro l v h
  obtain ⟨v₁, hrun, h₁, hsize⟩ := hf l v h
  obtain ⟨v₂, hrun', h₂, hsize'⟩ := hg _ v₁ h₁
  have hsp : v₁.sp = v.sp + ps.length := by
    rw [h₁.sp, h.sp, List.length_append]
  refine ⟨v₂, ?_, ?_, hsize'.trans hsize⟩
  · change (f v >>= g) = _
    rw [hrun, Logged.bind_ok, hrun', hsp, List.length_append, List.range'_append_1]
  · rw [← List.append_assoc]
    exact h₂

theorem puts_putArg (p : Word) : Puts [p] (putArg p) := by
  intro l v h
  refine ⟨_, rfl, ⟨?_, ?_⟩, rfl⟩
  · rw [List.length_append, ← h.sp]
    rfl
  · intro i hi
    dsimp only
    rw [List.length_append, List.length_singleton] at hi
    rcases Nat.lt_or_ge i l.length with hlt | hge
    · rw [List.getElem?_append_left hlt, h.words i hlt, Function.update_of_ne (by rw [h.sp]; omega)]
    · have he : i = l.length := by omega
      rw [he, List.getElem?_append_right (Nat.le_refl _), Nat.sub_self, h.sp, Function.update_self]
      rfl

theorem puts_putArgs {arr : PtrArray} {n : Nat} (hn : n ≤ arr.count) :
    Puts (arr.ptrs.take n).reverse (putArgs arr n) := by
  induction n with
  | zero => exact puts_pure
  | succ n ih =>
    obtain ⟨p, hp, -, hget⟩ := PtrArray.get_lt hn
    have htake : (arr.ptrs.take (n + 1)).reverse = [p] ++ (arr.ptrs.take n).reverse := by
      rw [List.take_add_one, hp, List.reverse_append]
      rfl
    rw [htake]
    have hstep : putArgs arr (n + 1) = fun v => putArg p v >>= putArgs arr n := by
      funext v
      rw [putArgs, hget]
      rfl
    rw [hstep]
    exact (puts_putArg p).bind (ih (Nat.le_of_succ_le hn))

/-- What is stored, from the first word of the vector on. -/
def vectorWords (argv envp : PtrArray) : List Word :=
  [0#32] ++ (envp.ptrs.reverse ++ ([0#32] ++ (argv.ptrs.reverse ++ [BitVec.ofNat 32 argv.count])))

theorem puts_vector (argv envp : PtrArray) : Puts (vectorWords argv envp) (fun v => do
    let v ← putArg 0#32 v
    let v ← putArgs envp envp.count v
    let v ← putArg 0#32 v
    let v ← putArgs argv argv.count v
    putArg (BitVec.ofNat 32 argv.count) v) := by
  have hargs : ∀ arr : PtrArray, Puts arr.ptrs.reverse (putArgs arr arr.count) := by
    intro arr
    have h := puts_putArgs (Nat.le_refl arr.count)
    rw [PtrArray.count, List.take_length] at h
    exact h
  exact (puts_putArg _).bind ((hargs envp).bind ((puts_putArg _).bind
    ((hargs argv).bind (puts_putArg _))))

theorem archExecVector_run (argv envp : PtrArray) (words : Nat → Word) :
    ∃ v, archExecVector argv envp words =
        ⟨List.range (argv.count + envp.count + 3), .ok v⟩ ∧
      VectorHolds (vectorWords argv envp) v ∧
      v.size = BitVec.ofNat 32 (envp.count + argv.count + 4) := by
  have hempty : VectorHolds [] ⟨BitVec.ofNat 32 (envp.count + argv.count + 4), words, 0⟩ :=
    ⟨rfl, fun i hi => absurd hi (Nat.not_lt_zero i)⟩
  obtain ⟨v, hrun, hholds, hsize⟩ := puts_vector argv envp _ _ hempty
  have hlen : (vectorWords argv envp).length = argv.count + envp.count + 3 := by
    simp only [vectorWords, List.length_append, List.length_singleton, List.length_reverse,
      PtrArray.count]
    omega
  refine ⟨v, ?_, hholds, hsize⟩
  rw [List.range_eq_range', ← hlen, ← hrun, archExecVector, argCount_run, argCount_run]
  rfl

end Vector

section Push
variable {l stack : List Word} {v : ArgVector} {fuel i : Nat}

theorem pushLoop_run (fuel : Nat) (stack : List Word) (h : VectorHolds l v)
    (hlen : l.length < 2 ^ 32) (hi : i < l.length) (hfuel : l.length ≤ i + fuel) :
    pushLoop v.words fuel (BitVec.ofNat 32 (l.length - i)) i stack =
      .ok ((l.drop i).reverse ++ stack) := by
  induction fuel generalizing i stack with
  | zero => omega
  | succ fuel ih =>
    have hword : l[i] = v.words i :=
      Option.some_inj.mp ((List.getElem?_eq_getElem hi).symm.trans (h.words i hi))
    have hstep : BitVec.ofNat 32 (l.length - i) - 1#32 = BitVec.ofNat 32 (l.length - (i + 1)) := by
      apply BitVec.eq_of_toNat_eq
      rw [BitVec.toNat_sub, BitVec.toNat_ofNat, BitVec.toNat_ofNat, BitVec.toNat_ofNat]
      omega
    have hdrop : (l.drop i).reverse ++ stack =
        (l.drop (i + 1)).reverse ++ (v.words i :: stack) := by
      rw [List.drop_eq_getElem_cons hi, hword, List.reverse_cons, List.append_assoc]
      rfl
    rw [pushLoop, hstep, hdrop]
    rcases Nat.lt_or_ge (i + 1) l.length with hlt | hge
    · have hne : BitVec.ofNat 32 (l.length - (i + 1)) ≠ 0#32 := by
        intro he
        have := congrArg BitVec.toNat he
        rw [BitVec.toNat_ofNat, BitVec.toNat_ofNat] at this
        omega
      rw [if_neg hne]
      exact ih (v.words i :: stack) hlt (by omega)
    · have he : l.length - (i + 1) = 0 := by omega
      rw [he, if_pos rfl, List.drop_eq_nil_of_le hge]
      rfl

/-- The vector is pushed from its first word on, so that the process finds it reversed. -/
theorem archExecStack_run (argv envp : PtrArray) (words : Nat → Word) (stack : List Word) :
    archExecStack argv envp words stack =
      .ok (BitVec.ofNat 32 argv.count :: argv.ptrs ++ [0#32] ++ envp.ptrs ++ [0#32] ++ stack) := by
  obtain ⟨v, hrun, hholds, -⟩ := archExecVector_run argv envp words
  have hlen : (vectorWords argv envp).length < 2 ^ 32 := by
    have := argv.fits
    have := envp.fits
    simp only [vectorWords, List.length_append, List.length_singleton, List.length_reverse,
      PtrArray.count]
    omega
  have hpos : 0 < (vectorWords argv envp).length := Nat.zero_lt_succ _
  have hpush := pushLoop_run (2 ^ 32) stack hholds hlen hpos (by omega)
  rw [Nat.sub_zero, ← hholds.sp, List.drop_zero] at hpush
  have hwords : (vectorWords argv envp).reverse ++ stack =
      BitVec.ofNat 32 argv.count :: argv.ptrs ++ [0#32] ++ envp.ptrs ++ [0#32] ++ stack := by
    simp [vectorWords]
  rw [archExecStack, hrun, ← hwords, ← hpush]
  rfl

/-- `malloc` is asked for about as many bytes as the vector has words. -/
theorem not_buildsStack (argv envp : PtrArray) : ¬ BuildsStack argv envp := by
  intro h
  obtain ⟨v, hrun, -, hsize⟩ := archExecVector_run argv envp fun _ => 0#32
  have hin := h.inside (fun _ => 0#32) v (by rw [hrun]) (argv.count + envp.count + 2) (by
    rw [hrun]
    exact List.mem_range.mpr (by omega))
  rw [hsize, BitVec.toNat_ofNat] at hin
  have := Nat.mod_le (envp.count + argv.count + 4) (2 ^ 32)
  omega

def noArgs : PtrArray where
  ptrs := []
  nonnull := nofun
  fits := by decide

/-- Four bytes for three words. -/
theorem not_buildsStack_noArgs : ¬ BuildsStack noArgs noArgs := by
  intro h
  obtain ⟨v, hrun, -, hsize⟩ := archExecVector_run noArgs noArgs fun _ => 0#32
  have hin := h.inside _ v (by rw [hrun]) 1 (by
    rw [hrun]
    exact List.mem_range.mpr (by decide))
  rw [hsize] at hin
  exact absurd hin (by decide)

end Push

end AkKernel
