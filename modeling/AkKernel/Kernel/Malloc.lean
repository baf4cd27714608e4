import AkKernel.Kernel.State
import AkKernel.Proc.Effects

/-!
# The allocation wrappers

`arch/x86/mem/early_malloc.c`. The allocator behind `__real_malloc` and
`__real_free` is the one of the C library, which knows nothing of tasks.
-/

set_option autoImplicit false

namespace AkKernel

open Programs Runs

/-- The variables of the kernel that the C library does not know. -/
structure SameRunner (s s' : Kern) : Prop where
  currentTask : s'.proc.currentTask = s.proc.currentTask
  userTask : s'.proc.userTask = s.proc.userTask
  early : s'.earlyMallocEnabled = s.earlyMallocEnabled

/-- The allocator of the C library. It may grow the heap of `CurrentTask` and touch
its pages, but it does not assign to the variables that say who is running. -/
structure Libc where
  malloc : Word → KernM Word
  free : Word → KernM Unit
  malloc_keeps : ∀ size s a s', malloc size s = .ok (a, s') → SameRunner s s'
  free_keeps : ∀ addr s s', free addr s = .ok ((), s') → SameRunner s s'

/-- `AllocStack` has 4096 slots; slot 0 is never filled. -/
def earlyMalloc (fuel : Nat) (size : Word) : KernM Word := do
  let brk ← sysBrk fuel 0#32
  let brk ← sysBrk fuel (brk + size)
  let s ← get
  if s.allocSP + 1 < 4096 then
    set { s with allocSP := s.allocSP + 1, allocStack := s.allocStack.set (s.allocSP + 1) brk }
    pure (brk - size)
  else throw .outOfBounds

def earlyFree (fuel : Nat) (addr : Word) : KernM Unit := do
  let s ← get
  if (s.allocStack[s.allocSP]?).getD 0#32 = addr then
    set { s with allocSP := s.allocSP - 1 }
    let _ ← sysBrk fuel addr

variable (libc : Libc)

def wrapMalloc (fuel : Nat) (size : Word) : KernM Word := do
  let s ← get
  if s.earlyMallocEnabled then earlyMalloc fuel size
  else
    onProc enterKernel
    let mem ← libc.malloc size
    onProc leaveKernel
    pure mem

/-- While early allocation is enabled the call goes on to the real one. -/
def wrapFree (fuel : Nat) (addr : Word) : KernM Unit := do
  let s ← get
  if s.earlyMallocEnabled then earlyFree fuel addr
  onProc enterKernel
  libc.free addr
  onProc leaveKernel

inductive AllocOp where
  | enter (task : TaskPtr)
  | malloc (size : Word)
  | free (addr : Word)
deriving DecidableEq, Repr

def AllocOp.IsCall : AllocOp → Prop
  | .enter _ => False
  | _ => True

/-- Also gives the pointer that `__wrap_malloc` returns. -/
def AllocOp.exec (fuel : Nat) (op : AllocOp) (s : Kern) : Except Fault (Word × Kern) :=
  match op with
  | .enter task =>
    if task < s.proc.ntasks then .ok (0#32, { s with proc := taskEnter s.proc task })
    else .error .badPointer
  | .malloc size => wrapMalloc libc fuel size s
  | .free addr => (do wrapFree libc fuel addr; pure 0#32 : KernM Word) s

def AllocStep (s : Kern) (lbl : AllocOp × Word) (s' : Kern) : Prop :=
  ∃ fuel, lbl.1.exec libc fuel s = .ok (lbl.2, s')

/-- Early allocation is over, and `UserTask` was only ever set by `enter_kernel`. -/
structure AllocInv (s : Kern) : Prop where
  early : s.earlyMallocEnabled = false
  userTask : s.proc.userTask ≠ some kernelTask

section Calls
variable {libc} {s s' : Kern}

/-- A call of the C library between `enter_kernel` and `leave_kernel`. -/
theorem bracket_current {s₁ : Kern} (hi : AllocInv s)
    (hk : SameRunner { s with proc := enterKernel s.proc } s₁)
    (hs' : s' = { s₁ with proc := leaveKernel s₁.proc }) :
    AllocInv s' ∧ (s'.proc.currentTask = s.proc.currentTask ↔
      s.proc.currentTask ≠ kernelTask ∨ s.proc.userTask = none) := by
  obtain ⟨hc, hu, he⟩ := hk
  by_cases hcur : s.proc.currentTask = kernelTask
  · have hen : enterKernel s.proc = s.proc := by
      rw [enterKernel, if_neg (not_not.mpr hcur)]
    rw [hen] at hc hu
    cases hut : s.proc.userTask with
    | none =>
      have hl : leaveKernel s₁.proc = s₁.proc := leaveKernel_none (hu.trans hut)
      subst hs'
      refine ⟨⟨he.trans hi.early, by rw [hl, hu]; exact hi.userTask⟩, ?_⟩
      rw [hl]
      exact ⟨fun _ => Or.inr rfl, fun _ => hc⟩
    | some u =>
      have hl : leaveKernel s₁.proc = { s₁.proc with currentTask := u } :=
        leaveKernel_some (hu.trans hut)
      have hne : u ≠ kernelTask := fun h => hi.userTask (by rw [hut, h])
      subst hs'
      refine ⟨⟨he.trans hi.early, by rw [hl]; exact hu ▸ hi.userTask⟩, ?_⟩
      rw [hl, hcur]
      constructor
      · intro h
        exact absurd h hne
      · intro h
        rcases h with h | h
        · exact absurd rfl h
        · cases h
  · have hen : enterKernel s.proc =
        { s.proc with userTask := some s.proc.currentTask, currentTask := kernelTask } := by
      rw [enterKernel, if_pos hcur]
    rw [hen] at hu
    have hl : leaveKernel s₁.proc = { s₁.proc with currentTask := s.proc.currentTask } :=
      leaveKernel_some hu
    subst hs'
    refine ⟨⟨he.trans hi.early, ?_⟩, ?_⟩
    · rw [hl]
      change s₁.proc.userTask ≠ _
      rw [hu]
      exact fun h => hcur (Option.some.inj h)
    · rw [hl]
      exact ⟨fun _ => Or.inl hcur, fun _ => rfl⟩

theorem wrapMalloc_current (hi : AllocInv s) {fuel : Nat} {size a : Word}
    (h : wrapMalloc libc fuel size s = .ok (a, s')) :
    AllocInv s' ∧ (s'.proc.currentTask = s.proc.currentTask ↔
      s.proc.currentTask ≠ kernelTask ∨ s.proc.userTask = none) := by
  have hrun : (do
      onProc enterKernel
      let mem ← libc.malloc size
      onProc leaveKernel
      pure mem : KernM Word) s = .ok (a, s') := by
    unfold wrapMalloc at h
    obtain ⟨s₀, t, h0, h1⟩ := bind_ok.mp h
    cases h0
    rw [hi.early] at h1
    exact h1
  obtain ⟨⟨⟩, s₁, h1, h2⟩ := bind_ok.mp hrun
  obtain ⟨m, s₂, h3, h4⟩ := bind_ok.mp h2
  obtain ⟨⟨⟩, s₃, h5, h6⟩ := bind_ok.mp h4
  obtain ⟨-, hs'⟩ := pure_ok.mp h6
  cases h1
  cases h5
  exact bracket_current hi (libc.malloc_keeps _ _ _ _ h3) hs'

theorem wrapFree_current (hi : AllocInv s) {fuel : Nat} {addr : Word}
    (h : wrapFree libc fuel addr s = .ok ((), s')) :
    AllocInv s' ∧ (s'.proc.currentTask = s.proc.currentTask ↔
      s.proc.currentTask ≠ kernelTask ∨ s.proc.userTask = none) := by
  have hrun : (do
      onProc enterKernel
      libc.free addr
      onProc leaveKernel : KernM Unit) s = .ok ((), s') := by
    unfold wrapFree at h
    obtain ⟨s₀, t, h0, h1⟩ := bind_ok.mp h
    cases h0
    rw [hi.early] at h1
    exact h1
  obtain ⟨⟨⟩, s₁, h1, h2⟩ := bind_ok.mp hrun
  obtain ⟨⟨⟩, s₂, h3, h4⟩ := bind_ok.mp h2
  cases h1
  cases h4
  exact bracket_current hi (libc.free_keeps _ _ _ h3) rfl

theorem AllocInv.step (hi : AllocInv s) {lbl : AllocOp × Word} (h : AllocStep libc s lbl s') :
    AllocInv s' ∧ (lbl.1.IsCall → (s'.proc.currentTask = s.proc.currentTask ↔
      s.proc.currentTask ≠ kernelTask ∨ s.proc.userTask = none)) := by
  obtain ⟨op, a⟩ := lbl
  obtain ⟨fuel, hex⟩ := h
  cases op with
  | enter task =>
    unfold AllocOp.exec at hex
    dsimp only at hex
    split at hex
    · cases Except.ok.inj hex
      refine ⟨⟨hi.early, ?_⟩, fun hc => absurd hc (by simp [AllocOp.IsCall])⟩
      rw [taskEnter_eq]
      exact hi.userTask
    · cases hex
  | malloc size =>
    have h := wrapMalloc_current hi hex
    exact ⟨h.1, fun _ => h.2⟩
  | free addr =>
    obtain ⟨⟨⟩, t, h1, h2⟩ := bind_ok.mp hex
    obtain ⟨-, hs'⟩ := pure_ok.mp h2
    subst hs'
    have h := wrapFree_current hi h1
    exact ⟨h.1, fun _ => h.2⟩

end Calls

/-- In every run, a call of a wrapper gives `CurrentTask` back exactly when it was made
by a task other than `KernelTask`, or before any such task called one. -/
theorem wrap_keeps_current (s₀ : Kern) (h₀ : AllocInv s₀) (tr : List (AllocOp × Word)) (s : Kern)
    (hrun : Run (AllocStep libc) s₀ tr s) (lbl : AllocOp × Word) (s' : Kern)
    (hstep : AllocStep libc s lbl s') (hcall : lbl.1.IsCall) :
    s'.proc.currentTask = s.proc.currentTask ↔
      s.proc.currentTask ≠ kernelTask ∨ s.proc.userTask = none := by
  have hinv : AllocInv s := Run.invariant (I := fun _ s => AllocInv s) h₀
    (fun _ _ _ _ hi hs => (hi.step hs).1) hrun
  exact (hinv.step hstep).2 hcall

/-- An allocator whose heap needs no more pages. -/
def quietLibc : Libc where
  malloc := fun _ => pure 0xC1000000#32
  free := fun _ => pure ()
  malloc_keeps := by
    intro size s a s' h
    obtain ⟨-, hs⟩ := pure_ok.mp h
    rw [hs]
    exact ⟨rfl, rfl, rfl⟩
  free_keeps := by
    intro addr s s' h
    obtain ⟨-, hs⟩ := pure_ok.mp h
    rw [hs]
    exact ⟨rfl, rfl, rfl⟩

/-- `KernelTask` and its first child, when early allocation has ended. -/
def afterFork : Kern where
  proc := match taskFork 0x2000#32 (bootProc 0#32 0x1000#32) with
    | .ok (_, p) => p
    | .error _ => bootProc 0#32 0x1000#32
  mem := (⟨fun _ _ => 0#32, ⟨[], 0, rfl, by decide⟩, true, 0#32, 0, true⟩, fun _ => 0#32)
  earlyMallocEnabled := false
  allocStack := []
  allocSP := 0

/-- The child allocates and is still running. -/
theorem wrap_keeps_current_of_child : ∃ tr s s', Run (AllocStep quietLibc) afterFork tr s ∧
    s.proc.currentTask = 1 ∧ AllocStep quietLibc s (.malloc 8, 0xC1000000#32) s' ∧
    s'.proc.currentTask = 1 := by
  have hf : ∀ op s r t, (AllocOp.exec quietLibc 1 op s) = .ok (r, t) →
      AllocStep quietLibc s (op, r) t := fun op s r t h => ⟨1, h⟩
  have hinv : AllocInv afterFork := ⟨rfl, by decide +kernel⟩
  obtain ⟨tr, s, hrun, htest⟩ := exists_run (AllocOp.exec quietLibc 1) hf [.enter 1] afterFork
    (fun _ s => s.proc.currentTask == 1 &&
      passes (AllocOp.exec quietLibc 1 (.malloc 8) s) fun a _ => a == 0xC1000000#32)
    (by decide +kernel)
  rw [Bool.and_eq_true, beq_iff_eq, passes_iff] at htest
  obtain ⟨hcur, a, s', hex, ha⟩ := htest
  rw [beq_iff_eq] at ha
  subst ha
  refine ⟨tr, s, s', hrun, hcur, ⟨1, hex⟩, ?_⟩
  have h := wrap_keeps_current quietLibc afterFork hinv tr s hrun (.malloc 8, 0xC1000000#32) s'
    ⟨1, hex⟩ trivial
  rw [h.mpr (Or.inl (by rw [hcur]; decide)), hcur]

/-- The child allocates; later `KernelTask` does, and comes back as the child. -/
theorem wrapMalloc_changes_current : ∃ tr s s', Run (AllocStep quietLibc) afterFork tr s ∧
    AllocStep quietLibc s (.malloc 8, 0xC1000000#32) s' ∧ s.proc.currentTask = kernelTask ∧
    s'.proc.currentTask = 1 := by
  have hf : ∀ op s r t, (AllocOp.exec quietLibc 1 op s) = .ok (r, t) →
      AllocStep quietLibc s (op, r) t := fun op s r t h => ⟨1, h⟩
  obtain ⟨tr, s, hrun, htest⟩ := exists_run (AllocOp.exec quietLibc 1) hf
    [.enter 1, .malloc 8, .enter 0] afterFork
    (fun _ s => s.proc.currentTask == kernelTask &&
      passes (AllocOp.exec quietLibc 1 (.malloc 8) s)
        fun a s' => a == 0xC1000000#32 && s'.proc.currentTask == 1) (by decide +kernel)
  rw [Bool.and_eq_true, beq_iff_eq, passes_iff] at htest
  obtain ⟨hcur, a, s', hex, hcall⟩ := htest
  rw [Bool.and_eq_true, beq_iff_eq, beq_iff_eq] at hcall
  obtain ⟨ha, hc⟩ := hcall
  subst ha
  exact ⟨tr, s, s', hrun, ⟨1, hex⟩, hcur, hc⟩

end AkKernel
