import Mathlib.Data.List.Basic

/-!
# Runs of a fallible transition function

A transition function takes an operation and a state and either fails or gives an
output and the next state. `Run` collects the operations of a finite run with
their outputs; its invariant rule may mention that history.
-/

set_option autoImplicit false

namespace Runs

universe u

theorem bind_eq_ok {ε α β : Type u} {x : Except ε α} {f : α → Except ε β} {b : β} :
    (x >>= f) = .ok b ↔ ∃ a, x = .ok a ∧ f a = .ok b := by
  cases x with
  | error e =>
    constructor
    · intro h
      cases h
    · rintro ⟨a, h, -⟩
      cases h
  | ok a =>
    constructor
    · intro h
      exact ⟨a, rfl, h⟩
    · rintro ⟨_, h, hf⟩
      cases h
      exact hf

variable {σ ℓ : Type u}

/-- The labels of the steps taken so far, oldest first, and the state reached. -/
inductive Run (step : σ → ℓ → σ → Prop) (s : σ) : List ℓ → σ → Prop where
  | nil : Run step s [] s
  | snoc {tr : List ℓ} {t u : σ} {l : ℓ} :
      Run step s tr t → step t l u → Run step s (tr ++ [l]) u

namespace Run
variable {step : σ → ℓ → σ → Prop} {s t u : σ} {tr tr' : List ℓ} {l : ℓ}

/-- What holds at the start and is kept by every step holds after every run. -/
theorem invariant {I : List ℓ → σ → Prop} (h0 : I [] s)
    (hs : ∀ tr t l u, I tr t → step t l u → I (tr ++ [l]) u) (h : Run step s tr u) : I tr u := by
  induction h with
  | nil => exact h0
  | snoc _ hstep ih => exact hs _ _ _ _ ih hstep

theorem trans (h : Run step s tr t) (h' : Run step t tr' u) : Run step s (tr ++ tr') u := by
  induction h' with
  | nil => simpa using h
  | snoc _ hstep ih => rw [← List.append_assoc]; exact .snoc ih hstep

theorem single (h : step s l t) : Run step s [l] t := .snoc .nil h

end Run

/-- Runs whose every step meets a condition on the steps before it. -/
inductive RunWhen (step : σ → ℓ → σ → Prop) (ok : List ℓ → σ → ℓ → Prop) (s : σ) :
    List ℓ → σ → Prop where
  | nil : RunWhen step ok s [] s
  | snoc {tr : List ℓ} {t u : σ} {l : ℓ} :
      RunWhen step ok s tr t → ok tr t l → step t l u → RunWhen step ok s (tr ++ [l]) u

theorem RunWhen.invariant {step : σ → ℓ → σ → Prop} {ok : List ℓ → σ → ℓ → Prop} {s u : σ}
    {tr : List ℓ} {I : List ℓ → σ → Prop} (h0 : I [] s)
    (hs : ∀ tr t l u, I tr t → ok tr t l → step t l u → I (tr ++ [l]) u)
    (h : RunWhen step ok s tr u) : I tr u := by
  induction h with
  | nil => exact h0
  | snoc _ hok hstep ih => exact hs _ _ _ _ ih hok hstep

section Execution
variable {ε op out : Type u} (f : op → σ → Except ε (out × σ))

/-- Runs a list of operations, collecting the outputs. -/
def exec : List op → σ → Except ε (List (op × out) × σ)
  | [], s => .ok ([], s)
  | o :: ops, s =>
    match f o s with
    | .error e => .error e
    | .ok (r, t) =>
      match exec ops t with
      | .error e => .error e
      | .ok (rs, u) => .ok ((o, r) :: rs, u)

theorem run_of_exec {step : σ → op × out → σ → Prop}
    (hf : ∀ o s r t, f o s = .ok (r, t) → step s (o, r) t) {ops : List op} {s u : σ}
    {tr : List (op × out)} (h : exec f ops s = .ok (tr, u)) : Run step s tr u := by
  induction ops generalizing s tr with
  | nil => cases h; exact .nil
  | cons o ops ih =>
    rw [exec] at h
    split at h
    · cases h
    · rename_i r t ht
      split at h
      · cases h
      · rename_i rs u' hu
        cases h
        exact (Run.single (hf _ _ _ _ ht)).trans (ih hu)

def passes {α : Type u} (r : Except ε (α × σ)) (test : α → σ → Bool) : Bool :=
  match r with
  | .ok (a, s) => test a s
  | .error _ => false

theorem passes_iff {α : Type u} {r : Except ε (α × σ)} {test : α → σ → Bool} :
    passes r test = true ↔ ∃ a s, r = .ok (a, s) ∧ test a s = true := by
  constructor
  · intro h
    unfold passes at h
    split at h
    · exact ⟨_, _, rfl, h⟩
    · cases h
  · intro h
    obtain ⟨a, s, hr, ht⟩ := h
    rw [hr]
    exact ht

/-- A run on given operations, together with a test of where it ends. -/
theorem exists_run {step : σ → op × out → σ → Prop}
    (hf : ∀ o s r t, f o s = .ok (r, t) → step s (o, r) t) (ops : List op) (s : σ)
    (test : List (op × out) → σ → Bool)
    (h : passes (exec f ops s) test = true) :
    ∃ tr u, Run step s tr u ∧ test tr u = true := by
  obtain ⟨tr, u, hex, ht⟩ := passes_iff.mp h
  exact ⟨tr, u, run_of_exec f hf hex, ht⟩

/-- Runs a list of operations that look at the steps before them. -/
def execWhen (g : List (op × out) → op → σ → Except ε (out × σ)) :
    List op → List (op × out) → σ → Except ε (List (op × out) × σ)
  | [], tr, s => .ok (tr, s)
  | o :: ops, tr, s =>
    match g tr o s with
    | .error e => .error e
    | .ok (r, t) => execWhen g ops (tr ++ [(o, r)]) t

theorem runWhen_of_execWhen {g : List (op × out) → op → σ → Except ε (out × σ)}
    {step : σ → op × out → σ → Prop} {ok : List (op × out) → σ → op × out → Prop} {s : σ}
    (hg : ∀ tr o t r u, g tr o t = .ok (r, u) → ok tr t (o, r) ∧ step t (o, r) u)
    {ops : List op} : ∀ {tr tr' : List (op × out)} {t u : σ}, RunWhen step ok s tr t →
      execWhen g ops tr t = .ok (tr', u) → RunWhen step ok s tr' u := by
  induction ops with
  | nil =>
    intro tr tr' t u hrun h
    cases h
    exact hrun
  | cons o ops ih =>
    intro tr tr' t u hrun h
    rw [execWhen] at h
    split at h
    · cases h
    · rename_i r v hv
      obtain ⟨hok, hstep⟩ := hg _ _ _ _ _ hv
      exact ih (hrun.snoc hok hstep) h

theorem exists_runWhen {g : List (op × out) → op → σ → Except ε (out × σ)}
    {step : σ → op × out → σ → Prop} {ok : List (op × out) → σ → op × out → Prop}
    (hg : ∀ tr o t r u, g tr o t = .ok (r, u) → ok tr t (o, r) ∧ step t (o, r) u)
    (ops : List op) (s : σ) (test : List (op × out) → σ → Bool)
    (h : passes (execWhen g ops [] s) test = true) :
    ∃ tr u, RunWhen step ok s tr u ∧ test tr u = true := by
  obtain ⟨tr, u, hex, ht⟩ := passes_iff.mp h
  exact ⟨tr, u, runWhen_of_execWhen hg .nil hex, ht⟩

end Execution

section Refinement
variable {τ ε op out : Type u} (f : op → σ → Except ε (out × σ)) (g : op → τ → out × τ)

/-- Runs a list of operations that cannot fail. -/
def replay : List op → τ → List (op × out) × τ
  | [], t => ([], t)
  | o :: ops, t =>
    ((o, (g o t).1) :: (replay ops (g o t).2).1, (replay ops (g o t).2).2)

/-- Each operation of the list is one that `ok` allows where it is made. -/
def Allowed (ok : τ → op → Prop) : List op → τ → Prop
  | [], _ => True
  | o :: ops, t => ok t o ∧ Allowed ok ops (g o t).2

instance Allowed.decidable (ok : τ → op → Prop) [∀ t o, Decidable (ok t o)] :
    ∀ ops t, Decidable (Allowed g ok ops t)
  | [], _ => .isTrue trivial
  | o :: ops, t =>
    have := Allowed.decidable ok ops (g o t).2
    inferInstanceAs (Decidable (ok t o ∧ Allowed g ok ops (g o t).2))

/-- Related states stay related, with the same outputs, as long as what the reference
allows is done. -/
theorem exec_refines {R : σ → τ → Prop} {ok : τ → op → Prop}
    (hstep : ∀ o s t, R s t → ok t o → ∃ s', f o s = .ok ((g o t).1, s') ∧ R s' (g o t).2)
    (ops : List op) :
    ∀ s t, R s t → Allowed g ok ops t →
      ∃ s', exec f ops s = .ok ((replay g ops t).1, s') ∧ R s' (replay g ops t).2 := by
  induction ops with
  | nil =>
    intro s t hR _
    exact ⟨s, rfl, hR⟩
  | cons o ops ih =>
    intro s t hR hok
    obtain ⟨s₁, hs₁, hR₁⟩ := hstep o s t hR hok.1
    obtain ⟨s', hs', hR'⟩ := ih s₁ _ hR₁ hok.2
    refine ⟨s', ?_, hR'⟩
    rw [exec, hs₁]
    dsimp only
    rw [hs']
    rfl

end Refinement

end Runs
