import AkKernel.Foundation.Programs
import Mathlib.Data.Set.Basic

/-!
# Translation buffers

A machine that keeps translations may forget one, or walk for one, at any time. A program on such a
machine follows one on a machine that always walks, as long as what is kept is what a walk gives.
-/

set_option autoImplicit false

namespace Tlb

open Programs Runs

abbrev Buffer (V T : Type) := V → Option T

/-- What happens to the translation of an address between two instructions. -/
inductive Choice where
  | keep
  | forget
  | fill
deriving DecidableEq, Repr

/-- `hw n` is what happens before the `n`-th access from now on. -/
structure Buffered (σ V T : Type) where
  mem : σ
  tlb : Buffer V T
  hw : Nat → V → Choice

variable {ε σ V T α β : Type} {walk walk' b : Buffer V T} {X X' Y Y' Z : Set V}

def stir (walk : Buffer V T) (ch : V → Choice) (b : Buffer V T) : Buffer V T := fun p =>
  match ch p with
  | .keep => b p
  | .forget => none
  | .fill => walk p

def invalidate (p : V → Prop) [DecidablePred p] (b : Buffer V T) : Buffer V T := fun v =>
  if p v then none else b v

/-- Outside `X`, what is kept is what the walk gives. -/
def Coherent (X : Set V) (walk b : Buffer V T) : Prop :=
  ∀ v, v ∉ X → ∀ t, b v = some t → walk v = some t

section Coherent

theorem Coherent.mono (h : Coherent X walk b) (hX : X ⊆ Y) : Coherent Y walk b := by
  intro v hv
  exact h v fun hm => hv (hX hm)

theorem Coherent.stir (h : Coherent X walk b) (ch : V → Choice) :
    Coherent X walk (stir walk ch b) := by
  intro v hv t ht
  unfold Tlb.stir at ht
  cases hc : ch v with
  | keep =>
    rw [hc] at ht
    exact h v hv t ht
  | forget =>
    rw [hc] at ht
    cases ht
  | fill =>
    rw [hc] at ht
    exact ht

/-- The walk changes inside `Y` only. -/
theorem Coherent.rewalk (h : Coherent X walk b) (hX : X ⊆ Y) (hw : ∀ v, v ∉ Y → walk' v = walk v) :
    Coherent Y walk' b := by
  intro v hv t ht
  rw [hw v hv]
  exact h v (fun hm => hv (hX hm)) t ht

theorem Coherent.invalidate (p : V → Prop) [DecidablePred p] (h : Coherent X walk b)
    (hX : ∀ v ∈ X, p v ∨ v ∈ Y) : Coherent Y walk (invalidate p b) := by
  intro v hv t ht
  unfold Tlb.invalidate at ht
  split at ht
  · cases ht
  · rename_i hp
    exact h v (fun hm => (hX v hm).elim hp hv) t ht

theorem coherent_empty : Coherent X walk (fun _ => none) := by
  intro v _ t ht
  cases ht

end Coherent

abbrev BufProg (ε σ V T α : Type) := Prog ε (Buffered σ V T) α

/-- The machine acts on its own. -/
def act (walk : σ → Buffer V T) : BufProg ε σ V T Unit := fun s =>
  .ok ((), { s with tlb := stir (walk s.mem) (s.hw 0) s.tlb, hw := fun n => s.hw (n + 1) })

/-- A program that translates no address. -/
def plain (walk : σ → Buffer V T) (a : Prog ε σ α) : BufProg ε σ V T α := do
  act walk
  fun s =>
    match a s.mem with
    | .error e => .error e
    | .ok (x, m) => .ok (x, { s with mem := m })

/-- What the machine takes for the translation of `v`. -/
def lookup (walk : σ → Buffer V T) (v : V) : BufProg ε σ V T (Option T) := do
  act walk
  fun s => .ok ((s.tlb v).or (walk s.mem v), s)

def drop (walk : σ → Buffer V T) (p : V → Prop) [DecidablePred p] : BufProg ε σ V T Unit := do
  act walk
  fun s => .ok ((), { s with tlb := invalidate p s.tlb })

/-- From `s`, with a buffer that is coherent outside `X`, `m` does what `a` does, and leaves a buffer
that is coherent outside `Y`. -/
def Follows (walk : σ → Buffer V T) (X Y : Set V) (s : σ) (m : BufProg ε σ V T α)
    (a : Prog ε σ α) : Prop :=
  ∀ b hw, Coherent X (walk s) b →
    (∀ e, a s = .error e → m ⟨s, b, hw⟩ = .error e) ∧
    ∀ x t, a s = .ok (x, t) →
      ∃ b' hw', m ⟨s, b, hw⟩ = .ok (x, ⟨t, b', hw'⟩) ∧ Coherent Y (walk t) b'

section Follows
variable {w : σ → Buffer V T} {s : σ} {m : BufProg ε σ V T α} {a a' : Prog ε σ α}
  {f : α → BufProg ε σ V T β} {g : α → Prog ε σ β}

theorem Follows.mono (h : Follows w X Y s m a) (hX : X' ⊆ X) (hY : Y ⊆ Y') :
    Follows w X' Y' s m a := by
  intro b hw hb
  obtain ⟨herr, hok⟩ := h b hw (hb.mono hX)
  refine ⟨herr, ?_⟩
  intro x t ha
  obtain ⟨b', hw', hm, hb'⟩ := hok x t ha
  exact ⟨b', hw', hm, hb'.mono hY⟩

theorem Follows.congr (h : Follows w X Y s m a) (ha : a s = a' s) : Follows w X Y s m a' := by
  intro b hw hb
  rw [← ha]
  exact h b hw hb

theorem follows_pure (x : α) : Follows w X X s (pure x) (pure x : Prog ε σ α) := by
  intro b hw hb
  refine ⟨fun e h => (by cases h), ?_⟩
  intro y t h
  cases h
  exact ⟨b, hw, rfl, hb⟩

theorem follows_throw (e : ε) : Follows w X Y s (throw e) (throw e : Prog ε σ α) := by
  intro b hw _
  constructor
  · intro e' h
    cases h
    rfl
  · intro y t h
    cases h

theorem Follows.bind (h : Follows w X Y s m a)
    (hf : ∀ x t, a s = .ok (x, t) → Follows w Y Z t (f x) (g x)) :
    Follows w X Z s (m >>= f) (a >>= g) := by
  intro b hw hb
  obtain ⟨herr, hok⟩ := h b hw hb
  cases ha : a s with
  | error e =>
    rw [bind_fails ha, bind_fails (herr e ha)]
    refine ⟨fun e' h => ?_, fun x t h => ?_⟩
    · cases h
      rfl
    · cases h
  | ok r =>
    obtain ⟨x, t⟩ := r
    obtain ⟨b', hw', hm, hb'⟩ := hok x t ha
    rw [bind_run ha, bind_run hm]
    exact hf x t ha b' hw' hb'

theorem Follows.ite {m' : BufProg ε σ V T α} {c : Prop} [Decidable c]
    (h : c → Follows w X Y s m a) (h' : ¬ c → Follows w X Y s m' a') :
    Follows w X Y s (if c then m else m') (if c then a else a') := by
  split
  · exact h (by assumption)
  · exact h' (by assumption)

theorem follows_plain (a : Prog ε σ α) (hX : X ⊆ Y)
    (h : ∀ x t, a s = .ok (x, t) → ∀ v, v ∉ Y → w t v = w s v) :
    Follows w X Y s (plain w a) a := by
  intro b hw hb
  have hs := hb.stir (hw 0)
  have hrun : plain w a ⟨s, b, hw⟩ = match a s with
      | .error e => .error e
      | .ok (x, t) => .ok (x, ⟨t, stir (w s) (hw 0) b, fun n => hw (n + 1)⟩) := rfl
  rw [hrun]
  refine ⟨?_, ?_⟩
  · intro e ha
    rw [ha]
  · intro x t ha
    rw [ha]
    exact ⟨_, _, rfl, hs.rewalk hX (h x t ha)⟩

/-- An address outside `X` is translated as by the walk. -/
theorem Follows.lookup {f : Option T → BufProg ε σ V T α} {v : V} (hv : v ∉ X)
    (h : Follows w X Y s (f (w s v)) a) : Follows w X Y s (lookup w v >>= f) a := by
  intro b hw hb
  have hs := hb.stir (hw 0)
  have hor : (stir (w s) (hw 0) b v).or (w s v) = w s v := by
    cases hk : stir (w s) (hw 0) b v with
    | none => rfl
    | some t => exact (hs v hv t hk).symm
  have hrun : (Tlb.lookup w v : BufProg ε σ V T (Option T)) ⟨s, b, hw⟩ =
      .ok (w s v, (⟨s, stir (w s) (hw 0) b, fun n => hw (n + 1)⟩ : Buffered σ V T)) := by
    rw [← hor]
    rfl
  rw [bind_run hrun]
  exact h _ _ hs

theorem follows_drop (p : V → Prop) [DecidablePred p] (hX : ∀ v ∈ X, p v ∨ v ∈ Y) :
    Follows w X Y s (drop w p) (pure () : Prog ε σ Unit) := by
  intro b hw hb
  refine ⟨fun e h => (by cases h), ?_⟩
  intro x t h
  cases h
  exact ⟨_, _, rfl, (hb.stir (hw 0)).invalidate p hX⟩

theorem Follows.get {f : σ → BufProg ε σ V T α} {g : σ → Prog ε σ α}
    (h : Follows w X Y s (f s) (g s)) :
    Follows w X Y s (do let t ← get; f t.mem) (do let t ← get; g t) := h

/-- What the machine returns, the one without a buffer returns. -/
theorem Follows.back (h : Follows w X Y s m a) {b : Buffer V T} {hw : Nat → V → Choice}
    (hb : Coherent X (w s) b) {x : α} {t : Buffered σ V T} (hm : m ⟨s, b, hw⟩ = .ok (x, t)) :
    a s = .ok (x, t.mem) ∧ Coherent Y (w t.mem) t.tlb := by
  obtain ⟨herr, hok⟩ := h b hw hb
  cases ha : a s with
  | error e =>
    rw [herr e ha] at hm
    cases hm
  | ok r =>
    obtain ⟨y, u⟩ := r
    obtain ⟨b', hw', hrun, hb'⟩ := hok y u ha
    rw [hrun] at hm
    cases hm
    exact ⟨rfl, hb'⟩

end Follows

section Run
variable {κ op : Type} {s₀ : σ} {b₀ : Buffer V T}

/-- The calls that `ok` allows, with a parameter that is left open. -/
def Steps (ok : σ → op → Prop) (a : κ → op → Prog ε σ α) (s : σ) (l : op × α) (t : σ) : Prop :=
  ok s l.1 ∧ ∃ k, a k l.1 s = .ok (l.2, t)

def BufSteps (ok : σ → op → Prop) (m : κ → op → BufProg ε σ V T α) (s : Buffered σ V T)
    (l : op × α) (t : Buffered σ V T) : Prop :=
  ok s.mem l.1 ∧ ∃ k, m k l.1 s = .ok (l.2, t)

/-- Calls that follow calls, wherever they are made: then the machines have the same runs. -/
theorem runs_follow {w : σ → Buffer V T} {p : σ → op → Prop} {a : κ → op → Prog ε σ α}
    {m : κ → op → BufProg ε σ V T α} {I : σ → Prop} (h₀ : I s₀)
    (hI : ∀ s l t, I s → Steps p a s l t → I t)
    (h : ∀ k o s, I s → p s o → Follows w ∅ ∅ s (m k o) (a k o))
    (hb : Coherent ∅ (w s₀) b₀) (hw : Nat → V → Choice) :
    (∀ tr t, Run (BufSteps p m) ⟨s₀, b₀, hw⟩ tr t →
      Run (Steps p a) s₀ tr t.mem ∧ Coherent ∅ (w t.mem) t.tlb) ∧
    ∀ tr s, Run (Steps p a) s₀ tr s → ∃ t, t.mem = s ∧ Run (BufSteps p m) ⟨s₀, b₀, hw⟩ tr t := by
  have hinv : ∀ tr s, Run (Steps p a) s₀ tr s → I s := fun tr s hrun =>
    Run.invariant (I := fun _ => I) h₀ (fun _ s l t hi hs => hI s l t hi hs) hrun
  have hforth : ∀ tr t, Run (BufSteps p m) ⟨s₀, b₀, hw⟩ tr t →
      Run (Steps p a) s₀ tr t.mem ∧ Coherent ∅ (w t.mem) t.tlb := by
    intro tr t hrun
    induction hrun with
    | nil => exact ⟨.nil, hb⟩
    | snoc _ hstep ih =>
      obtain ⟨hpre, hcoh⟩ := ih
      obtain ⟨hok, k, hm⟩ := hstep
      obtain ⟨ha, hcoh'⟩ := (h k _ _ (hinv _ _ hpre) hok).back hcoh hm
      exact ⟨hpre.snoc ⟨hok, k, ha⟩, hcoh'⟩
  refine ⟨hforth, ?_⟩
  intro tr s hrun
  induction hrun with
  | nil => exact ⟨_, rfl, .nil⟩
  | snoc hpre hstep ih =>
    obtain ⟨t, rfl, ht⟩ := ih
    obtain ⟨hok, k, ha⟩ := hstep
    obtain ⟨b, hw', hm, -⟩ :=
      (h k _ _ (hinv _ _ hpre) hok t.tlb t.hw (hforth _ _ ht).2).2 _ _ ha
    exact ⟨_, rfl, ht.snoc ⟨hok, k, hm⟩⟩

end Run

end Tlb
