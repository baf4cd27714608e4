import AkKernel.Foundation.Runs

/-!
# Programs with state and failure

Counting loops, and programs on a state with a scratch part: a program that leaves
the scratch part as it found it does what a program on the other part alone does.
-/

set_option autoImplicit false

namespace Programs

open Runs

abbrev Prog (ε σ α : Type) := StateT σ (Except ε) α

variable {ε σ τ ρ κ α β : Type}

theorem bind_ok {m : Prog ε σ α} {f : α → Prog ε σ β} {s : σ} {r : β × σ} :
    (m >>= f) s = .ok r ↔ ∃ a t, m s = .ok (a, t) ∧ f a t = .ok r := by
  change (m s >>= fun p => f p.1 p.2) = .ok r ↔ _
  rw [bind_eq_ok]
  constructor
  · intro h
    obtain ⟨⟨a, t⟩, h, hf⟩ := h
    exact ⟨a, t, h, hf⟩
  · intro h
    obtain ⟨a, t, h, hf⟩ := h
    exact ⟨(a, t), h, hf⟩

theorem pure_ok {a b : α} {s t : σ} :
    (pure a : Prog ε σ α) s = .ok (b, t) ↔ b = a ∧ t = s := by
  change Except.ok (a, s) = .ok (b, t) ↔ _
  rw [Except.ok.injEq, Prod.mk.injEq]
  constructor
  · intro h
    exact ⟨h.1.symm, h.2.symm⟩
  · intro h
    exact ⟨h.1.symm, h.2.symm⟩

theorem bind_run {m : Prog ε σ α} {f : α → Prog ε σ β} {s t : σ} {a : α}
    (h : m s = .ok (a, t)) : (m >>= f) s = f a t := by
  change (m s >>= fun p => f p.1 p.2) = _
  rw [h]
  rfl

theorem bind_fails {m : Prog ε σ α} {f : α → Prog ε σ β} {s : σ} {e : ε}
    (h : m s = .error e) : (m >>= f) s = .error e := by
  change (m s >>= fun p => f p.1 p.2) = _
  rw [h]
  rfl

section Loop

/-- `for (i = 0; i < n; i++) body(i)` -/
def upTo (body : Nat → Prog ε σ Unit) : Nat → Prog ε σ Unit
  | 0 => pure ()
  | n + 1 => do
    upTo body n
    body n

variable {body : Nat → Prog ε σ Unit} {I : Nat → σ → Prop} {s : σ}

/-- What every round keeps holds when the loop has ended. -/
theorem upTo_keeps {n : Nat} {u : σ} (h0 : I 0 s)
    (hs : ∀ i t u, i < n → I i t → body i t = .ok ((), u) → I (i + 1) u)
    (h : upTo body n s = .ok ((), u)) : I n u := by
  induction n generalizing u with
  | zero =>
    obtain ⟨-, hu⟩ := pure_ok.mp h
    rw [hu]
    exact h0
  | succ n ih =>
    obtain ⟨⟨⟩, t, hn, hb⟩ := bind_ok.mp h
    have ht : I n t := by
      refine ih ?_ hn
      intro i t u hi
      exact hs i t u (by omega)
    exact hs n t u (by omega) ht hb

/-- The loop ends when every round does. -/
theorem upTo_ends {n : Nat} (h0 : I 0 s)
    (hs : ∀ i t, i < n → I i t → ∃ u, body i t = .ok ((), u) ∧ I (i + 1) u) :
    ∃ u, upTo body n s = .ok ((), u) ∧ I n u := by
  induction n with
  | zero => exact ⟨s, rfl, h0⟩
  | succ n ih =>
    obtain ⟨t, ht, hI⟩ := ih (fun i t hi => hs i t (by omega))
    obtain ⟨u, hu, hI'⟩ := hs n t (by omega) hI
    exact ⟨u, (bind_run ht).trans hu, hI'⟩

end Loop

section Invariants
variable {I : σ → Prop} {m : Prog ε σ α} {f : α → Prog ε σ β} {body : Nat → Prog ε σ Unit}

/-- When `m` returns, `I` holds as before. -/
def Preserves (I : σ → Prop) (m : Prog ε σ α) : Prop :=
  ∀ s a t, I s → m s = .ok (a, t) → I t

theorem preserves_pure (a : α) : Preserves I (pure a : Prog ε σ α) := by
  intro s b t hs h
  obtain ⟨-, ht⟩ := pure_ok.mp h
  rw [ht]
  exact hs

theorem preserves_throw (e : ε) : Preserves I (throw e : Prog ε σ α) := by
  intro s a t _ h
  cases h

theorem Preserves.bind (h : Preserves I m) (hf : ∀ a, Preserves I (f a)) :
    Preserves I (m >>= f) := by
  intro s b u hs hrun
  obtain ⟨a, t, hm, hfa⟩ := bind_ok.mp hrun
  exact hf a t b u (h s a t hs hm) hfa

theorem Preserves.ite {m' : Prog ε σ α} {b : Prop} [Decidable b] (h : b → Preserves I m)
    (h' : ¬ b → Preserves I m') : Preserves I (if b then m else m') := by
  split
  · exact h (by assumption)
  · exact h' (by assumption)

theorem Preserves.upTo (h : ∀ i, Preserves I (body i)) (n : Nat) :
    Preserves I (upTo body n) := by
  intro s a t hs hrun
  exact upTo_keeps (I := fun _ => I) hs (fun i v u _ hv hu => h i v () u hv hu) hrun

end Invariants

section Agreement
variable {m m' : Prog ε σ α} {f f' : α → Prog ε σ β}

/-- What `m` returns, `m'` returns; `m` may fail where `m'` does not. -/
def Agrees (m m' : Prog ε σ α) : Prop := ∀ s r, m s = .ok r → m' s = .ok r

theorem Agrees.refl (m : Prog ε σ α) : Agrees m m := fun _ _ h => h

theorem Agrees.bind (h : Agrees m m') (hf : ∀ a, Agrees (f a) (f' a)) :
    Agrees (m >>= f) (m' >>= f') := by
  intro s r hrun
  obtain ⟨a, t, hm, hfa⟩ := bind_ok.mp hrun
  exact bind_ok.mpr ⟨a, t, h s _ hm, hf a t r hfa⟩

theorem Agrees.guard (m : Prog ε σ α) (e : ε) (b : Prop) [Decidable b] :
    Agrees (if b then m else throw e) m := by
  intro s r h
  split at h
  · exact h
  · cases h

theorem Agrees.ite {n n' : Prog ε σ α} {b : Prop} [Decidable b] (h : Agrees m m')
    (h' : Agrees n n') : Agrees (if b then m else n) (if b then m' else n') := by
  split
  · exact h
  · exact h'

theorem Agrees.upTo {g g' : Nat → Prog ε σ Unit} (h : ∀ i, Agrees (g i) (g' i)) (n : Nat) :
    Agrees (upTo g n) (upTo g' n) := by
  induction n with
  | zero => exact Agrees.refl _
  | succ n ih => exact ih.bind fun _ => h n

end Agreement

section Lift
variable {P : ρ → Prop}

/-- `a`, run on the first part of the state. -/
def onFst (a : Prog ε τ α) : Prog ε (τ × ρ) α := fun s =>
  match a s.1 with
  | .error e => .error e
  | .ok (x, c) => .ok (x, (c, s.2))

/-- From every scratch part that `P` allows, `m` does to the first part what `a`
does, fails as `a` fails, and leaves the scratch part alone. -/
def Lifts (P : ρ → Prop) (m : Prog ε (τ × ρ) α) (a : Prog ε τ α) : Prop :=
  ∀ c r, P r → m (c, r) = onFst a (c, r)

theorem lifts_onFst (a : Prog ε τ α) : Lifts P (onFst a) a := fun _ _ _ => rfl

theorem lifts_pure (x : α) : Lifts P (pure x : Prog ε (τ × ρ) α) (pure x) := fun _ _ _ => rfl

theorem Lifts.ok {m : Prog ε (τ × ρ) α} {a : Prog ε τ α} (h : Lifts P m a) {c : τ} {r : ρ}
    (hr : P r) {x : α} {s : τ × ρ} (hrun : m (c, r) = .ok (x, s)) :
    ∃ c', a c = .ok (x, c') ∧ s = (c', r) := by
  rw [h c r hr] at hrun
  unfold onFst at hrun
  cases ha : a c with
  | error e =>
    rw [ha] at hrun
    cases hrun
  | ok p =>
    rw [ha] at hrun
    cases hrun
    exact ⟨p.2, rfl, rfl⟩

theorem Lifts.run {m : Prog ε (τ × ρ) α} {a : Prog ε τ α} (h : Lifts P m a) {c c' : τ} {r : ρ}
    (hr : P r) {x : α} (hrun : a c = .ok (x, c')) : m (c, r) = .ok (x, (c', r)) := by
  rw [h c r hr]
  unfold onFst
  rw [hrun]

theorem onFst_bind (a : Prog ε τ α) (g : α → Prog ε τ β) :
    (onFst (a >>= g) : Prog ε (τ × ρ) β) = onFst a >>= fun x => onFst (g x) := by
  funext s
  change (match (a s.1 >>= fun p => g p.1 p.2) with
    | .error e => .error e
    | .ok (x, c) => .ok (x, (c, s.2))) = (onFst a s >>= fun p => onFst (g p.1) p.2)
  unfold onFst
  cases h : a s.1 with
  | error e => rfl
  | ok p => rfl

theorem Lifts.bind {m : Prog ε (τ × ρ) α} {a : Prog ε τ α} {f : α → Prog ε (τ × ρ) β}
    {g : α → Prog ε τ β} (h : Lifts P m a) (hf : ∀ x, Lifts P (f x) (g x)) :
    Lifts P (m >>= f) (a >>= g) := by
  intro c r hr
  rw [onFst_bind]
  change (m (c, r) >>= fun p => f p.1 p.2) = (onFst a (c, r) >>= fun p => onFst (g p.1) p.2)
  rw [h c r hr]
  unfold onFst
  cases ha : a c with
  | error e => rfl
  | ok p => exact hf p.1 p.2 r hr

theorem Lifts.ite {m m' : Prog ε (τ × ρ) α} {a a' : Prog ε τ α} {b : Prop} [Decidable b]
    (h : Lifts P m a) (h' : Lifts P m' a') :
    Lifts P (if b then m else m') (if b then a else a') := by
  split
  · exact h
  · exact h'

theorem Lifts.upTo {m : Nat → Prog ε (τ × ρ) Unit} {a : Nat → Prog ε τ Unit}
    (h : ∀ i, Lifts P (m i) (a i)) (n : Nat) : Lifts P (upTo m n) (upTo a n) := by
  induction n with
  | zero => exact lifts_pure ()
  | succ n ih => exact ih.bind fun _ => h n

/-- `acquire` changes only the scratch part, from one that `P` allows to one that
`Q` allows with what it returns, and `release` takes that change back. -/
def Brackets (P : ρ → Prop) (acquire : Prog ε (τ × ρ) κ) (release : κ → Prog ε (τ × ρ) Unit)
    (Q : κ → ρ → Prop) : Prop :=
  ∀ r, P r → ∃ k r', Q k r' ∧ (∀ c, acquire (c, r) = .ok (k, (c, r'))) ∧
    ∀ c, release k (c, r') = .ok ((), (c, r))

/-- A body between an acquisition and its release. -/
theorem Lifts.bracket {acquire : Prog ε (τ × ρ) κ} {release : κ → Prog ε (τ × ρ) Unit}
    {R : κ → ρ → Prop} {m : κ → Prog ε (τ × ρ) α} {a : Prog ε τ α}
    (hb : Brackets P acquire release R) (h : ∀ k, Lifts (R k) (m k) a) :
    Lifts P (do let k ← acquire; let x ← m k; release k; pure x) a := by
  intro c r hr
  obtain ⟨k, r', hk, hacq, hrel⟩ := hb r hr
  rw [bind_run (hacq c)]
  change (m k (c, r') >>= fun p => (release k >>= fun _ => pure p.1) p.2) = _
  rw [h k c r' hk]
  unfold onFst
  cases ha : a c with
  | error e => rfl
  | ok p =>
    change (release k >>= fun _ => pure p.1) (p.2, r') = _
    rw [bind_run (hrel p.2)]
    rfl

/-- Two acquisitions that are released in the order they were made. -/
theorem Brackets.pair {κ' : Type} {acquire : Prog ε (τ × ρ) κ}
    {release : κ → Prog ε (τ × ρ) Unit} {acquire' : Prog ε (τ × ρ) κ'}
    {release' : κ' → Prog ε (τ × ρ) Unit} {R : κ × κ' → ρ → Prop}
    (h : ∀ r, P r → ∃ k k' r₁ r₂ r₃, R (k, k') r₂ ∧ (∀ c, acquire (c, r) = .ok (k, (c, r₁))) ∧
      (∀ c, acquire' (c, r₁) = .ok (k', (c, r₂))) ∧
      (∀ c, release k (c, r₂) = .ok ((), (c, r₃))) ∧
      ∀ c, release' k' (c, r₃) = .ok ((), (c, r))) :
    Brackets P (do let k ← acquire; let k' ← acquire'; pure (k, k'))
      (fun k => do release k.1; release' k.2) R := by
  intro r hr
  obtain ⟨k, k', r₁, r₂, r₃, hR, h1, h2, h3, h4⟩ := h r hr
  refine ⟨(k, k'), r₂, hR, ?_, ?_⟩
  · intro c
    rw [bind_run (h1 c), bind_run (h2 c)]
    rfl
  · intro c
    exact (bind_run (h3 c)).trans (h4 c)

end Lift

end Programs
