import AkKernel.Foundation.Runs

/-!
# Fallible programs that log what they touch

The log stays when the program fails: it has what was touched up to there.
-/

set_option autoImplicit false

namespace Logs

structure Logged (ι ε α : Type) where
  log : List ι
  res : Except ε α

namespace Logged
variable {ι ε α β : Type}

def lift (r : Except ε α) : Logged ι ε α := ⟨[], r⟩

/-- Touches `i` and goes on with `r`. -/
def touch (i : ι) (r : Except ε α) : Logged ι ε α := ⟨[i], r⟩

/-- Touches all of the list. -/
def note (l : List ι) : Logged ι ε Unit := ⟨l, .ok ()⟩

def bind (x : Logged ι ε α) (f : α → Logged ι ε β) : Logged ι ε β :=
  match x.res with
  | .error e => ⟨x.log, .error e⟩
  | .ok a => ⟨x.log ++ (f a).log, (f a).res⟩

instance : Monad (Logged ι ε) where
  pure a := ⟨[], .ok a⟩
  bind := bind

theorem log_bind_ok {x : Logged ι ε α} {f : α → Logged ι ε β} {a : α} (h : x.res = .ok a) :
    (x >>= f).log = x.log ++ (f a).log := by
  change (bind x f).log = _
  unfold bind
  rw [h]

theorem bind_ok (l : List ι) (a : α) (f : α → Logged ι ε β) :
    (⟨l, .ok a⟩ : Logged ι ε α) >>= f = ⟨l ++ (f a).log, (f a).res⟩ := rfl

theorem bind_error {x : Logged ι ε α} {f : α → Logged ι ε β} {e : ε} (h : x.res = .error e) :
    x >>= f = ⟨x.log, .error e⟩ := by
  change bind x f = _
  unfold bind
  rw [h]

instance : LawfulMonad (Logged ι ε) := LawfulMonad.mk' _
  (by
    rintro α ⟨log, _ | a⟩
    · rfl
    · exact congrArg (fun l => Logged.mk l (Except.ok a)) (List.append_nil log))
  (fun _ _ => rfl)
  (by
    rintro α β γ ⟨log, _ | a⟩ f g
    · rfl
    · change bind (bind ⟨log, .ok a⟩ f) g = bind ⟨log, .ok a⟩ fun x => bind (f x) g
      unfold bind
      dsimp only
      cases (f a).res with
      | error e => rfl
      | ok b => exact congrArg (fun l => Logged.mk l (g b).res) (List.append_assoc _ _ _))

/-- Everything that is touched meets `P`. -/
def Only (P : ι → Prop) (x : Logged ι ε α) : Prop := ∀ i ∈ x.log, P i

variable {P : ι → Prop} {x : Logged ι ε α} {f : α → Logged ι ε β}

@[simp] theorem res_pure (a : α) : (pure a : Logged ι ε α).res = .ok a := rfl
@[simp] theorem res_lift (r : Except ε α) : (lift r : Logged ι ε α).res = r := rfl
@[simp] theorem res_touch (i : ι) (r : Except ε α) : (touch i r).res = r := rfl

@[simp] theorem res_note_bind (l : List ι) (f : Unit → Logged ι ε β) :
    (note l >>= f).res = (f ()).res := rfl
@[simp] theorem log_note_bind (l : List ι) (f : Unit → Logged ι ε β) :
    (note l >>= f).log = l ++ (f ()).log := rfl

@[simp] theorem res_bind : (x >>= f).res = x.res >>= fun a => (f a).res := by
  change (bind x f).res = _
  unfold bind
  split <;> rename_i h <;> rw [h] <;> rfl

/-- Erasing the log of a sequence, part by part. -/
theorem res_bind_of {y : Except ε α} {g : α → Except ε β} (hx : x.res = y)
    (hf : ∀ a, (f a).res = g a) : (x >>= f).res = y >>= g := by
  rw [res_bind, hx]
  exact congrArg (fun h => y >>= h) (funext hf)

@[simp] theorem only_pure (a : α) : Only P (pure a : Logged ι ε α) := fun _ h => nomatch h
@[simp] theorem only_lift (r : Except ε α) : Only P (lift r : Logged ι ε α) := fun _ h => nomatch h

theorem log_lift_bind {r : Except ε α} {g : α → Logged ι ε β} (hg : ∀ a, (g a).log = []) :
    (lift r >>= g).log = [] := by
  change (bind (lift r) g).log = []
  unfold bind
  cases r with
  | error e => rfl
  | ok a => exact hg a

@[simp] theorem only_touch (i : ι) (r : Except ε α) : Only P (touch i r) ↔ P i :=
  ⟨fun h => h i (List.mem_singleton.mpr rfl), fun h _ hj => List.mem_singleton.mp hj ▸ h⟩

/-- What a sequence touches is what its parts touch, as far as they are reached. -/
theorem only_bind : Only P (x >>= f) ↔ Only P x ∧ ∀ a, x.res = .ok a → Only P (f a) := by
  change Only P (bind x f) ↔ _
  unfold bind Only
  split
  · rename_i e he
    refine ⟨fun h => ⟨h, ?_⟩, fun h => h.1⟩
    intro a ha
    rw [he] at ha
    cases ha
  · rename_i a ha
    simp only [List.mem_append]
    constructor
    · intro h
      refine ⟨fun i hi => h i (.inl hi), ?_⟩
      intro b hb i hi
      rw [ha] at hb
      cases hb
      exact h i (.inr hi)
    · rintro ⟨hx, hf⟩ i (hi | hi)
      · exact hx i hi
      · exact hf a ha i hi

theorem Only.bind (h : Only P x) (hf : ∀ a, Only P (f a)) : Only P (x >>= f) :=
  only_bind.mpr ⟨h, fun a _ => hf a⟩

@[simp] theorem only_note_bind {l : List ι} {g : Unit → Logged ι ε β} :
    Only P (note l >>= g) ↔ (∀ i ∈ l, P i) ∧ Only P (g ()) := by
  unfold Only
  rw [log_note_bind]
  simp only [List.mem_append, or_imp, forall_and]

theorem lift_ok_bind (a : α) (f : α → Logged ι ε β) : lift (.ok a) >>= f = f a := rfl

theorem only_bind_ok {a : α} (h : x.res = .ok a) :
    Only P (x >>= f) ↔ Only P x ∧ Only P (f a) := by
  rw [only_bind, h]
  refine and_congr_right fun _ => ⟨fun hf => hf a rfl, fun hf b hb => ?_⟩
  cases hb
  exact hf

end Logged

end Logs
