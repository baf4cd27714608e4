import Mathlib.Data.List.Basic

/-!
# Walks along records

Records of varying length lie one behind the other, up to one that ends them. One loop works on
each of them; another looks for the first one of a kind.
-/

set_option autoImplicit false

namespace Records

variable {α σ : Type}

/-- The records from `a` on, and the end where the last one leads. -/
inductive Trail (stop : α → Prop) (next : α → α) : α → List α → Prop where
  | stop {a : α} : stop a → Trail stop next a []
  | step {a : α} {l : List α} : ¬ stop a → Trail stop next (next a) l → Trail stop next a (a :: l)

variable (stop found : α → Prop) [DecidablePred stop] [DecidablePred found] (next : α → α)

/-- `while (!stop(a)) { body(a); a = next(a); }` -/
def walkAll (body : α → σ → Option σ) : Nat → α → σ → Option σ
  | 0, _, _ => none
  | fuel + 1, a, s => if stop a then some s else (body a s).bind (walkAll body fuel (next a))

/-- `while (!stop(a)) { if (!found(a)) { a = next(a); continue; } use(a); break; }` -/
def walkFind (use : α → σ → σ) : Nat → α → σ → Option σ
  | 0, _, _ => none
  | fuel + 1, a, s =>
    if stop a then some s
    else if ¬ found a then walkFind use fuel (next a) s
    else some (use a s)

section Walks
variable {stop found next} {a : α} {l : List α} {fuel : Nat} {s s' : σ}

/-- The loop does its work on each record once, in their order. -/
theorem Trail.walkAll_eq (h : Trail stop next a l) (body : α → σ → Option σ)
    (hfuel : l.length < fuel) :
    walkAll stop next body fuel a s = l.foldlM (fun s a => body a s) s := by
  induction h generalizing fuel s with
  | stop ha =>
    obtain ⟨fuel, rfl⟩ := Nat.exists_eq_add_one.mpr (Nat.zero_lt_of_lt hfuel)
    rw [walkAll, if_pos ha]
    rfl
  | step ha _ ih =>
    obtain ⟨fuel, rfl⟩ := Nat.exists_eq_add_one.mpr (Nat.zero_lt_of_lt hfuel)
    rw [List.length_cons] at hfuel
    rw [walkAll, if_neg ha, List.foldlM_cons]
    change Option.bind _ _ = Option.bind _ _
    congr 1
    funext t
    exact ih (by omega)

/-- The search uses the first record of its kind, if there is one. -/
theorem Trail.walkFind_eq (h : Trail stop next a l) (use : α → σ → σ) (hfuel : l.length < fuel) :
    walkFind stop found next use fuel a s =
      some ((l.find? fun a => decide (found a)).elim s fun a => use a s) := by
  induction h generalizing fuel with
  | stop ha =>
    obtain ⟨fuel, rfl⟩ := Nat.exists_eq_add_one.mpr (Nat.zero_lt_of_lt hfuel)
    rw [walkFind, if_pos ha]
    rfl
  | @step a l ha _ ih =>
    obtain ⟨fuel, rfl⟩ := Nat.exists_eq_add_one.mpr (Nat.zero_lt_of_lt hfuel)
    rw [List.length_cons] at hfuel
    rw [walkFind, if_neg ha]
    by_cases hf : found a
    · rw [if_neg (not_not.mpr hf), List.find?_cons_of_pos (by simp [hf])]
      rfl
    · rw [if_pos hf, List.find?_cons_of_neg (by simp [hf])]
      exact ih (by omega)

variable {body : α → σ → Option σ}

theorem foldlM_isSome {P : α → Prop} (h : ∀ a s, (body a s).isSome ↔ P a) :
    (l.foldlM (fun s a => body a s) s).isSome ↔ ∀ a ∈ l, P a := by
  induction l generalizing s with
  | nil => simp
  | cons a l ih =>
    rw [List.foldlM_cons, List.forall_mem_cons]
    change (Option.bind _ _).isSome ↔ _
    cases hb : body a s with
    | none =>
      have hP : ¬ P a := by
        rw [← h a s, hb]
        exact Bool.false_ne_true
      exact iff_of_false Bool.false_ne_true fun hall => hP hall.1
    | some t =>
      have hP : P a := by
        rw [← h a s, hb]
        rfl
      rw [Option.bind_some, ih]
      exact ⟨fun hall => ⟨hP, hall⟩, fun hall => hall.2⟩

/-- A walk that gets to its `n`th stop, with its first round taken off. -/
theorem exists_stop_succ {go stop : Nat → Prop} {fuel : Nat} :
    (∃ n < fuel + 1, (∀ k < n, go k) ∧ stop n) ↔
      stop 0 ∨ go 0 ∧ ∃ n < fuel, (∀ k < n, go (k + 1)) ∧ stop (n + 1) := by
  constructor
  · rintro ⟨n, hn, hgo, hstop⟩
    cases n with
    | zero => exact .inl hstop
    | succ n =>
      refine .inr ⟨hgo 0 (Nat.succ_pos n), n, Nat.lt_of_succ_lt_succ hn, ?_, hstop⟩
      intro k hk
      exact hgo (k + 1) (Nat.succ_lt_succ hk)
  · rintro (hstop | ⟨hfirst, n, hn, hgo, hstop⟩)
    · exact ⟨0, Nat.succ_pos fuel, fun k hk => absurd hk (Nat.not_lt_zero k), hstop⟩
    · refine ⟨n + 1, Nat.succ_lt_succ hn, ?_, hstop⟩
      intro k hk
      cases k with
      | zero => exact hfirst
      | succ k => exact hgo k (Nat.lt_of_succ_lt_succ hk)

end Walks

end Records
