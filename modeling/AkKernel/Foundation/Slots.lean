import AkKernel.Foundation.Logged
import AkKernel.Foundation.Programs
import Mathlib.Data.Finset.Card

/-!
# Slots that are taken and given back

Programs that log which slots of a table they take and give back. A program is balanced if,
however far it gets, it holds only slots that were free when it started, no slot twice and no
more than its bound, and if it has given back all of them when it returns.
-/

set_option autoImplicit false

namespace Slots

open Logs Programs

/-- `full` is a slot that was asked for and not found. -/
inductive Event (ι : Type) where
  | took (i : ι)
  | gave (i : ι)
  | full
deriving DecidableEq, Repr

section Events
variable {ι : Type} [DecidableEq ι]

/-- The slots held after some events, by one who held `h`. -/
def heldFrom (h : List ι) : List (Event ι) → List ι
  | [] => h
  | .took i :: es => heldFrom (i :: h) es
  | .gave i :: es => heldFrom (h.erase i) es
  | .full :: es => heldFrom h es

/-- At every moment of the log the slots held are different, free at the start and at most
`n`, and no slot was missing. -/
structure Within (avail : Finset ι) (n : Nat) (log : List (Event ι)) : Prop where
  found : .full ∉ log
  distinct : ∀ es, es <+: log → (heldFrom [] es).Nodup
  own : ∀ es, es <+: log → ∀ i ∈ heldFrom [] es, i ∈ avail
  few : ∀ es, es <+: log → (heldFrom [] es).length ≤ n

/-- One who holds `H` makes the events and then holds `H'`: each slot taken is in `avail` and
not held, each slot given back is held, and there are never more than `n`. -/
inductive Keeps (avail : Finset ι) (n : Nat) : Finset ι → List (Event ι) → Finset ι → Prop where
  | nil (H : Finset ι) : Keeps avail n H [] H
  | took {H H' : Finset ι} {es : List (Event ι)} (i : ι) : i ∈ avail → i ∉ H → H.card < n →
      Keeps avail n (insert i H) es H' → Keeps avail n H (.took i :: es) H'
  | gave {H H' : Finset ι} {es : List (Event ι)} (i : ι) : i ∈ H →
      Keeps avail n (H.erase i) es H' → Keeps avail n H (.gave i :: es) H'

variable {avail H H' H'' : Finset ι} {n m : Nat} {es fs : List (Event ι)}

theorem Keeps.append (h : Keeps avail n H es H') (h' : Keeps avail n H' fs H'') :
    Keeps avail n H (es ++ fs) H'' := by
  induction h with
  | nil _ => exact h'
  | took i hi hn hc _ ih => exact .took i hi hn hc (ih h')
  | gave i hi _ ih => exact .gave i hi (ih h')

/-- Any moment in between. -/
theorem Keeps.split (h : Keeps avail n H (es ++ fs) H'') :
    ∃ H', Keeps avail n H es H' ∧ Keeps avail n H' fs H'' := by
  induction es generalizing H with
  | nil => exact ⟨H, .nil H, h⟩
  | cons e es ih =>
    cases h with
    | took i hi hn hc h =>
      obtain ⟨H', h1, h2⟩ := ih h
      exact ⟨H', .took i hi hn hc h1, h2⟩
    | gave i hi h =>
      obtain ⟨H', h1, h2⟩ := ih h
      exact ⟨H', .gave i hi h1, h2⟩

theorem Keeps.mono (h : Keeps avail n H es H') (hnm : n ≤ m) : Keeps avail m H es H' := by
  induction h with
  | nil H => exact .nil H
  | took i hi hn hc _ ih => exact .took i hi hn (Nat.lt_of_lt_of_le hc hnm) ih
  | gave i hi _ ih => exact .gave i hi ih

theorem Keeps.bounded (h : Keeps avail n H es H') (hsub : H ⊆ avail) (hcard : H.card ≤ n) :
    H' ⊆ avail ∧ H'.card ≤ n := by
  induction h with
  | nil _ => exact ⟨hsub, hcard⟩
  | took i hi hn hc _ ih =>
    apply ih
    · exact Finset.insert_subset hi hsub
    · rw [Finset.card_insert_of_notMem hn]
      exact hc
  | gave i hi _ ih =>
    apply ih
    · exact (Finset.erase_subset _ _).trans hsub
    · exact (Finset.card_le_card (Finset.erase_subset _ _)).trans hcard

/-- Who holds other slots besides makes the same events. -/
theorem Keeps.frame {B : Finset ι} (h : Keeps avail n H es H') (hsub : H ⊆ avail)
    (hB : Disjoint avail B) : Keeps (avail ∪ B) (n + B.card) (H ∪ B) es (H' ∪ B) := by
  induction h with
  | nil H => exact .nil _
  | @took H H' es i hi hn hc _ ih =>
    have hiB : i ∉ B := fun h => Finset.disjoint_left.mp hB hi h
    refine .took i (Finset.mem_union_left _ hi) ?_ ?_ ?_
    · intro h
      exact (Finset.mem_union.mp h).elim hn hiB
    · have := Finset.card_union_le H B
      omega
    · have h := ih (Finset.insert_subset hi hsub)
      rw [Finset.insert_union] at h
      exact h
  | @gave H H' es i hi _ ih =>
    have hiB : i ∉ B := fun h => Finset.disjoint_left.mp hB (hsub hi) h
    have herase : (H ∪ B).erase i = H.erase i ∪ B := by
      rw [Finset.erase_union_distrib, Finset.erase_eq_of_notMem hiB]
    refine .gave i (Finset.mem_union_left _ hi) ?_
    rw [herase]
    exact ih ((Finset.erase_subset _ _).trans hsub)

theorem Keeps.heldFrom (h : Keeps avail n H es H') : ∀ l : List ι, l.Nodup → l.toFinset = H →
    (heldFrom l es).Nodup ∧ (heldFrom l es).toFinset = H' := by
  induction h with
  | nil _ => exact fun l hl he => ⟨hl, he⟩
  | took i _ hn _ _ ih =>
    intro l hl he
    apply ih (i :: l)
    · refine List.nodup_cons.mpr ⟨?_, hl⟩
      intro hmem
      apply hn
      rw [← he]
      exact List.mem_toFinset.mpr hmem
    · rw [List.toFinset_cons, he]
  | gave i _ _ ih =>
    intro l hl he
    apply ih (l.erase i) (hl.erase i)
    ext j
    rw [List.mem_toFinset, hl.mem_erase_iff, Finset.mem_erase, ← he, List.mem_toFinset]

theorem Keeps.not_full (h : Keeps avail n H es H') : .full ∉ es := by
  induction h with
  | nil _ => exact List.not_mem_nil
  | took i _ _ _ _ ih =>
    intro hmem
    rcases List.mem_cons.mp hmem with he | he
    · cases he
    · exact ih he
  | gave i _ _ ih =>
    intro hmem
    rcases List.mem_cons.mp hmem with he | he
    · cases he
    · exact ih he

/-- What an observer of the log sees. -/
theorem Keeps.within (h : Keeps avail n ∅ es H') : Within avail n es := by
  have hmoment : ∀ fs, fs <+: es → (Slots.heldFrom [] fs).Nodup ∧
      (Slots.heldFrom [] fs).toFinset ⊆ avail ∧ (Slots.heldFrom [] fs).length ≤ n := by
    rintro fs ⟨gs, rfl⟩
    obtain ⟨H₁, h1, -⟩ := h.split
    obtain ⟨hnodup, heq⟩ := h1.heldFrom [] List.nodup_nil rfl
    obtain ⟨hsub, hcard⟩ := h1.bounded (Finset.empty_subset _) (Nat.zero_le _)
    refine ⟨hnodup, ?_, ?_⟩
    · rw [heq]
      exact hsub
    · rw [← List.toFinset_card_of_nodup hnodup, heq]
      exact hcard
  refine ⟨h.not_full, fun fs hf => (hmoment fs hf).1, ?_, fun fs hf => (hmoment fs hf).2.2⟩
  intro fs hf i hi
  exact (hmoment fs hf).2.1 (List.mem_toFinset.mpr hi)

theorem keeps_took : ∀ {is : List ι} {H : Finset ι}, is.Nodup → (∀ i ∈ is, i ∈ avail ∧ i ∉ H) →
    H.card + is.length ≤ n → Keeps avail n H (is.map .took) (H ∪ is.toFinset) := by
  intro is
  induction is with
  | nil =>
    intro H _ _ _
    rw [List.toFinset_nil, Finset.union_empty]
    exact .nil H
  | cons i is ih =>
    intro H hnodup hmem hcard
    obtain ⟨hi, hnodup⟩ := List.nodup_cons.mp hnodup
    have hiH := hmem i List.mem_cons_self
    rw [List.length_cons] at hcard
    refine .took i hiH.1 hiH.2 (by omega) ?_
    have hrest := ih (H := insert i H) hnodup ?_ ?_
    · rw [List.toFinset_cons, Finset.union_insert, ← Finset.insert_union]
      exact hrest
    · intro j hj
      refine ⟨(hmem j (List.mem_cons_of_mem _ hj)).1, ?_⟩
      intro h
      rcases Finset.mem_insert.mp h with he | he
      · rw [he] at hj
        exact hi hj
      · exact (hmem j (List.mem_cons_of_mem _ hj)).2 he
    · rw [Finset.card_insert_of_notMem hiH.2]
      omega

theorem keeps_gave (avail : Finset ι) (n : Nat) :
    ∀ {js : List ι} {H : Finset ι}, js.Nodup → (∀ j ∈ js, j ∈ H) →
    Keeps avail n H (js.map .gave) (H \ js.toFinset) := by
  intro js
  induction js with
  | nil =>
    intro H _ _
    rw [List.toFinset_nil, Finset.sdiff_empty]
    exact .nil H
  | cons j js ih =>
    intro H hnodup hmem
    obtain ⟨hj, hnodup⟩ := List.nodup_cons.mp hnodup
    refine .gave j (hmem j List.mem_cons_self) ?_
    have hrest := ih (H := H.erase j) hnodup ?_
    · rw [List.toFinset_cons, Finset.sdiff_insert, ← Finset.erase_sdiff_comm]
      exact hrest
    · intro k hk
      refine Finset.mem_erase.mpr ⟨?_, hmem k (List.mem_cons_of_mem _ hk)⟩
      intro he
      rw [he] at hk
      exact hj hk

end Events

/-- A program on a state, with a log of its slots. -/
abbrev Traced (ι ε σ α : Type) := StateT σ (Logged (Event ι) ε) α

namespace Traced
variable {ι ε σ τ ρ κ α β : Type}

def erase (m : Traced ι ε σ α) : Prog ε σ α := fun s => (m s).res

def quiet (m : Prog ε σ α) : Traced ι ε σ α := fun s => Logged.lift (m s)

/-- `for (i = 0; i < n; i++) body(i)` -/
def upTo (body : Nat → Traced ι ε σ Unit) : Nat → Traced ι ε σ Unit
  | 0 => pure ()
  | n + 1 => do
    upTo body n
    body n

/-- `m`, run on a part of the state. -/
def zoom (get : σ → τ) (put : σ → τ → σ) (m : σ → Traced ι ε τ α) : Traced ι ε σ α := fun s =>
  m s (get s) >>= fun p => pure (p.1, put s p.2)

@[simp] theorem erase_pure (a : α) : erase (pure a : Traced ι ε σ α) = pure a := rfl

@[simp] theorem erase_quiet (m : Prog ε σ α) : erase (quiet m : Traced ι ε σ α) = m := rfl

@[simp] theorem erase_bind (m : Traced ι ε σ α) (f : α → Traced ι ε σ β) :
    erase (m >>= f) = erase m >>= fun a => erase (f a) := by
  funext s
  exact Logged.res_bind

@[simp] theorem erase_ite {b : Prop} [Decidable b] (m m' : Traced ι ε σ α) :
    erase (if b then m else m') = if b then erase m else erase m' := by
  split
  · rfl
  · rfl

@[simp] theorem erase_upTo (body : Nat → Traced ι ε σ Unit) (n : Nat) :
    erase (upTo body n) = Programs.upTo (fun i => erase (body i)) n := by
  induction n with
  | zero => rfl
  | succ n ih => rw [upTo, erase_bind, ih, Programs.upTo]

end Traced

section Balance
variable {ι ε σ τ ρ κ α β : Type} [DecidableEq ι] {tbl : σ → ρ} {free : ρ → Finset ι} {n m w : Nat}
  {x : Traced ι ε σ α} {f : α → Traced ι ε σ β}

open Traced

/-- With `n` slots free, `x` holds at most `n` of them and returns with the table as it was. -/
def Balanced (tbl : σ → ρ) (free : ρ → Finset ι) (n : Nat) (x : Traced ι ε σ α) : Prop :=
  ∀ s, n ≤ (free (tbl s)).card → ∃ H, Keeps (free (tbl s)) n ∅ (x s).log H ∧
    ∀ a t, (x s).res = .ok (a, t) → H = ∅ ∧ tbl t = tbl s

theorem balanced_pure (a : α) : Balanced tbl free n (pure a : Traced ι ε σ α) := by
  intro s _
  refine ⟨∅, .nil ∅, ?_⟩
  intro b t h
  cases h
  exact ⟨rfl, rfl⟩

theorem balanced_quiet {p : Prog ε σ α} (h : ∀ s a t, p s = .ok (a, t) → tbl t = tbl s) :
    Balanced tbl free n (quiet p : Traced ι ε σ α) := by
  intro s _
  exact ⟨∅, .nil ∅, fun a t hrun => ⟨rfl, h s a t hrun⟩⟩

theorem Balanced.mono (h : Balanced tbl free n x) (hnm : n ≤ m) : Balanced tbl free m x := by
  intro s hs
  obtain ⟨H, hkeeps, hres⟩ := h s (hnm.trans hs)
  exact ⟨H, hkeeps.mono hnm, hres⟩

theorem Balanced.bind (h : Balanced tbl free n x) (hf : ∀ a, Balanced tbl free n (f a)) :
    Balanced tbl free n (x >>= f) := by
  intro s hs
  obtain ⟨H, hkeeps, hres⟩ := h s hs
  change ∃ H, Keeps _ n ∅ ((x s) >>= fun p => f p.1 p.2).log H ∧
    ∀ b u, ((x s) >>= fun p => f p.1 p.2).res = .ok (b, u) → _
  cases hx : (x s).res with
  | error e =>
    rw [Logged.bind_error hx]
    exact ⟨H, hkeeps, fun b u hb => nomatch hb⟩
  | ok p =>
    obtain ⟨hH, htbl⟩ := hres p.1 p.2 hx
    obtain ⟨H', hkeeps', hres'⟩ := hf p.1 p.2 (by rw [htbl]; exact hs)
    rw [htbl] at hkeeps' hres'
    rw [hH] at hkeeps
    refine ⟨H', ?_, ?_⟩
    · rw [Logged.log_bind_ok hx]
      exact hkeeps.append hkeeps'
    · intro b u hb
      rw [Logged.res_bind, hx] at hb
      exact hres' b u hb

theorem Balanced.ite {y : Traced ι ε σ α} {b : Prop} [Decidable b] (h : Balanced tbl free n x)
    (h' : Balanced tbl free n y) : Balanced tbl free n (if b then x else y) := by
  split
  · exact h
  · exact h'

theorem Balanced.upTo {body : Nat → Traced ι ε σ Unit} (h : ∀ i, Balanced tbl free n (body i))
    (k : Nat) : Balanced tbl free n (upTo body k) := by
  induction k with
  | zero => exact balanced_pure ()
  | succ k ih => exact ih.bind fun _ => h k

/-- On a state with the table as part of its part. -/
theorem Balanced.zoom {get : τ → σ} {put : τ → σ → τ} {y : τ → Traced ι ε σ α} {tbl' : τ → ρ}
    (hget : ∀ t, tbl (get t) = tbl' t) (hput : ∀ t s, tbl' (put t s) = tbl s)
    (h : ∀ t, Balanced tbl free n (y t)) : Balanced tbl' free n (Traced.zoom get put y) := by
  intro t ht
  obtain ⟨H, hkeeps, hres⟩ := h t (get t) (by rw [hget]; exact ht)
  rw [hget] at hkeeps hres
  change ∃ H, Keeps _ n ∅ (y t (get t) >>= fun p => pure (p.1, put t p.2)).log H ∧
    ∀ b u, (y t (get t) >>= fun p => pure (p.1, put t p.2)).res = .ok (b, u) → _
  cases hy : (y t (get t)).res with
  | error e =>
    rw [Logged.bind_error hy]
    exact ⟨H, hkeeps, fun b u hb => nomatch hb⟩
  | ok p =>
    obtain ⟨hH, htbl⟩ := hres p.1 p.2 hy
    refine ⟨H, ?_, ?_⟩
    · rw [Logged.log_bind_ok hy]
      exact hkeeps.append (.nil _)
    · intro b u hb
      rw [Logged.res_bind, hy] at hb
      cases hb
      exact ⟨hH, (hput t p.2).trans htbl⟩

/-- `acquire` takes `w` slots, and `release` gives them back in some order. -/
def Borrows (tbl : σ → ρ) (free : ρ → Finset ι) (w : Nat) (acquire : Traced ι ε σ κ)
    (release : κ → Traced ι ε σ Unit) : Prop :=
  ∀ s, w ≤ (free (tbl s)).card → ∃ (is js : List ι) (k : κ) (s' : σ),
    is.Nodup ∧ (∀ i ∈ is, i ∈ free (tbl s)) ∧
    is.length = w ∧ js.Perm is ∧ acquire s = ⟨is.map .took, .ok (k, s')⟩ ∧
    free (tbl s') = free (tbl s) \ is.toFinset ∧
    ∀ t, tbl t = tbl s' → ∃ t', release k t = ⟨js.map .gave, .ok ((), t')⟩ ∧ tbl t' = tbl s

theorem Borrows.zoom {get : τ → σ} {put : τ → σ → τ} {tbl' : τ → ρ}
    {acquire : Traced ι ε σ κ} {release : κ → Traced ι ε σ Unit}
    (hb : Borrows tbl free w acquire release) (hget : ∀ t, tbl (get t) = tbl' t)
    (hput : ∀ t s, tbl' (put t s) = tbl s) : Borrows tbl' free w
      (Traced.zoom get put fun _ => acquire) fun k => Traced.zoom get put fun _ => release k := by
  intro t ht
  obtain ⟨is, js, k, s', hnodup, hmem, hlen, hperm, hacq, hfree, hrel⟩ :=
    hb (get t) (by rw [hget]; exact ht)
  rw [hget] at hmem hfree hrel
  refine ⟨is, js, k, put t s', hnodup, hmem, hlen, hperm, ?_, ?_, ?_⟩
  · change (acquire (get t) >>= fun p => (pure (p.1, put t p.2) : Logged (Event ι) ε (κ × τ))) = _
    rw [hacq, Logged.bind_ok]
    exact congrArg (fun l => Logged.mk l (Except.ok (k, put t s'))) (List.append_nil _)
  · rw [hput]
    exact hfree
  · intro u hu
    rw [hput, ← hget] at hu
    obtain ⟨s'', hgave, htbl⟩ := hrel (get u) hu
    refine ⟨put u s'', ?_, (hput u s'').trans htbl⟩
    change (release k (get u) >>= fun p =>
      (pure (p.1, put u p.2) : Logged (Event ι) ε (Unit × τ))) = _
    rw [hgave, Logged.bind_ok]
    exact congrArg (fun l => Logged.mk l (Except.ok ((), put u s''))) (List.append_nil _)

/-- Two slots that are given back in the order they were taken. -/
theorem Borrows.pair {κ' : Type} {acquire : Traced ι ε σ κ} {release : κ → Traced ι ε σ Unit}
    {acquire' : Traced ι ε σ κ'} {release' : κ' → Traced ι ε σ Unit}
    (h : ∀ s, 2 ≤ (free (tbl s)).card → ∃ i j k k' s₁ s₂, i ∈ free (tbl s) ∧ j ∈ free (tbl s) ∧
      j ≠ i ∧ acquire s = ⟨[.took i], .ok (k, s₁)⟩ ∧ acquire' s₁ = ⟨[.took j], .ok (k', s₂)⟩ ∧
      free (tbl s₂) = ((free (tbl s)).erase i).erase j ∧
      ∀ t, tbl t = tbl s₂ → ∃ t₁ t₂, release k t = ⟨[.gave i], .ok ((), t₁)⟩ ∧
        release' k' t₁ = ⟨[.gave j], .ok ((), t₂)⟩ ∧ tbl t₂ = tbl s) :
    Borrows tbl free 2 (do let k ← acquire; let k' ← acquire'; pure (k, k'))
      (fun k => do release k.1; release' k.2) := by
  intro s hs
  obtain ⟨i, j, k, k', s₁, s₂, hi, hj, hji, hacq, hacq', hfree, hrel⟩ := h s hs
  refine ⟨[i, j], [i, j], (k, k'), s₂, ?_, ?_, rfl, List.Perm.refl _, ?_, ?_, ?_⟩
  · exact List.nodup_cons.mpr ⟨fun h => hji (List.mem_singleton.mp h).symm, List.nodup_singleton j⟩
  · intro x hx
    rcases List.mem_cons.mp hx with hx | hx
    · rw [hx]
      exact hi
    · rw [List.mem_singleton.mp hx]
      exact hj
  · change (acquire s >>= fun p => acquire' p.2 >>= fun q =>
      (pure ((p.1, q.1), q.2) : Logged (Event ι) ε ((κ × κ') × σ))) = _
    rw [hacq, Logged.bind_ok]
    dsimp only
    rw [hacq', Logged.bind_ok]
    rfl
  · rw [hfree]
    ext x
    simp only [Finset.mem_erase, Finset.mem_sdiff, List.mem_toFinset, List.mem_cons,
      List.not_mem_nil, or_false, not_or]
    tauto
  · intro t ht
    obtain ⟨t₁, t₂, h1, h2, h3⟩ := hrel t ht
    refine ⟨t₂, ?_, h3⟩
    change (release k t >>= fun p => release' k' p.2) = _
    rw [h1, Logged.bind_ok]
    dsimp only
    rw [h2]
    rfl

/-- A body between an acquisition and its release. -/
theorem Balanced.bracket {acquire : Traced ι ε σ κ} {release : κ → Traced ι ε σ Unit}
    {body : κ → Traced ι ε σ α} (hb : Borrows tbl free w acquire release)
    (h : ∀ k, Balanced tbl free n (body k)) : Balanced tbl free (n + w)
      (do let k ← acquire; let a ← body k; release k; pure a) := by
  intro s hs
  obtain ⟨is, js, k, s', hnodup, hfree, hlen, hperm, hacq, hfree', hrel⟩ :=
    hb s (Nat.le_trans (Nat.le_add_left _ _) hs)
  have hsub : is.toFinset ⊆ free (tbl s) := fun i hi => hfree i (List.mem_toFinset.mp hi)
  have hcard : is.toFinset.card = w := by rw [List.toFinset_card_of_nodup hnodup, hlen]
  have hroom : n ≤ (free (tbl s')).card := by
    rw [hfree', Finset.card_sdiff_of_subset hsub, hcard]
    omega
  obtain ⟨H, hkeeps, hres⟩ := h k s' hroom
  have htook : Keeps (free (tbl s)) (n + w) ∅ (is.map .took) is.toFinset := by
    have := keeps_took (n := n + w) (H := ∅) hnodup
      (fun i hi => ⟨hfree i hi, Finset.notMem_empty i⟩) (by rw [Finset.card_empty, hlen]; omega)
    rw [Finset.empty_union] at this
    exact this
  -- the body holds its slots besides those that were taken for it
  have hbody : Keeps (free (tbl s)) (n + w) is.toFinset (body k s').log (H ∪ is.toFinset) := by
    have := hkeeps.frame (B := is.toFinset) (Finset.empty_subset _)
      (by rw [hfree']; exact Finset.sdiff_disjoint)
    rw [hfree', Finset.sdiff_union_of_subset hsub, Finset.empty_union, hcard] at this
    exact this
  have hrun : (do let k ← acquire; let a ← body k; release k; pure a : Traced ι ε σ α) s =
      Logged.mk (is.map .took ++ ((body k s') >>= fun p => release k p.2 >>= fun q =>
          (pure (p.1, q.2) : Logged (Event ι) ε (α × σ))).log)
        ((body k s') >>= fun p => release k p.2 >>= fun q =>
          (pure (p.1, q.2) : Logged (Event ι) ε (α × σ))).res := by
    change (acquire s >>= _) = _
    rw [hacq]
    rfl
  rw [hrun]
  dsimp only
  cases hx : (body k s').res with
  | error e =>
    rw [Logged.bind_error hx]
    exact ⟨_, htook.append hbody, fun b u hb => nomatch hb⟩
  | ok p =>
    obtain ⟨hH, htbl⟩ := hres p.1 p.2 hx
    obtain ⟨t', hrel, htbl'⟩ := hrel p.2 htbl
    have hgave : Keeps (free (tbl s)) (n + w) is.toFinset (js.map .gave) ∅ := by
      have := keeps_gave (free (tbl s)) (n + w) (H := is.toFinset)
        (hperm.nodup_iff.mpr hnodup) fun j hj => List.mem_toFinset.mpr (hperm.mem_iff.mp hj)
      rw [List.toFinset_eq_of_perm _ _ hperm, Finset.sdiff_self] at this
      exact this
    rw [hH, Finset.empty_union] at hbody
    refine ⟨∅, ?_, ?_⟩
    · rw [Logged.log_bind_ok hx, hrel, Logged.log_bind_ok rfl]
      exact htook.append (hbody.append (hgave.append (.nil _)))
    · intro b u hb
      rw [Logged.res_bind, hx] at hb
      change (release k p.2 >>= _).res = _ at hb
      rw [hrel] at hb
      cases hb
      exact ⟨rfl, htbl'⟩

end Balance

end Slots
