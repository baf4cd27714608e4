import Mathlib.Data.List.Nodup
import Mathlib.Logic.Function.Basic

/-!
# Doubly linked rings over an arbitrary type of nodes

A heap of links gives each node an optional successor and an optional
predecessor. `Path` reads a segment of a heap as a list, `Ring` reads a closed
segment without repetition. Pointer surgery is stated with the two field updates
`setNext` and `setPrev`, so that a program's own list operations unfold to them.
-/

set_option autoImplicit false

namespace LinkedRing

universe u

/-- The two link fields of a node; `none` is the null pointer. -/
structure Node (P : Type u) where
  next : Option P
  prev : Option P
deriving DecidableEq, Repr

abbrev Links (P : Type u) := P → Node P

variable {P : Type u} [DecidableEq P]

def setNext (h : Links P) (p : P) (v : Option P) : Links P :=
  Function.update h p { h p with next := v }

def setPrev (h : Links P) (p : P) (v : Option P) : Links P :=
  Function.update h p { h p with prev := v }

@[simp] theorem setNext_next (h : Links P) (p q : P) (v : Option P) :
    (setNext h p v q).next = if q = p then v else (h q).next := by
  unfold setNext
  by_cases hq : q = p
  · subst hq; simp
  · simp [hq]

@[simp] theorem setNext_prev (h : Links P) (p q : P) (v : Option P) :
    (setNext h p v q).prev = (h q).prev := by
  unfold setNext
  by_cases hq : q = p
  · subst hq; simp
  · simp [hq]

@[simp] theorem setPrev_prev (h : Links P) (p q : P) (v : Option P) :
    (setPrev h p v q).prev = if q = p then v else (h q).prev := by
  unfold setPrev
  by_cases hq : q = p
  · subst hq; simp
  · simp [hq]

@[simp] theorem setPrev_next (h : Links P) (p q : P) (v : Option P) :
    (setPrev h p v q).next = (h q).next := by
  unfold setPrev
  by_cases hq : q = p
  · subst hq; simp
  · simp [hq]

omit [DecidableEq P] in
/-- Adjacency, recorded at both ends. -/
def Linked (h : Links P) (a b : P) : Prop :=
  (h a).next = some b ∧ (h b).prev = some a

/-- The nodes strictly between `a` and `b`, in order. -/
def Path (h : Links P) : P → List P → P → Prop
  | a, [], b => Linked h a b
  | a, x :: l, b => Linked h a x ∧ Path h x l b

section Segments
omit [DecidableEq P]
variable {h k : Links P} {a b x : P} {l m : List P}

theorem path_append : Path h a (l ++ x :: m) b ↔ Path h a l x ∧ Path h x m b := by
  induction l generalizing a with
  | nil => simp [Path]
  | cons y l ih => simp only [List.cons_append, Path, ih, and_assoc]

/-- A segment only reads the forward links of its sources and the backward
links of its targets. -/
theorem path_congr (hNext : ∀ y ∈ a :: l, (k y).next = (h y).next)
    (hPrev : ∀ y ∈ l ++ [b], (k y).prev = (h y).prev) (hp : Path h a l b) : Path k a l b := by
  induction l generalizing a with
  | nil =>
    refine ⟨?_, ?_⟩
    · rw [hNext a List.mem_cons_self]; exact hp.1
    · rw [hPrev b (by simp)]; exact hp.2
  | cons y l ih =>
    refine ⟨⟨?_, ?_⟩, ?_⟩
    · rw [hNext a List.mem_cons_self]; exact hp.1.1
    · rw [hPrev y (by simp)]; exact hp.1.2
    · exact ih (fun z hz => hNext z (List.mem_cons_of_mem a hz))
        (fun z hz => hPrev z (List.mem_cons_of_mem y hz)) hp.2

theorem path_next (hp : Path h a l b) : (h a).next = (l ++ [b]).head? := by
  cases l with
  | nil => exact hp.1
  | cons y l => exact hp.1.1

end Segments

/-- Reading the ring from `c`: first `c`, then the members of `l`, then `c` again. -/
structure Ring (h : Links P) (c : P) (l : List P) : Prop where
  path : Path h c l c
  nodup : (c :: l).Nodup

namespace Ring

variable {h : Links P} {c x : P} {l m : List P}

omit [DecidableEq P] in
theorem rotate (hr : Ring h c (l ++ x :: m)) : Ring h x (m ++ c :: l) := by
  have hp := path_append.mp hr.path
  refine ⟨path_append.mpr ⟨hp.2, hp.1⟩, ?_⟩
  have hperm : (c :: (l ++ x :: m)).Perm (x :: (m ++ c :: l)) := by
    have h1 : (c :: l ++ x :: m).Perm (x :: m ++ c :: l) := List.perm_append_comm
    simpa using h1
  exact hperm.nodup_iff.mp hr.nodup

omit [DecidableEq P] in
theorem rotate_mem (hr : Ring h c l) (hx : x ∈ c :: l) :
    ∃ m, Ring h x m ∧ (x :: m).Perm (c :: l) := by
  rcases List.mem_cons.mp hx with rfl | hx
  · exact ⟨l, hr, List.Perm.refl _⟩
  · obtain ⟨s, t, rfl⟩ := List.append_of_mem hx
    refine ⟨t ++ c :: s, hr.rotate, ?_⟩
    have h1 : (x :: t ++ c :: s).Perm (c :: s ++ x :: t) := List.perm_append_comm
    simpa using h1

theorem insert_after {o : P} (hr : Ring h c l) (hx : x ∉ c :: l)
    (ho : (h c).next = some o) :
    Ring (setPrev (setNext (setPrev (setNext h c (some x)) o (some x)) x (some o)) x (some c))
      c (x :: l) := by
  have hxc : x ≠ c := fun he => hx (by simp [he])
  have hnd : (c :: x :: l).Nodup := by
    have h1 := hr.nodup
    simp only [List.nodup_cons, List.mem_cons, not_or] at h1 hx ⊢
    exact ⟨⟨fun he => hxc he.symm, h1.1⟩, hx.2, h1.2⟩
  refine ⟨?_, hnd⟩
  cases l with
  | nil =>
    have hoc : o = c := by
      have := hr.path.1
      rw [ho] at this
      exact Option.some.inj this
    subst hoc
    simp [Path, Linked, Ne.symm hxc]
  | cons y l =>
    have hoy : o = y := by
      have := hr.path.1.1
      rw [ho] at this
      exact Option.some.inj this
    subst hoy
    simp only [List.nodup_cons, List.mem_cons, not_or] at hnd
    obtain ⟨⟨-, hco, hcl⟩, ⟨hxo, hxl⟩, hol, -⟩ := hnd
    refine ⟨?_, ?_, ?_⟩
    · simp [Linked, Ne.symm hxc]
    · simp [Linked, Ne.symm hxo]
    · refine path_congr ?_ ?_ hr.path.2
      · intro z hz
        have hzx : z ≠ x := by
          rintro rfl
          exact hx (List.mem_cons_of_mem _ hz)
        have hzc : z ≠ c := by
          rintro rfl
          rcases List.mem_cons.mp hz with he | hz
          · exact hco he
          · exact hcl hz
        simp [hzx, hzc]
      · intro z hz
        have hzx : z ≠ x := by
          rintro rfl
          rcases List.mem_append.mp hz with hz | hz
          · exact hxl hz
          · exact hxc (List.mem_singleton.mp hz)
        have hzo : z ≠ o := by
          rintro rfl
          rcases List.mem_append.mp hz with hz | hz
          · exact hol hz
          · exact hco (List.mem_singleton.mp hz).symm
        simp [hzx, hzo]

theorem remove_next {q n p : P} (hr : Ring h c (q :: l))
    (hn : (h q).next = some n) (hp : (h q).prev = some p) :
    Ring (setPrev (setNext (setNext (setPrev h q none) q none) p (some n)) n (some p)) c l := by
  have hpc : p = c := by
    have := hr.path.1.2
    rw [hp] at this
    exact Option.some.inj this
  subst hpc
  have hnd := hr.nodup
  simp only [List.nodup_cons, List.mem_cons, not_or] at hnd
  obtain ⟨⟨hpq, hpl⟩, hql, hl⟩ := hnd
  refine ⟨?_, List.nodup_cons.mpr ⟨hpl, hl⟩⟩
  cases l with
  | nil =>
    have hnp : n = p := by
      have := hr.path.2.1
      rw [hn] at this
      exact Option.some.inj this
    subst hnp
    simp [Path, Linked]
  | cons y l =>
    have hny : n = y := by
      have := hr.path.2.1.1
      rw [hn] at this
      exact Option.some.inj this
    subst hny
    simp only [List.mem_cons, not_or] at hpl hql
    refine ⟨by simp [Linked], ?_⟩
    refine path_congr ?_ ?_ hr.path.2.2
    · intro z hz
      have hzp : z ≠ p := by
        rintro rfl
        rcases List.mem_cons.mp hz with he | hz
        · exact hpl.1 he
        · exact hpl.2 hz
      have hzq : z ≠ q := by
        rintro rfl
        rcases List.mem_cons.mp hz with he | hz
        · exact hql.1 he
        · exact hql.2 hz
      simp [hzp, hzq]
    · intro z hz
      have hzn : z ≠ n := by
        rintro rfl
        rcases List.mem_append.mp hz with hz | hz
        · exact (List.nodup_cons.mp hl).1 hz
        · exact hpl.1 (List.mem_singleton.mp hz).symm
      have hzq : z ≠ q := by
        rintro rfl
        rcases List.mem_append.mp hz with hz | hz
        · exact hql.2 hz
        · exact hpq (List.mem_singleton.mp hz).symm
      simp [hzn, hzq]

theorem remove {q n p : P} (hr : Ring h c (l ++ q :: m))
    (hn : (h q).next = some n) (hp : (h q).prev = some p) :
    Ring (setPrev (setNext (setNext (setPrev h q none) q none) p (some n)) n (some p)) c
      (l ++ m) := by
  rcases List.eq_nil_or_concat l with rfl | ⟨s, y, rfl⟩
  · exact hr.remove_next hn hp
  · have h1 : Ring h c (s ++ y :: (q :: m)) := by simpa using hr
    have h2 := h1.rotate
    have h3 := Ring.remove_next (l := m ++ c :: s) (by simpa using h2) hn hp
    have h4 := h3.rotate
    simpa using h4

/-- The links of a node outside the ring are free to change. -/
theorem setNext_of_not_mem {q : P} {v : Option P} (hr : Ring h c l) (hq : q ∉ c :: l) :
    Ring (setNext h q v) c l := by
  refine ⟨path_congr ?_ ?_ hr.path, hr.nodup⟩
  · intro y hy
    have hne : y ≠ q := by
      rintro rfl
      exact hq hy
    simp [hne]
  · intro y _
    simp

omit [DecidableEq P] in
theorem links_mem (hr : Ring h c l) (hx : x ∈ c :: l) :
    ∃ n p, (h x).next = some n ∧ (h x).prev = some p ∧ n ∈ c :: l ∧ p ∈ c :: l ∧
      Linked h x n ∧ Linked h p x := by
  obtain ⟨m, hm, hperm⟩ := hr.rotate_mem hx
  rcases List.eq_nil_or_concat m with rfl | ⟨s, y, rfl⟩
  · exact ⟨x, x, hm.path.1, hm.path.2, hx, hx, hm.path, hm.path⟩
  · have hp : Path h x (s ++ y :: []) x := by simpa using hm.path
    have hlast : Linked h y x := (path_append.mp hp).2
    have hy : y ∈ c :: l := hperm.mem_iff.mp (by simp)
    cases s with
    | nil => exact ⟨y, y, hp.1.1, hlast.2, hy, hy, hp.1, hlast⟩
    | cons z s =>
      have hz : z ∈ c :: l := hperm.mem_iff.mp (by simp)
      exact ⟨z, y, hp.1.1, hlast.2, hz, hy, hp.1, hlast⟩

end Ring

end LinkedRing
