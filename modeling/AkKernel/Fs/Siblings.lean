import AkKernel.Fs.Node

/-!
# The order of siblings

`fs_link_child` looks for the first sibling whose name is not smaller, as an insertion
into a sorted list does, but links the new node behind it, and at the head when every
name is smaller. Two different names are out of order from then on.
-/

set_option autoImplicit false

namespace AkKernel

open Bytes Chains Runs

/-- No name is followed by a smaller one. -/
def NamesSorted (nodes : Nodes) (l : List NodePtr) : Prop :=
  l.Pairwise fun x y => strcmp (nodes x).name (nodes y).name ≤ 0

/-- Any two of the nodes have one name. -/
def SameNames (nodes : Nodes) (l : List NodePtr) : Prop :=
  ∀ x ∈ l, ∀ y ∈ l, (nodes x).name = (nodes y).name

section Order
variable {nodes : Nodes} {child : NodePtr} {l l' : List NodePtr}

theorem NameLess.not_le {x y : NodePtr} (h : NameLess nodes y x) :
    ¬ strcmp (nodes x).name (nodes y).name ≤ 0 := by
  have hswap := strcmp_swap (nodes y).name (nodes x).name
  unfold NameLess at h
  omega

theorem SameNames.sorted (h : SameNames nodes l) : NamesSorted nodes l := by
  apply List.pairwise_of_forall_mem_list
  intro x hx y hy
  exact Int.le_of_eq (strcmp_eq_zero.mpr (h x hx y hy))

/-- Once linked, a node keeps the siblings sorted only if it has their name. -/
theorem spliced_sameNames (h : Spliced (NameLess nodes) child l l')
    (hold : NamesSorted nodes l → SameNames nodes l) (hs : NamesSorted nodes l') :
    SameNames nodes l' := by
  have hsame := hold (hs.sublist h.sublist)
  have hchild : ∀ x ∈ l', (nodes x).name = (nodes child).name := by
    intro x hx
    rcases List.mem_cons.mp (h.perm.mem_iff.mp hx) with rfl | hxl
    · rfl
    · rcases h.exists_eq (fun y hy => hy.not_le) hs with hnil | ⟨y, hy, hge, hle⟩
      · rw [hnil] at hxl
        cases hxl
      · have hzero : strcmp (nodes y).name (nodes child).name = 0 := by
          unfold NameLess at hge
          omega
        exact (hsame x hxl y hy).trans (strcmp_eq_zero.mp hzero)
  intro x hx y hy
  exact (hchild x hx).trans (hchild y hy).symm

end Order

section Runs
variable {nodes₀ nodes : Nodes} {tr : List ((NodePtr × NodePtr) × Unit)}
variable {kids : NodePtr → List NodePtr} {l : List NodePtr}

/-- What the links of a run leave: the children of every parent, with the names they had,
and sorted only where one name is linked again and again. -/
structure Attached (nodes₀ nodes : Nodes) (tr : List ((NodePtr × NodePtr) × Unit))
    (kids : NodePtr → List NodePtr) : Prop where
  forest : Forest nodes kids
  mem : ∀ p x, x ∈ kids p ↔ ((p, x), ()) ∈ tr
  names : ∀ x, (nodes x).name = (nodes₀ x).name
  sorted : ∀ p, NamesSorted nodes₀ (kids p) → SameNames nodes₀ (kids p)

theorem Attached.names_congr (h : Attached nodes₀ nodes tr kids) :
    NamesSorted nodes l ↔ NamesSorted nodes₀ l := by
  simp only [NamesSorted, h.names]

theorem Attached.step {lbl : (NodePtr × NodePtr) × Unit} {nodes' : Nodes}
    (h : Attached nodes₀ nodes tr kids) (hstep : LinkStep nodes lbl nodes') :
    ∃ kids', Attached nodes₀ nodes' (tr ++ [lbl]) kids' := by
  obtain ⟨⟨parent, child⟩, ⟨⟩⟩ := lbl
  obtain ⟨hc, fuel, hr⟩ := hstep
  obtain ⟨l, hl, hforest, hsame⟩ := h.forest.link (hc.not_mem h.forest) hc.last hr
  have hl₀ : Spliced (NameLess nodes₀) child (kids parent) l := by
    have hless : NameLess nodes = NameLess nodes₀ := by
      funext x y
      simp only [NameLess, h.names]
    rwa [hless] at hl
  refine ⟨withKids kids parent l, hforest, ?_, ?_, ?_⟩
  · intro p x
    by_cases hp : p = parent
    · subst hp
      simp [withKids, hl.perm.mem_iff, h.mem, or_comm]
    · simp [withKids, h.mem, hp]
  · intro x
    exact (hsame x).1.trans (h.names x)
  · intro p
    by_cases hp : p = parent
    · subst hp
      simp only [withKids, Function.update_self]
      exact spliced_sameNames hl₀ (h.sorted p)
    · simp only [withKids, Function.update_of_ne hp]
      exact h.sorted p

theorem run_linked (h₀ : NoLinks nodes₀) (hrun : Run LinkStep nodes₀ tr nodes) :
    ∃ kids, Attached nodes₀ nodes tr kids := by
  induction hrun with
  | nil =>
    refine ⟨fun _ => [], h₀.forest, by simp, fun _ => rfl, ?_⟩
    intro p _ x hx
    cases hx
  | snoc _ hstep ih =>
    obtain ⟨kids, hkids⟩ := ih
    exact hkids.step hstep

end Runs

/-- After any links of nodes that were not linked yet, the children of a parent are sorted
by name, and in the same order as after any other run that links the same nodes under the
parent if their names differ, exactly when all nodes linked under the parent have one
name. -/
theorem siblings_sorted_iff (nodes₀ : Nodes) (h₀ : NoLinks nodes₀)
    (tr : List ((NodePtr × NodePtr) × Unit)) (nodes : Nodes)
    (hrun : Run LinkStep nodes₀ tr nodes) (parent : NodePtr) (l : List NodePtr)
    (hl : ChildIter nodes parent none l) :
    (NamesSorted nodes l ∧
      ((l.map fun x => (nodes x).name).Nodup → ∀ tr' nodes' l',
        Run LinkStep nodes₀ tr' nodes' → ChildIter nodes' parent none l' →
        (∀ x, ((parent, x), ()) ∈ tr' ↔ ((parent, x), ()) ∈ tr) → l' = l)) ↔
    ∀ x y, ((parent, x), ()) ∈ tr → ((parent, y), ()) ∈ tr →
      (nodes₀ x).name = (nodes₀ y).name := by
  obtain ⟨kids, hkids⟩ := run_linked h₀ hrun
  have hkl : kids parent = l :=
    childIter_unique (childIter_iff.mpr (hkids.forest.chain parent)) hl
  have hmem : ∀ x, x ∈ l ↔ ((parent, x), ()) ∈ tr := by
    intro x
    rw [← hkl, hkids.mem]
  constructor
  · rintro ⟨hsorted, -⟩ x y hx hy
    have hsame := hkids.sorted parent
    rw [hkl, ← hkids.names_congr] at hsame
    exact hsame hsorted x ((hmem x).mpr hx) y ((hmem y).mpr hy)
  · intro hname
    have hsame : SameNames nodes₀ l := by
      intro x hx y hy
      exact hname x y ((hmem x).mp hx) ((hmem y).mp hy)
    refine ⟨hkids.names_congr.mpr hsame.sorted, ?_⟩
    intro hdistinct tr' nodes' l' hrun' hl' hlinks
    obtain ⟨kids', hkids'⟩ := run_linked h₀ hrun'
    have hkl' : kids' parent = l' :=
      childIter_unique (childIter_iff.mpr (hkids'.forest.chain parent)) hl'
    -- one name and no name twice: there is at most one node
    have hone : l.length ≤ 1 := by
      match l, hdistinct, hsame with
      | [], _, _ => exact Nat.zero_le 1
      | [_], _, _ => exact Nat.le_refl 1
      | x :: y :: l, hdistinct, hsame =>
        have hxy : (nodes x).name = (nodes y).name := by
          rw [hkids.names, hkids.names]
          exact hsame x (by simp) y (by simp)
        simp [hxy] at hdistinct
    have hperm : List.Perm l' l := by
      apply (List.perm_ext_iff_of_nodup (hkl' ▸ hkids'.forest.nodup parent)
        (hkl ▸ hkids.forest.nodup parent)).mpr
      intro x
      rw [← hkl', hkids'.mem, hmem, hlinks]
    match l, hone, hperm with
    | [], _, hperm => exact hperm.eq_nil
    | [_], _, hperm => exact List.perm_singleton.mp hperm

theorem twoLinked_children : ChildIter twoLinked 0 none [1, 2] := by
  refine ⟨rfl, rfl, rfl⟩

/-- With `b` and `a` linked, the children are not sorted. -/
theorem siblings_sorted_two : ¬ (NamesSorted twoLinked [1, 2] ∧
    (([1, 2].map fun x => (twoLinked x).name).Nodup → ∀ tr' nodes' l',
      Run LinkStep twoFiles tr' nodes' → ChildIter nodes' 0 none l' →
      (∀ x, ((0, x), ()) ∈ tr' ↔ ((0, x), ()) ∈ [((0, 1), ()), ((0, 2), ())]) →
      l' = [1, 2])) := by
  rw [siblings_sorted_iff twoFiles twoFiles_noLinks _ twoLinked twoLinked_run 0 [1, 2]
    twoLinked_children]
  intro hsame
  have hname := hsame 1 2 (by simp) (by simp)
  revert hname
  decide

/-- Not every sequence of links leaves sorted children: `a` is linked behind `b`. -/
theorem siblings_not_sorted :
    ¬ ∀ (nodes₀ : Nodes) (tr : List ((NodePtr × NodePtr) × Unit)) (nodes : Nodes)
      (parent : NodePtr) (l : List NodePtr), NoLinks nodes₀ → Run LinkStep nodes₀ tr nodes →
      ChildIter nodes parent none l → NamesSorted nodes l := by
  intro h
  have hsorted := h twoFiles _ twoLinked 0 [1, 2] twoFiles_noLinks twoLinked_run twoLinked_children
  have hle := (List.pairwise_cons.mp hsorted).1 2 (by simp)
  revert hle
  decide

end AkKernel
