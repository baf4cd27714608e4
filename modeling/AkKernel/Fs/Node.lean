import AkKernel.Foundation.Bytes
import AkKernel.Foundation.Chain
import AkKernel.Proc.Task
import Mathlib.Data.List.Perm.Basic

/-!
# File system nodes

`kernel/fs/node.c`. The children of a node are a list linked through `next_sibling`,
into which `fs_link_child` inserts behind the first name that is not smaller, or at
the head when there is none.
-/

set_option autoImplicit false

namespace AkKernel

open Bytes Chains Runs

abbrev NodePtr := Nat

/-- What the `open` and `stat` pointers of a node's template lead to. -/
inductive NodeOps where
  | dir
  | tmpFile (device : DevPtr)
  | cpioFile (device : DevPtr)
  | dev (device : DevPtr)
deriving DecidableEq, Repr

structure FsNode where
  name : CString
  ops : NodeOps
  firstChild : Option NodePtr
  nextSibling : Option NodePtr
deriving DecidableEq

abbrev Nodes := NodePtr → FsNode

def setFirstChild (nodes : Nodes) (n : NodePtr) (v : Option NodePtr) : Nodes :=
  Function.update nodes n { nodes n with firstChild := v }

def setNextSibling (nodes : Nodes) (n : NodePtr) (v : Option NodePtr) : Nodes :=
  Function.update nodes n { nodes n with nextSibling := v }

def fsChildIter (nodes : Nodes) (parent : NodePtr) : Option NodePtr → Option NodePtr
  | none => (nodes parent).firstChild
  | some child => (nodes child).nextSibling

/-- The loop of `fs_link_child` over the siblings with smaller names. -/
def fsLinkLoop (nodes : Nodes) (name : CString) : Nat → Option NodePtr → Except Fault (Option NodePtr)
  | 0, _ => .error .diverges
  | _ + 1, none => .ok none
  | fuel + 1, some i =>
    if strcmp (nodes i).name name < 0 then fsLinkLoop nodes name fuel (nodes i).nextSibling
    else .ok (some i)

def fsLinkChild (fuel : Nat) (nodes : Nodes) (parent child : NodePtr) : Except Fault Nodes :=
  match (nodes parent).firstChild with
  | none => .ok (setFirstChild nodes parent (some child))
  | some first => do
    match ← fsLinkLoop nodes (nodes child).name fuel (some first) with
    | none => .ok (setNextSibling (setFirstChild nodes parent (some child)) child (some first))
    | some i =>
      .ok (setNextSibling (setNextSibling nodes i (some child)) child (nodes i).nextSibling)

def fsPathDelim : CChar := ⟨0x2F, by decide⟩

/-- What `strtok` yields: the components that are not empty. -/
def strtok (path : CString) : List CString := (path.splitOn fsPathDelim).filter (· ≠ [])

theorem strtok_name {name : CString} (hne : name ≠ []) (h : fsPathDelim ∉ name) :
    strtok name = [name] := by
  simp [strtok, List.splitOn_eq_singleton h, hne]

/-- The inner loop of `fs_locate`; `tok` is `NULL` when the path has no component. -/
def fsFindChild (nodes : Nodes) (cur : NodePtr) (tok : Option CString) :
    Nat → Option NodePtr → Except Fault (Option NodePtr)
  | 0, _ => .error .diverges
  | fuel + 1, child =>
    match fsChildIter nodes cur child with
    | none => .ok none
    | some child => do
      let tok' ← deref tok
      if strcmp tok' (nodes child).name = 0 then .ok (some child)
      else fsFindChild nodes cur tok fuel (some child)

/-- The outer loop of `fs_locate`, at the component `tok` with `rest` behind it. -/
def fsLocateLoop (fuel : Nat) (nodes : Nodes) (tok : Option CString) :
    List CString → NodePtr → Except Fault (Option NodePtr)
  | [], cur => fsFindChild nodes cur tok fuel none
  | next :: rest, cur => do
    match ← fsFindChild nodes cur tok fuel none with
    | none => .ok none
    | some child => fsLocateLoop fuel nodes (some next) rest child

def fsLocate (fuel : Nat) (nodes : Nodes) (origin : NodePtr) (path : CString) :
    Except Fault (Option NodePtr) :=
  fsLocateLoop fuel nodes (strtok path).head? (strtok path).tail origin

@[simp] theorem setFirstChild_nextSibling (nodes : Nodes) (n m : NodePtr) (v : Option NodePtr) :
    (setFirstChild nodes n v m).nextSibling = (nodes m).nextSibling := by
  by_cases h : m = n
  · subst h; simp [setFirstChild]
  · simp [setFirstChild, h]

@[simp] theorem setNextSibling_firstChild (nodes : Nodes) (n m : NodePtr) (v : Option NodePtr) :
    (setNextSibling nodes n v m).firstChild = (nodes m).firstChild := by
  by_cases h : m = n
  · subst h; simp [setNextSibling]
  · simp [setNextSibling, h]

@[simp] theorem setFirstChild_name (nodes : Nodes) (n m : NodePtr) (v : Option NodePtr) :
    (setFirstChild nodes n v m).name = (nodes m).name := by
  by_cases h : m = n
  · subst h; simp [setFirstChild]
  · simp [setFirstChild, h]

@[simp] theorem setNextSibling_name (nodes : Nodes) (n m : NodePtr) (v : Option NodePtr) :
    (setNextSibling nodes n v m).name = (nodes m).name := by
  by_cases h : m = n
  · subst h; simp [setNextSibling]
  · simp [setNextSibling, h]

@[simp] theorem setFirstChild_ops (nodes : Nodes) (n m : NodePtr) (v : Option NodePtr) :
    (setFirstChild nodes n v m).ops = (nodes m).ops := by
  by_cases h : m = n
  · subst h; simp [setFirstChild]
  · simp [setFirstChild, h]

@[simp] theorem setNextSibling_ops (nodes : Nodes) (n m : NodePtr) (v : Option NodePtr) :
    (setNextSibling nodes n v m).ops = (nodes m).ops := by
  by_cases h : m = n
  · subst h; simp [setNextSibling]
  · simp [setNextSibling, h]

@[simp] theorem setFirstChild_firstChild (nodes : Nodes) (n m : NodePtr) (v : Option NodePtr) :
    (setFirstChild nodes n v m).firstChild = if m = n then v else (nodes m).firstChild := by
  by_cases h : m = n
  · subst h; simp [setFirstChild]
  · simp [setFirstChild, h]

@[simp] theorem setNextSibling_nextSibling (nodes : Nodes) (n m : NodePtr) (v : Option NodePtr) :
    (setNextSibling nodes n v m).nextSibling = if m = n then v else (nodes m).nextSibling := by
  by_cases h : m = n
  · subst h; simp [setNextSibling]
  · simp [setNextSibling, h]

/-- The lists of children, no two of which share a node. -/
structure Forest (nodes : Nodes) (kids : NodePtr → List NodePtr) : Prop where
  chain : ∀ p, Chain (fun n => (nodes n).nextSibling) (nodes p).firstChild (kids p)
  nodup : ∀ p, (kids p).Nodup
  disjoint : ∀ p q x, x ∈ kids p → x ∈ kids q → p = q

/-- No list of children has the node. -/
structure Unlinked (nodes : Nodes) (child : NodePtr) : Prop where
  last : (nodes child).nextSibling = none
  notFirst : ∀ p, (nodes p).firstChild ≠ some child
  notNext : ∀ n, (nodes n).nextSibling ≠ some child

/-- The children after `child` was linked under `parent`, if `l` are those of `parent`. -/
def withKids (kids : NodePtr → List NodePtr) (parent : NodePtr) (l : List NodePtr) :
    NodePtr → List NodePtr :=
  Function.update kids parent l

section Links
variable {nodes nodes' : Nodes} {kids : NodePtr → List NodePtr} {parent child : NodePtr}
variable {head : Option NodePtr} {l : List NodePtr} {fuel : Nat}

theorem Forest.kids_nil (h : Forest nodes kids) (hn : (nodes parent).firstChild = none) :
    kids parent = [] := by
  have hchain := h.chain parent
  rw [hn] at hchain
  cases hk : kids parent with
  | nil => rfl
  | cons x l =>
    rw [hk] at hchain
    cases hchain.1

theorem Unlinked.not_mem (hc : Unlinked nodes child) (h : Forest nodes kids) (p : NodePtr) :
    child ∉ kids p := by
  intro hm
  rcases (h.chain p).referred hm with hf | ⟨n, -, hn⟩
  · exact hc.notFirst p hf
  · exact hc.notNext n hn

/-- The list that a splice makes of one parent's children, all others kept. -/
theorem Forest.adopt (h : Forest nodes kids) (hx : ∀ p, child ∉ kids p)
    (hl : List.Perm l (child :: kids parent))
    (hparent : Chain (fun n => (nodes' n).nextSibling) (nodes' parent).firstChild l)
    (hfirst : ∀ p, p ≠ parent → (nodes' p).firstChild = (nodes p).firstChild)
    (hnext : ∀ p, p ≠ parent → ∀ n ∈ kids p, (nodes' n).nextSibling = (nodes n).nextSibling) :
    Forest nodes' (withKids kids parent l) := by
  have hmem : ∀ p x, x ∈ withKids kids parent l p →
      (p = parent ∧ x = child) ∨ x ∈ kids p := by
    intro p x hm
    by_cases hp : p = parent
    · subst hp
      simp only [withKids, Function.update_self] at hm
      rcases List.mem_cons.mp (hl.mem_iff.mp hm) with hxc | hxk
      · exact Or.inl ⟨rfl, hxc⟩
      · exact Or.inr hxk
    · simp only [withKids, Function.update_of_ne hp] at hm
      exact Or.inr hm
  refine ⟨?_, ?_, ?_⟩
  · intro p
    by_cases hp : p = parent
    · subst hp
      simpa [withKids] using hparent
    · simp only [withKids, Function.update_of_ne hp, hfirst p hp]
      exact (h.chain p).congr (hnext p hp)
  · intro p
    by_cases hp : p = parent
    · subst hp
      simp only [withKids, Function.update_self]
      exact hl.nodup_iff.mpr (List.nodup_cons.mpr ⟨hx p, h.nodup p⟩)
    · simp only [withKids, Function.update_of_ne hp]
      exact h.nodup p
  · intro p q x hp hq
    rcases hmem p x hp with ⟨hpp, hxc⟩ | hp
    · rcases hmem q x hq with ⟨hqp, -⟩ | hq
      · exact hpp.trans hqp.symm
      · exact absurd (hxc ▸ hq) (hx q)
    · rcases hmem q x hq with ⟨-, hxc⟩ | hq
      · exact absurd (hxc ▸ hp) (hx p)
      · exact h.disjoint p q x hp hq

/-- The sibling that the loop of `fs_link_child` stops at. -/
def firstNotLess (nodes : Nodes) (name : CString) (l : List NodePtr) : Option NodePtr :=
  l.find? fun i => ¬ strcmp (nodes i).name name < 0

theorem firstNotLess_cons (name : CString) (x : NodePtr) :
    firstNotLess nodes name (x :: l) =
      if strcmp (nodes x).name name < 0 then firstNotLess nodes name l else some x := by
  by_cases hx : strcmp (nodes x).name name < 0
  · rw [if_pos hx, firstNotLess, List.find?_cons_of_neg (by simpa using hx)]
    rfl
  · rw [if_neg hx, firstNotLess, List.find?_cons_of_pos (by simpa using hx)]

theorem fsLinkLoop_ends {name : CString} (h : Chain (fun n => (nodes n).nextSibling) head l)
    (hf : l.length < fuel) :
    fsLinkLoop nodes name fuel head = .ok (firstNotLess nodes name l) := by
  induction l generalizing head fuel with
  | nil =>
    cases fuel with
    | zero => cases hf
    | succ fuel =>
      cases h
      rfl
  | cons x l ih =>
    cases fuel with
    | zero => cases hf
    | succ fuel =>
      obtain ⟨rfl, h⟩ := h
      rw [fsLinkLoop, firstNotLess_cons, ih h (Nat.lt_of_succ_lt_succ hf)]
      split
      · rfl
      · rfl

theorem fsLinkLoop_ok {name : CString} {r : Option NodePtr}
    (h : Chain (fun n => (nodes n).nextSibling) head l)
    (hr : fsLinkLoop nodes name fuel head = .ok r) : r = firstNotLess nodes name l := by
  induction l generalizing head fuel with
  | nil =>
    cases fuel with
    | zero => cases hr
    | succ fuel =>
      cases h
      cases hr
      rfl
  | cons x l ih =>
    cases fuel with
    | zero => cases hr
    | succ fuel =>
      obtain ⟨rfl, h⟩ := h
      rw [fsLinkLoop] at hr
      rw [firstNotLess_cons]
      split at hr
      · rw [if_pos (by assumption)]
        exact ih h hr
      · rw [if_neg (by assumption)]
        exact (Except.ok.inj hr).symm

theorem firstNotLess_none {name : CString} (h : firstNotLess nodes name l = none) :
    ∀ y ∈ l, strcmp (nodes y).name name < 0 := by
  intro y hy
  simpa using List.find?_eq_none.mp h y hy

theorem firstNotLess_some {name : CString} {i : NodePtr} (h : firstNotLess nodes name l = some i) :
    i ∈ l ∧ ¬ strcmp (nodes i).name name < 0 :=
  ⟨List.mem_of_find?_eq_some h, by simpa using List.find?_some h⟩

/-- What `fs_link_child` returns, by where its loop stops. -/
theorem fsLinkChild_cases (h : Forest nodes kids)
    (hr : fsLinkChild fuel nodes parent child = .ok nodes') :
    (kids parent = [] ∧ nodes' = setFirstChild nodes parent (some child)) ∨
    (firstNotLess nodes (nodes child).name (kids parent) = none ∧
      nodes' = setNextSibling (setFirstChild nodes parent (some child)) child
        (nodes parent).firstChild) ∨
    ∃ i, firstNotLess nodes (nodes child).name (kids parent) = some i ∧
      nodes' = setNextSibling (setNextSibling nodes i (some child)) child (nodes i).nextSibling := by
  have hchain := h.chain parent
  unfold fsLinkChild at hr
  cases hfirst : (nodes parent).firstChild with
  | none =>
    rw [hfirst] at hr hchain
    exact Or.inl ⟨h.kids_nil hfirst, (Except.ok.inj hr).symm⟩
  | some first =>
    rw [hfirst] at hr hchain
    right
    obtain ⟨r, hloop, hr⟩ := bind_eq_ok.mp hr
    rw [fsLinkLoop_ok hchain hloop] at hr
    cases hfind : firstNotLess nodes (nodes child).name (kids parent) with
    | none =>
      rw [hfind] at hr
      exact Or.inl ⟨rfl, (Except.ok.inj hr).symm⟩
    | some i =>
      rw [hfind] at hr
      exact Or.inr ⟨i, rfl, (Except.ok.inj hr).symm⟩

theorem fsLinkChild_ends (h : Forest nodes kids) (hf : (kids parent).length < fuel) :
    ∃ nodes', fsLinkChild fuel nodes parent child = .ok nodes' := by
  have hchain := h.chain parent
  unfold fsLinkChild
  cases hfirst : (nodes parent).firstChild with
  | none => exact ⟨_, rfl⟩
  | some first =>
    rw [hfirst] at hchain
    simp only [fsLinkLoop_ends hchain hf, bind, Except.bind]
    split
    · exact ⟨_, rfl⟩
    · exact ⟨_, rfl⟩

theorem fsLinkChild_fuel (h : Forest nodes kids) {fuel' : Nat} (hf : (kids parent).length < fuel)
    (hf' : (kids parent).length < fuel') :
    fsLinkChild fuel nodes parent child = fsLinkChild fuel' nodes parent child := by
  have hchain := h.chain parent
  unfold fsLinkChild
  cases hfirst : (nodes parent).firstChild with
  | none => rfl
  | some first =>
    rw [hfirst] at hchain
    simp only [fsLinkLoop_ends hchain hf, fsLinkLoop_ends hchain hf']

/-- The name of the first node comes before the name of the second one. -/
def NameLess (nodes : Nodes) (x y : NodePtr) : Prop := strcmp (nodes x).name (nodes y).name < 0

theorem ne_child (hx : ∀ p, child ∉ kids p) : ∀ p, ∀ n ∈ kids p, n ≠ child := by
  intro p n hn heq
  exact hx p (heq ▸ hn)

theorem Forest.link_only (h : Forest nodes kids) (hx : ∀ p, child ∉ kids p)
    (hlast : (nodes child).nextSibling = none) (hnil : kids parent = []) :
    Forest (setFirstChild nodes parent (some child)) (withKids kids parent [child]) := by
  apply h.adopt hx
  · rw [hnil]
  · simp [Chain, hlast]
  · intro p hp
    simp [hp]
  · intro p _ n _
    simp

theorem Forest.link_front (h : Forest nodes kids) (hx : ∀ p, child ∉ kids p) :
    Forest (setNextSibling (setFirstChild nodes parent (some child)) child
      (nodes parent).firstChild) (withKids kids parent (child :: kids parent)) := by
  have hne := ne_child hx
  apply h.adopt hx (.refl _)
  · have hfirst : (setNextSibling (setFirstChild nodes parent (some child)) child
        (nodes parent).firstChild parent).firstChild = some child := by simp
    rw [hfirst]
    apply (h.chain parent).push (by simp)
    intro n hn
    simp [hne parent n hn]
  · intro p hp
    simp [hp]
  · intro p _ n hn
    simp [hne p n hn]

theorem Forest.link_behind (h : Forest nodes kids) (hx : ∀ p, child ∉ kids p) {i : NodePtr}
    {a b : List NodePtr} (hab : kids parent = a ++ i :: b)
    (hl : List.Perm (a ++ i :: child :: b) (child :: kids parent)) :
    Forest (setNextSibling (setNextSibling nodes i (some child)) child (nodes i).nextSibling)
      (withKids kids parent (a ++ i :: child :: b)) := by
  have hchain := h.chain parent
  have hnodup := h.nodup parent
  rw [hab] at hchain hnodup
  have hi : i ∈ kids parent := by
    rw [hab]
    exact List.mem_append_right a List.mem_cons_self
  have hi' : ∀ n ∈ a ++ b, n ≠ i := by
    intro n hn heq
    subst heq
    exact (List.nodup_cons.mp (List.nodup_middle.mp hnodup)).1 hn
  have hne := ne_child hx
  apply h.adopt hx hl
  · simp only [setNextSibling_firstChild]
    have hic : i ≠ child := hne parent i hi
    apply hchain.insert
    · simp [hic]
    · simp
    · intro n hn
      have hn' : n ∈ kids parent := by
        rw [hab]
        rcases List.mem_append.mp hn with hn | hn
        · exact List.mem_append_left _ hn
        · exact List.mem_append_right _ (List.mem_cons_of_mem i hn)
      simp [hi' n hn, hne parent n hn']
  · intro p hp
    simp
  · intro p hp n hn
    have hni : n ≠ i := by
      intro heq
      exact hp (h.disjoint p parent n hn (heq ▸ hi))
    simp [hni, hne p n hn]

/-- Linking adds the node to the children of its parent and moves no other node. -/
theorem Forest.link (h : Forest nodes kids) (hx : ∀ p, child ∉ kids p)
    (hlast : (nodes child).nextSibling = none)
    (hr : fsLinkChild fuel nodes parent child = .ok nodes') :
    ∃ l, Spliced (NameLess nodes) child (kids parent) l ∧
      Forest nodes' (withKids kids parent l) ∧
      ∀ n, (nodes' n).name = (nodes n).name ∧ (nodes' n).ops = (nodes n).ops := by
  rcases fsLinkChild_cases h hr with ⟨hnil, rfl⟩ | ⟨hless, rfl⟩ | ⟨i, hfind, rfl⟩
  · refine ⟨[child], ?_, h.link_only hx hlast hnil, by simp⟩
    rw [hnil]
    exact .head fun y hy => absurd hy List.not_mem_nil
  · exact ⟨child :: kids parent, .head (firstNotLess_none hless), h.link_front hx, by simp⟩
  · obtain ⟨hi, hnot⟩ := firstNotLess_some hfind
    obtain ⟨a, b, hab⟩ := List.append_of_mem hi
    have hl : Spliced (NameLess nodes) child (kids parent) (a ++ i :: child :: b) := by
      rw [hab]
      exact .behind hnot
    exact ⟨a ++ i :: child :: b, hl, h.link_behind hx hab hl.perm, by simp⟩

end Links

/-- `fs_child_iter`, called again and again from `cur` on, gives `l` and then `NULL`. -/
def ChildIter (nodes : Nodes) (parent : NodePtr) : Option NodePtr → List NodePtr → Prop
  | cur, [] => fsChildIter nodes parent cur = none
  | cur, x :: l => fsChildIter nodes parent cur = some x ∧ ChildIter nodes parent (some x) l

/-- Goes down the tree by name; among equal names the first child counts. -/
def follow (name : NodePtr → CString) (kids : NodePtr → List NodePtr) :
    NodePtr → List CString → Option NodePtr
  | n, [] => some n
  | n, c :: path => ((kids n).find? fun k => name k = c).bind fun k => follow name kids k path

section Locate
variable {nodes : Nodes} {kids : NodePtr → List NodePtr} {parent cur : NodePtr}
variable {from' : Option NodePtr} {l : List NodePtr} {tok : CString} {fuel : Nat}

theorem childIter_iff : ChildIter nodes parent from' l ↔
    Chain (fun n => (nodes n).nextSibling) (fsChildIter nodes parent from') l := by
  induction l generalizing from' with
  | nil => exact Iff.rfl
  | cons x l ih => exact and_congr Iff.rfl ih

theorem childIter_unique {m : List NodePtr} (h : ChildIter nodes parent from' l)
    (hm : ChildIter nodes parent from' m) : l = m :=
  (childIter_iff.mp h).unique (childIter_iff.mp hm)

theorem fsFindChild_eq (h : ChildIter nodes cur from' l) (hf : l.length < fuel) :
    fsFindChild nodes cur (some tok) fuel from' =
      .ok (l.find? fun k => (nodes k).name = tok) := by
  induction l generalizing from' fuel with
  | nil =>
    cases fuel with
    | zero => cases hf
    | succ fuel =>
      rw [fsFindChild, show fsChildIter nodes cur from' = none from h]
      rfl
  | cons x l ih =>
    cases fuel with
    | zero => cases hf
    | succ fuel =>
      rw [fsFindChild, h.1]
      simp only [deref, bind, Except.bind, strcmp_eq_zero]
      by_cases hx : tok = (nodes x).name
      · rw [if_pos hx, List.find?_cons_of_pos (by simpa using hx.symm)]
      · rw [if_neg hx, List.find?_cons_of_neg (by simpa using fun h => hx h.symm)]
        exact ih h.2 (Nat.lt_of_succ_lt_succ hf)

/-- With enough rounds for the lists it walks, the loop of `fs_locate` follows the path. -/
theorem fsLocateLoop_follows (h : ∀ p, ChildIter nodes p none (kids p)) (tok : CString)
    (rest : List CString) (cur : NodePtr) : ∃ bound, ∀ fuel, bound ≤ fuel →
      fsLocateLoop fuel nodes (some tok) rest cur =
        .ok (follow (fun n => (nodes n).name) kids cur (tok :: rest)) := by
  induction rest generalizing tok cur with
  | nil =>
    refine ⟨(kids cur).length + 1, ?_⟩
    intro fuel hf
    rw [fsLocateLoop, fsFindChild_eq (h cur) hf, follow]
    cases (kids cur).find? fun k => (nodes k).name = tok with
    | none => rfl
    | some k => rfl
  | cons next rest ih =>
    cases hk : (kids cur).find? fun k => (nodes k).name = tok with
    | none =>
      refine ⟨(kids cur).length + 1, ?_⟩
      intro fuel hf
      rw [fsLocateLoop, fsFindChild_eq (h cur) hf, follow, hk]
      rfl
    | some k =>
      obtain ⟨bound, ih⟩ := ih next k
      refine ⟨max bound ((kids cur).length + 1), ?_⟩
      intro fuel hf
      rw [fsLocateLoop, fsFindChild_eq (h cur) (by omega), follow, hk]
      exact ih fuel (by omega)

theorem fsLocate_follows (h : ∀ p, ChildIter nodes p none (kids p)) (origin : NodePtr)
    {path : CString} (hpath : strtok path ≠ []) : ∃ bound, ∀ fuel, bound ≤ fuel →
      fsLocate fuel nodes origin path =
        .ok (follow (fun n => (nodes n).name) kids origin (strtok path)) := by
  cases htok : strtok path with
  | nil => exact absurd htok hpath
  | cons tok rest =>
    simp only [fsLocate, htok, List.head?_cons, List.tail_cons]
    exact fsLocateLoop_follows h tok rest origin

end Locate

/-- `fs_link_child(parent, child)` of a node that is not linked yet. -/
def LinkStep (nodes : Nodes) (lbl : (NodePtr × NodePtr) × Unit) (nodes' : Nodes) : Prop :=
  Unlinked nodes lbl.1.2 ∧ ∃ fuel, fsLinkChild fuel nodes lbl.1.1 lbl.1.2 = .ok nodes'

/-- Every node as its template has it. -/
def NoLinks (nodes : Nodes) : Prop :=
  ∀ n, (nodes n).firstChild = none ∧ (nodes n).nextSibling = none

section Runs
variable {nodes₀ nodes : Nodes} {tr : List ((NodePtr × NodePtr) × Unit)}

theorem NoLinks.forest (h : NoLinks nodes) : Forest nodes fun _ => [] := by
  refine ⟨fun p => (h p).1, fun _ => List.nodup_nil, ?_⟩
  intro p q x hx
  cases hx

theorem run_forest (h₀ : NoLinks nodes₀) (hrun : Run LinkStep nodes₀ tr nodes) :
    ∃ kids, Forest nodes kids ∧ ∀ p x, x ∈ kids p ↔ ((p, x), ()) ∈ tr := by
  induction hrun with
  | nil => exact ⟨_, h₀.forest, by simp⟩
  | snoc _ hstep ih =>
    rename_i tr nodes nodes' lbl _
    obtain ⟨kids, hforest, hmem⟩ := ih
    obtain ⟨hc, fuel, hr⟩ := hstep
    obtain ⟨l, hl, hforest', -⟩ := hforest.link (hc.not_mem hforest) hc.last hr
    refine ⟨_, hforest', ?_⟩
    intro p x
    obtain ⟨⟨parent, child⟩, ⟨⟩⟩ := lbl
    by_cases hp : p = parent
    · subst hp
      simp [withKids, hl.perm.mem_iff, hmem, or_comm]
    · simp [withKids, hmem, hp]

end Runs

/-- After any links of nodes that were not linked yet, `fs_child_iter` gives the nodes
linked under a parent, each once; another node can be linked; and `fs_locate` goes down
the path by name. -/
theorem fsLocate_refines (nodes₀ : Nodes) (h₀ : NoLinks nodes₀)
    (tr : List ((NodePtr × NodePtr) × Unit)) (nodes : Nodes)
    (hrun : Run LinkStep nodes₀ tr nodes) :
    (∀ parent child, ∃ fuel nodes', fsLinkChild fuel nodes parent child = .ok nodes') ∧
    ∃ kids : NodePtr → List NodePtr,
      (∀ parent, ChildIter nodes parent none (kids parent) ∧ (kids parent).Nodup ∧
        ∀ n, n ∈ kids parent ↔ ((parent, n), ()) ∈ tr) ∧
      ∀ origin path, strtok path ≠ [] → ∃ bound, ∀ fuel, bound ≤ fuel →
        fsLocate fuel nodes origin path =
          .ok (follow (fun n => (nodes n).name) kids origin (strtok path)) := by
  obtain ⟨kids, hforest, hmem⟩ := run_forest h₀ hrun
  have hiter : ∀ p, ChildIter nodes p none (kids p) := fun p => childIter_iff.mpr (hforest.chain p)
  refine ⟨?_, kids, fun p => ⟨hiter p, hforest.nodup p, hmem p⟩, ?_⟩
  · intro parent child
    exact ⟨_, fsLinkChild_ends hforest (Nat.lt_succ_self _)⟩
  · intro origin path hpath
    exact fsLocate_follows hiter origin hpath

section Two

theorem charA_ne_zero : (0x61 : UInt8) ≠ 0 := by decide

theorem charB_ne_zero : (0x62 : UInt8) ≠ 0 := by decide

def charA : CChar := ⟨0x61, charA_ne_zero⟩
def charB : CChar := ⟨0x62, charB_ne_zero⟩

/-- A directory, node 0, and the files `b` and `a`, not linked yet. -/
def twoFiles : Nodes := fun n =>
  { name := if n = 1 then [charB] else if n = 2 then [charA] else []
    ops := .dir
    firstChild := none
    nextSibling := none }

theorem twoFiles_noLinks : NoLinks twoFiles := fun _ => ⟨rfl, rfl⟩

/-- The file `b` is linked, then `a` behind it. -/
def twoLinked : Nodes :=
  setNextSibling (setNextSibling (setFirstChild twoFiles 0 (some 1)) 1 (some 2)) 2 none

theorem twoLinked_run :
    Run LinkStep twoFiles [((0, 1), ()), ((0, 2), ())] twoLinked := by
  have h1 : LinkStep twoFiles ((0, 1), ()) (setFirstChild twoFiles 0 (some 1)) := by
    refine ⟨⟨rfl, ?_, ?_⟩, 2, rfl⟩
    · intro p h
      cases h
    · intro n h
      cases h
  have h2 : LinkStep (setFirstChild twoFiles 0 (some 1)) ((0, 2), ()) twoLinked := by
    refine ⟨⟨by simp [twoFiles], ?_, ?_⟩, 2, rfl⟩
    · intro p
      by_cases hp : p = 0
      · simp [hp]
      · simp [hp, twoFiles]
    · intro n
      simp [twoFiles]
  exact (Run.single h1).trans (Run.single h2)

/-- The path `/a` leads from the directory to node 2. -/
theorem fsLocate_refines_two : ∃ bound, ∀ fuel, bound ≤ fuel →
    fsLocate fuel twoLinked 0 [fsPathDelim, charA] = .ok (some 2) := by
  obtain ⟨-, kids, hkids, hlocate⟩ := fsLocate_refines twoFiles twoFiles_noLinks _ twoLinked
    twoLinked_run
  have hmem : ∀ n, n ∈ kids 0 ↔ n = 1 ∨ n = 2 := by
    intro n
    rw [(hkids 0).2.2 n]
    simp
  have htok : strtok [fsPathDelim, charA] = [[charA]] := by decide
  have hname : ∀ n ∈ kids 0, (twoLinked n).name = [charA] ↔ n = 2 := by
    intro n hn
    rcases (hmem n).mp hn with rfl | rfl
    · decide
    · decide
  have hfind : (kids 0).find? (fun k => (twoLinked k).name = [charA]) = some 2 := by
    cases hf : (kids 0).find? fun k => (twoLinked k).name = [charA] with
    | none =>
      have h2 := (hmem 2).mpr (Or.inr rfl)
      have hnone := List.find?_eq_none.mp hf 2 h2
      simp [(hname 2 h2).mpr rfl] at hnone
    | some k =>
      have hk := List.find?_some hf
      rw [(hname k (List.mem_of_find?_eq_some hf)).mp (of_decide_eq_true hk)]
  have hpath := hlocate 0 [fsPathDelim, charA] (by rw [htok]; exact List.cons_ne_nil _ _)
  rw [htok] at hpath
  simp only [follow, hfind, Option.bind_some] at hpath
  exact hpath

end Two

end AkKernel
