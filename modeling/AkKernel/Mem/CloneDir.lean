import AkKernel.Mem.CloneTable
import Mathlib.Algebra.Order.BigOperators.Group.Finset
import Mathlib.Data.Set.Function
import Mathlib.Data.Set.Insert

/-!
# What cloning a directory does

Each slot of the new directory is the old one, or refers to a new table whose
entries are the old ones or refer to copies of pages; and all frames that the clone
took are different.
-/

set_option autoImplicit false

namespace AkKernel

open Programs

/-- An entry of a directory whose table a clone gets a copy of. -/
def PrivateTable (e : Word) : Prop := Private e ∧ ¬ Extended e

instance (e : Word) : Decidable (PrivateTable e) := inferInstanceAs (Decidable (_ ∧ _))

/-- The frames that a clone takes. -/
inductive Ref where
  | dir
  | table (i : Nat)
  | page (i j : Nat)
deriving DecidableEq

def newFrame (c : Phys) (nd : Nat) : Ref → Nat
  | .dir => nd
  | .table i => frameNo (c.mem nd i)
  | .page i j => frameNo (c.mem (frameNo (c.mem nd i)) j)

/-- What a clone of the first `n` slots of directory `d` takes frames for. -/
def newRefs (c : Phys) (d n : Nat) : Set Ref
  | .dir => True
  | .table i => i < n ∧ PrivateTable (c.mem d i)
  | .page i j => i < n ∧ PrivateTable (c.mem d i) ∧ j < 1024 ∧
      Private (c.mem (frameNo (c.mem d i)) j)

/-- A directory entry with its own table, and its clone. -/
structure TblCloned (c₀ c : Phys) (e e' : Word) : Prop where
  flags : pteFlags e' = pteFlags e
  fresh : frameNo e' ∈ c₀.free
  taken : frameNo e' ∉ c.free
  pages : ∀ j, j < 1024 → PageCloned c₀ c (c₀.mem (frameNo e) j) (c.mem (frameNo e') j)

structure SlotCloned (c₀ c : Phys) (e e' : Word) : Prop where
  shared : ¬ PrivateTable e → e' = e
  table : PrivateTable e → TblCloned c₀ c e e'

/-- The number of frames that the clone of a directory entry takes. -/
def slotDemand (c : Phys) (e : Word) : Nat :=
  if PrivateTable e then 1 + (privates c (frameNo e) 1024).card else 0

/-- The number of frames that the clone of directory `d` takes. -/
def cloneDemand (c : Phys) (d : Nat) : Nat := 1 + ∑ i ∈ Finset.range 1024, slotDemand c (c.mem d i)

structure DirInv (c₀ : Phys) (d nd i : Nat) (c : Phys) : Prop where
  grows : Grows c₀ c
  fresh : nd ∈ c₀.free
  taken : nd ∉ c.free
  rest : ∀ j, i ≤ j → c.mem nd j = 0#32
  slots : ∀ j, j < i → SlotCloned c₀ c (c₀.mem d j) (c.mem nd j)
  distinct : Set.InjOn (newFrame c nd) (newRefs c₀ d i)
  card : c.free.card + (1 + ∑ j ∈ Finset.range i, slotDemand c₀ (c₀.mem d j)) = c₀.free.card

/-- Every frame that directory `d` refers to is in use, and its present 4 MB entries
are linked. -/
structure DirUsed (c : Phys) (d : Nat) : Prop where
  dir : d ∉ c.free
  tables : ∀ i, i < 1024 → Present (c.mem d i) → ¬ Extended (c.mem d i) →
    TblUsed c (frameNo (c.mem d i))
  linked : ∀ i, i < 1024 → Present (c.mem d i) → Extended (c.mem d i) → Linked (c.mem d i)

section Directory
variable {c₀ c c' : Phys} {d nd i j : Nat} {e e' : Word}

theorem PageCloned.persist (h : PageCloned c₀ c e e') (hfree : c'.free ⊆ c.free)
    (hmem : Private e → c'.mem (frameNo e') = c.mem (frameNo e')) : PageCloned c₀ c' e e' := by
  refine ⟨h.shared, h.flags, h.fresh, ?_, ?_⟩
  · intro hp hm
    exact h.taken hp (hfree hm)
  · intro hp
    rw [hmem hp]
    exact h.same hp

/-- What happened to a slot before stays as it is while frames in use are kept. -/
theorem TblCloned.persist (h : TblCloned c₀ c e e') (hfree : c'.free ⊆ c.free)
    (hmem : c'.mem (frameNo e') = c.mem (frameNo e'))
    (hpages : ∀ j, j < 1024 → Private (c₀.mem (frameNo e) j) →
      c'.mem (frameNo (c.mem (frameNo e') j)) = c.mem (frameNo (c.mem (frameNo e') j))) :
    TblCloned c₀ c' e e' := by
  refine ⟨h.flags, h.fresh, fun hm => h.taken (hfree hm), ?_⟩
  intro j hj
  rw [hmem]
  exact (h.pages j hj).persist hfree (hpages j hj)

theorem DirInv.taken_ref (h : DirInv c₀ d nd i c) {r : Ref} (hr : r ∈ newRefs c₀ d i) :
    newFrame c nd r ∉ c.free := by
  cases r with
  | dir => exact h.taken
  | table j =>
    obtain ⟨hj, hp⟩ := hr
    exact ((h.slots j hj).table hp).taken
  | page j k =>
    obtain ⟨hj, hp, hk, hpk⟩ := hr
    exact (((h.slots j hj).table hp).pages k hk).taken hpk

theorem DirInv.ne_dir (h : DirInv c₀ d nd i c) {r : Ref} (hr : r ∈ newRefs c₀ d i)
    (hne : r ≠ .dir) : newFrame c nd r ≠ nd := by
  intro he
  exact hne (h.distinct hr (show Ref.dir ∈ newRefs c₀ d i from trivial) he)

/-- The next round changes only frames that were free, and the new directory. -/
structure Round (nd i : Nat) (c c' : Phys) : Prop where
  free : c'.free ⊆ c.free
  kept : ∀ m, m ∉ c.free → m ≠ nd → c'.mem m = c.mem m
  slots : ∀ j, j ≠ i → c'.mem nd j = c.mem nd j

theorem Round.newFrame_eq (hr : Round nd i c c') (h : DirInv c₀ d nd i c) {r : Ref}
    (hm : r ∈ newRefs c₀ d i) : newFrame c' nd r = newFrame c nd r := by
  cases r with
  | dir => rfl
  | table j =>
    have hj : j ≠ i := Nat.ne_of_lt hm.1
    simp only [newFrame, hr.slots j hj]
  | page j k =>
    have hj : j ≠ i := Nat.ne_of_lt hm.1
    have ht : Ref.table j ∈ newRefs c₀ d i := ⟨hm.1, hm.2.1⟩
    have hkept := hr.kept _ (h.taken_ref ht) (h.ne_dir ht (by simp))
    simp only [newFrame] at hkept ⊢
    rw [hr.slots j hj, hkept]

theorem Round.slot_persist (hr : Round nd i c c') (h : DirInv c₀ d nd i c) (hj : j < i) :
    SlotCloned c₀ c' (c₀.mem d j) (c'.mem nd j) := by
  have hs := h.slots j hj
  rw [hr.slots j (by omega)]
  refine ⟨hs.shared, ?_⟩
  intro hp
  have ht : Ref.table j ∈ newRefs c₀ d i := ⟨hj, hp⟩
  apply (hs.table hp).persist hr.free (hr.kept _ (h.taken_ref ht) (h.ne_dir ht (by simp)))
  intro k hk hpk
  have hpg : Ref.page j k ∈ newRefs c₀ d i := ⟨hj, hp, hk, hpk⟩
  exact hr.kept _ (h.taken_ref hpg) (h.ne_dir hpg (by simp))

theorem DirInv.shared (h : DirInv c₀ d nd i c) (hp : ¬ PrivateTable (c₀.mem d i)) :
    DirInv c₀ d nd (i + 1) (c.setWord nd i (c₀.mem d i)) := by
  have hr : Round nd i c (c.setWord nd i (c₀.mem d i)) :=
    ⟨fun _ hm => hm, fun m _ hm => setWord_mem_frame hm, fun j hj => setWord_mem_of_ne hj⟩
  have hrefs : ∀ r, r ∈ newRefs c₀ d (i + 1) → r ∈ newRefs c₀ d i := by
    intro r hm
    cases r with
    | dir => trivial
    | table j =>
      exact ⟨(Nat.lt_succ_iff_lt_or_eq.mp hm.1).resolve_right fun he => hp (he ▸ hm.2), hm.2⟩
    | page j k =>
      exact ⟨(Nat.lt_succ_iff_lt_or_eq.mp hm.1).resolve_right fun he => hp (he ▸ hm.2.1), hm.2⟩
  refine ⟨h.grows.setWord h.fresh, h.fresh, h.taken, ?_, ?_, ?_, ?_⟩
  · intro j hj
    rw [setWord_mem_of_ne (by omega)]
    exact h.rest j (by omega)
  · intro j hj
    rcases Nat.lt_succ_iff_lt_or_eq.mp hj with hlt | he
    · exact hr.slot_persist h hlt
    · subst he
      rw [setWord_mem_self]
      exact ⟨fun _ => rfl, fun h => absurd h hp⟩
  · intro r hm r' hm' heq
    rw [hr.newFrame_eq h (hrefs r hm), hr.newFrame_eq h (hrefs r' hm')] at heq
    exact h.distinct (hrefs r hm) (hrefs r' hm') heq
  · have hcard := h.card
    have hzero : slotDemand c₀ (c₀.mem d i) = 0 := if_neg hp
    rw [Finset.sum_range_succ, hzero, setWord_free]
    exact hcard

/-- The frames that the clone of slot `i` takes beyond those of the slots before it. -/
theorem newRefs_last {r : Ref} (hm : r ∈ newRefs c₀ d (i + 1)) (hold : r ∉ newRefs c₀ d i) :
    r = .table i ∨ ∃ k, k < 1024 ∧ r = .page i k ∧ Private (c₀.mem (frameNo (c₀.mem d i)) k) := by
  cases r with
  | dir => exact absurd trivial hold
  | table j =>
    left
    rw [(Nat.lt_succ_iff_lt_or_eq.mp hm.1).resolve_left fun hlt => hold ⟨hlt, hm.2⟩]
  | page j k =>
    have hj : j = i := (Nat.lt_succ_iff_lt_or_eq.mp hm.1).resolve_left fun hlt => hold ⟨hlt, hm.2⟩
    subst hj
    exact Or.inr ⟨k, hm.2.2.1, rfl, hm.2.2.2⟩

/-- Frames that were free until now are different from those taken before. -/
theorem DirInv.distinct_succ (h : DirInv c₀ d nd i c) (hr : Round nd i c c')
    (hfresh : ∀ r, r ∈ newRefs c₀ d (i + 1) → r ∉ newRefs c₀ d i → newFrame c' nd r ∈ c.free)
    (hnew : ∀ r r', r ∈ newRefs c₀ d (i + 1) → r ∉ newRefs c₀ d i → r' ∈ newRefs c₀ d (i + 1) →
      r' ∉ newRefs c₀ d i → newFrame c' nd r = newFrame c' nd r' → r = r') :
    Set.InjOn (newFrame c' nd) (newRefs c₀ d (i + 1)) := by
  have hmixed : ∀ r r', r ∈ newRefs c₀ d i → r' ∈ newRefs c₀ d (i + 1) → r' ∉ newRefs c₀ d i →
      newFrame c' nd r ≠ newFrame c' nd r' := by
    intro r r' hold hm' hold' heq
    have hf := hfresh r' hm' hold'
    rw [← heq, hr.newFrame_eq h hold] at hf
    exact h.taken_ref hold hf
  intro r hm r' hm' heq
  by_cases hold : r ∈ newRefs c₀ d i
  · by_cases hold' : r' ∈ newRefs c₀ d i
    · rw [hr.newFrame_eq h hold, hr.newFrame_eq h hold'] at heq
      exact h.distinct hold hold' heq
    · exact absurd heq (hmixed r r' hold hm' hold')
  · by_cases hold' : r' ∈ newRefs c₀ d i
    · exact absurd heq.symm (hmixed r' r hold' hm hold)
    · exact hnew r r' hm hold hm' hold' heq

section NewTable
variable {n : Nat}

/-- The new directory's slot `i` was set to the table `n` that the loop over the old one made. -/
structure MadeSlot (c₀ : Phys) (d nd i n : Nat) (c c' c₁ : Phys) : Prop where
  table : TblInv c (frameNo (c₀.mem d i)) n 1024 c'
  slot : c₁.mem nd i = pageEntry (frameAddr n) (pteFlags (c₀.mem d i))
  slots : ∀ j, j ≠ i → c₁.mem nd j = c'.mem nd j
  frame : ∀ m, m ≠ nd → c₁.mem m = c'.mem m
  free : c₁.free = c'.free

theorem MadeSlot.round {c₁ : Phys} (hs : MadeSlot c₀ d nd i n c c' c₁) (h : DirInv c₀ d nd i c) :
    Round nd i c c₁ := by
  have hgrows := hs.table.grows
  refine ⟨?_, ?_, ?_⟩
  · rw [hs.free]
    exact hgrows.free
  · intro m hm hmd
    rw [hs.frame m hmd]
    exact hgrows.kept m hm
  · intro j hj
    rw [hs.slots j hj, hgrows.kept nd h.taken]

theorem MadeSlot.pages {c₁ : Phys} (hs : MadeSlot c₀ d nd i n c c' c₁) (h : DirInv c₀ d nd i c)
    (hused : TblUsed c₀ (frameNo (c₀.mem d i))) : ∀ j, j < 1024 →
      PageCloned c c' (c₀.mem (frameNo (c₀.mem d i)) j) (c'.mem n j) := by
  intro j hj
  have hpg := hs.table.pages j hj
  rw [h.grows.kept _ hused.table] at hpg
  exact hpg

theorem MadeSlot.cloned {c₁ : Phys} (hs : MadeSlot c₀ d nd i n c c' c₁) (h : DirInv c₀ d nd i c)
    (hused : TblUsed c₀ (frameNo (c₀.mem d i))) (hn : n ∈ c.free) :
    TblCloned c₀ c₁ (c₀.mem d i) (c₁.mem nd i) := by
  have hne : ∀ m, m ∈ c.free → m ≠ nd := fun m hm he => h.taken (he ▸ hm)
  rw [hs.slot]
  refine ⟨pteFlags_cloned n _, ?_, ?_, ?_⟩
  · rw [frameNo_cloned hn]
    exact h.grows.free hn
  · rw [frameNo_cloned hn, hs.free]
    exact hs.table.taken
  · intro j hj
    have hpg := hs.pages h hused j hj
    rw [frameNo_cloned hn, hs.frame n (hne n hn)]
    refine ⟨hpg.shared, hpg.flags, fun hpj => h.grows.free (hpg.fresh hpj), ?_, ?_⟩
    · rw [hs.free]
      exact hpg.taken
    · intro hpj
      rw [hs.frame _ (hne _ (hpg.fresh hpj)), hpg.same hpj,
        h.grows.kept _ (hused.pages j hj hpj.1)]

theorem MadeSlot.distinct {c₁ : Phys} (hs : MadeSlot c₀ d nd i n c c' c₁)
    (h : DirInv c₀ d nd i c) (hused : TblUsed c₀ (frameNo (c₀.mem d i))) (hn : n ∈ c.free) :
    Set.InjOn (newFrame c₁ nd) (newRefs c₀ d (i + 1)) := by
  have hnd : n ≠ nd := fun he => h.taken (he ▸ hn)
  have hvalT : newFrame c₁ nd (.table i) = n := by
    simp only [newFrame, hs.slot, frameNo_cloned hn]
  have hvalP : ∀ k, newFrame c₁ nd (.page i k) = frameNo (c'.mem n k) := by
    intro k
    simp only [newFrame, hs.slot, frameNo_cloned hn, hs.frame n hnd]
  have hpriv : ∀ k, Private (c₀.mem (frameNo (c₀.mem d i)) k) →
      Private (c.mem (frameNo (c₀.mem d i)) k) := by
    intro k hpk
    rw [h.grows.kept _ hused.table]
    exact hpk
  apply h.distinct_succ (hs.round h)
  · intro r hm hold
    rcases newRefs_last hm hold with he | ⟨k, hk, he, hpk⟩
    · rw [he, hvalT]
      exact hn
    · rw [he, hvalP]
      exact (hs.pages h hused k hk).fresh hpk
  · intro r r' hm hold hm' hold' heq
    rcases newRefs_last hm hold with h1 | ⟨k, hk, h1, hpk⟩
    · rcases newRefs_last hm' hold' with h2 | ⟨k', hk', h2, hpk'⟩
      · rw [h1, h2]
      · rw [h1, h2, hvalT, hvalP] at heq
        exact absurd heq.symm (hs.table.apart k' hk' (hpriv k' hpk'))
    · rcases newRefs_last hm' hold' with h2 | ⟨k', hk', h2, hpk'⟩
      · rw [h1, h2, hvalT, hvalP] at heq
        exact absurd heq (hs.table.apart k hk (hpriv k hpk))
      · rw [h1, h2, hvalP, hvalP] at heq
        rw [h1, h2, hs.table.distinct k k' hk hk' (hpriv k hpk) (hpriv k' hpk') heq]

/-- A slot that gets a new table `n`, made by the loop over the old one. -/
theorem DirInv.table (h : DirInv c₀ d nd i c) (hu : DirUsed c₀ d) (hi : i < 1024)
    (hp : PrivateTable (c₀.mem d i)) (hn : n ∈ c.free)
    (ht : TblInv c (frameNo (c₀.mem d i)) n 1024 c') :
    DirInv c₀ d nd (i + 1)
      (c'.setWord nd i (pageEntry (frameAddr n) (pteFlags (c₀.mem d i)))) := by
  have hused := hu.tables i hi hp.1.1 hp.2
  have hs : MadeSlot c₀ d nd i n c c'
      (c'.setWord nd i (pageEntry (frameAddr n) (pteFlags (c₀.mem d i)))) :=
    ⟨ht, setWord_mem_self, fun _ hj => setWord_mem_of_ne hj, fun _ hm => setWord_mem_frame hm,
      setWord_free⟩
  have hr := hs.round h
  refine ⟨(h.grows.trans ht.grows).setWord h.fresh, h.fresh, fun hm => h.taken (hr.free hm), ?_, ?_,
    hs.distinct h hused hn, ?_⟩
  · intro j hj
    rw [hr.slots j (by omega)]
    exact h.rest j (by omega)
  · intro j hj
    rcases Nat.lt_succ_iff_lt_or_eq.mp hj with hlt | he
    · exact hr.slot_persist h hlt
    · subst he
      exact ⟨fun hnp => absurd hp hnp, fun _ => hs.cloned h hused hn⟩
  · have h1 := h.card
    have h2 := ht.card
    have hpriv : privates c (frameNo (c₀.mem d i)) 1024 =
        privates c₀ (frameNo (c₀.mem d i)) 1024 := by
      unfold privates
      rw [h.grows.kept _ hused.table]
    have hdem : slotDemand c₀ (c₀.mem d i) =
        1 + (privates c₀ (frameNo (c₀.mem d i)) 1024).card := if_pos hp
    rw [Finset.sum_range_succ, hdem, setWord_free]
    rw [hpriv] at h2
    omega

end NewTable

theorem pgClonePage4m_shared (h : ¬ Private e) : Direct.pgClonePage4m e c = .ok (e, c) := by
  have h1 : pdeFlags e &&& pagePresent = e &&& pagePresent := by
    rw [pdeFlags, BitVec.and_assoc]
    rfl
  have h2 : pdeFlags e &&& pageLink = e &&& pageLink := by
    rw [pdeFlags, BitVec.and_assoc]
    rfl
  unfold Direct.pgClonePage4m
  simp only [h1, h2]
  split
  · rfl
  · rename_i hpres
    split
    · rfl
    · rename_i hlink
      exact absurd ⟨hpres, hlink⟩ h

theorem DirUsed.not_private (hu : DirUsed c d) (hi : i < 1024) (hx : Extended (c.mem d i)) :
    ¬ Private (c.mem d i) := by
  intro hp
  exact hp.2 (hu.linked i hi hp.1 hx)

theorem cloneDirSlot_run (h : DirInv c₀ d nd i c) (hu : DirUsed c₀ d) (hi : i < 1024) :
    Direct.cloneDirSlot d nd i c =
      (if PrivateTable (c₀.mem d i) then do
        let e' ← Direct.pgCloneTbl (c₀.mem d i)
        writeWord nd i e'
      else writeWord nd i (c₀.mem d i)) c := by
  have hread : readWord d i c = .ok (c₀.mem d i, c) := by
    rw [readWord, h.grows.kept d hu.dir]
  apply (bind_run hread).trans
  by_cases hnil : c₀.mem d i = nilPgEnt
  · have hp : ¬ PrivateTable (c₀.mem d i) := by
      rw [hnil]
      exact fun hp => not_private_nil hp.1
    rw [if_neg hp, if_neg (not_not.mpr hnil), hnil]
    change Except.ok ((), c) = .ok ((), c.setWord nd i 0#32)
    rw [setWord_same (h.rest i (Nat.le_refl i))]
  · rw [if_pos hnil]
    by_cases hx : Extended (c₀.mem d i)
    · have hp := hu.not_private hi hx
      rw [if_pos (show c₀.mem d i &&& pageExtended ≠ 0#32 from hx), if_neg fun h => hp h.1,
        bind_run (pgClonePage4m_shared hp)]
    · rw [if_neg (show ¬ (c₀.mem d i &&& pageExtended ≠ 0#32) from hx)]
      by_cases hp : Private (c₀.mem d i)
      · rw [if_pos (show PrivateTable (c₀.mem d i) from ⟨hp, hx⟩)]
      · rw [if_neg fun h : PrivateTable (c₀.mem d i) => hp h.1, bind_run (pgCloneTbl_shared hp)]

theorem DirInv.used (h : DirInv c₀ d nd i c) (hu : DirUsed c₀ d) (hi : i < 1024)
    (hp : PrivateTable (c₀.mem d i)) : TblUsed c (frameNo (c₀.mem d i)) := by
  have hused := hu.tables i hi hp.1.1 hp.2
  refine ⟨fun hm => hused.table (h.grows.free hm), ?_⟩
  intro j hj
  rw [h.grows.kept _ hused.table]
  exact fun hpj hm => hused.pages j hj hpj (h.grows.free hm)

theorem DirInv.round (h : DirInv c₀ d nd i c) (hu : DirUsed c₀ d) (hi : i < 1024)
    (hinit : c₀.frameAllocInitialized = true)
    (hrun : Direct.cloneDirSlot d nd i c = .ok ((), c')) : DirInv c₀ d nd (i + 1) c' := by
  rw [cloneDirSlot_run h hu hi] at hrun
  split at hrun
  · rename_i hp
    obtain ⟨e', c₁, h1, h2⟩ := bind_ok.mp hrun
    cases h2
    have hok := pgCloneTbl_ok (h.grows.init.trans hinit) (fun _ => h.used hu hi hp) h1
    rcases hok with ⟨hnp, -⟩ | ⟨-, n, hn, he', ht⟩
    · exact absurd hp.1 hnp
    · rw [he']
      exact h.table hu hi hp hn ht
  · rename_i hp
    cases hrun
    exact h.shared hp

theorem sum_demand_le (hi : i ≤ 1024) : ∑ j ∈ Finset.range i, slotDemand c (c.mem d j) ≤
    ∑ j ∈ Finset.range 1024, slotDemand c (c.mem d j) := by
  apply Finset.sum_le_sum_of_subset
  intro j hj
  rw [Finset.mem_range] at hj ⊢
  omega

theorem DirInv.round_ends (h : DirInv c₀ d nd i c) (hu : DirUsed c₀ d) (hi : i < 1024)
    (hinit : c₀.frameAllocInitialized = true) (hd : cloneDemand c₀ d ≤ c₀.free.card) :
    ∃ c', Direct.cloneDirSlot d nd i c = .ok ((), c') ∧ DirInv c₀ d nd (i + 1) c' := by
  have hends : ∃ c', Direct.cloneDirSlot d nd i c = .ok ((), c') := by
    rw [cloneDirSlot_run h hu hi]
    split
    · rename_i hp
      have hused := hu.tables i hi hp.1.1 hp.2
      have hsum := sum_demand_le (c := c₀) (d := d) (i := i + 1) hi
      have hcard := h.card
      have hfit : 1 + (privates c (frameNo (c₀.mem d i)) 1024).card ≤ c.free.card := by
        have hdem : slotDemand c₀ (c₀.mem d i) =
            1 + (privates c₀ (frameNo (c₀.mem d i)) 1024).card := if_pos hp
        rw [Finset.sum_range_succ, hdem] at hsum
        unfold cloneDemand at hd
        unfold privates at hsum ⊢
        rw [h.grows.kept _ hused.table]
        omega
      obtain ⟨r, hr⟩ := pgCloneTbl_ends (h.grows.init.trans hinit)
        (fun _ => h.used hu hi hp) (fun _ => hfit)
      rw [bind_run hr]
      exact ⟨_, rfl⟩
    · exact ⟨_, rfl⟩
  obtain ⟨c', hc'⟩ := hends
  exact ⟨c', hc', h.round hu hi hinit hc'⟩

theorem DirInv.start {n : Nat} (hn : n ∈ c.free) (d : Nat) :
    DirInv c d n 0 ((c.mark n).setFrame n fun _ => 0#32) := by
  have hcard : (c.free.erase n).card + 1 = c.free.card := Finset.card_erase_add_one hn
  refine ⟨((Grows.refl c).mark hn).setFrame hn _, hn, ?_, ?_, ?_, ?_, ?_⟩
  · rw [setFrame_free, free_mark hn]
    exact Finset.notMem_erase n _
  · intro j _
    rw [setFrame_mem_self]
  · intro j hj
    omega
  · have honly : ∀ r, r ∈ newRefs c d 0 → r = .dir := by
      intro r hr
      cases r with
      | dir => rfl
      | table j => exact absurd hr.1 (Nat.not_lt_zero j)
      | page j k => exact absurd hr.1 (Nat.not_lt_zero j)
    intro r hr r' hr' _
    rw [honly r hr, honly r' hr']
  · rw [setFrame_free, free_mark hn]
    exact hcard

theorem pgCloneDir_ok {dirframe f : Word} (hinit : c.frameAllocInitialized = true)
    (hu : DirUsed c (frameNo dirframe)) (h : Direct.pgCloneDir dirframe c = .ok (f, c')) :
    ∃ n, f = frameAddr n ∧ DirInv c (frameNo dirframe) n 1024 c' := by
  obtain ⟨f', c₁, h1, h2⟩ := bind_ok.mp h
  obtain ⟨n, hn, hf, hc₁⟩ := pgDirNew_ok hinit h1
  obtain ⟨⟨⟩, c₂, h3, h4⟩ := bind_ok.mp h2
  obtain ⟨hff, hc'⟩ := pure_ok.mp h4
  rw [hf, frameNo_frameAddr (FrameBitmap.free_lt hn)] at h3
  refine ⟨n, hff.trans hf, ?_⟩
  rw [hc']
  refine upTo_keeps ?_ ?_ h3
  · rw [hc₁]
    exact DirInv.start hn _
  · intro i s u hi hinv hrun
    exact hinv.round hu hi hinit hrun

/-- A slot of a directory after a clone: it was there before, or it is one of the
clone's own. -/
theorem DirInv.slot_cases (h : DirInv c₀ d nd 1024 c) {ds : Set Nat} {x : Nat}
    (hds : ∀ x ∈ ds, x ∉ c₀.free) (hd : d ∈ ds) (hx : x ∈ insert nd ds) (hi : i < 1024) :
    (∃ d' ∈ ds, c.mem x i = c₀.mem d' i) ∨
      (x = nd ∧ PrivateTable (c₀.mem d i) ∧ TblCloned c₀ c (c₀.mem d i) (c.mem x i)) := by
  rcases Set.mem_insert_iff.mp hx with hx | hx
  · rw [hx]
    by_cases hp : PrivateTable (c₀.mem d i)
    · exact Or.inr ⟨rfl, hp, (h.slots i hi).table hp⟩
    · exact Or.inl ⟨d, hd, (h.slots i hi).shared hp⟩
  · left
    refine ⟨x, hx, ?_⟩
    rw [h.grows.kept x (hds x hx)]

theorem pgCloneDir_ends {dirframe : Word} (hinit : c.frameAllocInitialized = true)
    (hu : DirUsed c (frameNo dirframe)) (hd : cloneDemand c (frameNo dirframe) ≤ c.free.card) :
    ∃ r, Direct.pgCloneDir dirframe c = .ok r := by
  have hpos : 0 < c.free.card := by
    unfold cloneDemand at hd
    omega
  obtain ⟨⟨f, c₁⟩, h1⟩ := pgDirNew_ends hinit (Finset.card_pos.mp hpos)
  obtain ⟨n, hn, hf, hc₁⟩ := pgDirNew_ok hinit h1
  have hloop : ∃ u, upTo (Direct.cloneDirSlot (frameNo dirframe) n) 1024 c₁ = .ok ((), u) ∧
      DirInv c (frameNo dirframe) n 1024 u := by
    refine upTo_ends ?_ ?_
    · rw [hc₁]
      exact DirInv.start hn _
    · intro i s hi hinv
      exact hinv.round_ends hu hi hinit hd
  obtain ⟨u, hloop, -⟩ := hloop
  unfold Direct.pgCloneDir
  rw [bind_run h1, hf, frameNo_frameAddr (FrameBitmap.free_lt hn), bind_run hloop]
  exact ⟨_, rfl⟩

end Directory

end AkKernel
