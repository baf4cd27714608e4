import AkKernel.Mem.Clone

/-!
# What cloning a page table does

A step of the clone takes frames that are free and writes only to frames it took.
The specification of the loop over a table is relative to the state before the new
table was made, so that writing the new table is such a step too.
-/

set_option autoImplicit false

namespace AkKernel

open Programs

/-- An entry whose frame a clone gets a copy of. -/
def Private (e : Word) : Prop := Present e ∧ ¬ Linked e

instance (e : Word) : Decidable (Private e) := inferInstanceAs (Decidable (_ ∧ _))

theorem not_private_nil : ¬ Private nilPgEnt := by decide

/-- `c'` comes from `c` by taking free frames and writing to some that were free. -/
structure Grows (c c' : Phys) : Prop where
  init : c'.frameAllocInitialized = c.frameAllocInitialized
  ready : c'.mmuReady = c.mmuReady
  covers : c'.bitmap.words.length = c.bitmap.words.length
  free : c'.free ⊆ c.free
  kept : ∀ n, n ∉ c.free → c'.mem n = c.mem n

section Grows
variable {c c₁ c₂ c' : Phys} {n i : Nat} {v : Word}

@[simp] theorem setFrame_mem_self (f : Nat → Word) : (c.setFrame n f).mem n = f :=
  Function.update_self ..

theorem setFrame_mem_of_ne {m : Nat} (f : Nat → Word) (h : m ≠ n) :
    (c.setFrame n f).mem m = c.mem m := Function.update_of_ne h ..

@[simp] theorem setWord_mem_self : (c.setWord n i v).mem n i = v := by
  simp [Phys.setWord]

theorem setWord_mem_of_ne {j : Nat} (h : j ≠ i) : (c.setWord n i v).mem n j = c.mem n j := by
  simp [Phys.setWord, h]

theorem setWord_mem_frame {m : Nat} (h : m ≠ n) : (c.setWord n i v).mem m = c.mem m :=
  setFrame_mem_of_ne _ h

@[simp] theorem setFrame_free (f : Nat → Word) : (c.setFrame n f).free = c.free := rfl

@[simp] theorem setWord_free : (c.setWord n i v).free = c.free := rfl

theorem mark_covers (c : Phys) (n : Nat) :
    (c.mark n).bitmap.words.length = c.bitmap.words.length := List.length_set

theorem Grows.refl (c : Phys) : Grows c c := ⟨rfl, rfl, rfl, fun _ h => h, fun _ _ => rfl⟩

theorem Grows.trans (h : Grows c c₁) (h' : Grows c₁ c₂) : Grows c c₂ := by
  refine ⟨h'.init.trans h.init, h'.ready.trans h.ready, h'.covers.trans h.covers,
    fun n hn => h.free (h'.free hn), ?_⟩
  intro n hn
  rw [h'.kept n (fun h1 => hn (h.free h1)), h.kept n hn]

theorem Grows.mark (h : Grows c c₁) (hn : n ∈ c₁.free) : Grows c (c₁.mark n) := by
  refine ⟨h.init, h.ready, (mark_covers c₁ n).trans h.covers, ?_, h.kept⟩
  rw [free_mark hn]
  exact fun m hm => h.free (Finset.mem_of_mem_erase hm)

theorem Grows.setFrame (h : Grows c c₁) (hn : n ∈ c.free) (f : Nat → Word) :
    Grows c (c₁.setFrame n f) := by
  refine ⟨h.init, h.ready, h.covers, h.free, ?_⟩
  intro m hm
  have hne : m ≠ n := fun he => hm (he ▸ hn)
  rw [setFrame_mem_of_ne _ hne, h.kept m hm]

theorem Grows.setWord (h : Grows c c₁) (hn : n ∈ c.free) : Grows c (c₁.setWord n i v) :=
  h.setFrame hn _

end Grows

section Page
variable {c c' : Phys} {e e' : Word}

def copied (c : Phys) (e : Word) (n : Nat) : Phys := (c.mark n).setFrame n (c.mem (frameNo e))

theorem private_iff_flags : Private e ↔
    ¬ pteFlags e &&& pagePresent = 0#32 ∧ ¬ pteFlags e &&& pageLink ≠ 0#32 := by
  rw [Private, present_iff, linked_iff]

theorem pgClonePage_shared (h : ¬ Private e) : Direct.pgClonePage e c = .ok (e, c) := by
  unfold Direct.pgClonePage
  split
  · rfl
  · split
    · rfl
    · exact absurd (private_iff_flags.mpr ⟨by assumption, by assumption⟩) h

theorem pgClonePage_private (h : Private e) : Direct.pgClonePage e = (do
    let f ← frameTake
    copyFrame (frameNo f) (frameNo (pteAddr e))
    pure (pageEntry f (pteFlags e))) := by
  obtain ⟨h1, h2⟩ := private_iff_flags.mp h
  unfold Direct.pgClonePage
  rw [if_neg h1, if_neg h2]

theorem pgClonePage_ok (hinit : c.frameAllocInitialized = true)
    (h : Direct.pgClonePage e c = .ok (e', c')) :
    (¬ Private e ∧ e' = e ∧ c' = c) ∨
      (Private e ∧ ∃ n ∈ c.free, e' = pageEntry (frameAddr n) (pteFlags e) ∧ c' = copied c e n) := by
  by_cases hp : Private e
  · right
    refine ⟨hp, ?_⟩
    rw [pgClonePage_private hp] at h
    obtain ⟨f, c₁, h1, h2⟩ := bind_ok.mp h
    obtain ⟨n, hn, hf, hc₁⟩ := frameTake_fresh hinit h1
    obtain ⟨⟨⟩, c₂, h3, h4⟩ := bind_ok.mp h2
    obtain ⟨he', hc'⟩ := pure_ok.mp h4
    cases h3
    refine ⟨n, hn, by rw [he', hf], ?_⟩
    rw [hc', hc₁, hf, frameNo_frameAddr (FrameBitmap.free_lt hn), frameNo_pteAddr]
    rfl
  · left
    rw [pgClonePage_shared hp] at h
    cases h
    exact ⟨hp, rfl, rfl⟩

theorem pgClonePage_ends (hinit : c.frameAllocInitialized = true)
    (hfree : Private e → c.free.Nonempty) : ∃ r, Direct.pgClonePage e c = .ok r := by
  by_cases hp : Private e
  · obtain ⟨n, -, hn⟩ := frameTake_ends hinit (hfree hp)
    rw [pgClonePage_private hp, bind_run hn]
    exact ⟨_, rfl⟩
  · exact ⟨_, pgClonePage_shared hp⟩

theorem frameNo_cloned {n : Nat} (hn : n ∈ c.free) (e : Word) :
    frameNo (pageEntry (frameAddr n) (pteFlags e)) = n := by
  rw [frameNo_pageEntry (pteFlags_lt e), frameNo_frameAddr (FrameBitmap.free_lt hn)]

theorem pteFlags_cloned (n : Nat) (e : Word) :
    pteFlags (pageEntry (frameAddr n) (pteFlags e)) = pteFlags e :=
  pteFlags_pageEntry n (pteFlags_pteFlags e)

end Page

section Table
variable {c₀ c c' : Phys} {t t' i j : Nat}

/-- A page entry and its clone, between the states `c₀` and `c`. -/
structure PageCloned (c₀ c : Phys) (e e' : Word) : Prop where
  shared : ¬ Private e → e' = e
  flags : Private e → pteFlags e' = pteFlags e
  fresh : Private e → frameNo e' ∈ c₀.free
  taken : Private e → frameNo e' ∉ c.free
  same : Private e → c.mem (frameNo e') = c₀.mem (frameNo e)

def privates (c : Phys) (t i : Nat) : Finset Nat :=
  (Finset.range i).filter fun j => Private (c.mem t j)

theorem privates_succ : privates c t (i + 1) =
    if Private (c.mem t i) then insert i (privates c t i) else privates c t i := by
  unfold privates
  rw [Finset.range_add_one, Finset.filter_insert]

theorem card_privates_succ : (privates c t (i + 1)).card =
    (privates c t i).card + if Private (c.mem t i) then 1 else 0 := by
  rw [privates_succ]
  split
  · rw [Finset.card_insert_of_notMem]
    simp [privates]
  · rfl

/-- The loop over table `t` after `i` rounds, the new table `t'` being one of the
frames taken since `c₀`. -/
structure TblInv (c₀ : Phys) (t t' i : Nat) (c : Phys) : Prop where
  grows : Grows c₀ c
  fresh : t' ∈ c₀.free
  taken : t' ∉ c.free
  rest : ∀ j, i ≤ j → c.mem t' j = 0#32
  pages : ∀ j, j < i → PageCloned c₀ c (c₀.mem t j) (c.mem t' j)
  apart : ∀ j, j < i → Private (c₀.mem t j) → frameNo (c.mem t' j) ≠ t'
  distinct : ∀ j k, j < i → k < i → Private (c₀.mem t j) → Private (c₀.mem t k) →
    frameNo (c.mem t' j) = frameNo (c.mem t' k) → j = k
  card : c.free.card + (1 + (privates c₀ t i).card) = c₀.free.card

/-- What the loop needs of the table it reads. -/
structure TblUsed (c : Phys) (t : Nat) : Prop where
  table : t ∉ c.free
  pages : ∀ j, j < 1024 → Present (c.mem t j) → frameNo (c.mem t j) ∉ c.free

theorem Private.ne_nil {e : Word} (h : Private e) : e ≠ nilPgEnt := h.1.ne_nil

theorem TblInv.shared (h : TblInv c₀ t t' i c) (hp : ¬ Private (c₀.mem t i)) :
    TblInv c₀ t t' (i + 1) (c.setWord t' i (c₀.mem t i)) := by
  have hold : ∀ j, j < i → (c.setWord t' i (c₀.mem t i)).mem t' j = c.mem t' j := by
    intro j hj
    exact setWord_mem_of_ne (by omega)
  refine ⟨h.grows.setWord h.fresh, h.fresh, h.taken, ?_, ?_, ?_, ?_, ?_⟩
  · intro j hj
    rw [setWord_mem_of_ne (by omega)]
    exact h.rest j (by omega)
  · intro j hj
    rcases Nat.lt_succ_iff_lt_or_eq.mp hj with hlt | he
    · have hpg := h.pages j hlt
      rw [hold j hlt]
      refine ⟨hpg.shared, hpg.flags, hpg.fresh, hpg.taken, ?_⟩
      intro hpj
      rw [setWord_mem_frame (h.apart j hlt hpj)]
      exact hpg.same hpj
    · subst he
      rw [setWord_mem_self]
      exact ⟨fun _ => rfl, fun h => absurd h hp, fun h => absurd h hp, fun h => absurd h hp,
        fun h => absurd h hp⟩
  · intro j hj hpj
    rcases Nat.lt_succ_iff_lt_or_eq.mp hj with hlt | he
    · rw [hold j hlt]
      exact h.apart j hlt hpj
    · exact absurd (he ▸ hpj) hp
  · intro j k hj hk hpj hpk
    have hj' : j < i := (Nat.lt_succ_iff_lt_or_eq.mp hj).resolve_right fun he => hp (he ▸ hpj)
    have hk' : k < i := (Nat.lt_succ_iff_lt_or_eq.mp hk).resolve_right fun he => hp (he ▸ hpk)
    rw [hold j hj', hold k hk']
    exact h.distinct j k hj' hk' hpj hpk
  · rw [card_privates_succ, if_neg hp, setWord_free]
    exact h.card

theorem copied_word_of_ne {e e' : Word} {n : Nat} (hn : n ≠ t') (hj : j ≠ i) :
    ((copied c e n).setWord t' i e').mem t' j = c.mem t' j := by
  rw [setWord_mem_of_ne hj]
  exact congrFun (setFrame_mem_of_ne (c := c.mark n) _ (Ne.symm hn)) j

theorem copied_used {e e' : Word} {n m : Nat} (hn : n ∈ c.free) (hm : m ∉ c.free) :
    m ∉ ((copied c e n).setWord t' i e').free := by
  have hfree : (copied c e n).free = c.free.erase n := free_mark hn
  rw [setWord_free, hfree]
  exact fun hm' => hm (Finset.mem_of_mem_erase hm')

theorem PageCloned.copied {e e₁ e₂ e' : Word} {n : Nat} (h : PageCloned c₀ c e e')
    (hn : n ∈ c.free) (ht : Private e → frameNo e' ≠ t') :
    PageCloned c₀ ((copied c e₁ n).setWord t' i e₂) e e' where
  shared := h.shared
  flags := h.flags
  fresh := h.fresh
  taken hp := copied_used hn (h.taken hp)
  same := by
    intro hp
    have hne : frameNo e' ≠ n := fun he => h.taken hp (he ▸ hn)
    rw [setWord_mem_frame (ht hp)]
    exact (setFrame_mem_of_ne (c := c.mark n) _ hne).trans (h.same hp)

theorem TblInv.clones (h : TblInv c₀ t t' i c) (hu : TblUsed c₀ t) (hi : i < 1024)
    (hp : Private (c₀.mem t i)) {n : Nat} (hn : n ∈ c.free) :
    PageCloned c₀ ((copied c (c₀.mem t i) n).setWord t' i
      (pageEntry (frameAddr n) (pteFlags (c₀.mem t i)))) (c₀.mem t i)
      (pageEntry (frameAddr n) (pteFlags (c₀.mem t i))) where
  shared hnp := absurd hp hnp
  flags _ := pteFlags_cloned n _
  fresh _ := by
    rw [frameNo_cloned hn]
    exact h.grows.free hn
  taken _ := by
    have hfree : (AkKernel.copied c (c₀.mem t i) n).free = c.free.erase n := free_mark hn
    rw [frameNo_cloned hn, setWord_free, hfree]
    exact Finset.notMem_erase n _
  same _ := by
    have hnt : n ≠ t' := fun he => h.taken (he ▸ hn)
    have hsrc : c.mem (frameNo (c₀.mem t i)) = c₀.mem (frameNo (c₀.mem t i)) :=
      h.grows.kept _ (hu.pages i hi hp.1)
    rw [frameNo_cloned hn, setWord_mem_frame hnt]
    exact (setFrame_mem_self _).trans hsrc

theorem TblInv.copied (h : TblInv c₀ t t' i c) (hu : TblUsed c₀ t) (hi : i < 1024)
    (hp : Private (c₀.mem t i)) {n : Nat} (hn : n ∈ c.free) :
    TblInv c₀ t t' (i + 1) ((copied c (c₀.mem t i) n).setWord t' i
      (pageEntry (frameAddr n) (pteFlags (c₀.mem t i)))) := by
  have hnt : n ≠ t' := fun he => h.taken (he ▸ hn)
  have hother : ∀ j, j < i → Private (c₀.mem t j) → frameNo (c.mem t' j) ≠ n := by
    intro j hj hpj he
    exact (h.pages j hj).taken hpj (he ▸ hn)
  constructor
  case grows => exact ((h.grows.mark hn).setFrame (h.grows.free hn) _).setWord h.fresh
  case fresh => exact h.fresh
  case taken => exact copied_used hn h.taken
  case rest =>
    intro j hj
    rw [copied_word_of_ne hnt (by omega)]
    exact h.rest j (by omega)
  case pages =>
    intro j hj
    rcases Nat.lt_succ_iff_lt_or_eq.mp hj with hlt | he
    · rw [copied_word_of_ne hnt (by omega)]
      exact (h.pages j hlt).copied hn (h.apart j hlt)
    · subst he
      rw [setWord_mem_self]
      exact h.clones hu hi hp hn
  case apart =>
    intro j hj hpj
    rcases Nat.lt_succ_iff_lt_or_eq.mp hj with hlt | he
    · rw [copied_word_of_ne hnt (by omega)]
      exact h.apart j hlt hpj
    · subst he
      rw [setWord_mem_self, frameNo_cloned hn]
      exact hnt
  case distinct =>
    intro j k hj hk hpj hpk
    rcases Nat.lt_succ_iff_lt_or_eq.mp hj with hlt | he
    · rcases Nat.lt_succ_iff_lt_or_eq.mp hk with hlt' | he'
      · rw [copied_word_of_ne hnt (by omega), copied_word_of_ne hnt (by omega)]
        exact h.distinct j k hlt hlt' hpj hpk
      · subst he'
        rw [setWord_mem_self, frameNo_cloned hn, copied_word_of_ne hnt (by omega)]
        intro heq
        exact absurd heq (hother j hlt hpj)
    · subst he
      rcases Nat.lt_succ_iff_lt_or_eq.mp hk with hlt' | he'
      · rw [setWord_mem_self, frameNo_cloned hn, copied_word_of_ne hnt (by omega)]
        intro heq
        exact absurd heq.symm (hother k hlt' hpk)
      · intro _
        exact he'.symm
  case card =>
    have hfree : (AkKernel.copied c (c₀.mem t i) n).free = c.free.erase n := free_mark hn
    have hcard := h.card
    rw [card_privates_succ, if_pos hp, setWord_free, hfree, Finset.card_erase_of_mem hn]
    have : 0 < c.free.card := Finset.card_pos.mpr ⟨n, hn⟩
    omega

theorem setWord_same (h : c.mem t' i = 0#32) : c.setWord t' i 0#32 = c := by
  unfold Phys.setWord Phys.setFrame
  rw [← h, Function.update_eq_self, Function.update_eq_self]

theorem cloneSlot_run (h : TblInv c₀ t t' i c) (hu : TblUsed c₀ t) :
    Direct.cloneSlot t t' i c =
      (if c₀.mem t i ≠ nilPgEnt then do
        let e' ← Direct.pgClonePage (c₀.mem t i)
        writeWord t' i e'
      else pure ()) c := by
  have hread : readWord t i c = .ok (c₀.mem t i, c) := by
    rw [readWord, h.grows.kept t hu.table]
  exact bind_run hread

theorem TblInv.round (h : TblInv c₀ t t' i c) (hu : TblUsed c₀ t) (hi : i < 1024)
    (hinit : c₀.frameAllocInitialized = true)
    (hrun : Direct.cloneSlot t t' i c = .ok ((), c')) : TblInv c₀ t t' (i + 1) c' := by
  rw [cloneSlot_run h hu] at hrun
  split at hrun
  · obtain ⟨e', c₁, h1, h2⟩ := bind_ok.mp hrun
    cases h2
    rcases pgClonePage_ok (h.grows.init.trans hinit) h1 with ⟨hp, he, hc⟩ | ⟨hp, n, hn, he, hc⟩
    · rw [he, hc]
      exact h.shared hp
    · rw [he, hc]
      exact h.copied hu hi hp hn
  · rename_i hnil
    obtain ⟨-, hc⟩ := pure_ok.mp hrun
    have hnil' : c₀.mem t i = 0#32 := not_not.mp hnil
    have hs := h.shared (by rw [hnil']; exact not_private_nil)
    rw [hnil', setWord_same (h.rest i (Nat.le_refl i))] at hs
    rw [hc]
    exact hs

theorem TblInv.round_ends (h : TblInv c₀ t t' i c) (hu : TblUsed c₀ t) (hi : i < 1024)
    (hinit : c₀.frameAllocInitialized = true)
    (hd : 1 + (privates c₀ t (i + 1)).card ≤ c₀.free.card) :
    ∃ c', Direct.cloneSlot t t' i c = .ok ((), c') ∧ TblInv c₀ t t' (i + 1) c' := by
  have hends : ∃ c', Direct.cloneSlot t t' i c = .ok ((), c') := by
    rw [cloneSlot_run h hu]
    split
    · have hfree : Private (c₀.mem t i) → c.free.Nonempty := by
        intro hp
        rw [card_privates_succ, if_pos hp] at hd
        have := h.card
        exact Finset.card_pos.mp (by omega)
      obtain ⟨r, hr⟩ := pgClonePage_ends (h.grows.init.trans hinit) hfree
      rw [bind_run hr]
      exact ⟨_, rfl⟩
    · exact ⟨_, rfl⟩
  obtain ⟨c', hc'⟩ := hends
  exact ⟨c', hc', h.round hu hi hinit hc'⟩

theorem pgDirNew_ok (hinit : c.frameAllocInitialized = true) {f : Word}
    (h : Direct.pgDirNew c = .ok (f, c')) :
    ∃ n ∈ c.free, f = frameAddr n ∧ c' = (c.mark n).setFrame n fun _ => 0#32 := by
  obtain ⟨f', c₁, h1, h2⟩ := bind_ok.mp h
  obtain ⟨n, hn, hf, hc₁⟩ := frameTake_fresh hinit h1
  obtain ⟨⟨⟩, c₂, h3, h4⟩ := bind_ok.mp h2
  obtain ⟨hff, hc'⟩ := pure_ok.mp h4
  cases h3
  refine ⟨n, hn, hff.trans hf, ?_⟩
  rw [hc', hc₁, hf, frameNo_frameAddr (FrameBitmap.free_lt hn)]

theorem pgDirNew_ends (hinit : c.frameAllocInitialized = true) (hfree : c.free.Nonempty) :
    ∃ r, Direct.pgDirNew c = .ok r := by
  obtain ⟨n, -, hn⟩ := frameTake_ends hinit hfree
  unfold Direct.pgDirNew
  rw [bind_run hn]
  exact ⟨_, rfl⟩

theorem TblInv.start {n : Nat} (hn : n ∈ c.free) (t : Nat) :
    TblInv c t n 0 ((c.mark n).setFrame n fun _ => 0#32) := by
  have hcard : (c.free.erase n).card + 1 = c.free.card := Finset.card_erase_add_one hn
  refine ⟨((Grows.refl c).mark hn).setFrame hn _, hn, ?_, ?_, ?_, ?_, ?_, ?_⟩
  · rw [setFrame_free, free_mark hn]
    exact Finset.notMem_erase n _
  · intro j _
    rw [setFrame_mem_self]
  · intro j hj
    omega
  · intro j hj
    omega
  · intro j k hj
    omega
  · rw [setFrame_free, free_mark hn]
    exact hcard

theorem private_iff_flags' {e : Word} : Private e ↔
    ¬ pteFlags e &&& pageLink ≠ 0#32 ∧ ¬ pteFlags e &&& pagePresent = 0#32 := by
  rw [private_iff_flags, and_comm]

theorem pgCloneTbl_shared {e : Word} (h : ¬ Private e) : Direct.pgCloneTbl e c = .ok (e, c) := by
  unfold Direct.pgCloneTbl
  split
  · rfl
  · split
    · rfl
    · exact absurd (private_iff_flags'.mpr ⟨by assumption, by assumption⟩) h

theorem pgCloneTbl_private {e : Word} (h : Private e) : Direct.pgCloneTbl e = (do
    let f ← Direct.pgDirNew
    upTo (Direct.cloneSlot (frameNo (pteAddr e)) (frameNo f)) 1024
    pure (pageEntry f (pteFlags e))) := by
  obtain ⟨h1, h2⟩ := private_iff_flags'.mp h
  unfold Direct.pgCloneTbl
  rw [if_neg h1, if_neg h2]

theorem pgCloneTbl_ok {e e' : Word} (hinit : c.frameAllocInitialized = true)
    (hu : Private e → TblUsed c (frameNo e)) (h : Direct.pgCloneTbl e c = .ok (e', c')) :
    (¬ Private e ∧ e' = e ∧ c' = c) ∨ (Private e ∧ ∃ n ∈ c.free,
      e' = pageEntry (frameAddr n) (pteFlags e) ∧ TblInv c (frameNo e) n 1024 c') := by
  by_cases hp : Private e
  · right
    refine ⟨hp, ?_⟩
    rw [pgCloneTbl_private hp] at h
    obtain ⟨f, c₁, h1, h2⟩ := bind_ok.mp h
    obtain ⟨n, hn, hf, hc₁⟩ := pgDirNew_ok hinit h1
    obtain ⟨⟨⟩, c₂, h3, h4⟩ := bind_ok.mp h2
    obtain ⟨he', hc'⟩ := pure_ok.mp h4
    rw [hf, frameNo_frameAddr (FrameBitmap.free_lt hn), frameNo_pteAddr] at h3
    refine ⟨n, hn, by rw [he', hf], ?_⟩
    rw [hc']
    refine upTo_keeps ?_ ?_ h3
    · rw [hc₁]
      exact TblInv.start hn _
    · intro i s u hi hinv hrun
      exact hinv.round (hu hp) hi hinit hrun
  · left
    rw [pgCloneTbl_shared hp] at h
    cases h
    exact ⟨hp, rfl, rfl⟩

theorem privates_mono {i j : Nat} (h : i ≤ j) : (privates c t i).card ≤ (privates c t j).card := by
  apply Finset.card_le_card
  apply Finset.filter_subset_filter
  intro n hn
  rw [Finset.mem_range] at hn ⊢
  omega

theorem pgCloneTbl_ends {e : Word} (hinit : c.frameAllocInitialized = true)
    (hu : Private e → TblUsed c (frameNo e))
    (hd : Private e → 1 + (privates c (frameNo e) 1024).card ≤ c.free.card) :
    ∃ r, Direct.pgCloneTbl e c = .ok r := by
  by_cases hp : Private e
  · have hd' := hd hp
    obtain ⟨⟨f, c₁⟩, h1⟩ := pgDirNew_ends hinit (Finset.card_pos.mp (by omega))
    obtain ⟨n, hn, hf, hc₁⟩ := pgDirNew_ok hinit h1
    have hloop : ∃ u, upTo (Direct.cloneSlot (frameNo e) n) 1024 c₁ = .ok ((), u) ∧
        TblInv c (frameNo e) n 1024 u := by
      refine upTo_ends ?_ ?_
      · rw [hc₁]
        exact TblInv.start hn _
      · intro i s hi hinv
        apply hinv.round_ends (hu hp) hi hinit
        have := privates_mono (c := c) (t := frameNo e) (i := i + 1) (j := 1024) hi
        omega
    obtain ⟨u, hloop, -⟩ := hloop
    rw [pgCloneTbl_private hp, bind_run h1, hf, frameNo_frameAddr (FrameBitmap.free_lt hn),
      frameNo_pteAddr, bind_run hloop]
    exact ⟨_, rfl⟩
  · exact ⟨_, pgCloneTbl_shared hp⟩

end Table

end AkKernel
