import AkKernel.Mem.Mapped

/-!
# The kernel's range in all directories

A page of the kernel's range that any directory has is the one that the directory `k` of
`KernelTask` has, through whichever table.
-/

set_option autoImplicit false

namespace AkKernel

open Programs

/-- Entry `j` of the table at slot `i` of directory `d`. -/
def tableWord (c : Phys) (d i j : Nat) : Word := c.mem (frameNo (c.mem d i)) j

/-- Slot `i` of the directory, in the kernel's range, has a table. -/
structure KernelTable (c : Phys) (ds : Set Nat) (d i : Nat) : Prop where
  dir : d ∈ ds
  low : 768 ≤ i
  high : i < 1023
  slot : c.mem d i ≠ nilPgEnt
  narrow : ¬ Extended (c.mem d i)

/-- An entry as `KernelTask` makes it. -/
def KernelEntry (e : Word) : Prop := (Present e → Linked e) ∧ ¬ Reserved e

structure Coherent (c : Phys) (ds : Set Nat) (k : Nat) : Prop where
  entries : ∀ d i, KernelTable c ds d i → ∀ j, j < 1024 → KernelEntry (tableWord c d i j)
  pages : ∀ d i, KernelTable c ds d i → ∀ j, j < 1024 → Present (tableWord c d i j) →
    c.mem k i ≠ nilPgEnt ∧ tableWord c k i j = tableWord c d i j
  wide : ∀ d ∈ ds, ∀ i, 768 ≤ i → i < 1023 → Extended (c.mem d i) → ¬ Reserved (c.mem d i)

theorem kernelEntry_nil : KernelEntry nilPgEnt := by
  refine ⟨?_, by decide⟩
  intro hp
  exact absurd hp not_present_nil

section Edits
variable {c c' : Phys} {ds : Set Nat} {k d i j n : Nat} {e : Word} {cur : Task}

theorem KernelTable.lt (h : KernelTable c ds d i) : i < 1024 := Nat.lt_succ_of_lt h.high

/-- The tables of all directories after an edit, word by word: the edited word changes in
every directory that shares the table. -/
theorem Mapped.edited_words (h : Mapped c ds) (hd : d ∈ ds) (hi : i < 1024)
    (hed : Edited (baseFlags cur) d i j e c c') {x l : Nat} (hx : x ∈ ds) (hl : l < 1024) :
    (c'.mem x l = c.mem x l ∧ (c.mem x l ≠ nilPgEnt → ∀ m, tableWord c' x l m =
        if c.mem d i ≠ nilPgEnt ∧ frameNo (c.mem x l) = frameNo (c.mem d i) ∧ m = j then e
        else tableWord c x l m)) ∨
      (x = d ∧ l = i ∧ c.mem d i = nilPgEnt ∧ c'.mem x l ≠ nilPgEnt ∧
        ¬ Extended (c'.mem x l) ∧ ∀ m, tableWord c' x l m = if m = j then e else nilPgEnt) := by
  rcases h.edited_slot (k := l) hd hi hed hx with ⟨hxd, hli, hnil, -⟩ | hs
  · right
    subst hxd hli
    obtain ⟨c₁, hen, hc'⟩ := hed
    cases hen with
    | old hne => exact absurd hnil hne
    | new m _ hm =>
      have hdm : x ≠ m := fun he => h.dirUsed x hd (he ▸ hm)
      rw [newTable_mem_slot, frameNo_entry hm] at hc'
      have hslot : c'.mem x l = pageEntry (frameAddr m) (baseFlags cur) := by
        rw [hc', setWord_mem_frame hdm, newTable_mem_slot]
      refine ⟨rfl, rfl, hnil, ?_, ?_, ?_⟩
      · rw [hslot]
        exact (present_entry cur m).ne_nil
      · rw [hslot]
        exact not_extended_entry cur m
      · intro w
        rw [tableWord, hslot, frameNo_entry hm, hc']
        by_cases hw : w = j
        · rw [if_pos hw, hw, setWord_mem_self]
        · rw [if_neg hw, setWord_mem_of_ne hw, newTable_mem_table (Ne.symm hdm)]
          rfl
  · left
    refine ⟨hs, ?_⟩
    intro hne m
    rw [tableWord, tableWord, hs]
    by_cases hT : c.mem d i ≠ nilPgEnt ∧ frameNo (c.mem x l) = frameNo (c.mem d i) ∧ m = j
    · obtain ⟨hds, hframe, hm⟩ := hT
      rw [if_pos ⟨hds, hframe, hm⟩]
      obtain ⟨c₁, hen, hc'⟩ := hed
      cases hen with
      | new n hnil _ => exact absurd hnil hds
      | old _ => rw [hc', hframe, hm, setWord_mem_self]
    · rw [if_neg hT]
      apply h.edited_table hd hed m hx hl hne
      intro hds hframe hm
      exact absurd ⟨hds, hframe, hm⟩ hT

theorem KernelTable.of_slot (h : KernelTable c' ds d i) (hs : c'.mem d i = c.mem d i) :
    KernelTable c ds d i := by
  refine ⟨h.dir, h.low, h.high, ?_, ?_⟩
  · rw [← hs]
    exact h.slot
  · rw [← hs]
    exact h.narrow

theorem Coherent.mark (h : Coherent c ds k) (n : Nat) : Coherent (c.mark n) ds k :=
  ⟨fun d i ht => h.entries d i ⟨ht.dir, ht.low, ht.high, ht.slot, ht.narrow⟩,
    fun d i ht => h.pages d i ⟨ht.dir, ht.low, ht.high, ht.slot, ht.narrow⟩, h.wide⟩

/-- The entries after an edit are the old ones, the new one, and nil ones. -/
theorem Coherent.edited_entries (h : Coherent c ds k) (hm : Mapped c ds) (hd : d ∈ ds)
    (hi : i < 1024) (he : KernelEntry e) (hed : Edited (baseFlags cur) d i j e c c') :
    ∀ x l, KernelTable c' ds x l → ∀ m, m < 1024 → KernelEntry (tableWord c' x l m) := by
  intro x l ht m hm'
  rcases hm.edited_words hd hi hed ht.dir ht.lt with ⟨hs, hw⟩ | ⟨-, -, -, -, -, hw⟩
  · have htc := ht.of_slot hs
    rw [hw htc.slot m]
    split
    · exact he
    · exact h.entries x l htc m hm'
  · rw [hw m]
    split
    · exact he
    · exact kernelEntry_nil

theorem Coherent.edited_wide (h : Coherent c ds k) (hm : Mapped c ds) (hd : d ∈ ds)
    (hi : i < 1024) (hed : Edited (baseFlags cur) d i j e c c') :
    ∀ x ∈ ds, ∀ l, 768 ≤ l → l < 1023 → Extended (c'.mem x l) → ¬ Reserved (c'.mem x l) := by
  intro x hx l hlo hhi hxt
  rcases hm.edited_words hd hi hed hx (Nat.lt_succ_of_lt hhi) with ⟨hs, -⟩ | ⟨-, -, -, -, hn, -⟩
  · rw [hs] at hxt ⊢
    exact h.wide x hx l hlo hhi hxt
  · exact absurd hxt hn

/-- `KernelTask` changes a page that no other directory has through a table of its own. -/
theorem Coherent.kernelEdit (h : Coherent c ds k) (hm : Mapped c ds) (hk : k ∈ ds) (hi : i < 1024)
    (he : KernelEntry e) (hed : Edited (baseFlags cur) k i j e c c')
    (hspare : ∀ d, KernelTable c ds d i → Present (tableWord c d i j) →
      frameNo (c.mem d i) = frameNo (c.mem k i)) : Coherent c' ds k := by
  refine ⟨h.edited_entries hm hk hi he hed, ?_, h.edited_wide hm hk hi hed⟩
  intro x l ht m hm' hp
  rcases hm.edited_words hk hi hed ht.dir ht.lt with ⟨hs, hw⟩ | ⟨hxk, hli, -, hne, -, -⟩
  · have htc := ht.of_slot hs
    rw [hw htc.slot m] at hp ⊢
    by_cases hT : c.mem k i ≠ nilPgEnt ∧ frameNo (c.mem x l) = frameNo (c.mem k i) ∧ m = j
    · -- the directory shares the table that is written
      obtain ⟨hki, hframe, hmj⟩ := hT
      have hli : l = i := hm.slot x ht.dir k hk l i ht.lt hi htc.slot hki hframe
      rcases hm.edited_words hk hi hed hk hi with ⟨hsk, hwk⟩ | ⟨-, -, hnil, -⟩
      · rw [if_pos ⟨hki, hframe, hmj⟩, hli, hsk, hwk hki m, if_pos ⟨hki, rfl, hmj⟩]
        exact ⟨hki, rfl⟩
      · exact absurd hnil hki
    · rw [if_neg hT] at hp ⊢
      obtain ⟨hkl, hsame⟩ := h.pages x l htc m hm' hp
      rcases hm.edited_words hk hi hed hk ht.lt with ⟨hsk, hwk⟩ | ⟨-, hli, hnil, -⟩
      · have hkeep : ¬ (c.mem k i ≠ nilPgEnt ∧ frameNo (c.mem k l) = frameNo (c.mem k i) ∧
            m = j) := by
          intro hTk
          obtain ⟨hki, hframe, hmj⟩ := hTk
          have hli : l = i := hm.slot k hk k hk l i ht.lt hi hkl hki hframe
          subst hli hmj
          exact hT ⟨hki, hspare x htc hp, rfl⟩
        rw [hsk, hwk hkl m, if_neg hkeep]
        exact ⟨hkl, hsame⟩
      · rw [hli] at hkl
        exact absurd hnil hkl
  · subst hxk
    exact ⟨hne, rfl⟩

theorem Coherent.copyEdit (h : Coherent c ds k) (hm : Mapped c ds) (hk : k ∈ ds) (hd : d ∈ ds)
    (hj : j < 1024) (hki : KernelTable c ds k i)
    (hed : Edited (baseFlags cur) d i j (tableWord c k i j) c c') : Coherent c' ds k := by
  have hi := hki.lt
  refine ⟨h.edited_entries hm hd hi (h.entries k i hki j hj) hed, ?_, h.edited_wide hm hd hi hed⟩
  have hkernel : ∀ l, l < 1024 → c.mem k l ≠ nilPgEnt →
      c'.mem k l ≠ nilPgEnt ∧ ∀ m, tableWord c' k l m = tableWord c k l m := by
    intro l hl hkl
    rcases hm.edited_words hd hi hed hk hl with ⟨hsk, hwk⟩ | ⟨hkd, hli, hnil, -⟩
    · refine ⟨by rw [hsk]; exact hkl, ?_⟩
      intro m
      rw [hwk hkl m]
      split
      · rename_i hT
        obtain ⟨hdi, hframe, hmj⟩ := hT
        have hli : l = i := hm.slot k hk d hd l i hl hi hkl hdi hframe
        rw [hli, hmj]
      · rfl
    · rw [hkd, hli] at hkl
      exact absurd hnil hkl
  intro x l ht m hm' hp
  rcases hm.edited_words hd hi hed ht.dir ht.lt with ⟨hs, hw⟩ | ⟨-, hli, -, -, -, hw⟩
  · have htc := ht.of_slot hs
    rw [hw htc.slot m] at hp ⊢
    split at hp
    · rename_i hT
      obtain ⟨hdi, hframe, hmj⟩ := hT
      have hli : l = i := hm.slot x ht.dir d hd l i ht.lt hi htc.slot hdi hframe
      rw [if_pos ⟨hdi, hframe, hmj⟩, hli, hmj]
      obtain ⟨hne, hsame⟩ := hkernel i hi hki.slot
      exact ⟨hne, hsame j⟩
    · rename_i hT
      obtain ⟨hkl, hsame⟩ := h.pages x l htc m hm' hp
      obtain ⟨hne, hkept⟩ := hkernel l ht.lt hkl
      rw [if_neg hT, hkept m]
      exact ⟨hne, hsame⟩
  · rw [hw m] at hp ⊢
    split at hp
    · rename_i hmj
      obtain ⟨hne, hsame⟩ := hkernel i hi hki.slot
      rw [if_pos hmj, hli, hsame m, hmj]
      exact ⟨hne, rfl⟩
    · exact absurd hp not_present_nil

/-- A clone has the pages of the kernel's range as they were, its own tables included: all
of them are linked. -/
theorem Coherent.clone (h : Coherent c ds k) (hm : Mapped c ds) (hk : k ∈ ds) {nd : Nat} (hd : d ∈ ds)
    (hinv : DirInv c d nd 1024 c') : Coherent c' (insert nd ds) k := by
  have hkept : ∀ x ∈ ds, ∀ l, l < 1024 → c'.mem x l = c.mem x l ∧ (c.mem x l ≠ nilPgEnt →
      ∀ m, c'.mem (frameNo (c.mem x l)) m = tableWord c x l m) := by
    intro x hx l hl
    refine ⟨by rw [hinv.grows.kept x (hm.dirUsed x hx)], ?_⟩
    intro hne m
    rw [hinv.grows.kept _ (hm.tableUsed x hx l hl hne)]
    rfl
  -- a table of the clone holds what a table of an old directory held
  have hold : ∀ x l, KernelTable c' (insert nd ds) x l → ∃ y, KernelTable c ds y l ∧
      ∀ m, m < 1024 → tableWord c' x l m = tableWord c y l m := by
    intro x l ht
    rcases hinv.slot_cases hm.dirUsed hd ht.dir ht.lt with ⟨y, hy, hs⟩ | ⟨-, hp, hcl⟩
    · have hty : KernelTable c ds y l := by
        refine ⟨hy, ht.low, ht.high, ?_, ?_⟩
        · rw [← hs]
          exact ht.slot
        · rw [← hs]
          exact ht.narrow
      refine ⟨y, hty, ?_⟩
      intro m _
      rw [tableWord, hs]
      exact (hkept y hy l ht.lt).2 hty.slot m
    · have hty : KernelTable c ds d l := ⟨hd, ht.low, ht.high, hp.1.1.ne_nil, hp.2⟩
      refine ⟨d, hty, ?_⟩
      intro m hm'
      apply (hcl.pages m hm').shared
      intro hpriv
      exact hpriv.2 ((h.entries d l hty m hm').1 hpriv.1)
  refine ⟨?_, ?_, ?_⟩
  · intro x l ht m hm'
    obtain ⟨y, hty, hw⟩ := hold x l ht
    rw [hw m hm']
    exact h.entries y l hty m hm'
  · intro x l ht m hm' hp
    obtain ⟨y, hty, hw⟩ := hold x l ht
    rw [hw m hm'] at hp ⊢
    obtain ⟨hkl, hsame⟩ := h.pages y l hty m hm' hp
    obtain ⟨hsk, hwk⟩ := hkept k hk l ht.lt
    rw [tableWord, hsk, hwk hkl m]
    exact ⟨hkl, hsame⟩
  · intro x hx l hlo hhi hxt
    rcases hinv.slot_cases hm.dirUsed hd hx (Nat.lt_succ_of_lt hhi) with ⟨y, hy, hs⟩ | ⟨-, hp, hcl⟩
    · rw [hs] at hxt ⊢
      exact h.wide y hy l hlo hhi hxt
    · exact absurd ((extended_congr hcl.flags).mp hxt) hp.2

end Edits

end AkKernel
