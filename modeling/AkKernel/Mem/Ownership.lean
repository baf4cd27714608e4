import AkKernel.Mem.MapOps
import AkKernel.Mem.CloneDir

/-!
# Who refers to a frame

A frame is referred to as the directory of a task, as a page table by a directory
entry, or as a page by an entry of a page table. `ds` are the directories of the tasks
and `k` is that of `KernelTask`.
-/

set_option autoImplicit false

namespace AkKernel

open Programs

/-- The frame is covered by the bitmap, and its bit is set. -/
def Marked (c : Phys) (n : Nat) : Prop := n < c.bitmap.words.length * 32 ∧ n ∉ c.free

/-- A directory entry that refers to a page table. -/
def TableEntry (e : Word) : Prop := Present e ∧ ¬ Extended e

instance (c : Phys) (n : Nat) : Decidable (Marked c n) := inferInstanceAs (Decidable (_ ∧ _))
instance (e : Word) : Decidable (TableEntry e) := inferInstanceAs (Decidable (_ ∧ _))

def IsTable (c : Phys) (ds : Set Nat) (t : Nat) : Prop :=
  ∃ d ∈ ds, ∃ i, i < 1024 ∧ TableEntry (c.mem d i) ∧ frameNo (c.mem d i) = t

def IsPage (c : Phys) (ds : Set Nat) (n : Nat) : Prop :=
  ∃ t, IsTable c ds t ∧ ∃ j, j < 1024 ∧ Present (c.mem t j) ∧ frameNo (c.mem t j) = n

/-- The words of the frame are entries. -/
def HoldsEntries (c : Phys) (ds : Set Nat) (n : Nat) : Prop := n ∈ ds ∨ IsTable c ds n

structure Good (c : Phys) (ds : Set Nat) (k : Nat) : Prop where
  dirs : ∀ d ∈ ds, Marked c d
  tables : ∀ t, IsTable c ds t → Marked c t
  pages : ∀ n, IsPage c ds n → Marked c n
  alone : ∀ n i m j, HoldsEntries c ds n → i < 1024 → HoldsEntries c ds m → j < 1024 →
    Private (c.mem n i) → Private (c.mem m j) → frameNo (c.mem n i) = frameNo (c.mem m j) →
    n = m ∧ i = j
  apart : ∀ n, HoldsEntries c ds n → ¬ IsPage c ds n
  kernelSlots : ∀ i, 768 ≤ i → i < 1023 → Present (c.mem k i) → Linked (c.mem k i)
  kernelPages : ∀ i, 768 ≤ i → i < 1023 → TableEntry (c.mem k i) → ∀ j, j < 1024 →
    Present (c.mem (frameNo (c.mem k i)) j) → Linked (c.mem (frameNo (c.mem k i)) j)
  wide : ∀ d ∈ ds, ∀ i, i < 1024 → Present (c.mem d i) → Extended (c.mem d i) →
    Linked (c.mem d i)

/-- No directory is used as a page table, and no table of the kernel's range of
`KernelTask` is at a slot below `KZERO`. -/
structure Sound (c : Phys) (ds : Set Nat) (k : Nat) : Prop extends Good c ds k where
  dirTable : ∀ d ∈ ds, ¬ IsTable c ds d
  kernelHigh : ∀ d ∈ ds, ∀ i i', i < 768 → 768 ≤ i' → i' < 1023 → TableEntry (c.mem d i) →
    TableEntry (c.mem k i') → frameNo (c.mem d i) ≠ frameNo (c.mem k i')

/-- Nothing refers to the frame. -/
def Unref (c : Phys) (ds : Set Nat) (n : Nat) : Prop :=
  ¬ HoldsEntries c ds n ∧ ¬ IsPage c ds n

section References
variable {c c' : Phys} {ds : Set Nat} {k d i n m : Nat} {e : Word}

theorem TableEntry.ne_nil (h : TableEntry e) : e ≠ nilPgEnt := h.1.ne_nil

theorem covered_of_free (h : n ∈ c.free) : n < c.bitmap.words.length * 32 :=
  (Bitmap.mem_clear.mp h).1

theorem Marked.grows (h : Marked c n) (hlen : c'.bitmap.words.length = c.bitmap.words.length)
    (hfree : c'.free ⊆ c.free) : Marked c' n := by
  refine ⟨?_, fun hn => h.2 (hfree hn)⟩
  rw [hlen]
  exact h.1

theorem Good.unref (h : Good c ds k) (hn : n ∈ c.free) : Unref c ds n := by
  refine ⟨?_, fun hp => (h.pages n hp).2 hn⟩
  intro hh
  rcases hh with hd | ht
  · exact (h.dirs n hd).2 hn
  · exact (h.tables n ht).2 hn

theorem Good.private_ref (h : Good c ds k) (hn : HoldsEntries c ds n) (hi : i < 1024)
    (hp : Private (c.mem n i)) :
    IsTable c ds (frameNo (c.mem n i)) ∨ IsPage c ds (frameNo (c.mem n i)) := by
  rcases hn with hd | ht
  · left
    refine ⟨n, hd, i, hi, ⟨hp.1, ?_⟩, rfl⟩
    intro hx
    exact hp.2 (h.wide n hd i hi hp.1 hx)
  · exact Or.inr ⟨n, ht, i, hi, hp.1, rfl⟩

theorem Good.private_marked (h : Good c ds k) (hn : HoldsEntries c ds n) (hi : i < 1024)
    (hp : Private (c.mem n i)) : Marked c (frameNo (c.mem n i)) := by
  rcases h.private_ref hn hi hp with ht | hg
  · exact h.tables _ ht
  · exact h.pages _ hg

theorem Good.used (h : Good c ds k) (hd : d ∈ ds) : DirUsed c d := by
  refine ⟨(h.dirs d hd).2, ?_, fun i hi => h.wide d hd i hi⟩
  intro i hi hp hx
  have ht : IsTable c ds (frameNo (c.mem d i)) := ⟨d, hd, i, hi, ⟨hp, hx⟩, rfl⟩
  refine ⟨(h.tables _ ht).2, ?_⟩
  intro j hj hpj
  exact (h.pages _ ⟨_, ht, j, hj, hpj, rfl⟩).2

theorem Sound.mark (h : Sound c ds k) (hn : n ∈ c.free) : Sound (c.mark n) ds k := by
  have hmarked : ∀ m, Marked c m → Marked (c.mark n) m := by
    intro m hm
    apply hm.grows (mark_covers c n)
    rw [free_mark hn]
    exact Finset.erase_subset n _
  refine ⟨⟨?_, ?_, ?_, h.alone, h.apart, h.kernelSlots, h.kernelPages, h.wide⟩, h.dirTable,
    h.kernelHigh⟩
  · intro d hd
    exact hmarked d (h.dirs d hd)
  · intro t ht
    exact hmarked t (h.tables t ht)
  · intro m hm
    exact hmarked m (h.pages m hm)

end References

section NewTable
variable {c : Phys} {ds : Set Nat} {k d i n m t : Nat} {cur : Task}

/-- Everything about a table that is made for a nil slot. -/
structure MakesTable (c : Phys) (ds : Set Nat) (d i n : Nat) : Prop where
  dir : d ∈ ds
  slot : i < 1024
  nil : c.mem d i = nilPgEnt
  free : n ∈ c.free

theorem MakesTable.ne_dir (hm : MakesTable c ds d i n) (h : Sound c ds k) : ∀ x ∈ ds, x ≠ n := by
  intro x hx he
  rw [he] at hx
  exact (h.dirs n hx).2 hm.free

theorem MakesTable.table_mem (hm : MakesTable c ds d i n) (h : Sound c ds k) (ht : IsTable c ds t) :
    (c.newTable d i n (baseFlags cur)).mem t = c.mem t := by
  apply newTable_mem_of_ne
  · intro he
    rw [he] at ht
    exact (h.tables n ht).2 hm.free
  · intro he
    rw [he] at ht
    exact h.dirTable d hm.dir ht

theorem MakesTable.isTable_iff (hm : MakesTable c ds d i n) (h : Sound c ds k) :
    IsTable (c.newTable d i n (baseFlags cur)) ds t ↔ IsTable c ds t ∨ t = n := by
  have hdn := hm.ne_dir h
  constructor
  · intro ht
    obtain ⟨d', hd', j, hj, he, hf⟩ := ht
    rcases newTable_slot (c := c) (i := i) (k := j) (baseFlags cur) (hdn d hm.dir) (hdn d' hd') with
      ⟨-, -, hs⟩ | ⟨-, hs⟩
    · right
      rw [hs, frameNo_entry hm.free] at hf
      exact hf.symm
    · left
      rw [hs] at he hf
      exact ⟨d', hd', j, hj, he, hf⟩
  · intro ht
    rcases ht with ⟨d', hd', j, hj, he, hf⟩ | he
    · refine ⟨d', hd', j, hj, ?_⟩
      rcases newTable_slot (c := c) (i := i) (k := j) (baseFlags cur) (hdn d hm.dir) (hdn d' hd') with
        ⟨h1, h2, -⟩ | ⟨-, hs⟩
      · rw [h1, h2, hm.nil] at he
        exact absurd he.1 not_present_nil
      · rw [hs]
        exact ⟨he, hf⟩
    · refine ⟨d, hm.dir, i, hm.slot, ?_⟩
      rw [newTable_mem_slot, frameNo_entry hm.free]
      exact ⟨⟨present_entry cur n, not_extended_entry cur n⟩, he.symm⟩

theorem MakesTable.isPage_iff (hm : MakesTable c ds d i n) (h : Sound c ds k) :
    IsPage (c.newTable d i n (baseFlags cur)) ds m ↔ IsPage c ds m := by
  constructor
  · intro hp
    obtain ⟨t, ht, j, hj, hpj, hf⟩ := hp
    rcases (hm.isTable_iff h).mp ht with ht | ht
    · rw [hm.table_mem h ht] at hpj hf
      exact ⟨t, ht, j, hj, hpj, hf⟩
    · rw [ht, newTable_mem_table (Ne.symm (hm.ne_dir h d hm.dir))] at hpj
      exact absurd hpj (by decide)
  · intro hp
    obtain ⟨t, ht, j, hj, hpj, hf⟩ := hp
    refine ⟨t, (hm.isTable_iff h).mpr (Or.inl ht), j, hj, ?_⟩
    rw [hm.table_mem h ht]
    exact ⟨hpj, hf⟩

theorem MakesTable.marked (hm : MakesTable c ds d i n) (hmk : Marked c m) :
    Marked (c.newTable d i n (baseFlags cur)) m := by
  apply hmk.grows (mark_covers c n)
  rw [free_mark hm.free]
  exact Finset.erase_subset n _

theorem MakesTable.private_cases (hm : MakesTable c ds d i n) (h : Sound c ds k) {j : Nat}
    (hh : HoldsEntries (c.newTable d i n (baseFlags cur)) ds m)
    (hp : Private ((c.newTable d i n (baseFlags cur)).mem m j)) :
    (m = d ∧ j = i ∧ frameNo ((c.newTable d i n (baseFlags cur)).mem m j) = n) ∨
      (HoldsEntries c ds m ∧ (c.newTable d i n (baseFlags cur)).mem m j = c.mem m j) := by
  have hdn := hm.ne_dir h
  rcases hh with hd' | ht
  · rcases newTable_slot (c := c) (i := i) (k := j) (baseFlags cur) (hdn d hm.dir) (hdn m hd') with
      ⟨h1, h2, hs⟩ | ⟨-, hs⟩
    · left
      rw [hs, frameNo_entry hm.free]
      exact ⟨h1, h2, rfl⟩
    · exact Or.inr ⟨Or.inl hd', hs⟩
  · rcases (hm.isTable_iff h).mp ht with ht | ht
    · exact Or.inr ⟨Or.inr ht, by rw [hm.table_mem h ht]⟩
    · rw [ht, newTable_mem_table (Ne.symm (hdn d hm.dir))] at hp
      exact absurd hp not_private_nil

theorem MakesTable.marked_new (hm : MakesTable c ds d i n) :
    Marked (c.newTable d i n (baseFlags cur)) n := by
  refine ⟨?_, ?_⟩
  · exact (mark_covers c n).symm ▸ covered_of_free hm.free
  · rw [newTable_free hm.free]
    exact Finset.notMem_erase n _

theorem MakesTable.alone (hm : MakesTable c ds d i n) (h : Sound c ds k) {j₁ m₂ j₂ : Nat}
    (hh₁ : HoldsEntries (c.newTable d i n (baseFlags cur)) ds m) (hj₁ : j₁ < 1024)
    (hh₂ : HoldsEntries (c.newTable d i n (baseFlags cur)) ds m₂) (hj₂ : j₂ < 1024)
    (hp₁ : Private ((c.newTable d i n (baseFlags cur)).mem m j₁))
    (hp₂ : Private ((c.newTable d i n (baseFlags cur)).mem m₂ j₂))
    (heq : frameNo ((c.newTable d i n (baseFlags cur)).mem m j₁) =
      frameNo ((c.newTable d i n (baseFlags cur)).mem m₂ j₂)) : m = m₂ ∧ j₁ = j₂ := by
  have hold : ∀ m j, HoldsEntries c ds m → j < 1024 → Private (c.mem m j) →
      frameNo (c.mem m j) ≠ n := by
    intro m j hh hj hp he
    apply (h.private_marked hh hj hp).2
    rw [he]
    exact hm.free
  rcases hm.private_cases h hh₁ hp₁ with ⟨h1, h2, hf₁⟩ | ⟨hh₁, hs₁⟩
  · rcases hm.private_cases h hh₂ hp₂ with ⟨h1', h2', -⟩ | ⟨hh₂, hs₂⟩
    · exact ⟨h1.trans h1'.symm, h2.trans h2'.symm⟩
    · rw [hs₂] at hp₂ heq
      exact absurd (heq.symm.trans hf₁) (hold m₂ j₂ hh₂ hj₂ hp₂)
  · rw [hs₁] at hp₁ heq
    rcases hm.private_cases h hh₂ hp₂ with ⟨-, -, hf₂⟩ | ⟨hh₂, hs₂⟩
    · exact absurd (heq.trans hf₂) (hold m j₁ hh₁ hj₁ hp₁)
    · rw [hs₂] at hp₂ heq
      exact h.alone m j₁ m₂ j₂ hh₁ hj₁ hh₂ hj₂ hp₁ hp₂ heq

theorem MakesTable.slot_cases (hm : MakesTable c ds d i n) (h : Sound c ds k) (cur : Task)
    {d' : Nat} (hd' : d' ∈ ds) (j : Nat) :
    (d' = d ∧ j = i ∧
        (c.newTable d i n (baseFlags cur)).mem d' j = pageEntry (frameAddr n) (baseFlags cur)) ∨
      ((d' = d → j ≠ i) ∧ (c.newTable d i n (baseFlags cur)).mem d' j = c.mem d' j) :=
  newTable_slot (baseFlags cur) (hm.ne_dir h d hm.dir) (hm.ne_dir h d' hd')

theorem MakesTable.kernelPages (hm : MakesTable c ds d i n) (h : Sound c ds k) (hk : k ∈ ds)
    {j l : Nat} (hj : 768 ≤ j) (hj' : j < 1023)
    (he : TableEntry ((c.newTable d i n (baseFlags cur)).mem k j)) (hl : l < 1024)
    (hp : Present ((c.newTable d i n (baseFlags cur)).mem
      (frameNo ((c.newTable d i n (baseFlags cur)).mem k j)) l)) :
    Linked ((c.newTable d i n (baseFlags cur)).mem
      (frameNo ((c.newTable d i n (baseFlags cur)).mem k j)) l) := by
  rcases hm.slot_cases h cur hk j with ⟨-, -, hs⟩ | ⟨-, hs⟩
  · rw [hs, frameNo_entry hm.free, newTable_mem_table (Ne.symm (hm.ne_dir h d hm.dir))] at hp
    exact absurd hp (by decide)
  · rw [hs] at he hp ⊢
    have ht : IsTable c ds (frameNo (c.mem k j)) :=
      ⟨k, hk, j, Nat.lt_trans hj' (by decide), he, rfl⟩
    rw [hm.table_mem h ht] at hp ⊢
    exact h.kernelPages j hj hj' he l hl hp

theorem MakesTable.kernelHigh (hm : MakesTable c ds d i n) (h : Sound c ds k) (hk : k ∈ ds)
    {d' j j' : Nat} (hd' : d' ∈ ds) (hj : j < 768) (hj₁ : 768 ≤ j') (hj₂ : j' < 1023)
    (he : TableEntry ((c.newTable d i n (baseFlags cur)).mem d' j))
    (he' : TableEntry ((c.newTable d i n (baseFlags cur)).mem k j')) :
    frameNo ((c.newTable d i n (baseFlags cur)).mem d' j) ≠
      frameNo ((c.newTable d i n (baseFlags cur)).mem k j') := by
  have hlt : j < 1024 := Nat.lt_trans hj (by decide)
  have hlt' : j' < 1024 := Nat.lt_trans hj₂ (by decide)
  rcases hm.slot_cases h cur hd' j with ⟨-, h2, hs⟩ | ⟨-, hs⟩
  · rcases hm.slot_cases h cur hk j' with ⟨-, h2', -⟩ | ⟨-, hs'⟩
    · omega
    · rw [hs, hs', frameNo_entry hm.free]
      rw [hs'] at he'
      intro heq
      apply (h.tables n ⟨k, hk, j', hlt', he', heq.symm⟩).2
      exact hm.free
  · rw [hs] at he
    rcases hm.slot_cases h cur hk j' with ⟨-, -, hs'⟩ | ⟨-, hs'⟩
    · rw [hs, hs', frameNo_entry hm.free]
      intro heq
      apply (h.tables n ⟨d', hd', j, hlt, he, heq⟩).2
      exact hm.free
    · rw [hs'] at he'
      rw [hs, hs']
      exact h.kernelHigh d' hd' j j' hj hj₁ hj₂ he he'

theorem Sound.newTable (h : Sound c ds k) (hk : k ∈ ds) (hm : MakesTable c ds d i n)
    (hlink : d = k → 768 ≤ i → i < 1023 → cur.pid = kernelPid) :
    Sound (c.newTable d i n (baseFlags cur)) ds k where
  dirs d' hd' := hm.marked (h.dirs d' hd')
  tables t ht := by
    rcases (hm.isTable_iff h).mp ht with ht | ht
    · exact hm.marked (h.tables t ht)
    · rw [ht]
      exact hm.marked_new
  pages m hp := hm.marked (h.pages m ((hm.isPage_iff h).mp hp))
  alone m₁ j₁ m₂ j₂ hh₁ hj₁ hh₂ hj₂ hp₁ hp₂ heq := hm.alone h hh₁ hj₁ hh₂ hj₂ hp₁ hp₂ heq
  apart m hh hp := by
    have hp' := (hm.isPage_iff h).mp hp
    rcases hh with hd' | ht
    · exact h.apart m (Or.inl hd') hp'
    · rcases (hm.isTable_iff h).mp ht with ht | ht
      · exact h.apart m (Or.inr ht) hp'
      · rw [ht] at hp'
        exact (h.pages n hp').2 hm.free
  kernelSlots j hj hj' hp := by
    rcases hm.slot_cases h cur hk j with ⟨h1, h2, hs⟩ | ⟨-, hs⟩
    · rw [hs, linked_entry]
      exact hlink h1.symm (h2 ▸ hj) (h2 ▸ hj')
    · rw [hs] at hp ⊢
      exact h.kernelSlots j hj hj' hp
  kernelPages j hj hj' he l hl hp := hm.kernelPages h hk hj hj' he hl hp
  wide d' hd' j hj hp hx := by
    rcases hm.slot_cases h cur hd' j with ⟨-, -, hs⟩ | ⟨-, hs⟩
    · rw [hs] at hx
      exact absurd hx (not_extended_entry cur n)
    · rw [hs] at hp hx ⊢
      exact h.wide d' hd' j hj hp hx
  dirTable d' hd' ht := by
    rcases (hm.isTable_iff h).mp ht with ht | ht
    · exact h.dirTable d' hd' ht
    · exact hm.ne_dir h d' hd' ht
  kernelHigh d' hd' j j' hj hj₁ hj₂ he he' := hm.kernelHigh h hk hd' hj hj₁ hj₂ he he'

end NewTable

section Write
variable {c c' : Phys} {ds : Set Nat} {k d i j n m t : Nat} {e : Word} {cur : Task}

/-- What may be written to a page table `t`: a reference to a frame that nothing refers
to, or one more link to a page; and no page of the kernel's range without a link. -/
structure Writable (c : Phys) (ds : Set Nat) (k t : Nat) (e : Word) : Prop where
  ref : Present e → (Linked e ∧ IsPage c ds (frameNo e)) ∨
    (Marked c (frameNo e) ∧ Unref c ds (frameNo e))
  kernel : Present e → ¬ Linked e → ∀ i, 768 ≤ i → i < 1023 → TableEntry (c.mem k i) →
    frameNo (c.mem k i) ≠ t

theorem Sound.write_dir (h : Sound c ds k) (ht : IsTable c ds t) (hd : d ∈ ds) :
    (c.setWord t j e).mem d = c.mem d := by
  apply setWord_mem_frame
  intro he
  rw [← he] at ht
  exact h.dirTable d hd ht

theorem Sound.write_isTable (h : Sound c ds k) (ht : IsTable c ds t) :
    IsTable (c.setWord t j e) ds m ↔ IsTable c ds m := by
  constructor
  · intro hm
    obtain ⟨d, hd, i, hi, he, hf⟩ := hm
    rw [h.write_dir ht hd] at he hf
    exact ⟨d, hd, i, hi, he, hf⟩
  · intro hm
    obtain ⟨d, hd, i, hi, he, hf⟩ := hm
    refine ⟨d, hd, i, hi, ?_⟩
    rw [h.write_dir ht hd]
    exact ⟨he, hf⟩

theorem Sound.write_isPage (h : Sound c ds k) (ht : IsTable c ds t)
    (hm : IsPage (c.setWord t j e) ds m) : IsPage c ds m ∨ (Present e ∧ m = frameNo e) := by
  obtain ⟨t', ht', l, hl, hp, hf⟩ := hm
  have ht₀ := (h.write_isTable ht).mp ht'
  by_cases heq : t' = t
  · subst heq
    by_cases hlj : l = j
    · subst hlj
      rw [setWord_mem_self] at hp hf
      exact Or.inr ⟨hp, hf.symm⟩
    · rw [setWord_mem_of_ne hlj] at hp hf
      exact Or.inl ⟨t', ht₀, l, hl, hp, hf⟩
  · rw [setWord_mem_frame heq] at hp hf
    exact Or.inl ⟨t', ht₀, l, hl, hp, hf⟩

theorem Sound.write_private (h : Sound c ds k) (ht : IsTable c ds t) {l : Nat}
    (hh : HoldsEntries (c.setWord t j e) ds m) : HoldsEntries c ds m ∧
      ((m = t ∧ l = j ∧ (c.setWord t j e).mem m l = e) ∨
        (c.setWord t j e).mem m l = c.mem m l) := by
  have hh₀ : HoldsEntries c ds m := by
    rcases hh with hd | hm
    · exact Or.inl hd
    · exact Or.inr ((h.write_isTable ht).mp hm)
  refine ⟨hh₀, ?_⟩
  by_cases heq : m = t
  · subst heq
    by_cases hlj : l = j
    · subst hlj
      exact Or.inl ⟨rfl, rfl, setWord_mem_self⟩
    · exact Or.inr (setWord_mem_of_ne hlj)
  · right
    rw [setWord_mem_frame heq]

theorem Writable.ne_private (hw : Writable c ds k t e) (h : Sound c ds k) {l : Nat}
    (hh : HoldsEntries c ds m) (hl : l < 1024) (hp : Private (c.mem m l)) (hpe : Private e) :
    frameNo (c.mem m l) ≠ frameNo e := by
  intro heq
  rcases hw.ref hpe.1 with ⟨hlink, -⟩ | ⟨-, hun⟩
  · exact hpe.2 hlink
  · rcases h.private_ref hh hl hp with href | href
    · rw [heq] at href
      exact hun.1 (Or.inr href)
    · rw [heq] at href
      exact hun.2 href

theorem Sound.write_alone (h : Sound c ds k) (ht : IsTable c ds t) (hw : Writable c ds k t e)
    {l₁ m₂ l₂ : Nat} (hh₁ : HoldsEntries (c.setWord t j e) ds m) (hl₁ : l₁ < 1024)
    (hh₂ : HoldsEntries (c.setWord t j e) ds m₂) (hl₂ : l₂ < 1024)
    (hp₁ : Private ((c.setWord t j e).mem m l₁)) (hp₂ : Private ((c.setWord t j e).mem m₂ l₂))
    (heq : frameNo ((c.setWord t j e).mem m l₁) = frameNo ((c.setWord t j e).mem m₂ l₂)) :
    m = m₂ ∧ l₁ = l₂ := by
  obtain ⟨hh₁, hc₁⟩ := h.write_private (l := l₁) ht hh₁
  obtain ⟨hh₂, hc₂⟩ := h.write_private (l := l₂) ht hh₂
  rcases hc₁ with ⟨h1, h2, hs₁⟩ | hs₁
  · rcases hc₂ with ⟨h1', h2', -⟩ | hs₂
    · exact ⟨h1.trans h1'.symm, h2.trans h2'.symm⟩
    · rw [hs₁] at hp₁ heq
      rw [hs₂] at hp₂ heq
      exact absurd heq.symm (hw.ne_private h hh₂ hl₂ hp₂ hp₁)
  · rw [hs₁] at hp₁ heq
    rcases hc₂ with ⟨-, -, hs₂⟩ | hs₂
    · rw [hs₂] at hp₂ heq
      exact absurd heq (hw.ne_private h hh₁ hl₁ hp₁ hp₂)
    · rw [hs₂] at hp₂ heq
      exact h.alone m l₁ m₂ l₂ hh₁ hl₁ hh₂ hl₂ hp₁ hp₂ heq

theorem Sound.write (h : Sound c ds k) (hk : k ∈ ds) (ht : IsTable c ds t)
    (hw : Writable c ds k t e) : Sound (c.setWord t j e) ds k where
  dirs := h.dirs
  tables m hm := h.tables m ((h.write_isTable ht).mp hm)
  pages m hm := by
    rcases h.write_isPage ht hm with hp | ⟨hp, he⟩
    · exact h.pages m hp
    · rw [he]
      rcases hw.ref hp with ⟨-, hpage⟩ | ⟨hmk, -⟩
      · exact h.pages _ hpage
      · exact hmk
  alone m₁ l₁ m₂ l₂ hh₁ hl₁ hh₂ hl₂ hp₁ hp₂ heq :=
    h.write_alone ht hw hh₁ hl₁ hh₂ hl₂ hp₁ hp₂ heq
  apart m hh hm := by
    have hh₀ := (h.write_private (l := 0) ht hh).1
    rcases h.write_isPage ht hm with hp | ⟨hp, he⟩
    · exact h.apart m hh₀ hp
    · rw [he] at hh₀
      rcases hw.ref hp with ⟨-, hpage⟩ | ⟨-, hun⟩
      · exact h.apart _ hh₀ hpage
      · exact hun.1 hh₀
  kernelSlots := by
    rw [h.write_dir ht hk]
    exact h.kernelSlots
  kernelPages i hi hi' he l hl := by
    rw [h.write_dir ht hk] at he ⊢
    by_cases heq : frameNo (c.mem k i) = t
    · by_cases hlj : l = j
      · rw [heq, hlj, setWord_mem_self]
        intro hp
        by_contra hnl
        exact hw.kernel hp hnl i hi hi' he heq
      · rw [heq, setWord_mem_of_ne hlj, ← heq]
        exact h.kernelPages i hi hi' he l hl
    · rw [setWord_mem_frame heq]
      exact h.kernelPages i hi hi' he l hl
  wide d hd := by
    rw [h.write_dir ht hd]
    exact h.wide d hd
  dirTable d hd hm := h.dirTable d hd ((h.write_isTable ht).mp hm)
  kernelHigh d hd := by
    rw [h.write_dir ht hd, h.write_dir ht hk]
    exact h.kernelHigh d hd

/-- An edit at a slot that is nil or has a page table. The entry has a link, or the slot
is below `KZERO`; only `KernelTask` makes tables of its kernel's range. -/
structure EditAt (c : Phys) (ds : Set Nat) (k d i : Nat) (cur : Task) (e : Word) : Prop where
  dir : d ∈ ds
  slot : i < 1024
  table : c.mem d i = nilPgEnt ∨ TableEntry (c.mem d i)
  made : d = k → 768 ≤ i → c.mem d i = nilPgEnt → cur.pid = kernelPid
  ref : Present e → (Linked e ∧ IsPage c ds (frameNo e)) ∨
    (Marked c (frameNo e) ∧ Unref c ds (frameNo e))
  low : Present e → ¬ Linked e → i < 768

theorem Sound.edited (h : Sound c ds k) (hk : k ∈ ds) (he : EditAt c ds k d i cur e)
    (hed : Edited (baseFlags cur) d i j e c c') : Sound c' ds k := by
  obtain ⟨c₁, hen, hc'⟩ := hed
  rw [hc']
  cases hen with
  | old hne =>
    have hte := he.table.resolve_left hne
    refine h.write hk ⟨d, he.dir, i, he.slot, hte, rfl⟩ ⟨he.ref, ?_⟩
    intro hp hnl i' hi hi' hte'
    exact Ne.symm (h.kernelHigh d he.dir i i' (he.low hp hnl) hi hi' hte hte')
  | new n hnil hn =>
    have hm : MakesTable c ds d i n := ⟨he.dir, he.slot, hnil, hn⟩
    have h₁ : Sound (c.newTable d i n (baseFlags cur)) ds k :=
      h.newTable hk hm fun hdk hi _ => he.made hdk hi hnil
    have hte : TableEntry ((c.newTable d i n (baseFlags cur)).mem d i) := by
      rw [newTable_mem_slot]
      exact ⟨present_entry cur n, not_extended_entry cur n⟩
    refine h₁.write hk ⟨d, he.dir, i, he.slot, hte, rfl⟩ ⟨?_, ?_⟩
    · intro hp
      rcases he.ref hp with ⟨hl, hpage⟩ | ⟨hmk, hun⟩
      · exact Or.inl ⟨hl, (hm.isPage_iff h).mpr hpage⟩
      · right
        refine ⟨hm.marked hmk, ?_, fun hpage => hun.2 ((hm.isPage_iff h).mp hpage)⟩
        intro hh
        rcases hh with hd | ht
        · exact hun.1 (Or.inl hd)
        · rcases (hm.isTable_iff h).mp ht with ht | ht
          · exact hun.1 (Or.inr ht)
          · rw [ht] at hmk
            exact hmk.2 hn
    · intro hp hnl i' hi hi' hte'
      exact Ne.symm (h₁.kernelHigh d he.dir i i' (he.low hp hnl) hi hi' hte hte')

end Write

section Clone
variable {c c' : Phys} {ds : Set Nat} {k d nd i j n m t : Nat}

theorem DirInv.fresh_ref (h : DirInv c d nd 1024 c') {r : Ref} (hr : r ∈ newRefs c d 1024) :
    newFrame c' nd r ∈ c.free := by
  cases r with
  | dir => exact h.fresh
  | table i =>
    obtain ⟨hi, hp⟩ := hr
    exact ((h.slots i hi).table hp).fresh
  | page i j =>
    obtain ⟨hi, hp, hj, hpj⟩ := hr
    exact (((h.slots i hi).table hp).pages j hj).fresh hpj

theorem DirInv.marked_ref (h : DirInv c d nd 1024 c') {r : Ref} (hr : r ∈ newRefs c d 1024) :
    Marked c' (newFrame c' nd r) := by
  refine ⟨?_, h.taken_ref hr⟩
  rw [h.grows.covers]
  exact covered_of_free (h.fresh_ref hr)

theorem DirInv.marked_old (h : DirInv c d nd 1024 c') (hm : Marked c n) : Marked c' n :=
  hm.grows h.grows.covers h.grows.free

theorem Good.clone_isTable (h : Good c ds k) (hd : d ∈ ds) (hinv : DirInv c d nd 1024 c')
    (ht : IsTable c' (insert nd ds) t) :
    IsTable c ds t ∨ ∃ i, Ref.table i ∈ newRefs c d 1024 ∧ t = newFrame c' nd (.table i) := by
  obtain ⟨x, hx, i, hi, he, hf⟩ := ht
  rcases hinv.slot_cases (fun x hx => (h.dirs x hx).2) hd hx hi with ⟨d', hd', hs⟩ | ⟨hxn, hp, -⟩
  · left
    rw [hs] at he hf
    exact ⟨d', hd', i, hi, he, hf⟩
  · right
    rw [hxn] at hf
    exact ⟨i, ⟨hi, hp⟩, hf.symm⟩

theorem Good.clone_table_mem (h : Good c ds k) (hinv : DirInv c d nd 1024 c')
    (ht : IsTable c ds t) : c'.mem t = c.mem t := hinv.grows.kept t (h.tables t ht).2

theorem DirInv.new_entry (hinv : DirInv c d nd 1024 c')
    (hr : Ref.table i ∈ newRefs c d 1024) (hj : j < 1024) :
    PageCloned c c' (c.mem (frameNo (c.mem d i)) j) (c'.mem (newFrame c' nd (.table i)) j) :=
  ((hinv.slots i hr.1).table hr.2).pages j hj

theorem Good.clone_isPage (h : Good c ds k) (hd : d ∈ ds) (hinv : DirInv c d nd 1024 c')
    (hp : IsPage c' (insert nd ds) m) :
    IsPage c ds m ∨
      ∃ i j, Ref.page i j ∈ newRefs c d 1024 ∧ m = newFrame c' nd (.page i j) := by
  obtain ⟨t, ht, j, hj, hpj, hf⟩ := hp
  rcases h.clone_isTable hd hinv ht with ht | ⟨i, hr, ht⟩
  · left
    rw [h.clone_table_mem hinv ht] at hpj hf
    exact ⟨t, ht, j, hj, hpj, hf⟩
  · subst ht
    have hcl := hinv.new_entry hr hj
    by_cases hpriv : Private (c.mem (frameNo (c.mem d i)) j)
    · exact Or.inr ⟨i, j, ⟨hr.1, hr.2, hj, hpriv⟩, hf.symm⟩
    · left
      rw [hcl.shared hpriv] at hpj hf
      exact ⟨_, ⟨d, hd, i, hr.1, ⟨hr.2.1.1, hr.2.2⟩, rfl⟩, j, hj, hpj, hf⟩

/-- Where the entry of a reference of the clone is. -/
def refPlace (c' : Phys) (nd : Nat) : Ref → Nat × Nat
  | .dir => (0, 0)
  | .table i => (nd, i)
  | .page i j => (newFrame c' nd (.table i), j)

theorem Good.clone_private (h : Good c ds k) (hd : d ∈ ds) (hinv : DirInv c d nd 1024 c')
    (hh : HoldsEntries c' (insert nd ds) n) (hi : i < 1024) (hp : Private (c'.mem n i)) :
    (HoldsEntries c ds n ∧ c'.mem n i = c.mem n i) ∨
      ∃ r ∈ newRefs c d 1024, (n, i) = refPlace c' nd r ∧
        frameNo (c'.mem n i) = newFrame c' nd r := by
  have hdir : n ∈ ds → c'.mem n = c.mem n := fun hn => hinv.grows.kept n (h.dirs n hn).2
  rcases hh with hx | ht
  · rcases Set.mem_insert_iff.mp hx with hn | hn
    · right
      subst hn
      have hs := hinv.slots i hi
      have hpt : PrivateTable (c.mem d i) := by
        by_contra hnp
        rw [hs.shared hnp] at hp
        apply hnp
        refine ⟨hp, ?_⟩
        intro hext
        exact hp.2 (h.wide d hd i hi hp.1 hext)
      exact ⟨.table i, ⟨hi, hpt⟩, rfl, rfl⟩
    · exact Or.inl ⟨Or.inl hn, by rw [hdir hn]⟩
  · rcases h.clone_isTable hd hinv ht with ht | ⟨a, hr, ht⟩
    · exact Or.inl ⟨Or.inr ht, by rw [h.clone_table_mem hinv ht]⟩
    · right
      subst ht
      have hcl := hinv.new_entry hr hi
      have hpriv : Private (c.mem (frameNo (c.mem d a)) i) := by
        by_contra hnp
        rw [hcl.shared hnp] at hp
        exact hnp hp
      exact ⟨.page a i, ⟨hr.1, hr.2, hi, hpriv⟩, rfl, rfl⟩

theorem Good.clone_alone (h : Good c ds k) (hd : d ∈ ds) (hinv : DirInv c d nd 1024 c')
    (hh₁ : HoldsEntries c' (insert nd ds) n) (hi : i < 1024)
    (hh₂ : HoldsEntries c' (insert nd ds) m) (hj : j < 1024) (hp₁ : Private (c'.mem n i))
    (hp₂ : Private (c'.mem m j)) (heq : frameNo (c'.mem n i) = frameNo (c'.mem m j)) :
    n = m ∧ i = j := by
  have hold : ∀ n i, HoldsEntries c ds n → i < 1024 → Private (c.mem n i) →
      ∀ r ∈ newRefs c d 1024, frameNo (c.mem n i) ≠ newFrame c' nd r := by
    intro n i hh hi hp r hr he
    apply (h.private_marked hh hi hp).2
    rw [he]
    exact hinv.fresh_ref hr
  rcases h.clone_private hd hinv hh₁ hi hp₁ with ⟨hh₁, hs₁⟩ | ⟨r, hr, hpl, hf₁⟩
  · rw [hs₁] at hp₁ heq
    rcases h.clone_private hd hinv hh₂ hj hp₂ with ⟨hh₂, hs₂⟩ | ⟨r', hr', -, hf₂⟩
    · rw [hs₂] at hp₂ heq
      exact h.alone n i m j hh₁ hi hh₂ hj hp₁ hp₂ heq
    · exact absurd (heq.trans hf₂) (hold n i hh₁ hi hp₁ r' hr')
  · rcases h.clone_private hd hinv hh₂ hj hp₂ with ⟨hh₂, hs₂⟩ | ⟨r', hr', hpl', hf₂⟩
    · rw [hs₂] at hp₂ heq
      exact absurd (heq.symm.trans hf₁) (hold m j hh₂ hj hp₂ r hr)
    · have hrr : r = r' := hinv.distinct hr hr' (hf₁.symm.trans (heq.trans hf₂))
      rw [hrr, ← hpl'] at hpl
      exact Prod.mk.inj hpl

theorem Good.clone_apart (h : Good c ds k) (hd : d ∈ ds) (hinv : DirInv c d nd 1024 c')
    (hh : HoldsEntries c' (insert nd ds) n) : ¬ IsPage c' (insert nd ds) n := by
  have hdir : Ref.dir ∈ newRefs c d 1024 := trivial
  have hcases : HoldsEntries c ds n ∨
      ∃ r ∈ newRefs c d 1024, n = newFrame c' nd r ∧ ∀ i j, r ≠ .page i j := by
    rcases hh with hx | ht
    · rcases Set.mem_insert_iff.mp hx with hn | hn
      · exact Or.inr ⟨.dir, hdir, hn, fun _ _ he => nomatch he⟩
      · exact Or.inl (Or.inl hn)
    · rcases h.clone_isTable hd hinv ht with ht | ⟨a, hr, ht⟩
      · exact Or.inl (Or.inr ht)
      · exact Or.inr ⟨.table a, hr, ht, fun _ _ he => nomatch he⟩
  intro hp
  rcases hcases with hold | ⟨r, hr, hn, hne⟩
  · rcases h.clone_isPage hd hinv hp with hp | ⟨i, j, hr', hn⟩
    · exact h.apart n hold hp
    · have hfree := hinv.fresh_ref hr'
      rw [← hn] at hfree
      exact (h.unref hfree).1 hold
  · rcases h.clone_isPage hd hinv hp with hp | ⟨i, j, hr', hn'⟩
    · have hfree := hinv.fresh_ref hr
      rw [← hn] at hfree
      exact (h.pages n hp).2 hfree
    · exact hne i j (hinv.distinct hr hr' (hn.symm.trans hn'))

theorem Good.clone (h : Good c ds k) (hk : k ∈ ds) (hd : d ∈ ds) (hinv : DirInv c d nd 1024 c') :
    Good c' (insert nd ds) k := by
  have hkept : c'.mem k = c.mem k := hinv.grows.kept k (h.dirs k hk).2
  refine ⟨?_, ?_, ?_, ?_, fun n hh => h.clone_apart hd hinv hh, ?_, ?_, ?_⟩
  · intro x hx
    rcases Set.mem_insert_iff.mp hx with hn | hn
    · rw [hn]
      exact hinv.marked_ref (r := .dir) trivial
    · exact hinv.marked_old (h.dirs x hn)
  · intro t ht
    rcases h.clone_isTable hd hinv ht with ht | ⟨i, hr, ht⟩
    · exact hinv.marked_old (h.tables t ht)
    · rw [ht]
      exact hinv.marked_ref hr
  · intro m hm
    rcases h.clone_isPage hd hinv hm with hm | ⟨i, j, hr, hm⟩
    · exact hinv.marked_old (h.pages m hm)
    · rw [hm]
      exact hinv.marked_ref hr
  · intro n i m j hh₁ hi hh₂ hj
    exact h.clone_alone hd hinv hh₁ hi hh₂ hj
  · rw [hkept]
    exact h.kernelSlots
  · intro i hi hi' he
    rw [hkept] at he ⊢
    have ht : IsTable c ds (frameNo (c.mem k i)) :=
      ⟨k, hk, i, Nat.lt_trans hi' (by decide), he, rfl⟩
    rw [h.clone_table_mem hinv ht]
    exact h.kernelPages i hi hi' he
  · intro x hx i hi hp hext
    rcases hinv.slot_cases (fun x hx => (h.dirs x hx).2) hd hx hi with
      ⟨d', hd', hs⟩ | ⟨-, hpt, hcl⟩
    · rw [hs] at hp hext ⊢
      exact h.wide d' hd' i hi hp hext
    · exact absurd ((extended_congr hcl.flags).mp hext) hpt.2

theorem Sound.clone (h : Sound c ds k) (hk : k ∈ ds) (hd : d ∈ ds)
    (hinv : DirInv c d nd 1024 c') : Sound c' (insert nd ds) k := by
  have hkept : c'.mem k = c.mem k := hinv.grows.kept k (h.dirs k hk).2
  refine ⟨h.toGood.clone hk hd hinv, ?_, ?_⟩
  · intro x hx ht
    rcases h.clone_isTable hd hinv ht with ht | ⟨i, hr, ht⟩
    · rcases Set.mem_insert_iff.mp hx with hn | hn
      · rw [hn] at ht
        exact (h.tables nd ht).2 hinv.fresh
      · exact h.dirTable x hn ht
    · rcases Set.mem_insert_iff.mp hx with hn | hn
      · exact hinv.ne_dir hr (fun he => nomatch he) (ht.symm.trans hn)
      · apply (h.dirs x hn).2
        rw [ht]
        exact hinv.fresh_ref hr
  · intro x hx i i' hi hi₁ hi₂ he he'
    have hlt : i < 1024 := Nat.lt_trans hi (by decide)
    have hlt' : i' < 1024 := Nat.lt_trans hi₂ (by decide)
    rw [hkept] at he' ⊢
    rcases hinv.slot_cases (fun x hx => (h.dirs x hx).2) hd hx hlt with ⟨d', hd', hs⟩ | ⟨-, -, hcl⟩
    · rw [hs] at he ⊢
      exact h.kernelHigh d' hd' i i' hi hi₁ hi₂ he he'
    · intro heq
      apply (h.tables _ ⟨k, hk, i', hlt', he', rfl⟩).2
      rw [← heq]
      exact hcl.fresh

end Clone

end AkKernel
