import AkKernel.Mem.MapOps
import AkKernel.Mem.Space
import Mathlib.Data.Set.Insert

/-!
# Directories of running tasks

What holds of all directories together from boot on, whichever task maps what: their
entries are present, their tables are in use and are nobody's directory, and a table
stands at one slot only.
-/

set_option autoImplicit false

namespace AkKernel

open Programs

structure Mapped (c : Phys) (ds : Set Nat) : Prop where
  dirUsed : ∀ d ∈ ds, d ∉ c.free
  present : ∀ d ∈ ds, ∀ i, i < 1024 → c.mem d i ≠ nilPgEnt → Present (c.mem d i)
  wide : ∀ d ∈ ds, ∀ i, i < 1024 → Extended (c.mem d i) →
    Linked (c.mem d i) ∧ ∀ d' ∈ ds, c.mem d' i = c.mem d i
  tableUsed : ∀ d ∈ ds, ∀ i, i < 1024 → c.mem d i ≠ nilPgEnt → frameNo (c.mem d i) ∉ c.free
  tableDir : ∀ d ∈ ds, ∀ i, i < 1024 → c.mem d i ≠ nilPgEnt → frameNo (c.mem d i) ∉ ds
  pageUsed : ∀ d ∈ ds, ∀ i, i < 1024 → c.mem d i ≠ nilPgEnt → ¬ Extended (c.mem d i) →
    ∀ j, j < 1024 → Present (c.mem (frameNo (c.mem d i)) j) →
      frameNo (c.mem (frameNo (c.mem d i)) j) ∉ c.free
  slot : ∀ d ∈ ds, ∀ d' ∈ ds, ∀ i i', i < 1024 → i' < 1024 → c.mem d i ≠ nilPgEnt →
    c.mem d' i' ≠ nilPgEnt → frameNo (c.mem d i) = frameNo (c.mem d' i') → i = i'

namespace Mapped
variable {c c' : Phys} {ds : Set Nat} {d i j n : Nat} {e : Word} {cur : Task}

theorem mark (h : Mapped c ds) (hn : n ∈ c.free) : Mapped (c.mark n) ds := by
  have hfree : ∀ m, m ∉ c.free → m ∉ (c.mark n).free := by
    intro m hm hm'
    rw [free_mark hn] at hm'
    exact hm (Finset.mem_of_mem_erase hm')
  refine ⟨?_, h.present, h.wide, ?_, h.tableDir, ?_, h.slot⟩
  · intro d hd
    exact hfree d (h.dirUsed d hd)
  · intro d hd i hi he
    exact hfree _ (h.tableUsed d hd i hi he)
  · intro d hd i hi he hx j hj hp
    exact hfree _ (h.pageUsed d hd i hi he hx j hj hp)

theorem ne_dir (h : Mapped c ds) (hn : n ∈ c.free) : ∀ x ∈ ds, x ≠ n :=
  fun x hx he => h.dirUsed x hx (he ▸ hn)

theorem slot_cases (h : Mapped c ds) (hd : d ∈ ds) (hn : n ∈ c.free) (cur : Task) (i : Nat)
    {d' : Nat} (hd' : d' ∈ ds) (k : Nat) :
    (d' = d ∧ k = i ∧
        (c.newTable d i n (baseFlags cur)).mem d' k = pageEntry (frameAddr n) (baseFlags cur)) ∨
      ((d' = d → k ≠ i) ∧ (c.newTable d i n (baseFlags cur)).mem d' k = c.mem d' k) :=
  newTable_slot (baseFlags cur) (h.ne_dir hn d hd) (h.ne_dir hn d' hd')

theorem newTable_used (hn : n ∈ c.free) {m : Nat} (hm : m ∉ c.free) :
    m ∉ (c.newTable d i n (baseFlags cur)).free := by
  intro hm'
  rw [newTable_free hn] at hm'
  exact hm (Finset.mem_of_mem_erase hm')

theorem newTable_table (h : Mapped c ds) (hd : d ∈ ds) (hn : n ∈ c.free) {d' k : Nat}
    (hd' : d' ∈ ds) (hk : k < 1024) (he : c.mem d' k ≠ nilPgEnt) :
    (c.newTable d i n (baseFlags cur)).mem (frameNo (c.mem d' k)) =
      c.mem (frameNo (c.mem d' k)) := by
  apply newTable_mem_of_ne
  · intro he'
    exact h.tableUsed d' hd' k hk he (he' ▸ hn)
  · intro he'
    exact h.tableDir d' hd' k hk he (he' ▸ hd)

theorem newTable_wide (h : Mapped c ds) (hd : d ∈ ds) (hnil : c.mem d i = nilPgEnt)
    (hn : n ∈ c.free) {d' k : Nat} (hd' : d' ∈ ds) (hk : k < 1024)
    (hx : Extended ((c.newTable d i n (baseFlags cur)).mem d' k)) :
    Linked ((c.newTable d i n (baseFlags cur)).mem d' k) ∧
      ∀ d'' ∈ ds, (c.newTable d i n (baseFlags cur)).mem d'' k =
        (c.newTable d i n (baseFlags cur)).mem d' k := by
  rcases h.slot_cases hd hn cur i hd' k with ⟨-, -, hs⟩ | ⟨-, hs⟩
  · rw [hs] at hx
    exact absurd hx (not_extended_entry cur n)
  · rw [hs] at hx ⊢
    obtain ⟨hl, hall⟩ := h.wide d' hd' k hk hx
    refine ⟨hl, ?_⟩
    intro d'' hd''
    rcases h.slot_cases hd hn cur i hd'' k with ⟨hdd, hki, -⟩ | ⟨-, hs'⟩
    · have hnil' := hall d'' hd''
      rw [hdd, hki, hnil] at hnil'
      rw [hki, ← hnil'] at hx
      exact absurd hx (by decide)
    · rw [hs']
      exact hall d'' hd''

theorem newTable_slot_eq (h : Mapped c ds) (hd : d ∈ ds) (hn : n ∈ c.free) {d₁ d₂ k₁ k₂ : Nat}
    (hd₁ : d₁ ∈ ds) (hd₂ : d₂ ∈ ds) (hk₁ : k₁ < 1024) (hk₂ : k₂ < 1024)
    (he₁ : (c.newTable d i n (baseFlags cur)).mem d₁ k₁ ≠ nilPgEnt)
    (he₂ : (c.newTable d i n (baseFlags cur)).mem d₂ k₂ ≠ nilPgEnt)
    (heq : frameNo ((c.newTable d i n (baseFlags cur)).mem d₁ k₁) =
      frameNo ((c.newTable d i n (baseFlags cur)).mem d₂ k₂)) : k₁ = k₂ := by
  rcases h.slot_cases hd hn cur i hd₁ k₁ with ⟨-, hi₁, hs₁⟩ | ⟨-, hs₁⟩
  · rcases h.slot_cases hd hn cur i hd₂ k₂ with ⟨-, hi₂, -⟩ | ⟨-, hs₂⟩
    · exact hi₁.trans hi₂.symm
    · rw [hs₂] at he₂
      rw [hs₁, hs₂, frameNo_entry hn] at heq
      exact absurd (heq ▸ hn) (h.tableUsed d₂ hd₂ k₂ hk₂ he₂)
  · rw [hs₁] at he₁ heq
    rcases h.slot_cases hd hn cur i hd₂ k₂ with ⟨-, -, hs₂⟩ | ⟨-, hs₂⟩
    · rw [hs₂, frameNo_entry hn] at heq
      exact absurd (heq.symm ▸ hn) (h.tableUsed d₁ hd₁ k₁ hk₁ he₁)
    · rw [hs₂] at he₂ heq
      exact h.slot d₁ hd₁ d₂ hd₂ k₁ k₂ hk₁ hk₂ he₁ he₂ heq

theorem newTable (h : Mapped c ds) (hd : d ∈ ds) (hnil : c.mem d i = nilPgEnt) (hn : n ∈ c.free) :
    Mapped (c.newTable d i n (baseFlags cur)) ds where
  dirUsed d' hd' := newTable_used hn (h.dirUsed d' hd')
  present d' hd' k hk he := by
    rcases h.slot_cases hd hn cur i hd' k with ⟨-, -, hs⟩ | ⟨-, hs⟩
    · rw [hs]
      exact present_entry cur n
    · rw [hs] at he ⊢
      exact h.present d' hd' k hk he
  wide d' hd' k hk hx := h.newTable_wide hd hnil hn hd' hk hx
  tableUsed d' hd' k hk he := by
    rcases h.slot_cases hd hn cur i hd' k with ⟨-, -, hs⟩ | ⟨-, hs⟩
    · rw [hs, frameNo_entry hn, newTable_free hn]
      exact Finset.notMem_erase n _
    · rw [hs] at he ⊢
      exact newTable_used hn (h.tableUsed d' hd' k hk he)
  tableDir d' hd' k hk he := by
    rcases h.slot_cases hd hn cur i hd' k with ⟨-, -, hs⟩ | ⟨-, hs⟩
    · rw [hs, frameNo_entry hn]
      exact fun hm => h.ne_dir hn n hm rfl
    · rw [hs] at he ⊢
      exact h.tableDir d' hd' k hk he
  pageUsed d' hd' k hk he hx j hj hp := by
    rcases h.slot_cases hd hn cur i hd' k with ⟨-, -, hs⟩ | ⟨-, hs⟩
    · rw [hs, frameNo_entry hn, newTable_mem_table (Ne.symm (h.ne_dir hn d hd))] at hp
      exact absurd hp (by decide)
    · rw [hs] at he hx hp ⊢
      rw [h.newTable_table hd hn hd' hk he] at hp ⊢
      exact newTable_used hn (h.pageUsed d' hd' k hk he hx j hj hp)
  slot d₁ hd₁ d₂ hd₂ k₁ k₂ hk₁ hk₂ he₁ he₂ heq :=
    h.newTable_slot_eq hd hn hd₁ hd₂ hk₁ hk₂ he₁ he₂ heq

theorem write (h : Mapped c ds) (hd : d ∈ ds) (hi : i < 1024) (hne : c.mem d i ≠ nilPgEnt)
    (he : Present e → frameNo e ∉ c.free) : Mapped (c.setWord (frameNo (c.mem d i)) j e) ds := by
  have hdir : ∀ d' ∈ ds, (c.setWord (frameNo (c.mem d i)) j e).mem d' = c.mem d' := by
    intro d' hd'
    apply setWord_mem_frame
    intro he'
    exact h.tableDir d hd i hi hne (he' ▸ hd')
  refine ⟨h.dirUsed, ?_, ?_, ?_, ?_, ?_, ?_⟩
  · intro d' hd'
    rw [hdir d' hd']
    exact h.present d' hd'
  · intro d' hd' k hk hx
    rw [hdir d' hd'] at hx ⊢
    obtain ⟨hl, hall⟩ := h.wide d' hd' k hk hx
    refine ⟨hl, ?_⟩
    intro d'' hd''
    rw [hdir d'' hd'']
    exact hall d'' hd''
  · intro d' hd'
    rw [hdir d' hd']
    exact h.tableUsed d' hd'
  · intro d' hd'
    rw [hdir d' hd']
    exact h.tableDir d' hd'
  · intro d' hd' k hk hne' hx j' hj'
    rw [hdir d' hd'] at hne' hx ⊢
    by_cases hT : frameNo (c.mem d' k) = frameNo (c.mem d i)
    · by_cases hj : j' = j
      · rw [hT, hj, setWord_mem_self]
        exact he
      · rw [hT, setWord_mem_of_ne hj, ← hT]
        exact h.pageUsed d' hd' k hk hne' hx j' hj'
    · rw [setWord_mem_frame hT]
      exact h.pageUsed d' hd' k hk hne' hx j' hj'
  · intro d₁ hd₁ d₂ hd₂
    rw [hdir d₁ hd₁, hdir d₂ hd₂]
    exact h.slot d₁ hd₁ d₂ hd₂

theorem ensured (h : Mapped c ds) (hd : d ∈ ds) (hen : Ensured (baseFlags cur) d i c c') :
    Mapped c' ds ∧ c'.mem d i ≠ nilPgEnt ∧ ∀ m, m ∉ c.free → m ∉ c'.free := by
  cases hen with
  | old hne => exact ⟨h, hne, fun _ hm => hm⟩
  | new n hnil hn =>
    refine ⟨h.newTable hd hnil hn, ?_, ?_⟩
    · rw [newTable_mem_slot]
      exact (present_entry cur n).ne_nil
    · intro m hm hm'
      rw [newTable_free hn] at hm'
      exact hm (Finset.mem_of_mem_erase hm')

theorem edited (h : Mapped c ds) (hd : d ∈ ds) (hi : i < 1024)
    (he : Present e → frameNo e ∉ c.free) (hed : Edited (baseFlags cur) d i j e c c') :
    Mapped c' ds := by
  obtain ⟨c₁, hen, hc'⟩ := hed
  obtain ⟨h₁, hne, hfree⟩ := h.ensured hd hen
  rw [hc']
  exact h₁.write hd hi hne fun hp => hfree _ (he hp)

/-- The slots of the directories after an edit: at most the slot of the edited page is
new, and then its table was free. -/
theorem edited_slot (h : Mapped c ds) (hd : d ∈ ds) (hi : i < 1024)
    (hed : Edited (baseFlags cur) d i j e c c') {d' k : Nat} (hd' : d' ∈ ds) :
    (d' = d ∧ k = i ∧ c.mem d i = nilPgEnt ∧
      ∃ n ∈ c.free, c'.mem d' k = pageEntry (frameAddr n) (baseFlags cur)) ∨
    c'.mem d' k = c.mem d' k := by
  obtain ⟨c₁, hen, hc'⟩ := hed
  obtain ⟨h₁, hne, -⟩ := h.ensured hd hen
  have hdir : c'.mem d' = c₁.mem d' := by
    rw [hc']
    apply setWord_mem_frame
    intro he'
    exact h₁.tableDir d hd i hi hne (he' ▸ hd')
  rw [hdir]
  cases hen with
  | old _ => exact Or.inr rfl
  | new n hnil hn =>
    have hdn : ∀ x ∈ ds, x ≠ n := fun x hx he => h.dirUsed x hx (he ▸ hn)
    rcases newTable_slot (c := c) (i := i) (k := k) (baseFlags cur) (hdn d hd) (hdn d' hd') with
      ⟨h1, h2, h3⟩ | ⟨-, h3⟩
    · exact Or.inl ⟨h1, h2, hnil, n, hn, h3⟩
    · exact Or.inr h3

theorem translate_other (h : Mapped c ds) (hd : d ∈ ds) (hi : i < 1024)
    (hed : Edited (baseFlags cur) d i j e c c') {d' : Nat} (hd' : d' ∈ ds) (hne : d' ≠ d)
    (hsep : c.mem d i ≠ nilPgEnt → c.mem d' i ≠ nilPgEnt →
      frameNo (c.mem d' i) ≠ frameNo (c.mem d i)) (a : Word) :
    translate c' d' a = translate c d' a := by
  have hpa := addrPde_lt a
  apply translate_congr
  · rw [hed.mem_of_ne (h.dirUsed d' hd') hne]
    intro hs he
    exact h.tableDir d hd i hi hs (he ▸ hd')
  · intro hp _
    rw [hed.mem_of_ne (h.tableUsed d' hd' _ hpa hp.ne_nil)]
    · intro he
      apply h.tableDir d' hd' _ hpa hp.ne_nil
      rw [he]
      exact hd
    · intro hs he
      have hk := h.slot d' hd' d hd _ i hpa hi hp.ne_nil hs he
      rw [hk] at hp he
      exact hsep hs hp.ne_nil he

theorem edited_page (h : Mapped c ds) (hd : d ∈ ds) (hi : i < 1024)
    (hed : Edited (baseFlags cur) d i j e c c') : Present (c'.mem d i) ∧
      (Extended (c'.mem d i) → Extended (c.mem d i)) ∧ c'.mem (frameNo (c'.mem d i)) j = e := by
  obtain ⟨c₁, hen, hc'⟩ := hed
  obtain ⟨h₁, hne, -⟩ := h.ensured hd hen
  have hdir : c'.mem d = c₁.mem d := by
    rw [hc']
    apply setWord_mem_frame
    intro he'
    apply h₁.tableDir d hd i hi hne
    rw [← he']
    exact hd
  rw [hdir]
  refine ⟨h₁.present d hd i hi hne, ?_, ?_⟩
  · intro hx
    cases hen with
    | old _ => exact hx
    | new n _ _ =>
      rw [newTable_mem_slot] at hx
      exact absurd hx (not_extended_entry cur n)
  · rw [hc']
    exact setWord_mem_self

/-- A table in use, word by word: only the edited word can differ. -/
theorem edited_table (h : Mapped c ds) (hd : d ∈ ds) (hed : Edited (baseFlags cur) d i j e c c')
    (j' : Nat) {d' k : Nat} (hd' : d' ∈ ds) (hk : k < 1024) (hne : c.mem d' k ≠ nilPgEnt)
    (hsame : c.mem d i ≠ nilPgEnt → frameNo (c.mem d' k) = frameNo (c.mem d i) → j' = j →
      c.mem (frameNo (c.mem d' k)) j' = e) :
    c'.mem (frameNo (c.mem d' k)) j' = c.mem (frameNo (c.mem d' k)) j' := by
  by_cases hT : c.mem d i ≠ nilPgEnt ∧ frameNo (c.mem d' k) = frameNo (c.mem d i)
  · obtain ⟨hs, heq⟩ := hT
    obtain ⟨c₁, hen, hc'⟩ := hed
    cases hen with
    | new n hnil _ => exact absurd hnil hs
    | old _ =>
      by_cases hj : j' = j
      · rw [hsame hs heq hj, hc', heq, hj, setWord_mem_self]
      · rw [hc', heq, setWord_mem_of_ne hj]
  · rw [hed.mem_of_ne (h.tableUsed d' hd' k hk hne)]
    · intro he
      apply h.tableDir d' hd' k hk hne
      rw [he]
      exact hd
    · intro hs he
      exact hT ⟨hs, he⟩

theorem translate_page (h : Mapped c ds) (hd : d ∈ ds) (hi : i < 1024)
    (hed : Edited (baseFlags cur) d i j e c c') {d' : Nat} (hd' : d' ∈ ds) {b : Word}
    (hb : addrPde b = i → addrPte b ≠ j) : translate c' d' b = translate c d' b := by
  have hpb := addrPde_lt b
  rcases h.edited_slot (k := addrPde b) hd hi hed hd' with ⟨hdd, hki, hnil, n, hn, hs⟩ | hs
  · subst hdd
    have hold : translate c d' b = none := by
      unfold translate
      rw [hki, hnil]
      exact if_pos not_present_nil
    obtain ⟨c₁, hen, hc'⟩ := hed
    cases hen with
    | old hne => exact absurd hnil hne
    | new m _ hm =>
      have hdm : m ≠ d' := by
        intro he
        rw [he] at hm
        exact h.dirUsed d' hd' hm
      rw [newTable_mem_slot, frameNo_entry hm] at hc'
      have hslot : c'.mem d' (addrPde b) = pageEntry (frameAddr m) (baseFlags cur) := by
        rw [hc', setWord_mem_frame (Ne.symm hdm), hki, newTable_mem_slot]
      have hpage : c'.mem m (addrPte b) = nilPgEnt := by
        rw [hc', setWord_mem_of_ne (hb hki), newTable_mem_table hdm]
        rfl
      rw [hold]
      unfold translate
      rw [hslot, if_neg (not_not.mpr (present_entry cur m)), if_neg (not_extended_entry cur m),
        frameNo_entry hm, hpage]
      exact if_neg not_present_nil
  · apply translate_congr hs
    intro hp _
    apply h.edited_table hd hed _ hd' hpb hp.ne_nil
    intro hs' heq hj
    exact absurd hj (hb (h.slot d' hd' d hd _ i hpb hi hp.ne_nil hs' heq))

theorem used (h : Mapped c ds) (hd : d ∈ ds) : DirUsed c d := by
  refine ⟨h.dirUsed d hd, ?_, ?_⟩
  · intro i hi hp hx
    refine ⟨h.tableUsed d hd i hi hp.ne_nil, ?_⟩
    intro j hj hpj
    exact h.pageUsed d hd i hi hp.ne_nil hx j hj hpj
  · intro i hi _ hx
    exact (h.wide d hd i hi hx).1

theorem clone (h : Mapped c ds) {nd : Nat} (hd : d ∈ ds) (hinv : DirInv c d nd 1024 c') :
    Mapped c' (insert nd ds) := by
  have hslot : ∀ x ∈ insert nd ds, ∀ k, k < 1024 → _ := fun x hx k hk =>
    hinv.slot_cases (x := x) h.dirUsed hd hx hk
  have hfree : ∀ m, m ∉ c.free → m ∉ c'.free := fun m hm hm' => hm (hinv.grows.free hm')
  have htbl : ∀ k, k < 1024 → PrivateTable (c.mem d k) → Ref.table k ∈ newRefs c d 1024 :=
    fun k hk hp => ⟨hk, hp⟩
  constructor
  case dirUsed =>
    intro x hx
    rcases Set.mem_insert_iff.mp hx with hx | hx
    · rw [hx]
      exact hinv.taken
    · exact hfree x (h.dirUsed x hx)
  case present =>
    intro x hx k hk hne
    rcases hslot x hx k hk with ⟨d', hd', hs⟩ | ⟨-, hp, hcl⟩
    · rw [hs] at hne ⊢
      exact h.present d' hd' k hk hne
    · exact (present_congr hcl.flags).mpr hp.1.1
  case wide =>
    intro x hx k hk hxt
    rcases hslot x hx k hk with ⟨d', hd', hs⟩ | ⟨-, hp, hcl⟩
    · rw [hs] at hxt ⊢
      obtain ⟨hl, hall⟩ := h.wide d' hd' k hk hxt
      refine ⟨hl, ?_⟩
      intro y hy
      rcases hslot y hy k hk with ⟨d'', hd'', hs'⟩ | ⟨-, hp, -⟩
      · rw [hs']
        exact hall d'' hd''
      · rw [hall d hd] at hp
        exact absurd hxt hp.2
    · exact absurd ((extended_congr hcl.flags).mp hxt) hp.2
  case tableUsed =>
    intro x hx k hk hne
    rcases hslot x hx k hk with ⟨d', hd', hs⟩ | ⟨-, hp, hcl⟩
    · rw [hs] at hne ⊢
      exact hfree _ (h.tableUsed d' hd' k hk hne)
    · exact hcl.taken
  case tableDir =>
    intro x hx k hk hne
    rw [Set.mem_insert_iff, not_or]
    rcases hslot x hx k hk with ⟨d', hd', hs⟩ | ⟨hxn, hp, hcl⟩
    · rw [hs] at hne ⊢
      refine ⟨?_, h.tableDir d' hd' k hk hne⟩
      intro he
      exact h.tableUsed d' hd' k hk hne (he ▸ hinv.fresh)
    · refine ⟨?_, fun hm => h.dirUsed _ hm hcl.fresh⟩
      rw [hxn]
      exact hinv.ne_dir (htbl k hk hp) (by simp)
  case pageUsed =>
    intro x hx k hk hne hxt j hj hpj
    rcases hslot x hx k hk with ⟨d', hd', hs⟩ | ⟨hxn, hp, hcl⟩
    · rw [hs] at hne hxt hpj ⊢
      rw [hinv.grows.kept _ (h.tableUsed d' hd' k hk hne)] at hpj ⊢
      exact hfree _ (h.pageUsed d' hd' k hk hne hxt j hj hpj)
    · have hpg := hcl.pages j hj
      by_cases hpp : Private (c.mem (frameNo (c.mem d k)) j)
      · exact hpg.taken hpp
      · rw [hpg.shared hpp] at hpj ⊢
        exact hfree _ (h.pageUsed d hd k hk hp.1.1.ne_nil hp.2 j hj hpj)
  case slot =>
    intro x hx y hy k k' hk hk' hne hne' heq
    rcases hslot x hx k hk with ⟨d₁, hd₁, hs₁⟩ | ⟨hxn, hp₁, hcl₁⟩
    · rw [hs₁] at hne heq
      rcases hslot y hy k' hk' with ⟨d₂, hd₂, hs₂⟩ | ⟨-, -, hcl₂⟩
      · rw [hs₂] at hne' heq
        exact h.slot d₁ hd₁ d₂ hd₂ k k' hk hk' hne hne' heq
      · exact absurd (heq ▸ hcl₂.fresh) (h.tableUsed d₁ hd₁ k hk hne)
    · rcases hslot y hy k' hk' with ⟨d₂, hd₂, hs₂⟩ | ⟨hyn, hp₂, -⟩
      · rw [hs₂] at hne' heq
        exact absurd (heq.symm ▸ hcl₁.fresh) (h.tableUsed d₂ hd₂ k' hk' hne')
      · subst hxn
        subst hyn
        exact Ref.table.inj (hinv.distinct (htbl k hk hp₁) (htbl k' hk' hp₂) heq)

theorem allocated (h : Mapped c ds) (hd : d ∈ ds) (hi : i < 1024) (he : Present e)
    (hed : Edited (baseFlags cur) d i j e c c') {w : Word} (hw : Allocated d c w) :
    Allocated d c' w := by
  have hdir : ∀ k, k < 1024 → c.mem d k ≠ nilPgEnt → frameNo (c.mem d k) ≠ d := by
    intro k hk hne heq
    apply h.tableDir d hd k hk hne
    rw [heq]
    exact hd
  refine allocated_of_edited (h.dirUsed d hd) ?_ (hdir i hi) he hed hw
  intro k hk hp _
  exact ⟨h.tableUsed d hd k hk hp.ne_nil, hdir k hk hp.ne_nil⟩

theorem added_allocated (h : Mapped c ds) (hd : frameNo cur.pgd ∈ ds) {v w : Word}
    (hstep : PageAdded cur v c c') (hw : Allocated (frameNo cur.pgd) c w) :
    Allocated (frameNo cur.pgd) c' w := by
  obtain ⟨n, hn, hed⟩ := hstep
  exact (h.mark hn).allocated hd (addrPde_lt v) (present_entry cur n) hed hw

/-- Under a 4 MB entry, which all directories have in common, a word of `KernelTask` that is
copied is written back to where it was read. -/
theorem copied_wide (h : Mapped c ds) {k : Nat} (hk : k ∈ ds) (hd : d ∈ ds) (hi : i < 1024)
    (hne : c.mem k i ≠ nilPgEnt) (hx : Extended (c.mem k i))
    (hed : Edited (baseFlags cur) d i j (c.mem (frameNo (c.mem k i)) j) c c') : c' = c := by
  obtain ⟨c₁, hen, hc'⟩ := hed
  have hsame : c.mem d i = c.mem k i := (h.wide k hk i hi hx).2 d hd
  cases hen with
  | new n hnil _ =>
    rw [hsame] at hnil
    exact absurd hnil hne
  | old _ => rw [hc', hsame, setWord_self]

theorem copied (h : Mapped c ds) {k : Nat} (hk : k ∈ ds) (hd : d ∈ ds) (hi : i < 1024)
    (hj : j < 1024) (hne : c.mem k i ≠ nilPgEnt)
    (hed : Edited (baseFlags cur) d i j (c.mem (frameNo (c.mem k i)) j) c c') : Mapped c' ds := by
  by_cases hx : Extended (c.mem k i)
  · rw [h.copied_wide hk hd hi hne hx hed]
    exact h
  · exact h.edited hd hi (h.pageUsed k hk i hi hne hx j hj) hed

theorem keeper (hd : frameNo cur.pgd ∈ ds) : Keeper cur (fun _ => True)
    (fun c => c.frameAllocInitialized = true ∧ Mapped c ds) := by
  refine ⟨fun c h => h.1, ?_, ?_, ?_⟩
  · intro c v c' _ h hstep
    obtain ⟨n, hn, hed⟩ := hstep
    refine ⟨hed.init.trans h.1, ?_⟩
    exact (h.2.mark hn).edited hd (addrPde_lt v) (fun _ => taken_entry hn cur) hed
  · intro c v c' _ h hstep
    obtain ⟨e, he, hed⟩ := hstep
    exact ⟨hed.init.trans h.1, h.2.edited hd (addrPde_lt v) (fun hp => absurd hp he) hed⟩
  · intro c v c' w _ h hstep hw
    exact h.2.added_allocated hd hstep hw

end Mapped

end AkKernel
