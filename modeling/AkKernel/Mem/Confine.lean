import AkKernel.Mem.Coherent

/-!
# Changes below `KZERO`

A task that maps pages below `KZERO` and writes to them changes no translation of the
kernel's range in any directory, and no frame but its own: the pages below `KZERO` are
neither directories nor tables.
-/

set_option autoImplicit false

namespace AkKernel

open Programs

/-- The frame is neither a directory nor a table of one. -/
def PlainFrame (c : Phys) (ds : Set Nat) (n : Nat) : Prop :=
  n ∉ ds ∧ ∀ y ∈ ds, ∀ l, l < 1024 → c.mem y l ≠ nilPgEnt → frameNo (c.mem y l) ≠ n

/-- Below `KZERO` all directories have tables, with pages that are plain frames. -/
structure LowPages (c : Phys) (ds : Set Nat) : Prop where
  mapped : Mapped c ds
  narrow : ∀ d ∈ ds, ∀ i, i < 768 → ¬ Extended (c.mem d i)
  plain : ∀ d ∈ ds, ∀ i, i < 768 → c.mem d i ≠ nilPgEnt → ∀ j, j < 1024 →
    Present (tableWord c d i j) → PlainFrame c ds (frameNo (tableWord c d i j))

section LowPages
variable {c c' : Phys} {ds : Set Nat} {d i j n : Nat} {e : Word} {cur : Task}

theorem Mapped.plain_free (h : Mapped c ds) (hn : n ∈ c.free) : PlainFrame c ds n := by
  refine ⟨fun hd => h.dirUsed n hd hn, ?_⟩
  intro y hy l hl hne heq
  apply h.tableUsed y hy l hl hne
  rw [heq]
  exact hn

theorem LowPages.mark (h : LowPages c ds) (hn : n ∈ c.free) : LowPages (c.mark n) ds :=
  ⟨h.mapped.mark hn, h.narrow, h.plain⟩

/-- A plain frame in use stays plain: a new table was a free frame. -/
theorem PlainFrame.edited (h : PlainFrame c ds n) (hn : n ∉ c.free) (hm : Mapped c ds)
    (hd : d ∈ ds) (hi : i < 1024) (hed : Edited (baseFlags cur) d i j e c c') :
    PlainFrame c' ds n := by
  refine ⟨h.1, ?_⟩
  intro y hy l hl hne heq
  rcases hm.edited_slot (k := l) hd hi hed hy with ⟨-, -, -, m, hmf, hs⟩ | hs
  · rw [hs, frameNo_entry hmf] at heq
    rw [heq] at hmf
    exact hn hmf
  · rw [hs] at hne heq
    exact h.2 y hy l hl hne heq

theorem LowPages.edited (h : LowPages c ds) (hd : d ∈ ds) (hi : i < 1024)
    (he : Present e → frameNo e ∉ c.free) (hplain : i < 768 → Present e → PlainFrame c ds (frameNo e))
    (hed : Edited (baseFlags cur) d i j e c c') : LowPages c' ds := by
  have hm := h.mapped
  refine ⟨hm.edited hd hi he hed, ?_, ?_⟩
  · intro x hx l hl hxt
    rcases hm.edited_slot (k := l) hd hi hed hx with ⟨-, -, -, m, -, hs⟩ | hs
    · rw [hs] at hxt
      exact not_extended_entry cur m hxt
    · rw [hs] at hxt
      exact h.narrow x hx l hl hxt
  · intro x hx l hl hne w hw hp
    have hl' : l < 1024 := Nat.lt_trans hl (by decide)
    rcases hm.edited_words hd hi hed hx hl' with ⟨hs, hword⟩ | ⟨-, hli, -, -, -, hword⟩
    · rw [hs] at hne
      rw [hword hne w] at hp ⊢
      split at hp
      · rename_i hT
        obtain ⟨hdi, hframe, hwj⟩ := hT
        have hli : l = i := hm.slot x hx d hd l i hl' hi hne hdi hframe
        rw [if_pos ⟨hdi, hframe, hwj⟩]
        exact (hplain (hli ▸ hl) hp).edited (he hp) hm hd hi hed
      · rename_i hT
        rw [if_neg hT]
        apply (h.plain x hx l hl hne w hw hp).edited _ hm hd hi hed
        exact hm.pageUsed x hx l hl' hne (h.narrow x hx l hl) w hw hp
    · rw [hword w] at hp ⊢
      split at hp
      · rename_i hwj
        rw [if_pos hwj]
        exact (hplain (hli ▸ hl) hp).edited (he hp) hm hd hi hed
      · exact absurd hp not_present_nil

theorem LowPages.copied (h : LowPages c ds) {k : Nat} (hk : k ∈ ds) (hd : d ∈ ds) (hi : i < 1024)
    (hj : j < 1024) (hne : c.mem k i ≠ nilPgEnt)
    (hed : Edited (baseFlags cur) d i j (c.mem (frameNo (c.mem k i)) j) c c') : LowPages c' ds := by
  by_cases hx : Extended (c.mem k i)
  · rw [h.mapped.copied_wide hk hd hi hne hx hed]
    exact h
  · refine h.edited hd hi (h.mapped.pageUsed k hk i hi hne hx j hj) ?_ hed
    intro hlow hp
    exact h.plain k hk i hlow hne j hj hp

theorem LowPages.keeper (hd : frameNo cur.pgd ∈ ds) : Keeper cur (fun _ => True)
    (fun c => c.frameAllocInitialized = true ∧ LowPages c ds) := by
  refine ⟨fun c h => h.1, ?_, ?_, ?_⟩
  · intro c v c' _ h hstep
    obtain ⟨n, hn, hed⟩ := hstep
    refine ⟨hed.init.trans h.1, ?_⟩
    refine (h.2.mark hn).edited hd (addrPde_lt v) (fun _ => taken_entry hn cur) ?_ hed
    intro _ _
    rw [frameNo_entry hn]
    exact h.2.mapped.plain_free hn
  · intro c v c' _ h hstep
    obtain ⟨e, he, hed⟩ := hstep
    refine ⟨hed.init.trans h.1, ?_⟩
    exact h.2.edited hd (addrPde_lt v) (fun hp => absurd hp he) (fun _ hp => absurd hp he) hed
  · intro c v c' w _ h hstep hw
    exact h.2.mapped.added_allocated hd hstep hw

theorem LowPages.walk_page (h : LowPages c ds) (hd : d ∈ ds) {a : Word} (ha : a < kZero)
    {t : Nat × Word × Word} (ht : translate c d a = some t) :
    c.mem d (addrPde a) ≠ nilPgEnt ∧ Present (tableWord c d (addrPde a) (addrPte a)) ∧
      frameNo (tableWord c d (addrPde a) (addrPte a)) = t.1 := by
  have hx := h.narrow d hd _ (addrPde_lt_iff.mpr ha)
  unfold translate at ht
  dsimp only at ht
  split at ht
  · cases ht
  rename_i hp
  -- the slot has a table, `hx`
  split at ht
  · rename_i hpage
    cases ht
    exact ⟨(not_not.mp hp).ne_nil, hpage, rfl⟩
  · cases ht

theorem LowPages.page_plain (h : LowPages c ds) (hd : d ∈ ds) {v : Word} (hv : v < kZero)
    {r : Nat × Word × Word} (hr : translate c d v = some r) :
    r.1 ∉ c.free ∧ PlainFrame c ds r.1 := by
  obtain ⟨hne, hp, hframe⟩ := h.walk_page hd hv hr
  have hslot := addrPde_lt_iff.mpr hv
  rw [← hframe]
  exact ⟨h.mapped.pageUsed d hd _ (addrPde_lt v) hne (h.narrow d hd _ hslot) _ (addrPte_lt v) hp,
    h.plain d hd _ hslot hne _ (addrPte_lt v) hp⟩

/-- Words that are in no directory and in no table are written. -/
theorem Mapped.congr (h : Mapped c ds) (hfree : c'.free = c.free)
    (hdir : ∀ x ∈ ds, c'.mem x = c.mem x)
    (htable : ∀ x ∈ ds, ∀ l, l < 1024 → c.mem x l ≠ nilPgEnt →
      c'.mem (frameNo (c.mem x l)) = c.mem (frameNo (c.mem x l))) : Mapped c' ds := by
  refine ⟨?_, ?_, ?_, ?_, ?_, ?_, ?_⟩
  · intro x hx
    rw [hfree]
    exact h.dirUsed x hx
  · intro x hx
    rw [hdir x hx]
    exact h.present x hx
  · intro x hx l hl hxt
    rw [hdir x hx] at hxt ⊢
    obtain ⟨hlink, hall⟩ := h.wide x hx l hl hxt
    refine ⟨hlink, ?_⟩
    intro y hy
    rw [hdir y hy]
    exact hall y hy
  · intro x hx l hl hne
    rw [hdir x hx] at hne ⊢
    rw [hfree]
    exact h.tableUsed x hx l hl hne
  · intro x hx
    rw [hdir x hx]
    exact h.tableDir x hx
  · intro x hx l hl hne hxt w hw hp
    rw [hdir x hx] at hne hxt hp ⊢
    rw [htable x hx l hl hne] at hp ⊢
    rw [hfree]
    exact h.pageUsed x hx l hl hne hxt w hw hp
  · intro x hx y hy
    rw [hdir x hx, hdir y hy]
    exact h.slot x hx y hy

theorem LowPages.congr (h : LowPages c ds) (hfree : c'.free = c.free)
    (hdir : ∀ x ∈ ds, c'.mem x = c.mem x)
    (htable : ∀ x ∈ ds, ∀ l, l < 1024 → c.mem x l ≠ nilPgEnt →
      c'.mem (frameNo (c.mem x l)) = c.mem (frameNo (c.mem x l))) : LowPages c' ds := by
  refine ⟨h.mapped.congr hfree hdir htable, ?_, ?_⟩
  · intro x hx i hi
    rw [hdir x hx]
    exact h.narrow x hx i hi
  · intro x hx i hi hne j hj hp
    have hi' : i < 1024 := Nat.lt_trans hi (by decide)
    unfold tableWord at hp ⊢
    rw [hdir x hx] at hne hp ⊢
    rw [htable x hx i hi' hne] at hp ⊢
    obtain ⟨hnd, hnt⟩ := h.plain x hx i hi hne j hj hp
    refine ⟨hnd, ?_⟩
    intro y hy l' hl' hne'
    rw [hdir y hy] at hne' ⊢
    exact hnt y hy l' hl' hne'

theorem PlainFrame.setWord_dir (hn : PlainFrame c ds n) (l : Nat) (w : Word) {x : Nat}
    (hx : x ∈ ds) : (c.setWord n l w).mem x = c.mem x := by
  apply setWord_mem_frame
  intro he
  exact hn.1 (he ▸ hx)

theorem PlainFrame.setWord_table (hn : PlainFrame c ds n) (l : Nat) (w : Word) {x l' : Nat}
    (hx : x ∈ ds) (hl : l' < 1024) (hne : c.mem x l' ≠ nilPgEnt) :
    (c.setWord n l w).mem (frameNo (c.mem x l')) = c.mem (frameNo (c.mem x l')) :=
  setWord_mem_frame (hn.2 x hx l' hl hne)

theorem LowPages.store (h : LowPages c ds) (hn : PlainFrame c ds n) (l : Nat) (w : Word) :
    LowPages (c.setWord n l w) ds :=
  h.congr setWord_free (fun _ hx => hn.setWord_dir l w hx)
    fun _ hx _ hl hne => hn.setWord_table l w hx hl hne

/-- What is plain stays so: the directory and the tables of a clone were free frames. -/
theorem PlainFrame.cloned (h : PlainFrame c ds n) (hn : n ∉ c.free) (hm : Mapped c ds)
    (hd : d ∈ ds) {nd : Nat} (hinv : DirInv c d nd 1024 c') : PlainFrame c' (insert nd ds) n := by
  refine ⟨?_, ?_⟩
  · rw [Set.mem_insert_iff, not_or]
    refine ⟨?_, h.1⟩
    intro he
    rw [he] at hn
    exact hn hinv.fresh
  · intro y hy l hl hne heq
    rcases hinv.slot_cases hm.dirUsed hd hy hl with ⟨z, hz, hs⟩ | ⟨-, -, hcl⟩
    · rw [hs] at hne heq
      exact h.2 z hz l hl hne heq
    · have hfresh := hcl.fresh
      rw [heq] at hfresh
      exact hn hfresh

theorem DirInv.plain_page (hm : Mapped c ds) (hd : d ∈ ds) {nd : Nat}
    (hinv : DirInv c d nd 1024 c') (hr : Ref.page i j ∈ newRefs c d 1024)
    (hfresh : newFrame c' nd (.page i j) ∈ c.free) :
    PlainFrame c' (insert nd ds) (newFrame c' nd (.page i j)) := by
  refine ⟨?_, ?_⟩
  · rw [Set.mem_insert_iff, not_or]
    exact ⟨hinv.ne_dir hr (by simp), fun hx => hm.dirUsed _ hx hfresh⟩
  · intro y hy l hl hne heq
    rcases hinv.slot_cases hm.dirUsed hd hy hl with ⟨z, hz, hs⟩ | ⟨hynd, hp, -⟩
    · rw [hs] at hne heq
      apply hm.tableUsed z hz l hl hne
      rw [heq]
      exact hfresh
    · subst hynd
      have hrt : Ref.table l ∈ newRefs c d 1024 := ⟨hl, hp⟩
      exact absurd (hinv.distinct hrt hr heq) (by simp)

theorem LowPages.clone (h : LowPages c ds) {nd : Nat} (hd : d ∈ ds)
    (hinv : DirInv c d nd 1024 c') : LowPages c' (insert nd ds) := by
  have hm := h.mapped
  refine ⟨hm.clone hd hinv, ?_, ?_⟩
  · intro x hx i hi hxt
    rcases hinv.slot_cases hm.dirUsed hd hx (Nat.lt_trans hi (by decide)) with
      ⟨y, hy, hs⟩ | ⟨-, hp, hcl⟩
    · rw [hs] at hxt
      exact h.narrow y hy i hi hxt
    · exact hp.2 ((extended_congr hcl.flags).mp hxt)
  · intro x hx i hi hne j hj hp
    have hi' : i < 1024 := Nat.lt_trans hi (by decide)
    have hold : ∀ y ∈ ds, c.mem y i ≠ nilPgEnt → Present (tableWord c y i j) →
        PlainFrame c' (insert nd ds) (frameNo (tableWord c y i j)) := by
      intro y hy hney hpy
      apply (h.plain y hy i hi hney j hj hpy).cloned _ hm hd hinv
      exact hm.pageUsed y hy i hi' hney (h.narrow y hy i hi) j hj hpy
    rcases hinv.slot_cases hm.dirUsed hd hx hi' with ⟨y, hy, hs⟩ | ⟨hxnd, hpt, hcl⟩
    · have hw : tableWord c' x i j = tableWord c y i j := by
        rw [hs] at hne
        rw [tableWord, hs, hinv.grows.kept _ (hm.tableUsed y hy i hi' hne)]
        rfl
      rw [hs] at hne
      rw [hw] at hp ⊢
      exact hold y hy hne hp
    · have hpg := hcl.pages j hj
      by_cases hpriv : Private (c.mem (frameNo (c.mem d i)) j)
      · subst hxnd
        exact hinv.plain_page hm hd ⟨hi', hpt, hj, hpriv⟩ (hpg.fresh hpriv)
      · have hw : tableWord c' x i j = tableWord c d i j := hpg.shared hpriv
        rw [hw] at hp ⊢
        exact hold d hd hpt.1.1.ne_nil hp

end LowPages

/-- Frame `n` is directory `d`, or a table or a page that it has below `KZERO`. -/
inductive Own (c : Phys) (d n : Nat) : Prop where
  | dir : n = d → Own c d n
  | table (i : Nat) : i < 768 → c.mem d i ≠ nilPgEnt → frameNo (c.mem d i) = n → Own c d n
  | page (i j : Nat) : i < 768 → c.mem d i ≠ nilPgEnt → j < 1024 → Present (tableWord c d i j) →
      frameNo (tableWord c d i j) = n → Own c d n

/-- From `c₀` on, directory `d` changed below `KZERO` only, and its pages there were
written. -/
structure Confine (ds : Set Nat) (d : Nat) (c₀ c : Phys) : Prop extends LowPages c ds where
  init : c.frameAllocInitialized = true
  slots : ∀ x ∈ ds, ∀ i, 768 ≤ i → i < 1024 → c.mem x i = c₀.mem x i
  tables : ∀ x ∈ ds, ∀ i, 768 ≤ i → i < 1024 → c₀.mem x i ≠ nilPgEnt → ∀ j,
    tableWord c x i j = tableWord c₀ x i j
  free : c.free ⊆ c₀.free
  written : ∀ n, c.mem n ≠ c₀.mem n → Own c₀ d n ∨ n ∈ c₀.free ∧ n ∉ c.free
  taken : ∀ n, Own c d n → Own c₀ d n ∨ n ∈ c₀.free

section Confine
variable {c₀ c c' : Phys} {ds : Set Nat} {d i j n : Nat} {e : Word} {cur : Task}

theorem LowPages.confine (h : LowPages c ds) (hinit : c.frameAllocInitialized = true) :
    Confine ds d c c :=
  ⟨h, hinit, fun _ _ _ _ _ => rfl, fun _ _ _ _ _ _ _ => rfl, fun _ hn => hn,
    fun _ hne => absurd rfl hne, fun _ ho => Or.inl ho⟩

theorem Confine.own_used (h : Confine ds d c₀ c) (hd : d ∈ ds) (ho : Own c d n) : n ∉ c.free := by
  cases ho with
  | dir he =>
    rw [he]
    exact h.mapped.dirUsed d hd
  | table i hi hne he =>
    rw [← he]
    exact h.mapped.tableUsed d hd i (Nat.lt_trans hi (by decide)) hne
  | page i j hi hne hj hp he =>
    rw [← he]
    exact h.mapped.pageUsed d hd i (Nat.lt_trans hi (by decide)) hne (h.narrow d hd i hi) j hj hp

/-- A change of an own frame, or of one that is taken. -/
theorem Confine.written_own (h : Confine ds d c₀ c) (hd : d ∈ ds) (hfree : c'.free ⊆ c.free)
    (hkept : ∀ n, c'.mem n ≠ c.mem n → Own c d n ∨ n ∈ c.free ∧ n ∉ c'.free) :
    ∀ n, c'.mem n ≠ c₀.mem n → Own c₀ d n ∨ n ∈ c₀.free ∧ n ∉ c'.free := by
  intro n hne
  by_cases hsame : c'.mem n = c.mem n
  · rw [hsame] at hne
    rcases h.written n hne with ho | ⟨h0, hf⟩
    · exact Or.inl ho
    · exact Or.inr ⟨h0, fun hn => hf (hfree hn)⟩
  · rcases hkept n hsame with ho | ⟨hf, hf'⟩
    · rcases h.taken n ho with h0 | h0
      · exact Or.inl h0
      · exact Or.inr ⟨h0, fun hn => h.own_used hd ho (hfree hn)⟩
    · exact Or.inr ⟨h.free hf, hf'⟩

theorem Confine.mark (h : Confine ds d c₀ c) (hn : n ∈ c.free) : Confine ds d c₀ (c.mark n) := by
  have hsub : (c.mark n).free ⊆ c.free := by
    rw [free_mark hn]
    exact Finset.erase_subset n _
  refine ⟨h.toLowPages.mark hn, h.init, h.slots, h.tables, hsub.trans h.free, ?_, ?_⟩
  · intro m hm
    rcases h.written m hm with ho | ⟨h0, hf⟩
    · exact Or.inl ho
    · exact Or.inr ⟨h0, fun hm' => hf (hsub hm')⟩
  · intro m ho
    apply h.taken m
    cases ho with
    | dir he => exact .dir he
    | table i hi hne he => exact .table i hi hne he
    | page i j hi hne hj hp he => exact .page i j hi hne hj hp he

theorem Edited.free_subset (h : Edited (baseFlags cur) d i j e c c') : c'.free ⊆ c.free := by
  obtain ⟨c₁, hen, hc'⟩ := h
  rw [hc', setWord_free]
  cases hen with
  | old _ => exact fun _ hn => hn
  | new n _ hn =>
    rw [newTable_free hn]
    exact Finset.erase_subset n _

theorem Edited.frames (h : Edited (baseFlags cur) d i j e c c') (hne : c'.mem n ≠ c.mem n) :
    n = d ∨ (c.mem d i ≠ nilPgEnt ∧ frameNo (c.mem d i) = n) ∨ n ∈ c.free ∧ n ∉ c'.free := by
  by_cases hnd : n = d
  · exact Or.inl hnd
  right
  obtain ⟨c₁, hen, hc'⟩ := h
  rw [hc'] at hne
  cases hen with
  | old hs =>
    refine Or.inl ⟨hs, ?_⟩
    by_contra hnt
    exact hne (setWord_mem_frame (Ne.symm hnt))
  | new m hnil hm =>
    right
    have hnm : n = m := by
      by_contra hnm
      rw [newTable_mem_slot, frameNo_entry hm, setWord_mem_frame hnm, newTable_mem_of_ne hnm hnd]
        at hne
      exact hne rfl
    rw [hc', setWord_free, newTable_free hm, hnm]
    exact ⟨hm, Finset.notMem_erase m _⟩

/-- What directory `d` has after an edit, it had before, or it was free. -/
theorem Confine.edited_own (h : Confine ds d c₀ c) (hd : d ∈ ds) (hi : i < 1024)
    (he : Present e → frameNo e ∈ c₀.free) (hed : Edited (baseFlags cur) d i j e c c')
    (ho : Own c' d n) : Own c₀ d n ∨ n ∈ c₀.free := by
  have hm := h.mapped
  cases ho with
  | dir hn => exact Or.inl (.dir hn)
  | table l hl hne hn =>
    rcases hm.edited_slot (k := l) hd hi hed hd with ⟨-, -, -, m, hmf, hs⟩ | hs
    · rw [hs, frameNo_entry hmf] at hn
      rw [← hn]
      exact Or.inr (h.free hmf)
    · rw [hs] at hne hn
      exact h.taken n (.table l hl hne hn)
  | page l w hl hne hw hp hn =>
    have hl' : l < 1024 := Nat.lt_trans hl (by decide)
    have hnew : e = tableWord c' d l w → Own c₀ d n ∨ n ∈ c₀.free := by
      intro heq
      rw [← heq] at hp hn
      rw [← hn]
      exact Or.inr (he hp)
    rcases hm.edited_words hd hi hed hd hl' with ⟨hs, hword⟩ | ⟨-, -, -, -, -, hword⟩
    · rw [hs] at hne
      have hword := hword hne w
      split at hword
      · exact hnew hword.symm
      · rw [hword] at hp hn
        exact h.taken n (.page l w hl hne hw hp hn)
    · have hword := hword w
      split at hword
      · exact hnew hword.symm
      · rw [hword] at hp
        exact absurd hp not_present_nil

theorem Confine.edited (h : Confine ds d c₀ c) (hd : d ∈ ds) (hi : i < 768)
    (he : Present e → frameNo e ∉ c.free ∧ PlainFrame c ds (frameNo e) ∧ frameNo e ∈ c₀.free)
    (hed : Edited (baseFlags cur) d i j e c c') : Confine ds d c₀ c' := by
  have hm := h.mapped
  have hi' : i < 1024 := Nat.lt_trans hi (by decide)
  have hslot : ∀ x ∈ ds, ∀ l, 768 ≤ l → l < 1024 → c'.mem x l = c.mem x l := by
    intro x hx l hlo _
    rcases hm.edited_slot (k := l) hd hi' hed hx with ⟨-, hli, -⟩ | hs
    · omega
    · exact hs
  refine ⟨?_, hed.init.trans h.init, ?_, ?_, hed.free_subset.trans h.free, ?_, ?_⟩
  · exact h.toLowPages.edited hd hi' (fun hp => (he hp).1) (fun _ hp => (he hp).2.1) hed
  · intro x hx l hlo hl
    rw [hslot x hx l hlo hl]
    exact h.slots x hx l hlo hl
  · intro x hx l hlo hl hne w
    rw [← h.tables x hx l hlo hl hne w]
    rw [← h.slots x hx l hlo hl] at hne
    rcases hm.edited_words hd hi' hed hx hl with ⟨-, hword⟩ | ⟨-, hli, -⟩
    · rw [hword hne w, if_neg]
      intro hT
      have hli := hm.slot x hx d hd l i hl hi' hne hT.1 hT.2.1
      omega
    · omega
  · apply h.written_own hd hed.free_subset
    intro n hne
    rcases hed.frames hne with hn | ⟨hs, hn⟩ | hn
    · exact Or.inl (.dir hn)
    · exact Or.inl (.table i hi hs hn)
    · exact Or.inr hn
  · intro n ho
    exact h.edited_own hd hi' (fun hp => (he hp).2.2) hed ho

theorem Confine.store (h : Confine ds d c₀ c) (hd : d ∈ ds) (hi : i < 768)
    (hne : c.mem d i ≠ nilPgEnt) (hj : j < 1024) (hp : Present (tableWord c d i j))
    (hn : frameNo (tableWord c d i j) = n) (l : Nat) (w : Word) :
    Confine ds d c₀ (c.setWord n l w) := by
  have hplain := h.plain d hd i hi hne j hj hp
  rw [hn] at hplain
  have hdir : ∀ x ∈ ds, (c.setWord n l w).mem x = c.mem x := by
    intro x hx
    apply setWord_mem_frame
    intro he
    exact hplain.1 (he ▸ hx)
  have htable : ∀ x ∈ ds, ∀ l', l' < 1024 → c.mem x l' ≠ nilPgEnt → ∀ k,
      tableWord (c.setWord n l w) x l' k = tableWord c x l' k := by
    intro x hx l' hl' hne' k
    unfold tableWord
    rw [hdir x hx, setWord_mem_frame (hplain.2 x hx l' hl' hne')]
  refine ⟨h.toLowPages.store hplain l w, h.init, ?_, ?_, h.free, ?_, ?_⟩
  · intro x hx l' hlo hl'
    rw [hdir x hx]
    exact h.slots x hx l' hlo hl'
  · intro x hx l' hlo hl' hne' k
    rw [← h.tables x hx l' hlo hl' hne' k]
    rw [← h.slots x hx l' hlo hl'] at hne'
    exact htable x hx l' hl' hne' k
  · refine h.written_own hd (fun _ hm => hm) ?_
    intro m hm
    left
    by_cases hmn : m = n
    · exact .page i j hi hne hj hp (hn.trans hmn.symm)
    · exact absurd (setWord_mem_frame hmn) hm
  · intro m ho
    apply h.taken m
    cases ho with
    | dir he => exact .dir he
    | table l' hl' hne' he =>
      rw [hdir d hd] at hne' he
      exact .table l' hl' hne' he
    | page l' k hl' hne' hk hpk he =>
      rw [hdir d hd] at hne'
      rw [htable d hd l' (Nat.lt_trans hl' (by decide)) hne' k] at hpk he
      exact .page l' k hl' hne' hk hpk he

theorem Confine.keeper (hd : frameNo cur.pgd ∈ ds) :
    Keeper cur (fun v => v < kZero) (Confine ds (frameNo cur.pgd) c₀) := by
  refine ⟨fun c h => h.init, ?_, ?_, ?_⟩
  · intro c v c' hV h hstep
    obtain ⟨n, hn, hed⟩ := hstep
    refine (h.mark hn).edited hd (addrPde_lt_iff.mpr hV) ?_ hed
    intro _
    refine ⟨taken_entry hn cur, ?_⟩
    rw [frameNo_entry hn]
    exact ⟨h.mapped.plain_free hn, h.free hn⟩
  · intro c v c' hV h hstep
    obtain ⟨e, he, hed⟩ := hstep
    exact h.edited hd (addrPde_lt_iff.mpr hV) (fun hp => absurd hp he) hed
  · intro c v c' w _ h hstep hw
    exact h.mapped.added_allocated hd hstep hw

theorem Confine.translate_eq (h : Confine ds d c₀ c) {x : Nat} (hx : x ∈ ds) {a : Word}
    (ha : kZero ≤ a) : translate c x a = translate c₀ x a := by
  have hlo : 768 ≤ addrPde a := by
    apply Nat.not_lt.mp
    intro hlow
    exact BitVec.not_lt.mpr ha (addrPde_lt_iff.mp hlow)
  apply translate_congr (h.slots x hx _ hlo (addrPde_lt a))
  intro hp _
  have hword := h.tables x hx _ hlo (addrPde_lt a) hp.ne_nil (addrPte a)
  unfold tableWord at hword
  rw [h.slots x hx _ hlo (addrPde_lt a)] at hword
  exact hword

end Confine

end AkKernel
