import AkKernel.Mem.Confine

/-!
# A frame for each page

Below `KZERO` no frame is at two addresses, in whichever directories: a page gets a frame that was
free, and a directory that shares it has it at the same address.
-/

set_option autoImplicit false

namespace AkKernel

open Programs

/-- Frame `n` is a page below `KZERO` of one of the directories, at slots `i` and `j`. -/
inductive LowPage (c : Phys) (ds : Set Nat) (i j n : Nat) : Prop where
  | intro (d : Nat) : d ∈ ds → i < 768 → c.mem d i ≠ nilPgEnt → j < 1024 →
      Present (tableWord c d i j) → frameNo (tableWord c d i j) = n → LowPage c ds i j n

def OwnPages (c : Phys) (ds : Set Nat) : Prop :=
  ∀ n i j k l, LowPage c ds i j n → LowPage c ds k l n → i = k ∧ j = l

section OwnPages
variable {c c' : Phys} {ds : Set Nat} {d i j k l n : Nat} {e : Word} {cur : Task}

theorem LowPages.lowPage_used (h : LowPages c ds) (hp : LowPage c ds i j n) : n ∉ c.free := by
  obtain ⟨d, hd, hi, hne, hj, hp, rfl⟩ := hp
  exact h.mapped.pageUsed d hd i (Nat.lt_trans hi (by decide)) hne (h.narrow d hd i hi) j hj hp

theorem LowPages.edited_page (h : LowPages c ds) (hd : d ∈ ds) (hi : i < 1024)
    (hed : Edited (baseFlags cur) d i j e c c') (hp : LowPage c' ds k l n) :
    LowPage c ds k l n ∨ k = i ∧ l = j ∧ Present e ∧ frameNo e = n := by
  have hm := h.mapped
  obtain ⟨x, hx, hk, hne, hl, hp, hn⟩ := hp
  have hk' : k < 1024 := Nat.lt_trans hk (by decide)
  rcases hm.edited_words hd hi hed hx hk' with ⟨hs, hword⟩ | ⟨-, hki, -, -, -, hword⟩
  · rw [hs] at hne
    rw [hword hne l] at hp hn
    split at hp
    · rename_i hT
      obtain ⟨hdi, hframe, hlj⟩ := hT
      rw [if_pos ⟨hdi, hframe, hlj⟩] at hn
      exact Or.inr ⟨hm.slot x hx d hd k i hk' hi hne hdi hframe, hlj, hp, hn⟩
    · rename_i hT
      rw [if_neg hT] at hn
      exact Or.inl ⟨x, hx, hk, hne, hl, hp, hn⟩
  · rw [hword l] at hp hn
    split at hp
    · rename_i hlj
      rw [if_pos hlj] at hn
      exact Or.inr ⟨hki, hlj, hp, hn⟩
    · exact absurd hp not_present_nil

/-- An edit at any slot; the frame that is put there is at no other one. -/
theorem OwnPages.edited (h : OwnPages c ds) (hlow : LowPages c ds) (hd : d ∈ ds) (hi : i < 1024)
    (he : Present e → ∀ k l, LowPage c ds k l (frameNo e) → k = i ∧ l = j)
    (hed : Edited (baseFlags cur) d i j e c c') : OwnPages c' ds := by
  intro n a b a' b' hp hp'
  rcases hlow.edited_page hd hi hed hp with hp | ⟨rfl, rfl, hpe, rfl⟩
  · rcases hlow.edited_page hd hi hed hp' with hp' | ⟨rfl, rfl, hpe, rfl⟩
    · exact h n a b a' b' hp hp'
    · exact he hpe a b hp
  · rcases hlow.edited_page hd hi hed hp' with hp' | ⟨rfl, rfl, -, -⟩
    · obtain ⟨h1, h2⟩ := he hpe a' b' hp'
      exact ⟨h1.symm, h2.symm⟩
    · exact ⟨rfl, rfl⟩

theorem OwnPages.copied (h : OwnPages c ds) (hlow : LowPages c ds) {k : Nat} (hk : k ∈ ds)
    (hd : d ∈ ds) (hi : i < 1024) (hj : j < 1024) (hne : c.mem k i ≠ nilPgEnt)
    (hed : Edited (baseFlags cur) d i j (c.mem (frameNo (c.mem k i)) j) c c') :
    OwnPages c' ds := by
  by_cases hx : Extended (c.mem k i)
  · rw [hlow.mapped.copied_wide hk hd hi hne hx hed]
    exact h
  · intro n a b a' b' hp hp'
    -- at slots below `KZERO` the copy is a page of `KernelTask`
    have hold : ∀ a b, LowPage c' ds a b n → LowPage c ds a b n := by
      intro a b hp
      have hlt : a < 768 := by
        obtain ⟨x, -, hlt, -⟩ := hp
        exact hlt
      rcases hlow.edited_page hd hi hed hp with hp | ⟨rfl, rfl, hpe, hn⟩
      · exact hp
      · exact ⟨k, hk, hlt, hne, hj, hpe, hn⟩
    exact h n a b a' b' (hold a b hp) (hold a' b' hp')

theorem LowPages.cloned_page (h : LowPages c ds) {nd : Nat} (hd : d ∈ ds)
    (hinv : DirInv c d nd 1024 c') (hp : LowPage c' (insert nd ds) i j n) :
    LowPage c ds i j n ∨
      Ref.page i j ∈ newRefs c d 1024 ∧ n ∈ c.free ∧ newFrame c' nd (.page i j) = n := by
  have hm := h.mapped
  obtain ⟨x, hx, hi, hne, hj, hp, hn⟩ := hp
  have hi' : i < 1024 := Nat.lt_trans hi (by decide)
  rcases hinv.slot_cases hm.dirUsed hd hx hi' with ⟨y, hy, hs⟩ | ⟨hxnd, hpt, hcl⟩
  · left
    rw [hs] at hne
    have hw : tableWord c' x i j = tableWord c y i j := by
      rw [tableWord, hs, hinv.grows.kept _ (hm.tableUsed y hy i hi' hne)]
      rfl
    rw [hw] at hp hn
    exact ⟨y, hy, hi, hne, hj, hp, hn⟩
  · have hpg := hcl.pages j hj
    by_cases hpriv : Private (c.mem (frameNo (c.mem d i)) j)
    · right
      subst hxnd
      have hfresh := hpg.fresh hpriv
      rw [← hn]
      exact ⟨⟨hi', hpt, hj, hpriv⟩, hfresh, rfl⟩
    · left
      have hw : tableWord c' x i j = tableWord c d i j := hpg.shared hpriv
      rw [hw] at hp hn
      exact ⟨d, hd, hi, hpt.1.1.ne_nil, hj, hp, hn⟩

theorem OwnPages.clone (h : OwnPages c ds) (hlow : LowPages c ds) {nd : Nat} (hd : d ∈ ds)
    (hinv : DirInv c d nd 1024 c') : OwnPages c' (insert nd ds) := by
  intro n a b a' b' hp hp'
  rcases hlow.cloned_page hd hinv hp with hp | ⟨hr, hfree, hn⟩
  · rcases hlow.cloned_page hd hinv hp' with hp' | ⟨-, hfree', -⟩
    · exact h n a b a' b' hp hp'
    · exact absurd hfree' (hlow.lowPage_used hp)
  · rcases hlow.cloned_page hd hinv hp' with hp' | ⟨hr', -, hn'⟩
    · exact absurd hfree (hlow.lowPage_used hp')
    · have href := hinv.distinct hr hr' (hn.trans hn'.symm)
      injection href with h1 h2
      exact ⟨h1, h2⟩

theorem OwnPages.congr (h : OwnPages c ds) (hdir : ∀ x ∈ ds, c'.mem x = c.mem x)
    (htable : ∀ x ∈ ds, ∀ l, l < 1024 → c.mem x l ≠ nilPgEnt →
      c'.mem (frameNo (c.mem x l)) = c.mem (frameNo (c.mem x l))) : OwnPages c' ds := by
  have hold : ∀ m a b, LowPage c' ds a b m → LowPage c ds a b m := by
    intro m a b hp
    obtain ⟨x, hx, ha, hne, hb, hp, hm⟩ := hp
    rw [hdir x hx] at hne
    have hw : tableWord c' x a b = tableWord c x a b := by
      unfold tableWord
      rw [hdir x hx, htable x hx a (Nat.lt_trans ha (by decide)) hne]
    rw [hw] at hp hm
    exact ⟨x, hx, ha, hne, hb, hp, hm⟩
  intro m a b a' b' hp hp'
  exact h m a b a' b' (hold m a b hp) (hold m a' b' hp')

theorem OwnPages.mark (h : OwnPages c ds) (n : Nat) : OwnPages (c.mark n) ds :=
  h.congr (fun _ _ => rfl) fun _ _ _ _ _ => rfl

theorem OwnPages.store (h : OwnPages c ds) (hn : PlainFrame c ds n) (m : Nat) (w : Word) :
    OwnPages (c.setWord n m w) ds :=
  h.congr (fun _ hx => hn.setWord_dir m w hx) fun _ hx _ hl hne => hn.setWord_table m w hx hl hne

/-- `LowPages`, with a frame for each page. -/
structure PagesOwned (c : Phys) (ds : Set Nat) : Prop extends LowPages c ds where
  own : OwnPages c ds

theorem PagesOwned.clone (h : PagesOwned c ds) {nd : Nat} (hd : d ∈ ds)
    (hinv : DirInv c d nd 1024 c') : PagesOwned c' (insert nd ds) :=
  ⟨h.toLowPages.clone hd hinv, h.own.clone h.toLowPages hd hinv⟩

theorem PagesOwned.copied (h : PagesOwned c ds) {k : Nat} (hk : k ∈ ds) (hd : d ∈ ds)
    (hi : i < 1024) (hj : j < 1024) (hne : c.mem k i ≠ nilPgEnt)
    (hed : Edited (baseFlags cur) d i j (c.mem (frameNo (c.mem k i)) j) c c') :
    PagesOwned c' ds :=
  ⟨h.toLowPages.copied hk hd hi hj hne hed, h.own.copied h.toLowPages hk hd hi hj hne hed⟩

theorem PagesOwned.store (h : PagesOwned c ds) (hn : PlainFrame c ds n) (m : Nat) (w : Word) :
    PagesOwned (c.setWord n m w) ds := ⟨h.toLowPages.store hn m w, h.own.store hn m w⟩

theorem LowPages.keeper_own (hd : frameNo cur.pgd ∈ ds) : Keeper cur (fun _ => True)
    (fun c => c.frameAllocInitialized = true ∧ PagesOwned c ds) := by
  have hlow : Keeper cur (fun _ => True) fun c => c.frameAllocInitialized = true ∧ LowPages c ds :=
    LowPages.keeper hd
  refine ⟨fun c h => h.1, ?_, ?_, ?_⟩
  · intro c v c' hv h hstep
    obtain ⟨hinit, hpages⟩ := hlow.alloc c v c' hv ⟨h.1, h.2.toLowPages⟩ hstep
    refine ⟨hinit, hpages, ?_⟩
    obtain ⟨n, hn, hed⟩ := hstep
    have hmark := h.2.toLowPages.mark hn
    refine (h.2.own.mark n).edited hmark hd (addrPde_lt v) ?_ hed
    intro _ k l hp
    rw [frameNo_entry hn] at hp
    obtain ⟨x, hx, hk, hne, hl, hp, heq⟩ := hp
    exact absurd hn (h.2.toLowPages.lowPage_used ⟨x, hx, hk, hne, hl, hp, heq⟩)
  · intro c v c' hv h hstep
    obtain ⟨hinit, hpages⟩ := hlow.clear c v c' hv ⟨h.1, h.2.toLowPages⟩ hstep
    refine ⟨hinit, hpages, ?_⟩
    obtain ⟨e, he, hed⟩ := hstep
    exact h.2.own.edited h.2.toLowPages hd (addrPde_lt v) (fun hp => absurd hp he) hed
  · intro c v c' w hv h hstep hw
    exact hlow.allocated c v c' w hv ⟨h.1, h.2.toLowPages⟩ hstep hw

theorem PagesOwned.page_eq (h : PagesOwned c ds) {d' : Nat} (hd : d ∈ ds) (hd' : d' ∈ ds)
    {v w : Word} (hv : v < kZero) (hw : w < kZero) {t u : Nat × Word × Word}
    (ht : translate c d v = some t) (hu : translate c d' w = some u) (heq : t.1 = u.1) :
    pgAddr v = pgAddr w := by
  have hpage : ∀ x ∈ ds, ∀ a < kZero, ∀ r, translate c x a = some r →
      LowPage c ds (addrPde a) (addrPte a) r.1 := by
    intro x hx a ha r hr
    obtain ⟨hne, hp, hframe⟩ := h.walk_page hx ha hr
    exact ⟨x, hx, addrPde_lt_iff.mpr ha, hne, addrPte_lt a, hp, hframe⟩
  have hpv := hpage d hd v hv t ht
  have hpw := hpage d' hd' w hw u hu
  rw [← heq] at hpw
  obtain ⟨hpde, hpte⟩ := h.own _ _ _ _ _ hpv hpw
  exact pgAddr_eq_of_slots hpde hpte

end OwnPages

end AkKernel
