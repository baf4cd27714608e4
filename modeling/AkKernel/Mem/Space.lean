import AkKernel.Mem.CloneDir

/-!
# Address spaces

The walk that the processor does, loads and stores through it, and what a clone
means for them.
-/

set_option autoImplicit false

namespace AkKernel

open Programs

/-- The frame that `addr` is in under directory `d`, and the flags of the entries on
the way there. -/
def translate (c : Phys) (d : Nat) (addr : Word) : Option (Nat × Word × Word) :=
  let e := c.mem d (addrPde addr)
  if ¬ Present e then none
  else if Extended e then some (frameNo (pdeAddr e) + addrPte addr, pdeFlags e, pdeFlags e)
  else
    let p := c.mem (frameNo e) (addrPte addr)
    if Present p then some (frameNo p, pteFlags e, pteFlags p) else none

def wordIdx (addr : Word) : Nat := addr.toNat % 4096 / 4

def loadVia (c : Phys) (d : Nat) (addr : Word) : Option Word :=
  (translate c d addr).map fun t => c.mem t.1 (wordIdx addr)

def storeVia (c : Phys) (d : Nat) (addr v : Word) : Option Phys :=
  (translate c d addr).map fun t => c.setWord t.1 (wordIdx addr) v

/-- Neither the directory entry of `addr` nor its page entry is shared by a clone. -/
def PrivatePage (c : Phys) (d : Nat) (addr : Word) : Prop :=
  PrivateTable (c.mem d (addrPde addr)) ∧
    Private (c.mem (frameNo (c.mem d (addrPde addr))) (addrPte addr))

instance (c : Phys) (d : Nat) (addr : Word) : Decidable (PrivatePage c d addr) :=
  inferInstanceAs (Decidable (_ ∧ _))

/-- The memory `c'` holds a clone `nd` of directory `d` of `c`. -/
structure ClonedDir (c : Phys) (d : Nat) (c' : Phys) (nd : Nat) : Prop where
  dir : nd ∈ c.free
  sharedSlot : ∀ i, i < 1024 → ¬ Present (c.mem d i) ∨ Linked (c.mem d i) →
    c'.mem nd i = c.mem d i
  ownSlot : ∀ i, i < 1024 → Private (c.mem d i) →
    pteFlags (c'.mem nd i) = pteFlags (c.mem d i) ∧ frameNo (c'.mem nd i) ∈ c.free
  sharedPage : ∀ i j, i < 1024 → j < 1024 → Private (c.mem d i) →
    ¬ Present (c.mem (frameNo (c.mem d i)) j) ∨ Linked (c.mem (frameNo (c.mem d i)) j) →
    c'.mem (frameNo (c'.mem nd i)) j = c.mem (frameNo (c.mem d i)) j
  ownPage : ∀ i j, i < 1024 → j < 1024 → Private (c.mem d i) →
    Private (c.mem (frameNo (c.mem d i)) j) →
    pteFlags (c'.mem (frameNo (c'.mem nd i)) j) = pteFlags (c.mem (frameNo (c.mem d i)) j) ∧
    frameNo (c'.mem (frameNo (c'.mem nd i)) j) ∈ c.free ∧
    c'.mem (frameNo (c'.mem (frameNo (c'.mem nd i)) j)) =
      c.mem (frameNo (c.mem (frameNo (c.mem d i)) j))
  marked : ∀ r ∈ newRefs c d 1024, newFrame c' nd r ∉ c'.free
  distinct : Set.InjOn (newFrame c' nd) (newRefs c d 1024)
  kept : ∀ n, n ∉ c.free → c'.mem n = c.mem n

section Clone
variable {c c' : Phys} {d nd : Nat} {addr a v : Word}

theorem not_private_of {e : Word} (h : ¬ Present e ∨ Linked e) : ¬ Private e := by
  intro hp
  rcases h with h | h
  · exact h hp.1
  · exact hp.2 h

theorem DirUsed.privateTable (hu : DirUsed c d) {i : Nat} (hi : i < 1024)
    (hp : Private (c.mem d i)) : PrivateTable (c.mem d i) :=
  ⟨hp, fun hx => hu.not_private hi hx hp⟩

theorem DirInv.clonedDir (h : DirInv c d nd 1024 c') (hu : DirUsed c d) : ClonedDir c d c' nd := by
  have htbl : ∀ i, i < 1024 → Private (c.mem d i) →
      TblCloned c c' (c.mem d i) (c'.mem nd i) := by
    intro i hi hp
    exact (h.slots i hi).table (hu.privateTable hi hp)
  refine ⟨h.fresh, ?_, ?_, ?_, ?_, fun r hr => h.taken_ref hr, h.distinct, h.grows.kept⟩
  · intro i hi hs
    exact (h.slots i hi).shared fun hp => not_private_of hs hp.1
  · intro i hi hp
    exact ⟨(htbl i hi hp).flags, (htbl i hi hp).fresh⟩
  · intro i j hi hj hp hs
    exact ((htbl i hi hp).pages j hj).shared (not_private_of hs)
  · intro i j hi hj hp hpj
    have hpg := (htbl i hi hp).pages j hj
    exact ⟨hpg.flags hpj, hpg.fresh hpj, hpg.same hpj⟩

theorem translate_private (hp : PrivatePage c d addr) : translate c d addr =
    some (frameNo (c.mem (frameNo (c.mem d (addrPde addr))) (addrPte addr)),
      pteFlags (c.mem d (addrPde addr)),
      pteFlags (c.mem (frameNo (c.mem d (addrPde addr))) (addrPte addr))) := by
  unfold translate
  rw [if_neg (not_not.mpr hp.1.1.1), if_neg hp.1.2, if_pos hp.2.1]

theorem ClonedDir.privatePage (h : ClonedDir c d c' nd) (hp : PrivatePage c d addr) :
    PrivatePage c' nd addr := by
  have hslot := h.ownSlot _ (addrPde_lt addr) hp.1.1
  have hpage := h.ownPage _ _ (addrPde_lt addr) (addrPte_lt addr) hp.1.1 hp.2
  refine ⟨⟨⟨?_, ?_⟩, ?_⟩, ?_, ?_⟩
  · exact (present_congr hslot.1).mpr hp.1.1.1
  · exact fun hl => hp.1.1.2 ((linked_congr hslot.1).mp hl)
  · exact fun hx => hp.1.2 ((extended_congr hslot.1).mp hx)
  · exact (present_congr hpage.1).mpr hp.2.1
  · exact fun hl => hp.2.2 ((linked_congr hpage.1).mp hl)

/-- The walk reads one directory slot and at most one page entry. -/
theorem translate_congr (hslot : c'.mem d (addrPde a) = c.mem d (addrPde a))
    (hpage : Present (c.mem d (addrPde a)) → ¬ Extended (c.mem d (addrPde a)) →
      c'.mem (frameNo (c.mem d (addrPde a))) (addrPte a) =
        c.mem (frameNo (c.mem d (addrPde a))) (addrPte a)) :
    translate c' d a = translate c d a := by
  unfold translate
  rw [hslot]
  by_cases hp : Present (c.mem d (addrPde a))
  · by_cases hx : Extended (c.mem d (addrPde a))
    · simp only [hp, hx, if_true]
    · simp only [hp, hx, hpage hp hx]
  · simp only [hp, not_false_eq_true, if_true]

/-- A store to a frame that the walk for `a` does not read leaves the load alone. -/
theorem loadVia_setWord {n i : Nat} (hd : d ≠ n)
    (ht : Present (c.mem d (addrPde a)) → ¬ Extended (c.mem d (addrPde a)) →
      frameNo (c.mem d (addrPde a)) ≠ n)
    (hf : ∀ t, translate c d a = some t → t.1 ≠ n) :
    loadVia (c.setWord n i v) d a = loadVia c d a := by
  have htr : translate (c.setWord n i v) d a = translate c d a := by
    apply translate_congr
    · rw [setWord_mem_frame hd]
    · intro hp hx
      rw [setWord_mem_frame (ht hp hx)]
  unfold loadVia
  rw [htr]
  cases he : translate c d a with
  | none => rfl
  | some t =>
    simp only [Option.map_some]
    rw [setWord_mem_frame (hf t he)]

/-- A clone's own page is written without its original noticing. -/
theorem ClonedDir.store_clone (h : ClonedDir c d c' nd) (hu : DirUsed c d)
    (hp : PrivatePage c d addr) {c₂ : Phys} (hs : storeVia c' nd addr v = some c₂)
    (hf : ∀ t, translate c d a = some t → t.1 ∉ c.free) : loadVia c₂ d a = loadVia c' d a := by
  have hpage := h.ownPage _ _ (addrPde_lt addr) (addrPte_lt addr) hp.1.1 hp.2
  rw [storeVia, translate_private (h.privatePage hp), Option.map_some, Option.some.injEq] at hs
  have hne : ∀ m, m ∉ c.free →
      m ≠ frameNo (c'.mem (frameNo (c'.mem nd (addrPde addr))) (addrPte addr)) :=
    fun m hm he => hm (he ▸ hpage.2.1)
  have hdir := h.kept d hu.dir
  have htbl : Present (c.mem d (addrPde a)) → ¬ Extended (c.mem d (addrPde a)) →
      frameNo (c.mem d (addrPde a)) ∉ c.free := by
    intro hpr hx
    exact (hu.tables _ (addrPde_lt a) hpr hx).table
  have htr : translate c' d a = translate c d a := by
    apply translate_congr
    · rw [hdir]
    · intro hpr hx
      rw [h.kept _ (htbl hpr hx)]
  rw [← hs]
  apply loadVia_setWord (hne d hu.dir)
  · rw [hdir]
    intro hpr hx
    exact hne _ (htbl hpr hx)
  · rw [htr]
    intro t ht
    exact hne _ (hf t ht)

/-- The original's own page is written without the clone's own pages noticing. -/
theorem ClonedDir.store_original (h : ClonedDir c d c' nd) (hu : DirUsed c d)
    (hp : PrivatePage c d addr) {c₂ : Phys} (hs : storeVia c' d addr v = some c₂)
    (ha : PrivatePage c d a) : loadVia c₂ nd a = loadVia c' nd a := by
  have hused := hu.tables _ (addrPde_lt addr) hp.1.1.1 hp.1.2
  have hslot := h.ownSlot _ (addrPde_lt a) ha.1.1
  have hpage := h.ownPage _ _ (addrPde_lt a) (addrPte_lt a) ha.1.1 ha.2
  have hsame : PrivatePage c' d addr := by
    unfold PrivatePage
    rw [h.kept d hu.dir, h.kept _ hused.table]
    exact hp
  rw [storeVia, translate_private hsame, h.kept d hu.dir, h.kept _ hused.table,
    Option.map_some, Option.some.injEq] at hs
  have hne : ∀ m, m ∈ c.free →
      m ≠ frameNo (c.mem (frameNo (c.mem d (addrPde addr))) (addrPte addr)) := by
    intro m hm he
    exact hused.pages _ (addrPte_lt addr) hp.2.1 (he ▸ hm)
  rw [← hs]
  apply loadVia_setWord (hne nd h.dir)
  · intro _ _
    exact hne _ hslot.2
  · intro t ht
    rw [translate_private (h.privatePage ha), Option.some.injEq] at ht
    rw [← ht]
    exact hne _ hpage.2.1

end Clone

/-- `pg_clone_dir` returns a clone of the directory, in which nothing that either
side stores to a page of its own is seen by the other. -/
theorem pgCloneDir_isolates (c : Phys) (tmp : TmpTbl) (dirframe : Word)
    (hinit : c.frameAllocInitialized = true) (htmp : Ready [] 6 tmp)
    (hu : DirUsed c (frameNo dirframe)) (hd : cloneDemand c (frameNo dirframe) ≤ c.free.card) :
    ∃ nd c', pgCloneDir dirframe (c, tmp) = .ok (frameAddr nd, (c', tmp)) ∧
      ClonedDir c (frameNo dirframe) c' nd ∧
      (∀ addr v c₂, PrivatePage c (frameNo dirframe) addr → storeVia c' nd addr v = some c₂ →
        ∀ a, (∀ t, translate c (frameNo dirframe) a = some t → t.1 ∉ c.free) →
          loadVia c₂ (frameNo dirframe) a = loadVia c' (frameNo dirframe) a) ∧
      (∀ addr v c₂, PrivatePage c (frameNo dirframe) addr →
        storeVia c' (frameNo dirframe) addr v = some c₂ →
        ∀ a, PrivatePage c (frameNo dirframe) a → loadVia c₂ nd a = loadVia c' nd a) := by
  obtain ⟨⟨f, c'⟩, hrun⟩ := pgCloneDir_ends hinit hu hd
  obtain ⟨nd, hf, hinv⟩ := pgCloneDir_ok hinit hu hrun
  have hclone := hinv.clonedDir hu
  refine ⟨nd, c', ?_, hclone, ?_, ?_⟩
  · rw [pgCloneDir_lifts (k := 0) dirframe c tmp htmp, onFst, hrun, hf]
  · intro addr v c₂ hp hs a ha
    exact hclone.store_clone hu hp hs ha
  · intro addr v c₂ hp hs a ha
    exact hclone.store_original hu hp hs ha

section OneTask

/-- A directory in frame 2 with the linked 4 MB of the kernel and one table, in
frame 3, that maps one page, in frame 4. -/
def oneTaskMem (n i : Nat) : Word :=
  if n = 2 ∧ i = 0 then 0x3007#32
  else if n = 2 ∧ i = 768 then kernelLow4M
  else if n = 3 ∧ i = 0 then 0x4007#32
  else 0#32

def oneTask : Phys where
  mem := oneTaskMem
  bitmap := ⟨[0x1F#32, 0#32], 64, rfl, by decide⟩
  frameAllocInitialized := true
  preallocFrames := 0#32
  preallocCount := 0
  mmuReady := true

theorem oneTask_slot {i : Nat} (h : Present (oneTask.mem 2 i)) : i = 0 ∨ i = 768 := by
  by_contra hne
  have h0 : i ≠ 0 := fun he => hne (Or.inl he)
  have h1 : i ≠ 768 := fun he => hne (Or.inr he)
  simp [oneTask, oneTaskMem, h0, h1, Present] at h

theorem oneTask_page {j : Nat} (h : Present (oneTask.mem 3 j)) : j = 0 := by
  by_contra h0
  simp [oneTask, oneTaskMem, h0, Present] at h

theorem oneTask_used : DirUsed oneTask 2 := by
  refine ⟨by decide +kernel, ?_, ?_⟩
  · intro i _ hp hx
    rcases oneTask_slot hp with rfl | rfl
    · refine ⟨by decide +kernel, ?_⟩
      intro j _ hpj
      obtain rfl := oneTask_page hpj
      decide +kernel
    · exact absurd (by decide +kernel) hx
  · intro i _ hp hx
    rcases oneTask_slot hp with rfl | rfl
    · exact absurd hx (by decide +kernel)
    · decide +kernel

theorem oneTask_demand : cloneDemand oneTask 2 ≤ oneTask.free.card := by
  have hsum : ∑ i ∈ Finset.range 1024, slotDemand oneTask (oneTask.mem 2 i) =
      slotDemand oneTask (oneTask.mem 2 0) := by
    apply Finset.sum_eq_single_of_mem 0 (by decide +kernel)
    intro i _ hi
    apply if_neg
    intro hp
    rcases oneTask_slot hp.1.1 with h | h
    · exact hi h
    · rw [h] at hp
      exact hp.2 (by decide +kernel)
  have hpages : (privates oneTask 3 1024).card ≤ 1 := by
    apply Finset.card_le_one.mpr
    intro a ha b hb
    rw [oneTask_page (Finset.mem_filter.mp ha).2.1, oneTask_page (Finset.mem_filter.mp hb).2.1]
  have hslot : slotDemand oneTask (oneTask.mem 2 0) = 1 + (privates oneTask 3 1024).card := by
    have hentry : oneTask.mem 2 0 = 0x3007#32 := rfl
    have htable : frameNo 0x3007#32 = 3 := by decide
    rw [hentry, slotDemand, if_pos (by decide), htable]
  have hfree : 3 ≤ oneTask.free.card := by decide +kernel
  rw [cloneDemand, hsum, hslot]
  omega

/-- The clone of that directory holds a copy of the page. -/
theorem pgCloneDir_isolates_oneTask : ∃ nd c',
    pgCloneDir 0x2000#32 (oneTask, fun _ => 0#32) = .ok (frameAddr nd, (c', fun _ => 0#32)) ∧
      c'.mem (frameNo (c'.mem (frameNo (c'.mem nd 0)) 0)) = oneTask.mem 4 := by
  have hframe : frameNo 0x2000#32 = 2 := by decide
  obtain ⟨nd, c', hrun, hclone, -⟩ := pgCloneDir_isolates oneTask (fun _ => 0#32) 0x2000#32 rfl
    (ready_nil (by decide)) (by rw [hframe]; exact oneTask_used) (by rw [hframe]; exact oneTask_demand)
  rw [hframe] at hclone
  exact ⟨nd, c', hrun, (hclone.ownPage 0 0 (by decide) (by decide) (by decide +kernel)
    (by decide +kernel)).2.2⟩

end OneTask

end AkKernel
