import AkKernel.Foundation.Stacks
import AkKernel.Mem.Confine

/-!
# The stacks of the tasks

Every task has the stack of the kernel at the same addresses, in a page of its own. The words of
the kernel's heap are the same in all directories.
-/

set_option autoImplicit false

namespace AkKernel

open Ia32 Programs

instance : Memory Phys where
  read c d a := loadVia c (frameNo d) a
  write c d a v := storeVia c (frameNo d) a v

/-- The words of the page below `KSTACK`. -/
def stackWords : Set Word := { a | addrPde a = 767 ∧ addrPte a = 1023 ∧ a.toNat % 4 = 0 }

/-- Words of the kernel, and the frames that they are in. -/
structure KernelWords where
  words : Set Word
  home : Word → Nat
  high : ∀ a ∈ words, 768 ≤ addrPde a
  inj : ∀ a ∈ words, ∀ b ∈ words, home a = home b → wordIdx a = wordIdx b → a = b

/-- The frame of the stack of the task with directory `d`. -/
def stackFrame (c : Phys) (d : Word) : Nat := frameNo (tableWord c (frameNo d) 767 1023)

/-- A word in frame `n` that every directory shares. -/
structure SharedWord (c : Phys) (ds : Set Word) (a : Word) (n : Nat) : Prop where
  plain : PlainFrame c (frameNo '' ds) n
  used : n ∉ c.free
  stack : ∀ d ∈ ds, stackFrame c d ≠ n
  linked : ∀ d ∈ ds, Linked (c.mem (frameNo d) (addrPde a))
  walk : ∀ d ∈ ds, ∃ f g, translate c (frameNo d) a = some (n, f, g)

structure TaskPages (K : KernelWords) (ds : Set Word) (c : Phys) : Prop where
  init : c.frameAllocInitialized = true
  aligned : ∀ d ∈ ds, frameAddr (frameNo d) = d
  low : LowPages c (frameNo '' ds)
  slot : ∀ d ∈ ds, Private (c.mem (frameNo d) 767)
  page : ∀ d ∈ ds, Private (tableWord c (frameNo d) 767 1023)
  own : ∀ d ∈ ds, ∀ e ∈ ds, stackFrame c d = stackFrame c e → d = e
  shared : ∀ a ∈ K.words, SharedWord c ds a (K.home a)

section Pages
variable {K : KernelWords} {ds : Set Word} {c c' : Phys} {d e a b v : Word} {n i : Nat}

theorem stackWords_eq (ha : a ∈ stackWords) (hb : b ∈ stackWords)
    (h : wordIdx a = wordIdx b) : a = b := by
  obtain ⟨h1, h2, h3⟩ := ha
  obtain ⟨h1', h2', h3'⟩ := hb
  rw [addrPde_eq] at h1 h1'
  rw [addrPte_eq] at h2 h2'
  unfold wordIdx at h
  apply BitVec.eq_of_toNat_eq
  omega

theorem stackWords_not_kernel (ha : a ∈ stackWords) : a ∉ K.words := by
  intro hk
  have := K.high a hk
  rw [ha.1] at this
  omega

/-- Where the word `a` is in the space of `d`: in the frame of its stack, or in one of the
kernel. -/
inductive Home (K : KernelWords) (c : Phys) (d a : Word) : Nat → Prop where
  | stack : a ∈ stackWords → Home K c d a (stackFrame c d)
  | kernel : a ∈ K.words → Home K c d a (K.home a)

theorem exists_home (K : KernelWords) (c : Phys) (d : Word) (ha : a ∈ stackWords ∪ K.words) :
    ∃ n, Home K c d a n := by
  rcases ha with ha | ha
  · exact ⟨_, .stack ha⟩
  · exact ⟨_, .kernel ha⟩

theorem TaskPages.dir_mem (hd : d ∈ ds) : frameNo d ∈ frameNo '' ds := Set.mem_image_of_mem _ hd

theorem TaskPages.privatePage (h : TaskPages K ds c) (hd : d ∈ ds) (ha : a ∈ stackWords) :
    PrivatePage c (frameNo d) a := by
  obtain ⟨hpde, hpte, -⟩ := ha
  unfold PrivatePage
  rw [hpde, hpte]
  exact ⟨⟨h.slot d hd, h.low.narrow _ (TaskPages.dir_mem hd) 767 (by decide)⟩, h.page d hd⟩

theorem TaskPages.walk (h : TaskPages K ds c) (hd : d ∈ ds) (ha : Home K c d a n) :
    ∃ f g, translate c (frameNo d) a = some (n, f, g) := by
  cases ha with
  | stack ha =>
    have htr := translate_private (h.privatePage hd ha)
    rw [ha.1, ha.2.1] at htr
    exact ⟨_, _, htr⟩
  | kernel ha => exact (h.shared a ha).walk d hd

theorem TaskPages.plain (h : TaskPages K ds c) (hd : d ∈ ds) (ha : Home K c d a n) :
    PlainFrame c (frameNo '' ds) n ∧ n ∉ c.free := by
  cases ha with
  | stack ha =>
    have hslot := (h.slot d hd).1.ne_nil
    have hmem := TaskPages.dir_mem hd
    exact ⟨h.low.plain _ hmem 767 (by decide) hslot 1023 (by decide) (h.page d hd).1,
      h.low.mapped.pageUsed _ hmem 767 (by decide) hslot (h.low.narrow _ hmem 767 (by decide))
        1023 (by decide) (h.page d hd).1⟩
  | kernel ha => exact ⟨(h.shared a ha).plain, (h.shared a ha).used⟩

theorem TaskPages.home_inj (h : TaskPages K ds c) (hd : d ∈ ds) (ha : Home K c d a n)
    (hb : Home K c d b n) (hi : wordIdx a = wordIdx b) : a = b := by
  generalize hm : n = m at hb
  cases ha with
  | stack ha =>
    cases hb with
    | stack hb => exact stackWords_eq ha hb hi
    | kernel hb => exact absurd hm ((h.shared b hb).stack d hd)
  | kernel ha =>
    cases hb with
    | stack hb => exact absurd hm.symm ((h.shared a ha).stack d hd)
    | kernel hb => exact K.inj a ha b hb hm hi

theorem TaskPages.home_ne (h : TaskPages K ds c) (hd : d ∈ ds) (he : e ∈ ds) (hne : e ≠ d)
    (ha : Home K c d a n) : stackFrame c e ≠ n := by
  cases ha with
  | stack ha => exact fun heq => hne (h.own e he d hd heq)
  | kernel ha => exact (h.shared a ha).stack e he

theorem TaskPages.peek_eq (h : TaskPages K ds c) (hd : d ∈ ds) (ha : Home K c d a n) :
    Memory.read c d a = some (c.mem n (wordIdx a)) ∧ peek c d a = c.mem n (wordIdx a) := by
  obtain ⟨f, g, htr⟩ := h.walk hd ha
  have hread : Memory.read c d a = some (c.mem n (wordIdx a)) := by
    change loadVia c (frameNo d) a = _
    rw [loadVia, htr]
    rfl
  refine ⟨hread, ?_⟩
  rw [peek, hread]
  rfl

theorem TaskPages.poke_eq (h : TaskPages K ds c) (hd : d ∈ ds) (ha : Home K c d a n) (v : Word) :
    Memory.write c d a v = some (c.setWord n (wordIdx a) v) ∧
      poke c d a v = c.setWord n (wordIdx a) v := by
  obtain ⟨f, g, htr⟩ := h.walk hd ha
  have hwrite : Memory.write c d a v = some (c.setWord n (wordIdx a) v) := by
    change storeVia c (frameNo d) a v = _
    rw [storeVia, htr]
    rfl
  refine ⟨hwrite, ?_⟩
  rw [poke, hwrite]
  rfl

theorem translate_setWord {D : Set Nat} {x : Nat} (hn : PlainFrame c D n) (hx : x ∈ D) (i : Nat)
    (v a : Word) : translate (c.setWord n i v) x a = translate c x a := by
  apply translate_congr
  · rw [hn.setWord_dir i v hx]
  · intro hp _
    rw [hn.setWord_table i v hx (addrPde_lt a) hp.ne_nil]

theorem tableWord_setWord {D : Set Nat} {x l j : Nat} (hn : PlainFrame c D n) (hx : x ∈ D)
    (hl : l < 1024) (hne : c.mem x l ≠ nilPgEnt) :
    tableWord (c.setWord n i v) x l j = tableWord c x l j := by
  unfold tableWord
  rw [hn.setWord_dir i v hx, hn.setWord_table i v hx hl hne]

theorem TaskPages.store (h : TaskPages K ds c) (hn : PlainFrame c (frameNo '' ds) n) (i : Nat)
    (v : Word) : TaskPages K ds (c.setWord n i v) ∧
      ∀ d ∈ ds, stackFrame (c.setWord n i v) d = stackFrame c d := by
  have hword : ∀ d ∈ ds, tableWord (c.setWord n i v) (frameNo d) 767 1023 =
      tableWord c (frameNo d) 767 1023 := by
    intro d hd
    exact tableWord_setWord hn (TaskPages.dir_mem hd) (by decide) (h.slot d hd).1.ne_nil
  have hframe : ∀ d ∈ ds, stackFrame (c.setWord n i v) d = stackFrame c d := by
    intro d hd
    rw [stackFrame, hword d hd, stackFrame]
  have hdir : ∀ d ∈ ds, (c.setWord n i v).mem (frameNo d) = c.mem (frameNo d) :=
    fun d hd => hn.setWord_dir i v (TaskPages.dir_mem hd)
  refine ⟨⟨h.init, h.aligned, h.low.store hn i v, ?_, ?_, ?_, ?_⟩, hframe⟩
  · intro d hd
    rw [hdir d hd]
    exact h.slot d hd
  · intro d hd
    rw [hword d hd]
    exact h.page d hd
  · intro d hd e he heq
    rw [hframe d hd, hframe e he] at heq
    exact h.own d hd e he heq
  · intro a ha
    obtain ⟨⟨hnd, hnt⟩, hused, hstack, hlinked, hwalk⟩ := h.shared a ha
    refine ⟨⟨hnd, ?_⟩, hused, ?_, ?_, ?_⟩
    · intro y hy l hl hne
      rw [hn.setWord_dir i v hy] at hne ⊢
      exact hnt y hy l hl hne
    · intro d hd
      rw [hframe d hd]
      exact hstack d hd
    · intro d hd
      rw [hdir d hd]
      exact hlinked d hd
    · intro d hd
      rw [translate_setWord hn (TaskPages.dir_mem hd)]
      exact hwalk d hd

theorem Home.store (hb : Home K c d b i) (h : TaskPages K ds c) (hd : d ∈ ds)
    (hn : PlainFrame c (frameNo '' ds) n) (l : Nat) (v : Word) :
    Home K (c.setWord n l v) d b i := by
  cases hb with
  | stack hb =>
    rw [← (h.store hn l v).2 d hd]
    exact .stack hb
  | kernel hb => exact .kernel hb

theorem TaskPages.words (K : KernelWords) (ds : Set Word) (hd : d ∈ ds) :
    Words (TaskPages K ds) d (stackWords ∪ K.words) := by
  refine ⟨?_, ?_⟩
  · intro c h a ha
    obtain ⟨n, hn⟩ := exists_home K c d ha
    exact ⟨_, (h.peek_eq hd hn).1⟩
  · intro c h a ha v
    obtain ⟨n, hn⟩ := exists_home K c d ha
    obtain ⟨hplain, -⟩ := h.plain hd hn
    have h' := (h.store hplain (wordIdx a) v).1
    refine ⟨_, (h.poke_eq hd hn v).1, h', ?_, ?_⟩
    · rw [(h'.peek_eq hd (hn.store h hd hplain _ v)).1, setWord_mem_self]
    · intro b hb hne
      obtain ⟨m, hm⟩ := exists_home K c d hb
      rw [(h'.peek_eq hd (hm.store h hd hplain _ v)).1, (h.peek_eq hd hm).1]
      by_cases hnm : m = n
      · subst hnm
        rw [setWord_mem_of_ne]
        exact fun hi => hne (h.home_inj hd hm hn hi)
      · rw [setWord_mem_frame hnm]

/-- The stacks of the tasks and the words of the kernel, as address spaces of a machine. -/
def taskSpaces (K : KernelWords) : Spaces Phys where
  stack := stackWords
  common := K.words
  Good := TaskPages K
  words _ _ hd := TaskPages.words K _ hd
  disjoint _ ha := stackWords_not_kernel ha
  same _ _ h _ hd _ he _ ha := by
    rw [(h.peek_eq he (.kernel ha)).2, (h.peek_eq hd (.kernel ha)).2]
  alone ds c h d hd e he hne a ha v b hb := by
    obtain ⟨n, hn⟩ := exists_home K c d ha
    obtain ⟨hplain, -⟩ := h.plain hd hn
    have h' := (h.store hplain (wordIdx a) v).1
    have hb' : Home K c e b (stackFrame c e) := .stack hb
    rw [(h.poke_eq hd hn v).2, (h'.peek_eq he (hb'.store h he hplain _ v)).2,
      (h.peek_eq he hb').2, setWord_mem_frame (h.home_ne hd he hne hn)]

/-- The walk of a clone is that of the original where the slot is linked. -/
theorem translate_cloned {D : Set Nat} {x nd : Nat} (hlow : LowPages c D) (hx : x ∈ D)
    (hinv : DirInv c x nd 1024 c') (hl : Linked (c.mem x (addrPde a))) :
    translate c' nd a = translate c x a := by
  have hclone := hinv.clonedDir (hlow.mapped.used hx)
  have hslot := hclone.sharedSlot _ (addrPde_lt a) (Or.inr hl)
  unfold translate
  rw [hslot]
  dsimp only
  split
  · rfl
  · rename_i hp
    rw [hclone.kept _ (hlow.mapped.tableUsed x hx _ (addrPde_lt a) (not_not.mp hp).ne_nil)]

theorem translate_kept {D : Set Nat} {x d nd : Nat} (hlow : LowPages c D) (hx : x ∈ D)
    (hinv : DirInv c d nd 1024 c') : translate c' x a = translate c x a := by
  have hm := hlow.mapped
  apply translate_congr
  · rw [hinv.grows.kept x (hm.dirUsed x hx)]
  · intro hp _
    rw [hinv.grows.kept _ (hm.tableUsed x hx _ (addrPde_lt a) hp.ne_nil)]

/-- The directory that a clone makes for the task with directory `d`. -/
structure TaskCloned (c : Phys) (ds : Set Word) (d : Word) (c' : Phys) (f : Word) : Prop where
  fresh : f ∉ ds
  frames : ∀ e ∈ ds, stackFrame c' e = stackFrame c e
  kept : ∀ n, n ∉ c.free → c'.mem n = c.mem n
  stack : c'.mem (stackFrame c' f) = c.mem (stackFrame c d)

theorem TaskPages.clone (h : TaskPages K ds c) (hd : d ∈ ds) {nd : Nat}
    (hinv : DirInv c (frameNo d) nd 1024 c') : TaskPages K (insert (frameAddr nd) ds) c' ∧
      TaskCloned c ds d c' (frameAddr nd) := by
  have hclone := hinv.clonedDir (h.low.mapped.used (TaskPages.dir_mem hd))
  have hnd : frameNo (frameAddr nd) = nd := frameNo_frameAddr (FrameBitmap.free_lt hinv.fresh)
  have himage : frameNo '' insert (frameAddr nd) ds = insert nd (frameNo '' ds) := by
    rw [Set.image_insert_eq, hnd]
  have hkept := hinv.grows.kept
  have hdir : ∀ e ∈ ds, c'.mem (frameNo e) = c.mem (frameNo e) :=
    fun e he => hkept _ (h.low.mapped.dirUsed _ (TaskPages.dir_mem he))
  have hword : ∀ e ∈ ds, tableWord c' (frameNo e) 767 1023 = tableWord c (frameNo e) 767 1023 := by
    intro e he
    unfold tableWord
    rw [hdir e he, hkept _ (h.low.mapped.tableUsed _ (TaskPages.dir_mem he) 767 (by decide)
      (h.slot e he).1.ne_nil)]
  have hframes : ∀ e ∈ ds, stackFrame c' e = stackFrame c e := by
    intro e he
    rw [stackFrame, hword e he, stackFrame]
  have hused : ∀ e ∈ ds, stackFrame c e ∉ c.free := by
    intro e he
    have ha : (0xBFFFF000#32 : Word) ∈ stackWords := ⟨by decide, by decide, by decide⟩
    exact (h.plain he (.stack ha : Home K c e 0xBFFFF000#32 _)).2
  have hslot := hclone.ownSlot 767 (by decide) (h.slot d hd)
  have hpage := hclone.ownPage 767 1023 (by decide) (by decide) (h.slot d hd) (h.page d hd)
  have hnew : stackFrame c' (frameAddr nd) = frameNo (c'.mem (frameNo (c'.mem nd 767)) 1023) := by
    rw [stackFrame, hnd, tableWord]
  have hfresh : stackFrame c' (frameAddr nd) ∈ c.free := by
    rw [hnew]
    exact hpage.2.1
  have hpriv : ∀ {x y : Word}, pteFlags x = pteFlags y → Private y → Private x :=
    fun he hp => ⟨(present_congr he).mpr hp.1, fun hl => hp.2 ((linked_congr he).mp hl)⟩
  have hnotin : frameAddr nd ∉ ds := by
    intro hmem
    have hdu := h.low.mapped.dirUsed _ (TaskPages.dir_mem hmem)
    rw [hnd] at hdu
    exact hdu hinv.fresh
  refine ⟨⟨hinv.grows.init.trans h.init, ?_, ?_, ?_, ?_, ?_, ?_⟩, hnotin, hframes, hkept, ?_⟩
  · rintro e (rfl | he)
    · rw [hnd]
    · exact h.aligned e he
  · rw [himage]
    exact h.low.clone (TaskPages.dir_mem hd) hinv
  · rintro e (rfl | he)
    · rw [hnd]
      exact hpriv hslot.1 (h.slot d hd)
    · rw [hdir e he]
      exact h.slot e he
  · rintro e (rfl | he)
    · rw [hnd]
      exact hpriv hpage.1 (h.page d hd)
    · rw [hword e he]
      exact h.page e he
  · rintro e (rfl | he) e' (rfl | he') heq
    · rfl
    · rw [hframes e' he'] at heq
      exact absurd (heq ▸ hfresh) (hused e' he')
    · rw [hframes e he] at heq
      exact absurd (heq.symm ▸ hfresh) (hused e he)
    · rw [hframes e he, hframes e' he'] at heq
      exact h.own e he e' he' heq
  · intro a ha
    have hs := h.shared a ha
    refine ⟨?_, ?_, ?_, ?_, ?_⟩
    · rw [himage]
      exact hs.plain.cloned hs.used h.low.mapped (TaskPages.dir_mem hd) hinv
    · exact fun hm => hs.used (hinv.grows.free hm)
    · rintro e (rfl | he) heq
      · exact hs.used (heq ▸ hfresh)
      · rw [hframes e he] at heq
        exact hs.stack e he heq
    · rintro e (rfl | he)
      · rw [hnd, hclone.sharedSlot _ (addrPde_lt a) (Or.inr (hs.linked d hd))]
        exact hs.linked d hd
      · rw [hdir e he]
        exact hs.linked e he
    · rintro e (rfl | he)
      · rw [hnd, translate_cloned h.low (TaskPages.dir_mem hd) hinv (hs.linked d hd)]
        exact hs.walk d hd
      · rw [translate_kept h.low (TaskPages.dir_mem he) hinv]
        exact hs.walk e he
  · rw [hnew]
    exact hpage.2.2

end Pages

end AkKernel
