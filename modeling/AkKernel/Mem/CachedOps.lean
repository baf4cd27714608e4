import AkKernel.Mem.Cached

/-!
# The mapping functions behind a translation buffer

Every call of `mmu.c` does what it does without the buffer, and leaves no stale translation: each
entry that is changed under the loaded directory was absent, or its page is invalidated.
-/

set_option autoImplicit false

namespace AkKernel

open Programs Tlb

/-- Neither the directory nor a table of it is frame `n`. -/
structure Unread (c : Phys) (d n : Nat) : Prop where
  dir : d ≠ n
  table : ∀ i, i < 1024 → Present (c.mem d i) → frameNo (c.mem d i) ≠ n

/-- No free frame is read. -/
def Fresh (c : Phys) (d : Nat) : Prop := ∀ n ∈ c.free, Unread c d n

/-- What the calls of a running kernel find: `d` is loaded. -/
structure LoadedDir (ds : Set Nat) (d : Nat) (c : Phys) : Prop where
  init : c.frameAllocInitialized = true
  mapped : Mapped c ds
  dir : d ∈ ds

section Walks
variable {c c' : Phys} {ds : Set Nat} {d d' i n : Nat} {cur : Task} {u v : Word}

theorem translate_mem (h : c'.mem = c.mem) : translate c' d u = translate c d u := by
  unfold translate
  rw [h]

theorem Unread.translate (h : Unread c d n) (f : Nat → Word) :
    translate (c.setFrame n f) d u = translate c d u := by
  apply translate_congr
  · rw [setFrame_mem_of_ne f h.dir]
  · intro hp _
    rw [setFrame_mem_of_ne f (h.table _ (addrPde_lt u) hp)]

theorem Unread.mark (h : Unread c d n) (m : Nat) : Unread (c.mark m) d n := ⟨h.dir, h.table⟩

theorem Fresh.frameTake {a : Word} (h : Fresh c d) (hinit : c.frameAllocInitialized = true)
    (hf : frameTake c = .ok (a, c')) : Unread c' d (frameNo a) := by
  obtain ⟨n, hn, ha, hc'⟩ := frameTake_fresh hinit hf
  rw [ha, frameNo_frameAddr (FrameBitmap.free_lt hn), hc']
  exact (h n hn).mark n

theorem Mapped.fresh (h : Mapped c ds) (hd : d ∈ ds) : Fresh c d := by
  intro n hn
  refine ⟨?_, ?_⟩
  · intro he
    apply h.dirUsed d hd
    rw [he]
    exact hn
  · intro i hi hp he
    apply h.tableUsed d hd i hi hp.ne_nil
    rw [he]
    exact hn

/-- A new table is empty, so no page is mapped that was not. -/
theorem Mapped.translate_newTable (h : Mapped c ds) (hd' : d' ∈ ds) (hd : d ∈ ds) (hi : i < 1024)
    (hnil : c.mem d' i = nilPgEnt) (hn : n ∈ c.free) :
    translate (c.newTable d' i n (baseFlags cur)) d u = translate c d u := by
  have hnd : n ≠ d' := fun he => h.dirUsed d' hd' (he ▸ hn)
  have hed : Edited (baseFlags cur) d' i (addrPte u + 1) nilPgEnt c
      (c.newTable d' i n (baseFlags cur)) := by
    refine ⟨_, .new n hnil hn, ?_⟩
    rw [newTable_mem_slot, frameNo_entry hn]
    exact (setWord_same (newTable_mem_table hnd _)).symm
  exact h.translate_page hd' hi hed hd fun _ => Nat.ne_of_lt (Nat.lt_succ_self _)

theorem LoadedDir.mark (h : LoadedDir ds d c) (hn : n ∈ c.free) : LoadedDir ds d (c.mark n) :=
  ⟨h.init, h.mapped.mark hn, h.dir⟩

theorem LoadedDir.ensured (h : LoadedDir ds d c) (hd' : d' ∈ ds)
    (hen : Ensured (baseFlags cur) d' i c c') : LoadedDir ds d c' := by
  refine ⟨?_, (h.mapped.ensured hd' hen).1, h.dir⟩
  cases hen with
  | old _ => exact h.init
  | new _ _ _ => exact h.init

theorem LoadedDir.step (h : LoadedDir ds d c) (hpgd : frameNo cur.pgd ∈ ds)
    (hstep : PageAdded cur v c c' ∨ PageCleared cur v c c') : LoadedDir ds d c' := by
  have hk := Mapped.keeper hpgd
  have hkept : c'.frameAllocInitialized = true ∧ Mapped c' ds := by
    rcases hstep with hadd | hclear
    · exact hk.alloc c v c' trivial ⟨h.init, h.mapped⟩ hadd
    · exact hk.clear c v c' trivial ⟨h.init, h.mapped⟩ hclear
  exact ⟨hkept.1, hkept.2, h.dir⟩

end Walks

namespace Cached

variable {d k i n : Nat} {ds : Set Nat} {ms : List (Word × Nat)} {c c' : Phys} {cur : Task}
  {pgdAddr vaddr addr : Word}

section Entries

theorem tracks_frameTake (hinit : c.frameAllocInitialized = true) : Tracks d ms k ∅ ∅ c
    (do let f ← phys d frameAlloc; phys d (frameSet f); pure f) frameTake := by
  have halloc : Tracks d ms k ∅ ∅ c (phys d frameAlloc) frameAlloc := by
    apply tracks_phys _ subset_rfl
    intro x c' h v _
    rw [frameAlloc_run hinit, frameAllocAfter] at h
    split at h
    · cases h
    · cases h
      rfl
  apply halloc.bind
  intro f c₁ _
  have hset : Tracks d ms k ∅ ∅ c₁ (phys d (frameSet f)) (frameSet f) := by
    apply tracks_phys _ subset_rfl
    intro x c' h v _
    apply translate_mem
    unfold frameSet at h
    split at h
    · cases h
      rfl
    · split at h
      · cases h
        rfl
      · cases h
  exact hset.bind fun _ _ _ => tracks_pure f

theorem tracks_pgDirNew (hinit : c.frameAllocInitialized = true) (hfresh : Fresh c d) :
    Tracks d ms (k + 1) ∅ ∅ c (pgDirNew d) Direct.pgDirNew := by
  have heq : pgDirNew d = (do
      let f ← (do let f ← phys d frameAlloc; phys d (frameSet f); pure f)
      (do let ptr ← pgTmpMap d f; let x ← clearPage d ptr; pgTmpUnmap d ptr; pure x)
      pure f) := by
    simp only [pgDirNew, bind_assoc, pure_bind]
  rw [heq]
  apply (tracks_frameTake hinit).bind
  intro f c₁ hf
  have hunread : Unread c₁ d (frameNo f) := hfresh.frameTake hinit hf
  have hclear : Tracks d ms (k + 1) ∅ ∅ c₁
      (do let ptr ← pgTmpMap d f; let x ← clearPage d ptr; pgTmpUnmap d ptr; pure x)
      (writeFrame (frameNo f) fun _ => 0#32) :=
    tracks_mapped fun _ => tracks_clearPage List.mem_cons_self fun _ => hunread.translate _
  exact hclear.bind fun _ _ _ => tracks_pure f

theorem tracks_pgTableFrame {dir : Word} (h : LoadedDir ds d c) (hpgd : frameNo pgdAddr ∈ ds)
    (hi : i < 1024) (hm : (dir, frameNo pgdAddr) ∈ ms) :
    Tracks d ms (k + 1) ∅ ∅ c (pgTableFrame d cur dir i) (Direct.pgTableFrame cur pgdAddr i) := by
  have hrest : ∀ t, Tracks d ms (k + 1) ∅ ∅ t
      (do let dirent ← load d dir i; pure (pteAddr dirent))
      (do let dirent ← readWord (frameNo pgdAddr) i; pure (pteAddr dirent)) := fun t =>
    (tracks_load hm i).bind fun dirent _ _ => tracks_pure (pteAddr dirent)
  apply (tracks_load hm i).bind
  intro dirent c₁ hread
  cases hread
  dsimp only
  split
  · rename_i hnil
    have hfresh := h.mapped.fresh h.dir
    have hdir : Tracks d ms (k + 1) ∅ ∅ c (pgDirNew d) Direct.pgDirNew :=
      tracks_pgDirNew h.init hfresh
    have hnew := hdir.bind
      (f := fun f => store d dir i (pageEntry f (baseFlags cur)))
      (g := fun f => writeWord (frameNo pgdAddr) i (pageEntry f (baseFlags cur))) (Z := ∅) ?_
    · have hall := hnew.bind fun _ c' _ => hrest c'
      simpa only [bind_assoc] using hall
    · intro f c₁ hf
      obtain ⟨n, hn, hfn, hc₁⟩ := pgDirNew_ok h.init hf
      apply tracks_store hm
      intro u _
      have hsame : translate c₁ d u = translate c d u := by
        rw [hc₁]
        exact ((hfresh n hn).mark n).translate _
      rw [hsame, hc₁, hfn]
      exact h.mapped.translate_newTable hpgd h.dir hi hnil hn
  · exact hrest c

/-- The page of `vaddr`, whose translation changes before it is invalidated. -/
def pageOf (vaddr : Word) : Set Word := {v | pgAddr v = pgAddr vaddr}

theorem tracks_tlbInvlpg (vaddr : Word) :
    Tracks d ms k (pageOf vaddr) ∅ c (tlbInvlpg d vaddr) (pure ()) :=
  fun _ _ => (follows_drop (fun v => pgAddr v = pgAddr vaddr) fun _ hv => Or.inl hv).congr rfl

theorem tracks_storeEntry (cur : Task) {ptr : Word} (h : LoadedDir ds d c)
    (hpgd : frameNo pgdAddr ∈ ds)
    (hne : c.mem (frameNo pgdAddr) (addrPde vaddr) ≠ nilPgEnt)
    (hm : (ptr, frameNo (c.mem (frameNo pgdAddr) (addrPde vaddr))) ∈ ms) (e : Word) :
    Tracks d ms k ∅ (pageOf vaddr) c (store d ptr (addrPte vaddr) e)
      (writeWord (frameNo (c.mem (frameNo pgdAddr) (addrPde vaddr))) (addrPte vaddr) e) := by
  apply tracks_store hm
  intro u hu
  have hed : Edited (baseFlags cur) (frameNo pgdAddr) (addrPde vaddr) (addrPte vaddr) e c
      (c.setWord (frameNo (c.mem (frameNo pgdAddr) (addrPde vaddr))) (addrPte vaddr) e) :=
    ⟨c, .old hne, rfl⟩
  apply h.mapped.translate_page hpgd (addrPde_lt vaddr) hed h.dir
  intro hpde hpte
  exact hu (pgAddr_eq_of_slots hpde hpte)

theorem tracks_pgWriteEntry (h : LoadedDir ds d c) (hpgd : frameNo pgdAddr ∈ ds) (entry : Word) :
    Tracks d ms (k + 2) ∅ ∅ c (pgWriteEntry d cur pgdAddr vaddr entry)
      (Direct.pgWriteEntry cur pgdAddr vaddr entry) := by
  have heq : pgWriteEntry d cur pgdAddr vaddr entry = (do
      (do
        let dir ← pgTmpMap d pgdAddr
        let x ← (do
          let tblframe ← pgTableFrame d cur dir (addrPde vaddr)
          (do
            let table ← pgTmpMap d tblframe
            let x ← store d table (addrPte vaddr) entry
            pgTmpUnmap d table
            pure x))
        pgTmpUnmap d dir
        pure x)
      tlbInvlpg d vaddr) := by
    simp only [pgWriteEntry, bind_assoc, pure_bind]
  have hdirect : Direct.pgWriteEntry cur pgdAddr vaddr entry = (do
      Direct.pgWriteEntry cur pgdAddr vaddr entry
      pure ()) := by
    simp only [bind_pure_unit]
  rw [heq, hdirect]
  refine Tracks.bind (Y := pageOf vaddr) (tracks_mapped fun dir => ?_)
    fun _ _ _ => tracks_tlbInvlpg vaddr
  apply (tracks_pgTableFrame h hpgd (addrPde_lt vaddr) List.mem_cons_self).bind
  intro f c₁ hf
  obtain ⟨hen, hfe⟩ := pgTableFrame_ok h.init hf
  obtain ⟨h₁, hne, -⟩ := h.mapped.ensured hpgd hen
  have hload := h.ensured hpgd hen
  have hframe : frameNo f = frameNo (c₁.mem (frameNo pgdAddr) (addrPde vaddr)) := by
    rw [hfe, frameNo_pteAddr]
  refine tracks_mapped fun table => ?_
  rw [hframe]
  exact tracks_storeEntry cur hload hpgd hne List.mem_cons_self entry

theorem tracks_pgReadEntry (h : LoadedDir ds d c) (hpgd : frameNo pgdAddr ∈ ds) :
    Tracks d ms (k + 2) ∅ ∅ c (pgReadEntry d cur pgdAddr vaddr)
      (Direct.pgReadEntry cur pgdAddr vaddr) := by
  have heq : pgReadEntry d cur pgdAddr vaddr = (do
      let dir ← pgTmpMap d pgdAddr
      let x ← (do
        let tblframe ← pgTableFrame d cur dir (addrPde vaddr)
        (do
          let table ← pgTmpMap d tblframe
          let x ← load d table (addrPte vaddr)
          pgTmpUnmap d table
          pure x))
      pgTmpUnmap d dir
      pure x) := by
    simp only [pgReadEntry, bind_assoc, pure_bind]
  rw [heq]
  refine tracks_mapped fun dir => ?_
  apply (tracks_pgTableFrame h hpgd (addrPde_lt vaddr) List.mem_cons_self).bind
  intro f c₁ _
  exact tracks_mapped fun table => tracks_load List.mem_cons_self _

theorem tracks_pgAlloc (h : LoadedDir ds d c) (hpgd : frameNo cur.pgd ∈ ds) :
    Tracks d ms (k + 2) ∅ ∅ c (pgAlloc d cur vaddr) (Direct.pgAlloc cur vaddr) := by
  have heq : pgAlloc d cur vaddr = (do
      let f ← (do let f ← phys d frameAlloc; phys d (frameSet f); pure f)
      pgMap d cur f vaddr) := by
    simp only [pgAlloc, bind_assoc, pure_bind]
  rw [heq]
  apply (tracks_frameTake h.init).bind
  intro f c₁ hf
  obtain ⟨n, hn, -, hc₁⟩ := frameTake_fresh h.init hf
  rw [hc₁]
  exact tracks_pgWriteEntry (h.mark hn) hpgd _

end Entries

section Tests

theorem tracks_readMapped (addr : Word) (i : Nat) : Tracks d ms (k + 1) ∅ ∅ c
    (do let ptr ← pgTmpMap d addr; let x ← load d ptr i; pgTmpUnmap d ptr; pure x)
    (readWord (frameNo addr) i) :=
  tracks_mapped fun _ => tracks_load List.mem_cons_self i

/-- An answer that does not depend on a word that is not read. -/
theorem tracks_unread {f : Word → Bool} {b : Bool} (h : ∀ e, f e = b) :
    Tracks d ms k ∅ ∅ c (pure b) (do let e ← readWord n i; pure (f e)) := by
  intro tmp _
  apply (follows_pure b).congr
  change Except.ok (b, (c, tmp)) = .ok (f (c.mem n i), (c, tmp))
  rw [h]

theorem tracks_pgIsAllocated : Tracks d ms (k + 1) ∅ ∅ c (pgIsAllocated d cur addr)
    (Direct.pgIsAllocated cur addr) := by
  have heq : pgIsAllocated d cur addr = (do
      let pgd ← (do
        let ptr ← pgTmpMap d cur.pgd; let x ← load d ptr (addrPde addr); pgTmpUnmap d ptr; pure x)
      if pgd = nilPgEnt then pure false
      else if ¬ Present pgd then pure false
      else if Extended pgd then pure true
      else
        let pte ← (do
          let ptr ← pgTmpMap d (pteAddr pgd)
          let x ← load d ptr (addrPte addr)
          pgTmpUnmap d ptr
          pure x)
        if pte = nilPgEnt then pure false
        else if ¬ Present pte then pure false
        else pure true) := by
    simp only [pgIsAllocated, bind_assoc, pure_bind]
  have hdirect : Direct.pgIsAllocated cur addr = (do
      let pgd ← readWord (frameNo cur.pgd) (addrPde addr)
      let pte ← readWord (frameNo (pteAddr pgd)) (addrPte addr)
      pure (Direct.isAllocated pgd pte)) := by
    simp only [Direct.pgIsAllocated, Direct.walk, bind_assoc, pure_bind]
  rw [heq, hdirect]
  apply (tracks_readMapped _ _).bind
  intro pgd c₁ _
  by_cases h1 : pgd = nilPgEnt
  · rw [if_pos h1]
    exact tracks_unread fun pte => if_pos h1
  rw [if_neg h1]
  by_cases h2 : ¬ Present pgd
  · rw [if_pos h2]
    exact tracks_unread fun pte => by rw [Direct.isAllocated, if_neg h1, if_pos h2]
  rw [if_neg h2]
  by_cases h3 : Extended pgd
  · rw [if_pos h3]
    exact tracks_unread fun pte => by
      rw [Direct.isAllocated, if_neg h1, if_neg h2, if_pos h3]
  rw [if_neg h3]
  apply (tracks_readMapped _ _).bind
  intro pte c₂ _
  rw [Direct.isAllocated, if_neg h1, if_neg h2, if_neg h3]
  split
  · exact tracks_pure false
  · split
    · exact tracks_pure false
    · exact tracks_pure true

theorem tracks_pgIsReserved : Tracks d ms (k + 1) ∅ ∅ c (pgIsReserved d cur addr)
    (Direct.pgIsReserved cur addr) := by
  have heq : pgIsReserved d cur addr = (do
      let pgd ← (do
        let ptr ← pgTmpMap d cur.pgd; let x ← load d ptr (addrPde addr); pgTmpUnmap d ptr; pure x)
      if pgd = nilPgEnt then pure false
      else if Reserved pgd ∧ Extended pgd then pure true
      else if Extended pgd then pure false
      else
        let pte ← (do
          let ptr ← pgTmpMap d (pteAddr pgd)
          let x ← load d ptr (addrPte addr)
          pgTmpUnmap d ptr
          pure x)
        if pte = nilPgEnt then pure false
        else if Reserved pte then pure true
        else pure false) := by
    simp only [pgIsReserved, bind_assoc, pure_bind]
  have hdirect : Direct.pgIsReserved cur addr = (do
      let pgd ← readWord (frameNo cur.pgd) (addrPde addr)
      let pte ← readWord (frameNo (pteAddr pgd)) (addrPte addr)
      pure (Direct.isReserved pgd pte)) := by
    simp only [Direct.pgIsReserved, Direct.walk, bind_assoc, pure_bind]
  rw [heq, hdirect]
  apply (tracks_readMapped _ _).bind
  intro pgd c₁ _
  by_cases h1 : pgd = nilPgEnt
  · rw [if_pos h1]
    exact tracks_unread fun pte => if_pos h1
  rw [if_neg h1]
  by_cases h2 : Reserved pgd ∧ Extended pgd
  · rw [if_pos h2]
    exact tracks_unread fun pte => by rw [Direct.isReserved, if_neg h1, if_pos h2]
  rw [if_neg h2]
  by_cases h3 : Extended pgd
  · rw [if_pos h3]
    exact tracks_unread fun pte => by
      rw [Direct.isReserved, if_neg h1, if_neg h2, if_pos h3]
  rw [if_neg h3]
  apply (tracks_readMapped _ _).bind
  intro pte c₂ _
  rw [Direct.isReserved, if_neg h1, if_neg h2, if_neg h3]
  split
  · exact tracks_pure false
  · split
    · exact tracks_pure true
    · exact tracks_pure false

end Tests

section Loops
variable {m : Word → CachedM Unit} {a : Word → PhysM Unit} {I : Phys → Prop} {fuel : Nat}

theorem tracks_forPages (h : ∀ v t, I t → Tracks d ms k ∅ ∅ t (m v) (a v))
    (hI : ∀ v t u, I t → a v t = .ok ((), u) → I u) :
    ∀ {start limit : Word} {c : Phys}, I c →
      Tracks d ms k ∅ ∅ c (forPages m fuel start limit) (forPages a fuel start limit) := by
  induction fuel with
  | zero =>
    intro start limit c _
    unfold forPages
    split
    · exact tracks_throw _
    · exact tracks_pure ()
  | succ fuel ih =>
    intro start limit c hc
    unfold forPages
    split
    · apply (h start c hc).bind
      intro _ c' hc'
      exact ih (hI start c c' hc hc')
    · exact tracks_pure ()

theorem tracks_get {α : Type} {X Y : Set Word} {f : Phys → CachedM α} {g : Phys → PhysM α}
    (h : Tracks d ms k X Y c (f c) (g c)) :
    Tracks d ms k X Y c (do let s ← get; f s.mem.1) (do let c ← get; g c) :=
  fun tmp ht => h tmp ht

end Loops

section Calls
variable {fuel : Nat}

theorem tracks_pgAllocRange {start limit : Word} (h : LoadedDir ds d c)
    (hpgd : frameNo cur.pgd ∈ ds) : Tracks d ms (k + 2) ∅ ∅ c
      (pgAllocRange d cur fuel start limit) (Direct.pgAllocRange cur fuel start limit) :=
  tracks_forPages (I := LoadedDir ds d) (fun _ _ ht => tracks_pgAlloc ht hpgd)
    (fun _ _ _ ht hrun => ht.step hpgd (.inl (pgAlloc_step ht.init hrun))) h

theorem tracks_taskBrk {old brk : Word} (h : LoadedDir ds d c) (hpgd : frameNo cur.pgd ∈ ds) :
    Tracks d ms (k + 2) ∅ ∅ c (taskBrk d cur fuel old brk) (Direct.taskBrk cur fuel old brk) := by
  unfold taskBrk Direct.taskBrk
  apply Tracks.ite
  · exact fun _ => tracks_pure old
  intro _
  apply Tracks.ite
  · intro _
    refine (tracks_forPages (I := LoadedDir ds d) ?_ ?_ h).bind fun _ _ _ => tracks_pure brk
    · intro v t ht
      apply tracks_get (f := fun c => if c.mmuReady then _ else pure ())
        (g := fun c => if c.mmuReady then _ else pure ())
      refine Tracks.ite (fun _ => tracks_pgIsAllocated.bind fun b t' hb => ?_)
        fun _ => tracks_pure ()
      rw [pgIsAllocated_run] at hb
      cases hb
      exact Tracks.ite (fun _ => tracks_pgAlloc ht hpgd) fun _ => tracks_pure ()
    · intro v t u ht hrun
      obtain ⟨t₁, t', hget, hrest⟩ := bind_ok.mp hrun
      cases hget
      split at hrest
      · obtain ⟨b, t', hb, halloc⟩ := bind_ok.mp hrest
        rw [pgIsAllocated_run] at hb
        cases hb
        split at halloc
        · exact ht.step hpgd (.inl (pgAlloc_step ht.init halloc))
        · obtain ⟨-, hu⟩ := pure_ok.mp halloc
          rw [hu]
          exact ht
      · obtain ⟨-, hu⟩ := pure_ok.mp hrest
        rw [hu]
        exact ht
  intro _
  apply Tracks.ite
  · intro _
    refine (tracks_forPages (I := LoadedDir ds d) ?_ ?_ h).bind fun _ _ _ => tracks_pure brk
    · intro v t ht
      apply tracks_get (f := fun c => if c.mmuReady then _ else pure ())
        (g := fun c => if c.mmuReady then _ else pure ())
      exact Tracks.ite (fun _ => tracks_pgWriteEntry ht hpgd _) fun _ => tracks_pure ()
    · intro v t u ht hrun
      obtain ⟨t₁, t', hget, hrest⟩ := bind_ok.mp hrun
      cases hget
      split at hrest
      · exact ht.step hpgd (.inr (pgUnmap_step ht.init hrest))
      · obtain ⟨-, hu⟩ := pure_ok.mp hrest
        rw [hu]
        exact ht
  · exact fun _ => tracks_pure old

theorem tracks_pgCopyMapping {dest src : Word} (h : LoadedDir ds d c) (hdest : frameNo dest ∈ ds)
    (hsrc : frameNo src ∈ ds) : Tracks d ms (k + 2) ∅ ∅ c (pgCopyMapping d cur dest src addr)
      (Direct.pgCopyMapping cur dest src addr) := by
  apply (tracks_pgReadEntry h hsrc).bind
  intro entry c₁ hread
  have hc₁ := h.ensured hsrc (pgReadEntry_ok h.init hread).1
  dsimp only
  split
  · refine (tracks_throw (Y := ∅) _).bind fun _ _ hthrow => ?_
    cases hthrow
  · exact tracks_pgWriteEntry hc₁ hdest entry

theorem tracks_pgFaultReserved (h : LoadedDir ds d c) (hpgd : frameNo cur.pgd ∈ ds) :
    Tracks d ms (k + 2) ∅ ∅ c (pgFaultReserved d cur addr) (Direct.pgFaultReserved cur addr) := by
  apply tracks_pgIsReserved.bind
  intro b c₁ hb
  rw [pgIsReserved_ok hb]
  apply Tracks.ite
  · exact fun _ => tracks_pgAlloc h hpgd
  · exact fun _ => tracks_throw _

end Calls

end Cached

end AkKernel
