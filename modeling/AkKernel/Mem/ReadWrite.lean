import AkKernel.Mem.Ownership
import AkKernel.Mem.Space

/-!
# Reading what was written to a page table

`pg_write_entry` and `pg_read_entry` make a table where there is none, and every access goes
through temporary mappings. On a directory whose tables are frames of their own, a write
changes the entry of its page and no other.
-/

set_option autoImplicit false

namespace AkKernel

open Programs

/-- Each entry is nil, a page table or a 4 MB entry; the tables are different frames, none of
them the directory, and all these frames are marked. -/
structure WellFormed (c : Phys) (d : Nat) : Prop where
  dir : Marked c d
  entries : ∀ i, i < 1024 → c.mem d i = nilPgEnt ∨ TableEntry (c.mem d i) ∨ Extended (c.mem d i)
  tables : ∀ i, i < 1024 → TableEntry (c.mem d i) →
    Marked c (frameNo (c.mem d i)) ∧ frameNo (c.mem d i) ≠ d
  distinct : ∀ i j, i < 1024 → j < 1024 → TableEntry (c.mem d i) → TableEntry (c.mem d j) →
    frameNo (c.mem d i) = frameNo (c.mem d j) → i = j

/-- A directory entry under which pages can be mapped. -/
def Open (e : Word) : Prop := e = nilPgEnt ∨ TableEntry e

instance (e : Word) : Decidable (Open e) := inferInstanceAs (Decidable (_ ∨ _))

/-- The page entry of slots `i` and `j`; a table that is not there yet is one of nil entries. -/
def slotEntry (c : Phys) (d i j : Nat) : Word :=
  if c.mem d i = nilPgEnt then nilPgEnt else c.mem (frameNo (c.mem d i)) j

/-- What is different when the page entry of slots `i` and `j` was set to `e`. -/
structure Rewritten (d i j : Nat) (e : Word) (c c' : Phys) : Prop where
  table : TableEntry (c'.mem d i)
  made : TableEntry (c.mem d i) ∧ c'.mem d i = c.mem d i ∨
    c.mem d i = nilPgEnt ∧ frameNo (c'.mem d i) ∈ c.free
  slots : ∀ k, k ≠ i → c'.mem d k = c.mem d k
  entry : c'.mem (frameNo (c'.mem d i)) j = e
  others : ∀ k l, k < 1024 → (k = i → l ≠ j) → Open (c.mem d k) →
    slotEntry c' d k l = slotEntry c d k l
  frames : ∀ n, n ≠ d → n ≠ frameNo (c'.mem d i) → c'.mem n = c.mem n
  covers : c'.bitmap.words.length = c.bitmap.words.length
  free : c'.free ⊆ c.free

section Rewrite
variable {c c' : Phys} {d i j : Nat} {e : Word} {cur : Task}

theorem slotEntry_table (h : TableEntry (c.mem d i)) :
    slotEntry c d i j = c.mem (frameNo (c.mem d i)) j := if_neg h.ne_nil

theorem slotEntry_nil (h : c.mem d i = nilPgEnt) : slotEntry c d i j = nilPgEnt := if_pos h

theorem tableEntry_made (cur : Task) (n : Nat) :
    TableEntry (pageEntry (frameAddr n) (baseFlags cur)) :=
  ⟨present_entry cur n, not_extended_entry cur n⟩

theorem WellFormed.setWord (h : WellFormed c d) (hi : i < 1024) (ht : TableEntry (c.mem d i)) :
    WellFormed (c.setWord (frameNo (c.mem d i)) j e) d ∧
      Rewritten d i j e c (c.setWord (frameNo (c.mem d i)) j e) := by
  have hd : d ≠ frameNo (c.mem d i) := Ne.symm (h.tables i hi ht).2
  have hdir : (c.setWord (frameNo (c.mem d i)) j e).mem d = c.mem d := setWord_mem_frame hd
  constructor
  · refine ⟨h.dir, ?_, ?_, ?_⟩
    · rw [hdir]
      exact h.entries
    · rw [hdir]
      exact h.tables
    · rw [hdir]
      exact h.distinct
  · refine ⟨?_, Or.inl ⟨ht, congrFun hdir i⟩, fun k _ => congrFun hdir k, ?_, ?_, ?_, rfl,
      fun _ h => h⟩
    · rw [hdir]
      exact ht
    · rw [hdir]
      exact setWord_mem_self
    · intro k l hk hne hopen
      unfold slotEntry
      rw [hdir]
      split
      · rfl
      · rename_i hnn
        have htk : TableEntry (c.mem d k) := hopen.resolve_left hnn
        by_cases hki : k = i
        · subst hki
          exact setWord_mem_of_ne (hne rfl)
        · rw [setWord_mem_frame]
          intro he
          exact hki (h.distinct k i hk hi htk ht he)
    · intro n _ hn
      rw [hdir] at hn
      exact setWord_mem_frame hn

theorem WellFormed.newTable {n : Nat} (cur : Task) (h : WellFormed c d) (hn : n ∈ c.free) :
    WellFormed (c.newTable d i n (baseFlags cur)) d := by
  have hdn : d ≠ n := by
    intro he
    rw [he] at h
    exact h.dir.2 hn
  have hmarked : ∀ m, Marked c m → Marked (c.newTable d i n (baseFlags cur)) m := by
    intro m hm
    refine hm.grows (mark_covers c n) ?_
    rw [newTable_free hn]
    exact Finset.erase_subset _ _
  have hslot : ∀ k, k ≠ i → (c.newTable d i n (baseFlags cur)).mem d k = c.mem d k :=
    fun k hk => newTable_mem_dir hdn hk
  have hnew : (c.newTable d i n (baseFlags cur)).mem d i =
      pageEntry (frameAddr n) (baseFlags cur) := newTable_mem_slot
  have htaken : Marked (c.newTable d i n (baseFlags cur)) n := by
    refine ⟨?_, ?_⟩
    · have := covered_of_free hn
      rw [← mark_covers c n] at this
      exact this
    · rw [newTable_free hn]
      exact Finset.notMem_erase n _
  have hfresh : ∀ k, k < 1024 → TableEntry (c.mem d k) → frameNo (c.mem d k) ≠ n := by
    intro k hk ht he
    exact (h.tables k hk ht).1.2 (he ▸ hn)
  refine ⟨hmarked d h.dir, ?_, ?_, ?_⟩
  · intro k hk
    by_cases hki : k = i
    · rw [hki, hnew]
      exact Or.inr (Or.inl (tableEntry_made cur n))
    · rw [hslot k hki]
      exact h.entries k hk
  · intro k hk ht
    by_cases hki : k = i
    · rw [hki, hnew, frameNo_entry hn]
      exact ⟨htaken, Ne.symm hdn⟩
    · rw [hslot k hki] at ht ⊢
      exact ⟨hmarked _ (h.tables k hk ht).1, (h.tables k hk ht).2⟩
  · intro k l hk hl htk htl heq
    by_cases hki : k = i
    · by_cases hli : l = i
      · rw [hki, hli]
      · rw [hslot l hli] at htl heq
        rw [hki, hnew, frameNo_entry hn] at heq
        exact absurd heq.symm (hfresh l hl htl)
    · rw [hslot k hki] at htk heq
      by_cases hli : l = i
      · rw [hli, hnew, frameNo_entry hn] at heq
        exact absurd heq (hfresh k hk htk)
      · rw [hslot l hli] at htl heq
        exact h.distinct k l hk hl htk htl heq

theorem WellFormed.edited (h : WellFormed c d) (hi : i < 1024) (hopen : Open (c.mem d i))
    (hed : Edited (baseFlags cur) d i j e c c') :
    WellFormed c' d ∧ Rewritten d i j e c c' := by
  obtain ⟨c₁, hen, rfl⟩ := hed
  cases hen with
  | old hne => exact h.setWord hi (hopen.resolve_left hne)
  | new n hnil hn =>
    have hdn : d ≠ n := by
      intro he
      rw [he] at h
      exact h.dir.2 hn
    have h₁ := h.newTable cur (i := i) hn
    have hslot₁ : (c.newTable d i n (baseFlags cur)).mem d i =
        pageEntry (frameAddr n) (baseFlags cur) := newTable_mem_slot
    have ht : TableEntry ((c.newTable d i n (baseFlags cur)).mem d i) := by
      rw [hslot₁]
      exact tableEntry_made cur n
    obtain ⟨h₂, hr⟩ := h₁.setWord (j := j) (e := e) hi ht
    have hframe : frameNo ((c.newTable d i n (baseFlags cur)).mem d i) = n := by
      rw [hslot₁, frameNo_entry hn]
    have hdir : ((c.newTable d i n (baseFlags cur)).setWord
        (frameNo ((c.newTable d i n (baseFlags cur)).mem d i)) j e).mem d =
        (c.newTable d i n (baseFlags cur)).mem d := by
      rw [hframe]
      exact setWord_mem_frame hdn
    refine ⟨h₂, hr.table, Or.inr ⟨hnil, ?_⟩, ?_, hr.entry, ?_, ?_, ?_, ?_⟩
    · rw [hdir, hframe]
      exact hn
    · intro k hk
      rw [hr.slots k hk]
      exact newTable_mem_dir hdn hk
    · intro k l hk hne hok
      by_cases hki : k = i
      · subst hki
        rw [hr.others k l hk hne (Or.inr ht), slotEntry_nil hnil, slotEntry_table ht, hframe]
        exact newTable_mem_table (Ne.symm hdn) l
      · have hslotk : (c.newTable d i n (baseFlags cur)).mem d k = c.mem d k :=
          newTable_mem_dir hdn hki
        rw [hr.others k l hk hne (by rw [hslotk]; exact hok)]
        unfold slotEntry
        rw [hslotk]
        split
        · rfl
        · rename_i hnn
          have htk : TableEntry (c.mem d k) := hok.resolve_left hnn
          rw [newTable_mem_of_ne]
          · intro he
            exact (h.tables k hk htk).1.2 (he ▸ hn)
          · exact (h.tables k hk htk).2
    · intro m hmd hm
      rw [hr.frames m hmd hm]
      rw [hdir, hframe] at hm
      exact newTable_mem_of_ne hm hmd
    · rw [hr.covers]
      exact mark_covers c n
    · intro m hm
      have := hr.free hm
      rw [newTable_free hn] at this
      exact Finset.mem_of_mem_erase this

end Rewrite

section Calls
variable {c c' : Phys} {tmp : TmpTbl} {cur : Task} {d : Nat} {pgd v w e : Word}

theorem Open.not_extended (h : Open e) : ¬ Extended e := by
  rcases h with h | h
  · rw [h]
    decide
  · exact h.2

/-- What `pg_read_entry` returns, whether the table was there or is made for it. -/
theorem pgReadEntry_value (hinit : c.frameAllocInitialized = true) (hd : frameNo pgd ∉ c.free)
    (h : Direct.pgReadEntry cur pgd v c = .ok (e, c')) :
    e = slotEntry c (frameNo pgd) (addrPde v) (addrPte v) := by
  obtain ⟨hen, he⟩ := pgReadEntry_ok hinit h
  cases hen with
  | old hne => rw [he, slotEntry, if_neg hne]
  | new n hnil hn =>
    have hne : n ≠ frameNo pgd := by
      intro heq
      exact hd (heq ▸ hn)
    rw [he, newTable_mem_slot, frameNo_entry hn, newTable_mem_table hne, slotEntry_nil hnil]
    rfl

theorem pgReadEntry_gives (hinit : c.frameAllocInitialized = true) (hready : Ready [] 2 tmp)
    (hd : frameNo pgd ∉ c.free)
    (hfree : c.mem (frameNo pgd) (addrPde v) = nilPgEnt → c.free.Nonempty) :
    ∃ t, pgReadEntry cur pgd v (c, tmp) =
      .ok (slotEntry c (frameNo pgd) (addrPde v) (addrPte v), t) := by
  obtain ⟨a, c₁, h⟩ := pgReadEntry_ends cur hinit hfree
  rw [← pgReadEntry_value hinit hd h]
  exact ⟨_, (pgReadEntry_lifts cur pgd v).run hready h⟩

theorem allocated_iff_slotEntry (h : Open (c.mem d (addrPde v))) :
    Allocated d c v ↔ Present (slotEntry c d (addrPde v) (addrPte v)) := by
  unfold Allocated
  rw [isAllocated_iff]
  rcases h with h | h
  · rw [slotEntry_nil h, h]
    simp [not_present_nil]
  · rw [slotEntry_table h]
    simp [h.1, h.2]

/-- What `pg_is_reserved` answers. -/
def ReservedAt (d : Nat) (c : Phys) (v : Word) : Prop :=
  Direct.isReserved (c.mem d (addrPde v)) (c.mem (frameNo (c.mem d (addrPde v))) (addrPte v)) = true

instance (d : Nat) (c : Phys) (v : Word) : Decidable (ReservedAt d c v) :=
  inferInstanceAs (Decidable (_ = true))

theorem pgIsReserved_run (cur : Task) (v : Word) (c : Phys) :
    Direct.pgIsReserved cur v c = .ok (decide (ReservedAt (frameNo cur.pgd) c v), c) := by
  change Except.ok (Direct.isReserved (c.mem (frameNo cur.pgd) (addrPde v))
    (c.mem (frameNo (pteAddr (c.mem (frameNo cur.pgd) (addrPde v)))) (addrPte v)), c) = _
  rw [frameNo_pteAddr]
  exact congrArg (fun b => Except.ok (b, c)) Bool.decide_eq_true.symm

theorem reservedAt_iff_slotEntry (h : Open (c.mem d (addrPde v))) :
    ReservedAt d c v ↔ Reserved (slotEntry c d (addrPde v) (addrPte v)) := by
  have hnil : ¬ Reserved nilPgEnt := by decide
  unfold ReservedAt Direct.isReserved
  rcases h with h | h
  · rw [slotEntry_nil h, if_pos h]
    simp [hnil]
  · rw [slotEntry_table h, if_neg h.ne_nil, if_neg fun hr => h.2 hr.2, if_neg h.2]
    split
    · rename_i hpte
      simp [hpte, hnil]
    · simp

theorem reservedAt_extended (h : Extended (c.mem d (addrPde v))) :
    ReservedAt d c v ↔ Reserved (c.mem d (addrPde v)) := by
  have hne : c.mem d (addrPde v) ≠ nilPgEnt := by
    intro hnil
    rw [hnil] at h
    exact absurd h (by decide)
  unfold ReservedAt Direct.isReserved
  rw [if_neg hne]
  by_cases hr : Reserved (c.mem d (addrPde v))
  · simp [hr, h]
  · simp [hr, h]

/-- A page other than the one that is written: its entry is as before, or it is part of a
4 MB page and its slot is not the one of the write. -/
theorem Rewritten.other_page {i j : Nat} (hwf : WellFormed c d) (hopen : Open (c.mem d i))
    (h : Rewritten d i j e c c') (hne : addrPde w = i → addrPte w ≠ j) :
    (Open (c.mem d (addrPde w)) ∧ Open (c'.mem d (addrPde w)) ∧
      slotEntry c' d (addrPde w) (addrPte w) = slotEntry c d (addrPde w) (addrPte w)) ∨
    (Extended (c.mem d (addrPde w)) ∧ c'.mem d (addrPde w) = c.mem d (addrPde w)) := by
  by_cases hw : Open (c.mem d (addrPde w))
  · refine Or.inl ⟨hw, ?_, h.others _ _ (addrPde_lt w) hne hw⟩
    by_cases hi : addrPde w = i
    · rw [hi]
      exact Or.inr h.table
    · rw [h.slots _ hi]
      exact hw
  · have hext : Extended (c.mem d (addrPde w)) := by
      rcases hwf.entries _ (addrPde_lt w) with hn | ht | hx
      · exact absurd (Or.inl hn) hw
      · exact absurd (Or.inr ht) hw
      · exact hx
    refine Or.inr ⟨hext, h.slots _ ?_⟩
    intro hi
    rw [hi] at hw
    exact hw hopen

theorem Rewritten.allocated_iff {i j : Nat} (hwf : WellFormed c d) (hopen : Open (c.mem d i))
    (h : Rewritten d i j e c c') (hne : addrPde w = i → addrPte w ≠ j) :
    Allocated d c' w ↔ Allocated d c w := by
  rcases h.other_page hwf hopen hne with ⟨hw, hw', hs⟩ | ⟨hext, hs⟩
  · rw [allocated_iff_slotEntry hw, allocated_iff_slotEntry hw', hs]
  · unfold Allocated
    rw [isAllocated_iff, isAllocated_iff, hs]
    simp [hext]

theorem Rewritten.reservedAt_iff {i j : Nat} (hwf : WellFormed c d) (hopen : Open (c.mem d i))
    (h : Rewritten d i j e c c') (hne : addrPde w = i → addrPte w ≠ j) :
    ReservedAt d c' w ↔ ReservedAt d c w := by
  rcases h.other_page hwf hopen hne with ⟨hw, hw', hs⟩ | ⟨hext, hs⟩
  · rw [reservedAt_iff_slotEntry hw, reservedAt_iff_slotEntry hw', hs]
  · rw [reservedAt_extended hext, reservedAt_extended (by rw [hs]; exact hext), hs]

/-- The two tests of a page, with the temporary mapping they use. -/
theorem pgIsAllocated_gives (hready : Ready [] 1 tmp) (w : Word) :
    pgIsAllocated cur w (c, tmp) =
      .ok (decide (Allocated (frameNo cur.pgd) c w), (c, tmp)) :=
  (pgIsAllocated_lifts cur w).run hready (pgIsAllocated_run cur w c)

theorem pgIsReserved_gives (hready : Ready [] 1 tmp) (w : Word) :
    pgIsReserved cur w (c, tmp) =
      .ok (decide (ReservedAt (frameNo cur.pgd) c w), (c, tmp)) :=
  (pgIsReserved_lifts cur w).run hready (pgIsReserved_run cur w c)

theorem Ready.one (h : Ready [] 2 tmp) : Ready [] 1 tmp :=
  ⟨h.maps, Nat.le_of_succ_le h.free⟩

/-- The page of `v` is allocated in `s'` just if `b`, every other page just if it was in `s`. -/
structure StatusSet (cur : Task) (v : Word) (b : Bool) (s s' : Mem) : Prop where
  page : pgIsAllocated cur v s' = .ok (b, s')
  others : ∀ w, pgAddr w ≠ pgAddr v →
    ∃ a, pgIsAllocated cur w s = .ok (a, s) ∧ pgIsAllocated cur w s' = .ok (a, s')

/-- A call that writes an entry of the current directory sets whether its page is
allocated, and of no other page. -/
theorem pgWriteEntry_status {s' : Mem} (hinit : c.frameAllocInitialized = true)
    (hready : Ready [] 2 tmp) (hwf : WellFormed c (frameNo cur.pgd))
    (hopen : Open (c.mem (frameNo cur.pgd) (addrPde v)))
    (h : pgWriteEntry cur cur.pgd (pgAddr v) e (c, tmp) = .ok ((), s')) :
    StatusSet cur v (decide (Present e)) (c, tmp) s' := by
  obtain ⟨c', hdirect, rfl⟩ := (pgWriteEntry_lifts cur _ _ _).ok hready h
  obtain ⟨-, hrw⟩ := hwf.edited (addrPde_lt v) hopen (pgWriteEntry_page_ok hinit hdirect)
  constructor
  · have hp : Allocated (frameNo cur.pgd) c' v ↔ Present e := by
      rw [allocated_iff_slotEntry (Or.inr hrw.table), slotEntry_table hrw.table, hrw.entry]
    rw [pgIsAllocated_gives hready.one, decide_eq_decide.mpr hp]
  · intro w hw
    have hp : Allocated (frameNo cur.pgd) c' w ↔ Allocated (frameNo cur.pgd) c w := by
      apply hrw.allocated_iff hwf hopen
      intro hpde hpte
      exact hw (pgAddr_eq_of_slots hpde hpte)
    refine ⟨_, pgIsAllocated_gives hready.one w, ?_⟩
    rw [pgIsAllocated_gives hready.one, decide_eq_decide.mpr hp]

/-- What a read of the page of `w` returned, it returns again; the read takes a frame of its
own where there is still no table. -/
def SameRead (cur : Task) (pgd w : Word) (s s' : Mem) : Prop :=
  ∀ r t, pgReadEntry cur pgd w s = .ok (r, t) →
    (s'.1.mem (frameNo pgd) (addrPde w) = nilPgEnt → s'.1.free.Nonempty) →
    ∃ t', pgReadEntry cur pgd w s' = .ok (r, t')

/-- The state after `pg_write_entry` of `e` for `v`. The table is the one that was there, or
a frame that was free. -/
structure EntryWritten (cur : Task) (pgd v e : Word) (c c' : Phys) (tmp : TmpTbl) : Prop where
  wellFormed : WellFormed c' (frameNo pgd)
  reads : pgReadEntry cur pgd v (c', tmp) = .ok (e, (c', tmp))
  others : ∀ w, w < kTmpMem → pgAddr w ≠ pgAddr v → Open (c.mem (frameNo pgd) (addrPde w)) →
    SameRead cur pgd w (c, tmp) (c', tmp)
  table : c'.mem (frameNo pgd) (addrPde v) = c.mem (frameNo pgd) (addrPde v) ∨
    c.mem (frameNo pgd) (addrPde v) = nilPgEnt ∧
      frameNo (c'.mem (frameNo pgd) (addrPde v)) ∈ c.free
  frames : ∀ n, n ≠ frameNo pgd → n ≠ frameNo (c'.mem (frameNo pgd) (addrPde v)) →
    c'.mem n = c.mem n

theorem pgWriteEntry_written {s' : Mem} (hinit : c.frameAllocInitialized = true)
    (hready : Ready [] 2 tmp) (hwf : WellFormed c (frameNo pgd))
    (hopen : Open (c.mem (frameNo pgd) (addrPde v)))
    (h : pgWriteEntry cur pgd v e (c, tmp) = .ok ((), s')) :
    ∃ c', s' = (c', tmp) ∧ EntryWritten cur pgd v e c c' tmp := by
  obtain ⟨c', hdirect, rfl⟩ := (pgWriteEntry_lifts cur _ _ _).ok hready h
  have hed := pgWriteEntry_ok hinit hdirect
  have hinit' : c'.frameAllocInitialized = true := hed.init.trans hinit
  obtain ⟨hwf', hrw⟩ := hwf.edited (addrPde_lt v) hopen hed
  refine ⟨c', rfl, hwf', ?_, ?_, hrw.made.imp And.right id, hrw.frames⟩
  · rw [← hrw.entry]
    exact (pgReadEntry_lifts cur pgd v).run hready (pgReadEntry_run cur hinit' hrw.table.ne_nil)
  · intro w _ hne hw r t hr hfree
    obtain ⟨c₁, hread, -⟩ := (pgReadEntry_lifts cur pgd w).ok hready hr
    have hsame : slotEntry c' (frameNo pgd) (addrPde w) (addrPte w) = r := by
      rw [pgReadEntry_value hinit hwf.dir.2 hread]
      apply hrw.others _ _ (addrPde_lt w) _ hw
      intro hpde hpte
      exact hne (pgAddr_eq_of_slots hpde hpte)
    rw [← hsame]
    exact pgReadEntry_gives hinit' hready hwf'.dir.2 hfree

/-- Reading over writing. On a directory that is well formed, `pg_write_entry` sets the entry
of its page and keeps the others, and it returns unless it needs a table and no frame is free.
`TmpPageTbl` is no table of a directory below `KTMPMEM`, as it stands beside memory. -/
theorem pgWriteEntry_reads_back (cur : Task) (pgd v e : Word) (c : Phys) (tmp : TmpTbl)
    (hinit : c.frameAllocInitialized = true) (hready : Ready [] 2 tmp)
    (hwf : WellFormed c (frameNo pgd)) (_hv : v < kTmpMem)
    (hopen : Open (c.mem (frameNo pgd) (addrPde v))) :
    (∀ s', pgWriteEntry cur pgd v e (c, tmp) = .ok ((), s') →
      ∃ c', s' = (c', tmp) ∧ EntryWritten cur pgd v e c c' tmp) ∧
    ((c.mem (frameNo pgd) (addrPde v) = nilPgEnt → c.free.Nonempty) →
      ∃ s', pgWriteEntry cur pgd v e (c, tmp) = .ok ((), s')) ∧
    (pgd = cur.pgd → ∀ s',
      (∀ paddr, pgMap cur paddr v (c, tmp) = .ok ((), s') →
        StatusSet cur v true (c, tmp) s') ∧
      (pgUnmap cur v (c, tmp) = .ok ((), s') → StatusSet cur v false (c, tmp) s')) := by
  refine ⟨fun s' h => pgWriteEntry_written hinit hready hwf hopen h, ?_, ?_⟩
  · intro hfree
    obtain ⟨c', h⟩ := pgWriteEntry_ends cur e hinit hfree
    exact ⟨_, (pgWriteEntry_lifts cur pgd v e).run hready h⟩
  · rintro rfl s'
    constructor
    · intro paddr h
      have hset := pgWriteEntry_status hinit hready hwf hopen h
      rw [decide_eq_true (present_pageEntry_baseFlags cur paddr)] at hset
      exact hset
    · intro h
      have hset := pgWriteEntry_status hinit hready hwf hopen h
      rw [decide_eq_false not_present_nil] at hset
      exact hset

/-- The task whose directory `oneTask` holds. -/
def oneTaskCur : Task := { zeroTask with pgd := 0x2000#32 }

theorem oneTask_wellFormed : WellFormed oneTask 2 := by
  have hslot : ∀ i, i ≠ 0 → i ≠ 768 → oneTask.mem 2 i = nilPgEnt := by
    intro i h0 h1
    simp [oneTask, oneTaskMem, h0, h1, nilPgEnt]
  have htable : ∀ i, TableEntry (oneTask.mem 2 i) → i = 0 := by
    intro i ht
    rcases oneTask_slot ht.1 with h | h
    · exact h
    · rw [h] at ht
      exact absurd ht (by decide +kernel)
  refine ⟨by decide +kernel, ?_, ?_, ?_⟩
  · intro i _
    by_cases h0 : i = 0
    · rw [h0]
      decide +kernel
    by_cases h1 : i = 768
    · rw [h1]
      decide +kernel
    exact Or.inl (hslot i h0 h1)
  · intro i _ ht
    rw [htable i ht]
    decide +kernel
  · intro i j _ _ hi hj _
    rw [htable i hi, htable j hj]

/-- A second page of a table that is there. -/
theorem pgWriteEntry_reads_back_oneTask : ∃ c',
    pgWriteEntry oneTaskCur 0x2000#32 0x1000#32 0x9007#32
        (oneTask, fun _ => 0#32) = .ok ((), (c', fun _ => 0#32)) ∧
      pgReadEntry oneTaskCur 0x2000#32 0x1000#32 (c', fun _ => 0#32) =
        .ok (0x9007#32, (c', fun _ => 0#32)) := by
  obtain ⟨hwritten, hends, -⟩ := pgWriteEntry_reads_back oneTaskCur
    0x2000#32 0x1000#32 0x9007#32 oneTask (fun _ => 0#32) rfl (ready_nil (by decide))
    oneTask_wellFormed (by decide) (by decide +kernel)
  obtain ⟨s', h⟩ := hends fun hnil => absurd hnil (by decide +kernel)
  obtain ⟨c', rfl, hw⟩ := hwritten s' h
  exact ⟨c', h, hw.reads⟩

end Calls

end AkKernel
