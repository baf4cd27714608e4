import AkKernel.Mem.ReadWrite

/-!
# Loops that write one entry for each page of a range

`pg_reserve_range`, and `task_brk` when the break goes down. What such a loop leaves follows
from what it leaves for one page: the pages it came to have the entry, the others are as before.
-/

set_option autoImplicit false

namespace AkKernel

open Programs

/-- The pages `P` got the entry `e` in directory `d`, and nothing else is different but the
tables that had to be made. -/
structure PagesSet (d : Nat) (e : Word) (P : Word → Prop) (c c' : Phys) : Prop where
  wellFormed : WellFormed c' d
  init : c'.frameAllocInitialized = c.frameAllocInitialized
  ready : c'.mmuReady = c.mmuReady
  opens : ∀ k, Open (c.mem d k) → Open (c'.mem d k)
  kept : ∀ k, c.mem d k ≠ nilPgEnt → c'.mem d k = c.mem d k
  hit : ∀ w, Open (c.mem d (addrPde w)) → P (pgAddr w) →
    slotEntry c' d (addrPde w) (addrPte w) = e
  miss : ∀ w, Open (c.mem d (addrPde w)) → ¬ P (pgAddr w) →
    slotEntry c' d (addrPde w) (addrPte w) = slotEntry c d (addrPde w) (addrPte w)
  frames : ∀ n, n ≠ d → (∀ k, k < 1024 → TableEntry (c'.mem d k) → frameNo (c'.mem d k) ≠ n) →
    c'.mem n = c.mem n
  made : ∀ k, c.mem d k = nilPgEnt → c'.mem d k = nilPgEnt ∨
    frameNo (c'.mem d k) ∈ c.free ∧ ∃ w, P (pgAddr w) ∧ addrPde w = k
  free : c'.free ⊆ c.free

section PagesSet
variable {c c' c'' : Phys} {d : Nat} {e v : Word} {P Q R : Word → Prop} {cur : Task}

theorem PagesSet.refl (e : Word) (h : WellFormed c d) : PagesSet d e (fun _ => False) c c where
  wellFormed := h
  init := rfl
  ready := rfl
  opens := fun _ h => h
  kept := fun _ _ => rfl
  hit := fun _ _ h => h.elim
  miss := fun _ _ _ => rfl
  frames := fun _ _ _ => rfl
  made := fun _ h => Or.inl h
  free := Finset.Subset.refl _

theorem PagesSet.congr (h : PagesSet d e P c c') (hPQ : ∀ a, P a ↔ Q a) : PagesSet d e Q c c' where
  wellFormed := h.wellFormed
  init := h.init
  ready := h.ready
  opens := h.opens
  kept := h.kept
  hit := fun w hw hQ => h.hit w hw ((hPQ _).mpr hQ)
  miss := fun w hw hQ => h.miss w hw fun hP => hQ ((hPQ _).mp hP)
  frames := h.frames
  made := fun k hk => (h.made k hk).imp id fun ⟨hf, w, hw, hk⟩ => ⟨hf, w, (hPQ _).mp hw, hk⟩
  free := h.free

theorem PagesSet.trans (h : PagesSet d e P c c') (h' : PagesSet d e Q c' c'') :
    PagesSet d e (fun a => P a ∨ Q a) c c'' := by
  refine ⟨h'.wellFormed, h'.init.trans h.init, h'.ready.trans h.ready,
    fun k hk => h'.opens k (h.opens k hk), ?_, ?_, ?_, ?_, ?_, fun n hn => h.free (h'.free hn)⟩
  · intro k hk
    rw [h'.kept k (by rw [h.kept k hk]; exact hk), h.kept k hk]
  · intro w hw hPQ
    by_cases hQ : Q (pgAddr w)
    · exact h'.hit w (h.opens _ hw) hQ
    · rw [h'.miss w (h.opens _ hw) hQ]
      exact h.hit w hw (hPQ.resolve_right hQ)
  · intro w hw hPQ
    rw [h'.miss w (h.opens _ hw) fun hQ => hPQ (Or.inr hQ)]
    exact h.miss w hw fun hP => hPQ (Or.inl hP)
  · intro n hn ht
    rw [h'.frames n hn ht]
    apply h.frames n hn
    intro k hk htk
    have hkept := h'.kept k htk.ne_nil
    rw [← hkept] at htk ⊢
    exact ht k hk htk
  · intro k hk
    rcases h.made k hk with hnil | ⟨hfree, w, hP, hw⟩
    · rcases h'.made k hnil with hnil | ⟨hfree, w, hQ, hw⟩
      · exact Or.inl hnil
      · exact Or.inr ⟨h.free hfree, w, Or.inr hQ, hw⟩
    · by_cases hnil : c'.mem d k = nilPgEnt
      · rcases h'.made k hnil with hnil | ⟨hfree, w, hQ, hw⟩
        · exact Or.inl hnil
        · exact Or.inr ⟨h.free hfree, w, Or.inr hQ, hw⟩
      · rw [h'.kept k hnil]
        exact Or.inr ⟨hfree, w, Or.inl hP, hw⟩

theorem WellFormed.set_one (h : WellFormed c d) (hopen : Open (c.mem d (addrPde v)))
    (hed : Edited (baseFlags cur) d (addrPde v) (addrPte v) e c c') :
    PagesSet d e (fun a => a = pgAddr v) c c' := by
  obtain ⟨hwf, hrw⟩ := h.edited (addrPde_lt v) hopen hed
  refine ⟨hwf, hed.init, hed.mmuReady, ?_, ?_, ?_, ?_, ?_, ?_, hrw.free⟩
  · intro k hk
    by_cases hki : k = addrPde v
    · rw [hki]
      exact Or.inr hrw.table
    · rw [hrw.slots k hki]
      exact hk
  · intro k hk
    by_cases hki : k = addrPde v
    · rw [hki] at hk ⊢
      rcases hrw.made with ⟨-, hm⟩ | ⟨hm, -⟩
      · exact hm
      · exact absurd hm hk
    · exact hrw.slots k hki
  · intro w _ hpage
    obtain ⟨hpde, hpte⟩ := slots_of_pgAddr_eq hpage
    rw [hpde, hpte, slotEntry_table hrw.table]
    exact hrw.entry
  · intro w hw hpage
    apply hrw.others _ _ (addrPde_lt w) _ hw
    intro hpde hpte
    exact hpage (pgAddr_eq_of_slots hpde hpte)
  · intro n hn ht
    exact hrw.frames n hn (Ne.symm (ht _ (addrPde_lt v) hrw.table))
  · intro k hk
    by_cases hki : k = addrPde v
    · rw [hki] at hk ⊢
      rcases hrw.made with ⟨ht, -⟩ | ⟨-, hm⟩
      · exact absurd hk ht.ne_nil
      · exact Or.inr ⟨hm, v, rfl, rfl⟩
    · rw [hrw.slots k hki]
      exact Or.inl hk

theorem forPages_sets {body : Word → PhysM Unit} (cur : Task) (fuel : Nat) :
    ∀ {start limit : Word} {c c' : Phys}, WellFormed c d →
      (∀ v, Visits limit start v → Open (c.mem d (addrPde v))) →
      (∀ v t t', WellFormed t d → t.frameAllocInitialized = c.frameAllocInitialized →
        t.mmuReady = c.mmuReady → body v t = .ok ((), t') →
        Edited (baseFlags cur) d (addrPde v) (addrPte v) e t t') →
      forPages body fuel start limit c = .ok ((), c') →
      PagesSet d e (fun a => ∃ v, Visits limit start v ∧ pgAddr v = a) c c' := by
  have hnone : ∀ {start limit : Word} {c : Phys}, WellFormed c d → ¬ start < limit →
      PagesSet d e (fun a => ∃ v, Visits limit start v ∧ pgAddr v = a) c c := by
    intro start limit c hwf hlt
    refine (PagesSet.refl e hwf).congr fun a => ⟨False.elim, ?_⟩
    rintro ⟨v, hv, -⟩
    cases hv with
    | here _ h => exact hlt h
    | later _ _ h _ => exact hlt h
  induction fuel with
  | zero =>
    intro start limit c c' hwf _ _ h
    unfold forPages at h
    split at h
    · cases h
    · rename_i hlt
      obtain ⟨-, hc⟩ := pure_ok.mp h
      rw [hc]
      exact hnone hwf hlt
  | succ fuel ih =>
    intro start limit c c' hwf hopen hbody h
    unfold forPages at h
    split at h
    · rename_i hlt
      obtain ⟨⟨⟩, c₁, h1, h2⟩ := bind_ok.mp h
      have hone := hwf.set_one (hopen start (.here start hlt)) (hbody start c c₁ hwf rfl rfl h1)
      have hrest := ih hone.wellFormed
        (fun v hv => hone.opens _ (hopen v (.later start v hlt hv)))
        (fun v t t' ht hi hr => hbody v t t' ht (hi.trans hone.init) (hr.trans hone.ready)) h2
      refine (hone.trans hrest).congr fun a => ⟨?_, ?_⟩
      · rintro (ha | ⟨v, hv, ha⟩)
        · exact ⟨start, .here start hlt, ha.symm⟩
        · exact ⟨v, .later start v hlt hv, ha⟩
      · rintro ⟨v, hv, ha⟩
        cases hv with
        | here _ _ => exact Or.inl ha.symm
        | later _ _ _ hv => exact Or.inr ⟨v, hv, ha⟩
    · rename_i hlt
      obtain ⟨-, hc⟩ := pure_ok.mp h
      rw [hc]
      exact hnone hwf hlt

end PagesSet

def memMax : Word := 0xFFFFFFFF#32

/-- `flags` of `pg_reserve_range` -/
def reserveRangeFlags (cur : Task) (rw : Bool) : Word :=
  let flags := (baseFlags cur ||| pageReserved) &&& ~~~ pagePresent
  if rw then flags ||| pageRw else flags

def pgReserveRange (cur : Task) (fuel : Nat) (start limit : Word) (rw : Bool) : MemM Unit :=
  forPages (fun page => pgMapExt cur memMax page (reserveRangeFlags cur rw)) fuel start
    (limit + pageSize)

def Direct.pgReserveRange (cur : Task) (fuel : Nat) (start limit : Word) (rw : Bool) :
    PhysM Unit :=
  forPages (fun page => Direct.pgMapExt cur memMax page (reserveRangeFlags cur rw)) fuel start
    (limit + pageSize)

theorem pgReserveRange_lifts {ms : List (Word × Nat)} {k : Nat} (cur : Task) (fuel : Nat)
    (start limit : Word) (rw : Bool) : Lifts (Ready ms (k + 2))
    (pgReserveRange cur fuel start limit rw) (Direct.pgReserveRange cur fuel start limit rw) :=
  forPages_lifts (fun _ => pgWriteEntry_lifts cur _ _ _) fuel _ _

def Overlaps (start limit v : Word) : Prop :=
  start < limit ∧ (pgAddr v).toNat < limit.toNat ∧ start.toNat < (pgAddr v).toNat + 4096

/-- A fault at `a` gave its page a frame that was free, and left the other pages alone. -/
structure Filled (cur : Task) (a : Word) (s s' : Mem) : Prop where
  allocated : pgIsAllocated cur a s' = .ok (true, s')
  notReserved : pgIsReserved cur a s' = .ok (false, s')
  frame : ∃ n ∈ s.1.free, (translate s'.1 (frameNo cur.pgd) a).map Prod.fst = some n
  others : ∀ w, pgAddr w ≠ pgAddr a → ∃ b r,
    pgIsAllocated cur w s = .ok (b, s) ∧ pgIsAllocated cur w s' = .ok (b, s') ∧
    pgIsReserved cur w s = .ok (r, s) ∧ pgIsReserved cur w s' = .ok (r, s')

/-- The page of `v` waits for its first fault. -/
structure LazyPage (cur : Task) (v : Word) (s : Mem) : Prop where
  reserved : pgIsReserved cur v s = .ok (true, s)
  notAllocated : pgIsAllocated cur v s = .ok (false, s)
  fault : ∀ kernelPgd userPgd a, pgAddr a = pgAddr v → a < kZero → s.1.free.Nonempty →
    ∃ s', pgFaultHandler cur kernelPgd userPgd a s = .ok ((), s') ∧ Filled cur a s s'

section Reserve
variable {c c' : Phys} {tmp : TmpTbl} {cur : Task} {d n fuel : Nat} {v a start limit : Word}
  {rw : Bool}

theorem WellFormed.mark (h : WellFormed c d) (hn : n ∈ c.free) : WellFormed (c.mark n) d := by
  have hmarked : ∀ m, Marked c m → Marked (c.mark n) m := by
    intro m hm
    apply hm.grows (mark_covers c n)
    rw [free_mark hn]
    exact Finset.erase_subset _ _
  exact ⟨hmarked d h.dir, h.entries,
    fun i hi ht => ⟨hmarked _ (h.tables i hi ht).1, (h.tables i hi ht).2⟩, h.distinct⟩

theorem not_reserved_entry (cur : Task) (n : Nat) :
    ¬ Reserved (pageEntry (frameAddr n) (baseFlags cur)) := by
  have hflags : pteFlags (pageEntry (frameAddr n) (baseFlags cur)) = pteFlags (baseFlags cur) := by
    rw [pteFlags_entry, pteFlags_baseFlags]
  rw [reserved_congr hflags]
  exact baseFlags_of (P := fun flags => ¬ Reserved flags) cur (by decide) (by decide)

theorem pgFaultHandler_user (cur : Task) (kernelPgd : Word) (userPgd : Option Word)
    (ha : a < kZero) : pgFaultHandler cur kernelPgd userPgd a = pgFaultReserved cur a := by
  cases userPgd with
  | none => rfl
  | some pgd =>
    have hk : pgIsKernel a = false := by
      unfold pgIsKernel
      rw [decide_eq_false (BitVec.not_le.mpr ha)]
      rfl
    unfold pgFaultHandler
    dsimp only
    rw [if_neg (by rw [hk]; decide)]

/-- The page of a fault gets its frame, through a table that is there. -/
theorem pgFaultReserved_fills (hinit : c.frameAllocInitialized = true) (hready : Ready [] 2 tmp)
    (hwf : WellFormed c (frameNo cur.pgd)) (ht : TableEntry (c.mem (frameNo cur.pgd) (addrPde a)))
    (hres : ReservedAt (frameNo cur.pgd) c a) (hfree : c.free.Nonempty) :
    ∃ s', pgFaultReserved cur a (c, tmp) = .ok ((), s') ∧ Filled cur a (c, tmp) s' := by
  obtain ⟨n, hn, htake⟩ := frameTake_ends hinit hfree
  have hwf₁ := hwf.mark hn
  have htable : (c.mark n).mem (frameNo cur.pgd) (addrPde (pgAddr a)) = nilPgEnt →
      (c.mark n).free.Nonempty := by
    intro hnil
    rw [addrPde_pgAddr] at hnil
    exact absurd hnil ht.ne_nil
  obtain ⟨c', hwrite⟩ := pgWriteEntry_ends (c := c.mark n) cur
    (pageEntry (frameAddr n) (baseFlags cur)) hinit htable
  have hed := pgWriteEntry_page_ok (c := c.mark n) hinit hwrite
  obtain ⟨-, hrw⟩ := hwf₁.edited (addrPde_lt a) (Or.inr ht) hed
  have hrun : Direct.pgFaultReserved cur a c = .ok ((), c') := by
    have halloc : Direct.pgAlloc cur a c = .ok ((), c') := (bind_run htake).trans hwrite
    unfold Direct.pgFaultReserved
    rw [bind_run (pgIsReserved_run cur a c), decide_eq_true hres]
    exact halloc
  have hopen' : Open (c'.mem (frameNo cur.pgd) (addrPde a)) := Or.inr hrw.table
  have hentry : slotEntry c' (frameNo cur.pgd) (addrPde a) (addrPte a) =
      pageEntry (frameAddr n) (baseFlags cur) := (slotEntry_table hrw.table).trans hrw.entry
  refine ⟨_, (pgFaultReserved_lifts cur a).run hready hrun, ?_, ?_, ⟨n, hn, ?_⟩, ?_⟩
  · rw [pgIsAllocated_gives hready.one, decide_eq_true]
    rw [allocated_iff_slotEntry hopen', hentry]
    exact present_entry cur n
  · rw [pgIsReserved_gives hready.one, decide_eq_false]
    rw [reservedAt_iff_slotEntry hopen', hentry]
    exact not_reserved_entry cur n
  · unfold translate
    dsimp only
    rw [if_neg (not_not.mpr hrw.table.1), if_neg hrw.table.2, hrw.entry,
      if_pos (present_entry cur n), frameNo_entry hn]
    rfl
  · intro w hw
    have hne : addrPde w = addrPde a → addrPte w ≠ addrPte a :=
      fun hpde hpte => hw (pgAddr_eq_of_slots hpde hpte)
    refine ⟨_, _, pgIsAllocated_gives hready.one w, ?_, pgIsReserved_gives hready.one w, ?_⟩
    · rw [pgIsAllocated_gives hready.one,
        decide_eq_decide.mpr (hrw.allocated_iff hwf₁ (Or.inr ht) hne)]
      rfl
    · rw [pgIsReserved_gives hready.one,
        decide_eq_decide.mpr (hrw.reservedAt_iff hwf₁ (Or.inr ht) hne)]
      rfl

theorem lazyPage_of_entry (hinit : c.frameAllocInitialized = true) (hready : Ready [] 2 tmp)
    (hwf : WellFormed c (frameNo cur.pgd))
    (ht : TableEntry (c.mem (frameNo cur.pgd) (addrPde v)))
    (hres : Reserved (slotEntry c (frameNo cur.pgd) (addrPde v) (addrPte v)))
    (hnp : ¬ Present (slotEntry c (frameNo cur.pgd) (addrPde v) (addrPte v))) :
    LazyPage cur v (c, tmp) := by
  refine ⟨?_, ?_, ?_⟩
  · rw [pgIsReserved_gives hready.one, decide_eq_true]
    exact (reservedAt_iff_slotEntry (Or.inr ht)).mpr hres
  · rw [pgIsAllocated_gives hready.one, decide_eq_false]
    rw [allocated_iff_slotEntry (Or.inr ht)]
    exact hnp
  · intro kernelPgd userPgd a ha hk hfree
    obtain ⟨hpde, hpte⟩ := slots_of_pgAddr_eq ha
    rw [← hpde] at ht hres
    rw [← hpte] at hres
    rw [pgFaultHandler_user cur kernelPgd userPgd hk]
    exact pgFaultReserved_fills hinit hready hwf ht
      ((reservedAt_iff_slotEntry (Or.inr ht)).mpr hres) hfree

theorem reserved_reserveEntry (cur : Task) :
    Reserved (pageEntry 0#32 ((baseFlags cur ||| pageReserved) &&& ~~~ pagePresent)) :=
  baseFlags_of (P := fun flags =>
    Reserved (pageEntry 0#32 ((flags ||| pageReserved) &&& ~~~ pagePresent))) cur
    (by decide) (by decide)

/-- `pg_reserve` leaves a page that its first fault fills. -/
theorem pgReserve_lazy {s' : Mem} (hinit : c.frameAllocInitialized = true)
    (hready : Ready [] 2 tmp) (hwf : WellFormed c (frameNo cur.pgd))
    (hopen : Open (c.mem (frameNo cur.pgd) (addrPde v)))
    (h : pgReserve cur v (c, tmp) = .ok ((), s')) : LazyPage cur v s' := by
  obtain ⟨c', hdirect, rfl⟩ := (pgWriteEntry_lifts cur _ _ _).ok hready h
  have hed := pgWriteEntry_page_ok hinit hdirect
  obtain ⟨hwf', hrw⟩ := hwf.edited (addrPde_lt v) hopen hed
  have hentry := (slotEntry_table hrw.table).trans hrw.entry
  apply lazyPage_of_entry (hed.init.trans hinit) hready hwf' hrw.table
  · rw [hentry]
    exact reserved_reserveEntry cur
  · rw [hentry]
    exact not_present_reserved cur

theorem pageEntry_memMax (flags : Word) : pageEntry memMax flags = memMax := by
  have hones : memMax = BitVec.allOnes 32 := by decide
  rw [pageEntry, hones, BitVec.allOnes_or]

/-- The bits of `MEMMAX` are in every entry that `pg_reserve_range` writes, the present bit
with them. -/
theorem pgReserveRange_sets {s' : Mem} (hinit : c.frameAllocInitialized = true)
    (hready : Ready [] 2 tmp) (hwf : WellFormed c (frameNo cur.pgd))
    (hopen : ∀ v, Visits (limit + pageSize) start v →
      Open (c.mem (frameNo cur.pgd) (addrPde v)))
    (h : pgReserveRange cur fuel start limit rw (c, tmp) = .ok ((), s')) :
    ∃ c', s' = (c', tmp) ∧ PagesSet (frameNo cur.pgd) memMax
      (fun a => ∃ v, Visits (limit + pageSize) start v ∧ pgAddr v = a) c c' := by
  obtain ⟨c', hdirect, hs⟩ := (pgReserveRange_lifts cur fuel start limit rw).ok hready h
  refine ⟨c', hs, forPages_sets cur fuel hwf hopen ?_ hdirect⟩
  intro v t t' _ hi _ hb
  have hed := pgWriteEntry_page_ok (hi.trans hinit) hb
  rw [pageEntry_memMax] at hed
  exact hed

/-- The first page of a range that is not empty is allocated behind the call. -/
theorem pgReserveRange_allocates {s' : Mem} (cur : Task) (hinit : c.frameAllocInitialized = true)
    (hready : Ready [] 2 tmp) (hwf : WellFormed c (frameNo cur.pgd))
    (hopen : ∀ v, Visits (limit + pageSize) start v →
      Open (c.mem (frameNo cur.pgd) (addrPde v)))
    (hlt : start < limit + pageSize)
    (h : pgReserveRange cur fuel start limit rw (c, tmp) = .ok ((), s')) :
    pgIsAllocated cur start s' = .ok (true, s') := by
  obtain ⟨c', rfl, hset⟩ := pgReserveRange_sets hinit hready hwf hopen h
  have hstart := hopen start (.here start hlt)
  rw [pgIsAllocated_gives hready.one, decide_eq_true]
  rw [allocated_iff_slotEntry (hset.opens _ hstart),
    hset.hit start hstart ⟨start, .here start hlt, rfl⟩]
  decide

/-- The slots below `m` that have no table yet. -/
def nilSlots (c : Phys) (d m : Nat) : Finset Nat :=
  (Finset.range m).filter fun i => c.mem d i = nilPgEnt

theorem WellFormed.room {i j m : Nat} {e : Word} (h : WellFormed c d) (hi : i < 1024)
    (him : i < m) (hopen : Open (c.mem d i)) (hed : Edited (baseFlags cur) d i j e c c')
    (hroom : (nilSlots c d m).card ≤ c.free.card) : (nilSlots c' d m).card ≤ c'.free.card := by
  obtain ⟨-, hrw⟩ := h.edited hi hopen hed
  obtain ⟨c₁, hen, rfl⟩ := hed
  cases hen with
  | old hne =>
    have hdir := setWord_mem_frame (c := c) (i := j) (v := e)
      (Ne.symm (h.tables i hi (hopen.resolve_left hne)).2)
    have hsame : nilSlots (c.setWord (frameNo (c.mem d i)) j e) d m = nilSlots c d m := by
      unfold nilSlots
      rw [hdir]
    rw [hsame]
    exact hroom
  | new n hnil hn =>
    have hsub : nilSlots ((c.newTable d i n (baseFlags cur)).setWord
        (frameNo ((c.newTable d i n (baseFlags cur)).mem d i)) j e) d m ⊆
        (nilSlots c d m).erase i := by
      intro k hk
      obtain ⟨hlt, hk⟩ := Finset.mem_filter.mp hk
      have hki : k ≠ i := by
        intro hki
        rw [hki] at hk
        exact hrw.table.ne_nil hk
      rw [hrw.slots k hki] at hk
      exact Finset.mem_erase.mpr ⟨hki, Finset.mem_filter.mpr ⟨hlt, hk⟩⟩
    have hmem : i ∈ nilSlots c d m := Finset.mem_filter.mpr ⟨Finset.mem_range.mpr him, hnil⟩
    have hcard := Finset.card_le_card hsub
    rw [Finset.card_erase_of_mem hmem] at hcard
    change _ ≤ (c.newTable d i n (baseFlags cur)).free.card
    rw [newTable_free hn, Finset.card_erase_of_mem hn]
    omega

/-- The pages from `start` up to `limit` can be mapped. -/
structure Mappable (d : Nat) (start limit : Word) (c : Phys) : Prop where
  init : c.frameAllocInitialized = true
  wellFormed : WellFormed c d
  opens : ∀ v, Visits limit start v → Open (c.mem d (addrPde v))
  room : (nilSlots c d (addrPde limit + 1)).card ≤ c.free.card

theorem Mappable.write {pgd e : Word} (cur : Task) (h : Mappable (frameNo pgd) start limit c)
    (hv : Visits limit start v) : ∃ c', Direct.pgWriteEntry cur pgd (pgAddr v) e c = .ok ((), c') ∧
      Mappable (frameNo pgd) start limit c' := by
  have hslot : addrPde v < addrPde limit + 1 := by
    have := BitVec.lt_def.mp hv.lt
    rw [addrPde_eq, addrPde_eq]
    omega
  have hfree : c.mem (frameNo pgd) (addrPde (pgAddr v)) = nilPgEnt → c.free.Nonempty := by
    intro hnil
    rw [addrPde_pgAddr] at hnil
    apply Finset.card_pos.mp
    refine Nat.lt_of_lt_of_le (Finset.card_pos.mpr ⟨addrPde v, ?_⟩) h.room
    exact Finset.mem_filter.mpr ⟨Finset.mem_range.mpr hslot, hnil⟩
  obtain ⟨c', hrun⟩ := pgWriteEntry_ends cur e h.init hfree
  have hed := pgWriteEntry_page_ok h.init hrun
  have hone := h.wellFormed.set_one (h.opens v hv) hed
  exact ⟨c', hrun, hone.init.trans h.init, hone.wellFormed,
    fun w hw => hone.opens _ (h.opens w hw),
    h.wellFormed.room (addrPde_lt v) hslot (h.opens v hv) hed h.room⟩

/-- A range below the temporary mappings, with frames for the tables it needs. -/
theorem pgReserveRange_ends (cur : Task) (rw : Bool) (hready : Ready [] 2 tmp)
    (hlimit : limit < kTmpMem)
    (h : Mappable (frameNo cur.pgd) start (limit + pageSize) c) (hfuel : 2 ^ 20 ≤ fuel) :
    ∃ s', pgReserveRange cur fuel start limit rw (c, tmp) = .ok ((), s') := by
  have hend : (limit + pageSize).toNat + 4096 ≤ 2 ^ 32 := by
    have hsz : pageSize.toNat = 4096 := rfl
    have hk : kTmpMem.toNat = 0xFFC00000 := rfl
    have := BitVec.lt_def.mp hlimit
    rw [BitVec.toNat_add, hsz]
    omega
  obtain ⟨c', hdirect, -⟩ := forPages_ends
    (fun page => Direct.pgMapExt cur memMax page (reserveRangeFlags cur rw))
    (Mappable (frameNo cur.pgd) start (limit + pageSize)) hend fuel start (by omega) h
    fun v t hv ht => ht.write cur hv
  exact ⟨_, (pgReserveRange_lifts cur fuel start limit rw).run hready hdirect⟩

theorem overlaps_start (h : start < limit) : Overlaps start limit start := by
  have hlt := BitVec.lt_def.mp h
  have hpg := pgAddr_toNat start
  refine ⟨h, ?_, ?_⟩
  · omega
  · omega

theorem lt_add_pageSize (hle : start ≤ limit) (hwrap : limit.toNat + 4096 < 2 ^ 32) :
    start < limit + pageSize := by
  have hsz : pageSize.toNat = 4096 := rfl
  have hle' := BitVec.le_def.mp hle
  rw [BitVec.lt_def, BitVec.toNat_add, hsz]
  omega

/-- No page of a range waits for its first fault after `pg_reserve_range`, so the range has to
be empty. -/
theorem pgReserveRange_lazy_iff (cur : Task) (fuel : Nat) (start limit : Word) (rw : Bool)
    (c : Phys) (tmp : TmpTbl) (s' : Mem) (hinit : c.frameAllocInitialized = true)
    (hready : Ready [] 2 tmp) (hwf : WellFormed c (frameNo cur.pgd)) (hle : start ≤ limit)
    (hwrap : limit.toNat + 4096 < 2 ^ 32)
    (hopen : ∀ v, Visits (limit + pageSize) start v →
      Open (c.mem (frameNo cur.pgd) (addrPde v)))
    (h : pgReserveRange cur fuel start limit rw (c, tmp) = .ok ((), s')) :
    (∀ v, Overlaps start limit v → LazyPage cur v s') ↔ start = limit := by
  constructor
  · intro hlazy
    by_contra hne
    have hlt : start < limit := BitVec.lt_of_le_ne hle hne
    have hfalse := (hlazy start (overlaps_start hlt)).notAllocated
    rw [pgReserveRange_allocates cur hinit hready hwf hopen (lt_add_pageSize hle hwrap) h] at hfalse
    cases hfalse
  · rintro rfl v hv
    exact absurd hv.1 (BitVec.lt_irrefl start)

theorem oneTask_mappable {limit : Word} (h : limit ≤ 0x400000#32 - pageSize) :
    Mappable 2 start (limit + pageSize) oneTask := by
  have hlimit : (limit + pageSize).toNat ≤ 0x400000 := by
    have hsz : pageSize.toNat = 4096 := rfl
    have hb : (0x400000#32 - pageSize).toNat = 0x3FF000 := rfl
    have := BitVec.le_def.mp h
    rw [BitVec.toNat_add, hsz]
    omega
  refine ⟨rfl, oneTask_wellFormed, ?_, ?_⟩
  · intro v hv
    have hzero : addrPde v = 0 := by
      have := BitVec.lt_def.mp hv.lt
      rw [addrPde_eq]
      omega
    rw [hzero]
    decide +kernel
  · have hslots : addrPde (limit + pageSize) + 1 ≤ 2 := by
      rw [addrPde_eq]
      omega
    have hsub : nilSlots oneTask 2 (addrPde (limit + pageSize) + 1) ⊆ nilSlots oneTask 2 2 :=
      Finset.filter_subset_filter _ (Finset.range_mono hslots)
    exact (Finset.card_le_card hsub).trans (by decide +kernel)

/-- The empty range at a page of a table that is there. -/
theorem pgReserveRange_lazy_iff_oneTask : ∃ s',
    pgReserveRange oneTaskCur (2 ^ 20) 0x1000#32 0x1000#32 true (oneTask, fun _ => 0#32) =
        .ok ((), s') ∧
      ∀ v, Overlaps 0x1000#32 0x1000#32 v → LazyPage oneTaskCur v s' := by
  have hmap : Mappable 2 0x1000#32 (0x1000#32 + pageSize) oneTask := oneTask_mappable (by decide)
  obtain ⟨s', h⟩ := pgReserveRange_ends oneTaskCur true (ready_nil (by decide))
    (by decide) hmap (Nat.le_refl _)
  exact ⟨s', h, (pgReserveRange_lazy_iff oneTaskCur _ _ _ true oneTask (fun _ => 0#32) s' rfl
    (ready_nil (by decide)) oneTask_wellFormed (by decide) (by decide) hmap.opens h).mpr rfl⟩

/-- The page at `0x1000` is allocated when it should wait. -/
theorem pgReserveRange_not_lazy : ∃ s',
    pgReserveRange oneTaskCur (2 ^ 20) 0x1000#32 0x2000#32 true (oneTask, fun _ => 0#32) =
        .ok ((), s') ∧
      ¬ ∀ v, Overlaps 0x1000#32 0x2000#32 v → LazyPage oneTaskCur v s' := by
  have hmap : Mappable 2 0x1000#32 (0x2000#32 + pageSize) oneTask := oneTask_mappable (by decide)
  obtain ⟨s', h⟩ := pgReserveRange_ends oneTaskCur true (ready_nil (by decide))
    (by decide) hmap (Nat.le_refl _)
  refine ⟨s', h, ?_⟩
  intro hlazy
  have hfalse := (hlazy 0x1000#32 (overlaps_start (by decide))).notAllocated
  rw [pgReserveRange_allocates (c := oneTask) oneTaskCur rfl (ready_nil (by decide))
    oneTask_wellFormed hmap.opens (by decide) h] at hfalse
  cases hfalse

end Reserve

end AkKernel
