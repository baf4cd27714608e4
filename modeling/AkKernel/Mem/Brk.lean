import AkKernel.Mem.PageRanges

/-!
# Lowering the break

`task_brk` of `arch/x86/mem/brk.c` on a request below the break. Its loop starts at
`PGADDR(brk) + 1`, which lies in the page of the new break, so that page is unmapped with those
above it.
-/

set_option autoImplicit false

namespace AkKernel

open Programs

section Visited
variable {limit start v w old r : Word}

theorem visits_iff (hlimit : limit.toNat + 4096 ≤ 2 ^ 32) : Visits limit start v ↔
    ∃ k, v.toNat = start.toNat + k * 4096 ∧ v.toNat < limit.toNat := by
  have hnext : ∀ {a : Word}, a < limit → (a + pageSize).toNat = a.toNat + 4096 := by
    intro a ha
    have hsz : pageSize.toNat = 4096 := rfl
    have := BitVec.lt_def.mp ha
    rw [BitVec.toNat_add, hsz]
    omega
  constructor
  · intro h
    induction h with
    | here start hlt => exact ⟨0, by omega, BitVec.lt_def.mp hlt⟩
    | later start v hlt _ ih =>
      obtain ⟨k, hk, hv⟩ := ih
      rw [hnext hlt] at hk
      exact ⟨k + 1, by omega, hv⟩
  · rintro ⟨k, hk, hv⟩
    induction k generalizing start with
    | zero =>
      have hstart : start = v := BitVec.eq_of_toNat_eq (by omega)
      subst hstart
      exact .here start (BitVec.lt_def.mpr hv)
    | succ k ih =>
      have hlt : start < limit := BitVec.lt_def.mpr (by omega)
      exact .later start v hlt (ih (by rw [hnext hlt]; omega))

theorem visits_shrink (old r w : Word) :
    (∃ v, Visits (pgAddr old) (pgAddr r + 1#32) v ∧ pgAddr v = pgAddr w) ↔
      (pgAddr r).toNat ≤ (pgAddr w).toNat ∧ (pgAddr w).toNat < (pgAddr old).toNat := by
  have hold := pgAddr_toNat old
  have hr := pgAddr_toNat r
  have hw := pgAddr_toNat w
  have holt := old.isLt
  have hstart : (pgAddr r + 1#32).toNat = (pgAddr r).toNat + 1 := by
    have := r.isLt
    rw [BitVec.toNat_add]
    change ((pgAddr r).toNat + 1) % 2 ^ 32 = _
    omega
  have hlimit : (pgAddr old).toNat + 4096 ≤ 2 ^ 32 := by omega
  constructor
  · rintro ⟨v, hv, hpage⟩
    obtain ⟨k, hk, hlt⟩ := (visits_iff hlimit).mp hv
    have hpv := pgAddr_toNat v
    rw [← hpage]
    omega
  · rintro ⟨hle, hlt⟩
    have hnext : (pgAddr w + 1#32).toNat = (pgAddr w).toNat + 1 := by
      have := w.isLt
      rw [BitVec.toNat_add]
      change ((pgAddr w).toNat + 1) % 2 ^ 32 = _
      omega
    refine ⟨pgAddr w + 1#32, (visits_iff hlimit).mpr
      ⟨((pgAddr w).toNat - (pgAddr r).toNat) / 4096, ?_, ?_⟩, ?_⟩
    · omega
    · omega
    · apply BitVec.eq_of_toNat_eq
      rw [pgAddr_toNat, hnext]
      omega

end Visited

/-- The page of `v` is mapped as it was and holds what it held. A page that is the directory
or one of its tables is not asked about: the kernel maps its own tables by a 4 MB entry. -/
structure SamePage (d : Nat) (c c' : Phys) (v : Word) : Prop where
  mapping : translate c' d v = translate c d v
  contents : ∀ t, translate c d v = some t → t.1 ≠ d →
    (∀ k, k < 1024 → TableEntry (c.mem d k) → frameNo (c.mem d k) ≠ t.1) → c'.mem t.1 = c.mem t.1

/-- The heap after its break went from `old` down to `r`: pages with a byte below `r` and pages
that are not below `old` are the same, pages between the two are not allocated. -/
structure HeapKept (cur : Task) (old r : Word) (s s' : Mem) : Prop where
  below : ∀ v, (pgAddr v).toNat < r.toNat → SamePage (frameNo cur.pgd) s.1 s'.1 v
  gone : ∀ v, r.toNat ≤ (pgAddr v).toNat → (pgAddr v).toNat + 4096 ≤ old.toNat →
    pgIsAllocated cur v s' = .ok (false, s')
  outside : ∀ v, old.toNat < (pgAddr v).toNat + 4096 → SamePage (frameNo cur.pgd) s.1 s'.1 v

/-- The heap pages from that of `r` up to the break are mapped by 4 KB entries. -/
def HeapMapped (c : Phys) (d : Nat) (r old : Word) : Prop :=
  ∀ v, (pgAddr r).toNat ≤ v.toNat → v.toNat < old.toNat →
    TableEntry (c.mem d (addrPde v)) ∧ Present (c.mem (frameNo (c.mem d (addrPde v))) (addrPte v))

section Shrink
variable {c c' : Phys} {tmp : TmpTbl} {cur : Task} {d fuel : Nat} {e w old r : Word}
  {P : Word → Prop}

/-- No table is made where the pages had theirs. -/
theorem PagesSet.dir_eq (h : PagesSet d e P c c')
    (hP : ∀ w, P (pgAddr w) → c.mem d (addrPde w) ≠ nilPgEnt) (k : Nat) :
    c'.mem d k = c.mem d k := by
  by_cases hnil : c.mem d k = nilPgEnt
  · rcases h.made k hnil with hk | ⟨-, w, hw, hk⟩
    · rw [hk, hnil]
    · rw [← hk] at hnil
      exact absurd hnil (hP w hw)
  · exact h.kept k hnil

theorem PagesSet.samePage (h : PagesSet d e P c c')
    (hP : ∀ w, P (pgAddr w) → c.mem d (addrPde w) ≠ nilPgEnt) (hw : ¬ P (pgAddr w)) :
    SamePage d c c' w := by
  have hdir := h.dir_eq hP
  constructor
  · unfold translate
    rw [hdir]
    dsimp only
    split
    · rfl
    · rename_i hp
      split
      · rfl
      · rename_i hx
        have ht : TableEntry (c.mem d (addrPde w)) := ⟨not_not.mp hp, hx⟩
        have ht' : TableEntry (c'.mem d (addrPde w)) := by
          rw [hdir]
          exact ht
        have hword := h.miss w (Or.inr ht) hw
        rw [slotEntry_table ht, slotEntry_table ht', hdir] at hword
        rw [hword]
  · intro t _ hne hapart
    apply h.frames t.1 hne
    intro k hk ht
    rw [hdir] at ht ⊢
    exact hapart k hk ht

theorem HeapMapped.visited (h : HeapMapped c d r old)
    (hw : (pgAddr r).toNat ≤ (pgAddr w).toNat ∧ (pgAddr w).toNat < (pgAddr old).toNat) :
    TableEntry (c.mem d (addrPde w)) ∧
      Present (c.mem (frameNo (c.mem d (addrPde w))) (addrPte w)) := by
  have hold := pgAddr_toNat old
  have hmapped := h (pgAddr w) hw.1 (by omega)
  rw [addrPde_pgAddr, addrPte_pgAddr] at hmapped
  exact hmapped

theorem HeapMapped.table_of_visits {v : Word} (h : HeapMapped c d r old)
    (hv : Visits (pgAddr old) (pgAddr r + 1#32) v) : TableEntry (c.mem d (addrPde v)) :=
  (h.visited ((visits_shrink old r v).mp ⟨v, hv, rfl⟩)).1

theorem unmap_round (cur : Task) (v : Word) (hmmu : c.mmuReady = true) :
    (do
      let t ← get
      if t.mmuReady then Direct.pgUnmap cur v : PhysM Unit) c = Direct.pgUnmap cur v c := by
  change (if c.mmuReady then Direct.pgUnmap cur v else pure ()) c = _
  rw [if_pos hmmu]

/-- The loop comes to its end, as it needs no new table. -/
theorem unmap_loop_ends (cur : Task) (hinit : c.frameAllocInitialized = true)
    (hmmu : c.mmuReady = true) (hwf : WellFormed c (frameNo cur.pgd))
    (hmapped : HeapMapped c (frameNo cur.pgd) r old) (hfuel : 2 ^ 20 ≤ fuel) :
    ∃ c', forPages (fun page => do
      let t ← get
      if t.mmuReady then Direct.pgUnmap cur page) fuel (pgAddr r + 1#32) (pgAddr old) c =
        .ok ((), c') := by
  have hend : (pgAddr old).toNat + 4096 ≤ 2 ^ 32 := by
    have := old.isLt
    rw [pgAddr_toNat]
    omega
  -- the slots of the heap stay as they are, so their tables stay
  have hloop := forPages_ends (s := c)
    (fun page => do
      let t ← get
      if t.mmuReady then Direct.pgUnmap cur page)
    (fun t => t.frameAllocInitialized = true ∧ t.mmuReady = true ∧
      WellFormed t (frameNo cur.pgd) ∧ ∀ k, TableEntry (c.mem (frameNo cur.pgd) k) →
        t.mem (frameNo cur.pgd) k = c.mem (frameNo cur.pgd) k)
    hend fuel (pgAddr r + 1#32) (by omega) ⟨hinit, hmmu, hwf, fun _ _ => rfl⟩
  obtain ⟨c', hrun, -⟩ := hloop (by
    rintro v t hv ⟨hi, hm, hw, hk⟩
    have ht : TableEntry (t.mem (frameNo cur.pgd) (addrPde v)) := by
      rw [hk _ (hmapped.table_of_visits hv)]
      exact hmapped.table_of_visits hv
    have hfree : t.mem (frameNo cur.pgd) (addrPde (pgAddr v)) = nilPgEnt → t.free.Nonempty := by
      intro hnil
      rw [addrPde_pgAddr] at hnil
      exact absurd hnil ht.ne_nil
    obtain ⟨u, hrun⟩ := pgWriteEntry_ends cur nilPgEnt hi hfree
    have hone := hw.set_one (Or.inr ht) (pgWriteEntry_page_ok hi hrun)
    refine ⟨u, (unmap_round cur v hm).trans hrun, hone.init.trans hi, hone.ready.trans hm,
      hone.wellFormed, ?_⟩
    intro k htk
    rw [hone.kept k (by rw [hk k htk]; exact htk.ne_nil), hk k htk])
  exact ⟨c', hrun⟩

/-- A lower break makes the entries of the pages from that of `r` up to the old break nil. -/
theorem taskBrk_unmaps (cur : Task) (old r : Word) (hinit : c.frameAllocInitialized = true)
    (hmmu : c.mmuReady = true)
    (hready : Ready [] 2 tmp) (hwf : WellFormed c (frameNo cur.pgd)) (hr : 0#32 < r)
    (hlt : r < old) (hmapped : HeapMapped c (frameNo cur.pgd) r old) (hfuel : 2 ^ 20 ≤ fuel) :
    ∃ c', taskBrk cur fuel old r (c, tmp) = .ok (r, (c', tmp)) ∧
      PagesSet (frameNo cur.pgd) nilPgEnt (fun a => ∃ v, Visits (pgAddr old) (pgAddr r + 1#32) v ∧
        pgAddr v = a) c c' := by
  obtain ⟨c', hloop⟩ := unmap_loop_ends cur hinit hmmu hwf hmapped hfuel
  have hdirect : Direct.taskBrk cur fuel old r c = .ok (r, c') := by
    have hnz : r ≠ 0#32 := by
      intro hz
      rw [hz] at hr
      exact absurd hr (by decide)
    have hnot : ¬ old < r := BitVec.not_lt.mpr (BitVec.le_of_lt hlt)
    unfold Direct.taskBrk
    rw [if_neg hnz, if_neg hnot, if_pos hlt, bind_run hloop]
    rfl
  refine ⟨c', (taskBrk_lifts cur fuel old r).run hready hdirect, ?_⟩
  refine forPages_sets cur fuel hwf
    (fun v hv => Or.inr (hmapped.table_of_visits hv)) ?_ hloop
  intro v t t' _ hi hm hb
  rw [unmap_round cur v (hm.trans hmmu)] at hb
  exact pgWriteEntry_page_ok (hi.trans hinit) hb

theorem PagesSet.shrunk (hmapped : HeapMapped c d r old)
    (h : PagesSet d nilPgEnt (fun a => ∃ v, Visits (pgAddr old) (pgAddr r + 1#32) v ∧
      pgAddr v = a) c c') (w : Word) :
    ((pgAddr r).toNat ≤ (pgAddr w).toNat ∧ (pgAddr w).toNat < (pgAddr old).toNat →
      ¬ Allocated d c' w) ∧
    (¬ ((pgAddr r).toNat ≤ (pgAddr w).toNat ∧ (pgAddr w).toNat < (pgAddr old).toNat) →
      SamePage d c c' w) := by
  constructor
  · intro hw
    have hopen : Open (c.mem d (addrPde w)) := Or.inr (hmapped.visited hw).1
    rw [allocated_iff_slotEntry (h.opens _ hopen), h.hit w hopen ((visits_shrink old r w).mpr hw)]
    exact not_present_nil
  · intro hw
    refine h.samePage ?_ fun hP => hw ((visits_shrink old r w).mp hP)
    intro u hu
    exact (hmapped.visited ((visits_shrink old r u).mp hu)).1.ne_nil

theorem allocated_iff_translate {v : Word} : Allocated d c v ↔ (translate c d v).isSome := by
  unfold Allocated
  rw [isAllocated_iff]
  unfold translate
  dsimp only
  by_cases hp : Present (c.mem d (addrPde v))
  · by_cases hx : Extended (c.mem d (addrPde v))
    · simp [hp, hx]
    · by_cases hq : Present (c.mem (frameNo (c.mem d (addrPde v))) (addrPte v))
      · simp [hp, hx, hq]
      · simp [hp, hx, hq]
  · simp [hp]

theorem HeapMapped.allocated (h : HeapMapped c d r old) (hlt : r < old) : Allocated d c r := by
  have hlt' := BitVec.lt_def.mp hlt
  have hpg := pgAddr_toNat r
  obtain ⟨ht, hp⟩ := h r (by omega) hlt'
  rw [allocated_iff_slotEntry (Or.inr ht), slotEntry_table ht]
  exact hp

/-- The page of a break that is not at its start has a byte below the break, and it is
unmapped. -/
theorem PagesSet.page_lost (hmapped : HeapMapped c (frameNo cur.pgd) r old) (hlt : r < old)
    (h : PagesSet (frameNo cur.pgd) nilPgEnt (fun a => ∃ v,
      Visits (pgAddr old) (pgAddr r + 1#32) v ∧ pgAddr v = a) c c')
    (hmod : r.toNat % 4096 ≠ 0) (hpage : (pgAddr r).toNat ≠ (pgAddr old).toNat) :
    ¬ HeapKept cur old r (c, tmp) (c', tmp) := by
  intro hkept
  have hpr := pgAddr_toNat r
  have hpo := pgAddr_toNat old
  have hlt' := BitVec.lt_def.mp hlt
  have hmap : translate c' (frameNo cur.pgd) r = translate c (frameNo cur.pgd) r :=
    (hkept.below r (by omega)).mapping
  have hnot := (h.shrunk hmapped r).1 ⟨Nat.le_refl _, by omega⟩
  rw [allocated_iff_translate, hmap, ← allocated_iff_translate] at hnot
  exact hnot (hmapped.allocated hlt)

/-- Lowering the break keeps the data below it just if the new break is at the start of a page,
or in the page of the old one. -/
theorem taskBrk_keeps_heap_iff (cur : Task) (fuel : Nat) (r : Word) (c : Phys) (tmp : TmpTbl)
    (hinit : c.frameAllocInitialized = true) (hmmu : c.mmuReady = true)
    (hready : Ready [] 2 tmp) (hwf : WellFormed c (frameNo cur.pgd)) (hr : 0#32 < r)
    (hlt : r < cur.brk) (hmapped : HeapMapped c (frameNo cur.pgd) r cur.brk)
    (hfuel : 2 ^ 20 ≤ fuel) :
    ∃ s', taskBrk cur fuel cur.brk r (c, tmp) = .ok (r, s') ∧
      (HeapKept cur cur.brk r (c, tmp) s' ↔ r % pageSize = 0#32 ∨ pgAddr r = pgAddr cur.brk) := by
  obtain ⟨c', hrun, hset⟩ := taskBrk_unmaps cur cur.brk r hinit hmmu hready hwf hr hlt hmapped hfuel
  have hshrunk := hset.shrunk hmapped
  have hpr := pgAddr_toNat r
  have hpo := pgAddr_toNat cur.brk
  have hlt' := BitVec.lt_def.mp hlt
  refine ⟨_, hrun, ?_, ?_⟩
  · intro hkept
    by_contra hcon
    have hmod : r.toNat % 4096 ≠ 0 := by
      intro hz
      apply hcon
      left
      apply BitVec.eq_of_toNat_eq
      rw [BitVec.toNat_umod]
      exact hz
    have hpage : (pgAddr r).toNat ≠ (pgAddr cur.brk).toNat :=
      fun he => hcon (Or.inr (BitVec.eq_of_toNat_eq he))
    exact hset.page_lost hmapped hlt hmod hpage hkept
  · intro hcond
    have hend : r.toNat % 4096 = 0 ∨ (pgAddr r).toNat = (pgAddr cur.brk).toNat := by
      rcases hcond with hz | he
      · left
        have := congrArg BitVec.toNat hz
        rw [BitVec.toNat_umod] at this
        exact this
      · exact Or.inr (congrArg BitVec.toNat he)
    refine ⟨?_, ?_, ?_⟩
    · intro v hv
      have hpv := pgAddr_toNat v
      apply (hshrunk v).2
      omega
    · intro v hle hfull
      have hpv := pgAddr_toNat v
      rw [pgIsAllocated_gives hready.one, decide_eq_false]
      apply (hshrunk v).1
      omega
    · intro v hv
      have hpv := pgAddr_toNat v
      apply (hshrunk v).2
      omega

def twoPages : Phys := oneTask.setWord 3 1 0x5007#32

theorem twoPages_wellFormed : WellFormed twoPages 2 :=
  (oneTask_wellFormed.setWord (i := 0) (by decide) (by decide +kernel)).1

theorem twoPages_mapped {r old : Word} (h : old.toNat ≤ 0x2000) : HeapMapped twoPages 2 r old := by
  intro v _ hv
  have hpde : addrPde v = 0 := by
    rw [addrPde_eq]
    omega
  have hpte : addrPte v = 0 ∨ addrPte v = 1 := by
    rw [addrPte_eq]
    omega
  rw [hpde]
  rcases hpte with hpte | hpte
  · rw [hpte]
    decide +kernel
  · rw [hpte]
    decide +kernel

/-- The second page goes, the first one stays. -/
theorem taskBrk_keeps_heap_twoPages : ∃ s',
    taskBrk { oneTaskCur with brk := 0x2000#32 } (2 ^ 20) 0x2000#32 0x1000#32
        (twoPages, fun _ => 0#32) = .ok (0x1000#32, s') ∧
      HeapKept { oneTaskCur with brk := 0x2000#32 } 0x2000#32 0x1000#32
        (twoPages, fun _ => 0#32) s' := by
  obtain ⟨s', hrun, hiff⟩ := taskBrk_keeps_heap_iff { oneTaskCur with brk := 0x2000#32 } (2 ^ 20)
    0x1000#32 twoPages (fun _ => 0#32) rfl rfl (ready_nil (by decide)) twoPages_wellFormed
    (by decide) (by decide) (twoPages_mapped (by decide)) (Nat.le_refl _)
  exact ⟨s', hrun, hiff.mpr (Or.inl (by decide))⟩

/-- A break in the middle of the first page takes that page with it. -/
theorem taskBrk_loses_page : ∃ s',
    taskBrk { oneTaskCur with brk := 0x1800#32 } (2 ^ 20) 0x1800#32 0x800#32
        (twoPages, fun _ => 0#32) = .ok (0x800#32, s') ∧
      ¬ HeapKept { oneTaskCur with brk := 0x1800#32 } 0x1800#32 0x800#32
        (twoPages, fun _ => 0#32) s' := by
  obtain ⟨c', hrun, hset⟩ := taskBrk_unmaps { oneTaskCur with brk := 0x1800#32 } 0x1800#32
    0x800#32 (c := twoPages) rfl rfl (ready_nil (by decide)) twoPages_wellFormed (by decide)
    (by decide) (twoPages_mapped (by decide)) (Nat.le_refl _)
  refine ⟨_, hrun, hset.page_lost (twoPages_mapped (by decide)) (by decide) (by decide) ?_⟩
  decide

end Shrink

end AkKernel
