import AkKernel.Foundation.Areas
import AkKernel.Mem.Brk
import AkKernel.Mem.Confine

/-!
# Raising the break, and mapping a range

`task_brk` above the break and `pg_alloc_range`, below `KZERO`. Both leave every page that
their loop comes to allocated; the first changes no page that was, the second no other page.
-/

set_option autoImplicit false

namespace AkKernel

open Programs Areas

section Loop
variable {σ : Type} {body : Word → Prog Fault σ Unit} {I : σ → Prop} {Q : Word → σ → Prop} {s u : σ}

/-- Each round reaches `Q` for its address, and none loses it for another one. -/
theorem forPages_reaches {fuel : Nat} : ∀ {start limit : Word} {s : σ}, I s →
    (∀ v t u, Visits limit start v → I t → body v t = .ok ((), u) →
      I u ∧ Q v u ∧ ∀ w, Q w t → Q w u) →
    forPages body fuel start limit s = .ok ((), u) →
    I u ∧ (∀ v, Visits limit start v → Q v u) ∧ ∀ w, Q w s → Q w u := by
  have hnone : ∀ {start limit : Word} {s : σ}, I s → ¬ start < limit →
      I s ∧ (∀ v, Visits limit start v → Q v s) ∧ ∀ w, Q w s → Q w s := by
    intro start limit s hs hlt
    refine ⟨hs, ?_, fun _ h => h⟩
    intro v hv
    cases hv with
    | here _ h => exact absurd h hlt
    | later _ _ h _ => exact absurd h hlt
  induction fuel with
  | zero =>
    intro start limit s hs _ h
    unfold forPages at h
    split at h
    · cases h
    · rename_i hlt
      obtain ⟨-, rfl⟩ := pure_ok.mp h
      exact hnone hs hlt
  | succ fuel ih =>
    intro start limit s hs hbody h
    unfold forPages at h
    split at h
    · rename_i hlt
      obtain ⟨⟨⟩, t, h1, h2⟩ := bind_ok.mp h
      obtain ⟨ht, hq, hkept⟩ := hbody start s t (.here start hlt) hs h1
      obtain ⟨hu, hrest, hkept'⟩ :=
        ih ht (fun v t' u' hv => hbody v t' u' (.later start v hlt hv)) h2
      refine ⟨hu, ?_, fun w hw => hkept' w (hkept w hw)⟩
      intro v hv
      cases hv with
      | here _ _ => exact hkept' _ hq
      | later _ _ _ hv => exact hrest v hv
    · rename_i hlt
      obtain ⟨-, rfl⟩ := pure_ok.mp h
      exact hnone hs hlt

end Loop

/-- What the pages of the address space are mapped to. -/
def pageFrames (c : Phys) (d p : Nat) : Option (Nat × Word × Word) :=
  if p < 2 ^ 20 then translate c d (BitVec.ofNat 32 (p * 4096)) else none

section Pages
variable {c c' : Phys} {d : Nat} {v w start limit : Word}

theorem translate_pgAddr (c : Phys) (d : Nat) (v : Word) :
    translate c d (pgAddr v) = translate c d v := by
  unfold translate
  rw [addrPde_pgAddr, addrPte_pgAddr]

theorem pageFrames_page (c : Phys) (d : Nat) (v : Word) :
    pageFrames c d (v.toNat / 4096) = translate c d v := by
  have hlt := v.isLt
  have hpage : BitVec.ofNat 32 (v.toNat / 4096 * 4096) = pgAddr v := by
    apply BitVec.eq_of_toNat_eq
    have hpg := pgAddr_toNat v
    rw [BitVec.toNat_ofNat, Nat.mod_eq_of_lt (by omega)]
    omega
  rw [pageFrames, if_pos (by omega), hpage, translate_pgAddr]

theorem forall_pages {P : Nat → Option (Nat × Word × Word) → Option (Nat × Word × Word) → Prop}
    (h : ∀ v : Word, P (v.toNat / 4096) (translate c d v) (translate c' d v))
    (hnone : ∀ p, P p none none) (p : Nat) : P p (pageFrames c d p) (pageFrames c' d p) := by
  by_cases hp : p < 2 ^ 20
  · have hpage : (BitVec.ofNat 32 (p * 4096)).toNat / 4096 = p := by
      rw [BitVec.toNat_ofNat, Nat.mod_eq_of_lt (by omega)]
      omega
    have hv := h (BitVec.ofNat 32 (p * 4096))
    rw [← pageFrames_page, ← pageFrames_page, hpage] at hv
    exact hv
  · simp only [pageFrames, if_neg hp, hnone]

theorem pgAddr_eq_iff : pgAddr v = pgAddr w ↔ v.toNat / 4096 = w.toNat / 4096 := by
  have hv := pgAddr_toNat v
  have hw := pgAddr_toNat w
  constructor
  · intro h
    have heq := congrArg BitVec.toNat h
    omega
  · intro h
    apply BitVec.eq_of_toNat_eq
    omega

theorem mem_passed_iff (hlimit : limit.toNat + 4096 ≤ 2 ^ 32) {p : Nat} :
    p ∈ passed 4096 start.toNat limit.toNat ↔
      ∃ v, Visits limit start v ∧ v.toNat / 4096 = p := by
  constructor
  · rintro ⟨hle, hlt⟩
    have hv : (BitVec.ofNat 32 (p * 4096 + start.toNat % 4096)).toNat =
        p * 4096 + start.toNat % 4096 := by
      rw [BitVec.toNat_ofNat]
      exact Nat.mod_eq_of_lt (by omega)
    refine ⟨BitVec.ofNat 32 (p * 4096 + start.toNat % 4096), (visits_iff hlimit).mpr
      ⟨p - start.toNat / 4096, ?_, ?_⟩, ?_⟩
    · omega
    · omega
    · omega
  · rintro ⟨v, hv, rfl⟩
    obtain ⟨k, hk, hlt⟩ := (visits_iff hlimit).mp hv
    refine ⟨?_, ?_⟩
    · omega
    · omega

end Pages

section Grow
variable {c c' t u : Phys} {ds : Set Nat} {cur : Task} {fuel : Nat} {v w old new start limit r : Word}

theorem LowPages.added (h : LowPages t ds) (hd : frameNo cur.pgd ∈ ds) (hv : v < kZero)
    (hstep : PageAdded cur v t u) : Allocated (frameNo cur.pgd) u v ∧
      ∀ w, pgAddr w ≠ pgAddr v →
        translate u (frameNo cur.pgd) w = translate t (frameNo cur.pgd) w := by
  obtain ⟨n, hn, hed⟩ := hstep
  have hm := h.mark hn
  constructor
  · obtain ⟨hp, hx, hpage⟩ := hm.mapped.edited_page hd (addrPde_lt v) hed
    have hnarrow : ¬ Extended (u.mem (frameNo cur.pgd) (addrPde v)) :=
      fun hxt => hm.narrow _ hd _ (addrPde_lt_iff.mpr hv) (hx hxt)
    apply isAllocated_iff.mpr
    refine ⟨hp, Or.inr ?_⟩
    rw [hpage]
    exact present_entry cur n
  · intro w hw
    apply hm.mapped.translate_page hd (addrPde_lt v) hed hd
    intro hpde hpte
    exact hw (pgAddr_eq_of_slots hpde hpte)

/-- What a loop over pages below `KZERO` keeps of the directories. -/
structure LowReady (ds : Set Nat) (c : Phys) : Prop where
  init : c.frameAllocInitialized = true
  ready : c.mmuReady = true
  low : LowPages c ds

theorem LowReady.added (h : LowReady ds t) (hd : frameNo cur.pgd ∈ ds)
    (hstep : PageAdded cur v t u) : LowReady ds u := by
  obtain ⟨hinit, hlow⟩ := (LowPages.keeper hd).alloc t v u trivial ⟨h.init, h.low⟩ hstep
  obtain ⟨n, -, hed⟩ := hstep
  exact ⟨hinit, hed.mmuReady.trans h.ready, hlow⟩

theorem add_pageSize_toNat (h : limit.toNat + 4096 ≤ kZero.toNat) :
    (limit + pageSize).toNat = limit.toNat + 4096 ∧ (limit + pageSize).toNat + 4096 ≤ 2 ^ 32 := by
  have hsz : pageSize.toNat = 4096 := rfl
  have hk : kZero.toNat = 0xC0000000 := rfl
  have hadd : (limit + pageSize).toNat = limit.toNat + 4096 := by
    rw [BitVec.toNat_add, hsz]
    omega
  exact ⟨hadd, by omega⟩

theorem Visits.low (hv : Visits (limit + pageSize) start v) (h : limit.toNat + 4096 ≤ kZero.toNat) :
    v < kZero := by
  have hlt := BitVec.lt_def.mp hv.lt
  rw [(add_pageSize_toNat h).1] at hlt
  exact BitVec.lt_def.mpr (by omega)

theorem pages_hit {d : Nat} (h : limit.toNat + 4096 ≤ kZero.toNat)
    (hall : ∀ v, Visits (limit + pageSize) start v → Allocated d c' v) :
    ∀ p ∈ passed 4096 start.toNat (limit.toNat + 4096), pageFrames c' d p ≠ none := by
  obtain ⟨hadd, hend⟩ := add_pageSize_toNat h
  intro p hp
  rw [← hadd, mem_passed_iff hend] at hp
  obtain ⟨v, hv, rfl⟩ := hp
  rw [pageFrames_page]
  exact Option.isSome_iff_ne_none.mp (allocated_iff_translate.mp (hall v hv))

theorem pgAllocRange_grows (h : LowReady ds c) (hd : frameNo cur.pgd ∈ ds)
    (hlimit : limit.toNat + 4096 ≤ kZero.toNat)
    (hrun : Direct.pgAllocRange cur fuel start limit c = .ok ((), c')) :
    (∀ p ∈ passed 4096 start.toNat (limit.toNat + 4096),
      pageFrames c' (frameNo cur.pgd) p ≠ none) ∧
    ∀ p, p ∉ passed 4096 start.toNat (limit.toNat + 4096) →
      pageFrames c' (frameNo cur.pgd) p = pageFrames c (frameNo cur.pgd) p := by
  obtain ⟨hadd, hend⟩ := add_pageSize_toNat hlimit
  have hloop := forPages_reaches (Q := fun v t => Allocated (frameNo cur.pgd) t v)
    (I := fun t => LowReady ds t ∧ ∀ w, (∀ v, Visits (limit + pageSize) start v →
      pgAddr v ≠ pgAddr w) → translate t (frameNo cur.pgd) w = translate c (frameNo cur.pgd) w)
    ⟨h, fun _ _ => rfl⟩ (by
      rintro v t u hv ⟨ht, hkept⟩ hbody
      have hstep := pgAlloc_step ht.init hbody
      obtain ⟨halloc, hothers⟩ := ht.low.added hd (hv.low hlimit) hstep
      refine ⟨⟨ht.added hd hstep, ?_⟩, halloc, fun w => ht.low.mapped.added_allocated hd hstep⟩
      intro w hw
      rw [hothers w (Ne.symm (hw v hv)), hkept w hw]) hrun
  obtain ⟨⟨-, hkept⟩, hall, -⟩ := hloop
  refine ⟨pages_hit hlimit hall, ?_⟩
  apply forall_pages (P := fun p old new =>
    p ∉ passed 4096 start.toNat (limit.toNat + 4096) → new = old)
  · intro w hw
    apply hkept w
    intro v hv hpage
    apply hw
    rw [← hadd, mem_passed_iff hend]
    exact ⟨v, hv, pgAddr_eq_iff.mp hpage⟩
  · exact fun _ _ => rfl

theorem brk_round (cur : Task) (v : Word) (hready : t.mmuReady = true) :
    (do
      let c ← get
      if c.mmuReady then
        if ¬ (← Direct.pgIsAllocated cur v) then Direct.pgAlloc cur v : PhysM Unit) t =
      if Allocated (frameNo cur.pgd) t v then .ok ((), t) else Direct.pgAlloc cur v t := by
  change (if t.mmuReady then (do
    if ¬ (← Direct.pgIsAllocated cur v) then Direct.pgAlloc cur v) else pure () : PhysM Unit) t = _
  rw [if_pos hready, bind_run (pgIsAllocated_run cur v t)]
  by_cases ha : Allocated (frameNo cur.pgd) t v
  · simp [ha]
    rfl
  · simp [ha]

theorem taskBrk_grows (h : LowReady ds c) (hd : frameNo cur.pgd ∈ ds) (hlt : old < new)
    (hnew : new.toNat + 4096 ≤ kZero.toNat)
    (hrun : Direct.taskBrk cur fuel old new c = .ok (r, c')) :
    r = new ∧
    (∀ p ∈ passed 4096 old.toNat (new.toNat + 4096), pageFrames c' (frameNo cur.pgd) p ≠ none) ∧
    ∀ p, pageFrames c (frameNo cur.pgd) p ≠ none →
      pageFrames c' (frameNo cur.pgd) p = pageFrames c (frameNo cur.pgd) p := by
  have hnz : new ≠ 0#32 := by
    intro hz
    rw [hz] at hlt
    exact absurd hlt BitVec.not_lt_zero
  unfold Direct.taskBrk at hrun
  rw [if_neg hnz, if_pos hlt] at hrun
  obtain ⟨⟨⟩, c₁, hloop, hret⟩ := bind_ok.mp hrun
  obtain ⟨rfl, rfl⟩ := pure_ok.mp hret
  have hreach := forPages_reaches (Q := fun v t => Allocated (frameNo cur.pgd) t v)
    (I := fun t => LowReady ds t ∧ ∀ w, Allocated (frameNo cur.pgd) c w →
      translate t (frameNo cur.pgd) w = translate c (frameNo cur.pgd) w)
    ⟨h, fun _ _ => rfl⟩ (by
      rintro v t u hv ⟨ht, hkept⟩ hbody
      rw [brk_round cur v ht.ready] at hbody
      split at hbody
      · rename_i hnow
        cases hbody
        exact ⟨⟨ht, hkept⟩, hnow, fun _ hw => hw⟩
      · rename_i hnow
        have hstep := pgAlloc_step ht.init hbody
        obtain ⟨halloc, hothers⟩ := ht.low.added hd (hv.low hnew) hstep
        refine ⟨⟨ht.added hd hstep, ?_⟩, halloc,
          fun w => ht.low.mapped.added_allocated hd hstep⟩
        intro w hw
        have hsame := hkept w hw
        rw [hothers w, hsame]
        -- the page that is added was not allocated, so it is not the one of `w`
        intro hpage
        apply hnow
        rw [allocated_iff_translate, ← translate_pgAddr, ← hpage, translate_pgAddr, hsame,
          ← allocated_iff_translate]
        exact hw) hloop
  obtain ⟨⟨-, hkept⟩, hall, -⟩ := hreach
  refine ⟨rfl, pages_hit hnew hall, ?_⟩
  apply forall_pages (P := fun _ old new => old ≠ none → new = old)
  · intro w hw
    exact hkept w (allocated_iff_translate.mpr (Option.isSome_iff_ne_none.mpr hw))
  · exact fun _ h => absurd rfl h

/-- Frames for `n` more pages, each with a table of its own. -/
structure FramesFor (n : Nat) (c : Phys) : Prop where
  init : c.frameAllocInitialized = true
  ready : c.mmuReady = true
  room : 2 * n ≤ c.free.card

theorem Edited.free_card {flags e : Word} {d i j : Nat} (h : Edited flags d i j e c c') :
    c.free.card ≤ c'.free.card + 1 := by
  obtain ⟨c₁, hen, rfl⟩ := h
  change c.free.card ≤ c₁.free.card + 1
  cases hen with
  | old _ => exact Nat.le_succ _
  | new n _ hn =>
    rw [newTable_free hn, Finset.card_erase_add_one hn]

theorem FramesFor.alloc {n : Nat} (cur : Task) (v : Word) (h : FramesFor (n + 1) c) :
    ∃ c', Direct.pgAlloc cur v c = .ok ((), c') ∧ FramesFor n c' := by
  have hroom := h.room
  obtain ⟨m, hm, htake⟩ := frameTake_ends h.init (Finset.card_pos.mp (by omega))
  have hcard : (c.mark m).free.card + 1 = c.free.card := by
    rw [free_mark hm, Finset.card_erase_add_one hm]
  have hleft : (c.mark m).free.Nonempty := Finset.card_pos.mp (by omega)
  obtain ⟨c', hwrite⟩ : ∃ c', Direct.pgWriteEntry cur cur.pgd (pgAddr v)
      (pageEntry (frameAddr m) (baseFlags cur)) (c.mark m) = .ok ((), c') :=
    pgWriteEntry_ends cur _ h.init fun _ => hleft
  have hed := pgWriteEntry_page_ok (c := c.mark m) h.init hwrite
  have hspent := hed.free_card
  exact ⟨c', (bind_run htake).trans hwrite, hed.init.trans h.init, hed.mmuReady.trans h.ready,
    by omega⟩

theorem pgAllocRange_ends (cur : Task) (hlimit : limit.toNat + 4096 ≤ kZero.toNat)
    (hfuel : limit.toNat + 4096 ≤ start.toNat + fuel * 4096) (h : FramesFor fuel c) :
    ∃ c', Direct.pgAllocRange cur fuel start limit c = .ok ((), c') := by
  obtain ⟨hadd, hend⟩ := add_pageSize_toNat hlimit
  obtain ⟨-, c', hrun, -⟩ := forPages_spends (Direct.pgAlloc cur) FramesFor hend fuel start
    (by omega) h fun n v t _ ht => ht.alloc cur v
  exact ⟨c', hrun⟩

theorem taskBrk_ends (cur : Task) (hlt : old < new) (hnew : new.toNat + 4096 ≤ kZero.toNat)
    (hfuel : new.toNat + 4096 ≤ old.toNat + fuel * 4096) (h : FramesFor fuel c) :
    ∃ c', Direct.taskBrk cur fuel old new c = .ok (new, c') := by
  obtain ⟨hadd, hend⟩ := add_pageSize_toNat hnew
  have hnz : new ≠ 0#32 := by
    intro hz
    rw [hz] at hlt
    exact absurd hlt BitVec.not_lt_zero
  unfold Direct.taskBrk
  rw [if_neg hnz, if_pos hlt]
  obtain ⟨-, c', hrun, -⟩ := forPages_spends (fun page => do
      let c ← get
      if c.mmuReady then
        if ¬ (← Direct.pgIsAllocated cur page) then Direct.pgAlloc cur page : Word → PhysM Unit)
    FramesFor hend fuel old (by omega) h (by
      intro n v t _ ht
      rw [brk_round cur v ht.ready]
      split
      · exact ⟨t, rfl, ht.init, ht.ready, Nat.le_trans (by omega) ht.room⟩
      · exact ht.alloc cur v)
  rw [bind_run hrun]
  exact ⟨c', rfl⟩

end Grow

end AkKernel
