import AkKernel.Kernel.OwnPages
import AkKernel.Mem.Prealloc

/-!
# The bytes of a program

The memory of the program below `KZERO`, as the bytes that it finds at its addresses. A frame that
`pg_alloc` maps is not cleared: its page holds what was left in the frame.
-/

set_option autoImplicit false

namespace AkKernel

open Programs Areas

def byteAt (c : Phys) (d : Nat) (addr : Word) : Option UInt8 :=
  (loadVia c d addr).map fun w => byteOf w addr

/-- What is left in the free frames. -/
def Leftover (Q : Word → UInt8 → Prop) (c : Phys) : Prop :=
  ∀ n ∈ c.free, ∀ v, Q v (byteOf (c.mem n (wordIdx v)) v)

/-- Other contents of the free frames. -/
def Phys.refill (c : Phys) (left : Nat → Nat → Word) : Phys :=
  { c with mem := fun n => if n ∈ c.free then left n else c.mem n }

def fillWord (b : UInt8) : Word :=
  withByte (withByte (withByte (withByte 0#32 0#32 b) 1#32 b) 2#32 b) 3#32 b

section Bytes
variable {w v u : Word} {b : UInt8}

theorem mask_getLsbD {i : Nat} (k : Nat) (hi : i < 32) :
    ((0xFF#32 : Word) <<< k).getLsbD i = decide (k ≤ i ∧ i < k + 8) := by
  have hff : ∀ j < 32, (0xFF#32 : Word).getLsbD j = decide (j < 8) := by decide
  rw [BitVec.getLsbD_shiftLeft, hff (i - k) (by omega)]
  by_cases hk : k ≤ i
  · simp [hi, hk, Nat.not_lt.mpr hk]
    omega
  · simp [hk, Nat.not_le.mp hk]

theorem byteOf_withByte (w v u : Word) (b : UInt8) :
    byteOf (withByte w v b) u = if v.toNat % 4 = u.toNat % 4 then b else byteOf w u := by
  have hv : v.toNat % 4 < 4 := Nat.mod_lt _ (by decide)
  have hu : u.toNat % 4 < 4 := Nat.mod_lt _ (by decide)
  unfold byteOf withByte
  generalize v.toNat % 4 = k at hv ⊢
  generalize u.toNat % 4 = l at hu ⊢
  have hbit : ∀ i < 8, (((w &&& ~~~ (0xFF#32 <<< (8 * k))) |||
      (b.toBitVec.setWidth 32 <<< (8 * k))) >>> (8 * l)).getLsbD i =
      if k = l then b.toBitVec.getLsbD i else (w >>> (8 * l)).getLsbD i := by
    intro i hi
    have hpos : 8 * l + i < 32 := by omega
    rw [BitVec.getLsbD_ushiftRight, BitVec.getLsbD_ushiftRight, BitVec.getLsbD_or,
      BitVec.getLsbD_and, BitVec.getLsbD_not, mask_getLsbD (8 * k) hpos,
      BitVec.getLsbD_shiftLeft, BitVec.getLsbD_setWidth]
    split
    · rename_i heq
      subst heq
      have hin : 8 * k ≤ 8 * k + i ∧ 8 * k + i < 8 * k + 8 := by omega
      simp [hin, hpos]
      omega
    · rename_i hne
      have hout : ¬ (8 * k ≤ 8 * l + i ∧ 8 * l + i < 8 * k + 8) := by omega
      simp only [hout, hpos, decide_false, decide_true, Bool.not_false, Bool.and_true,
        Bool.true_and]
      by_cases hlt : 8 * l + i < 8 * k
      · simp [hlt]
      · have hbig : b.toBitVec.getLsbD (8 * l + i - 8 * k) = false :=
          BitVec.getLsbD_of_ge _ _ (by omega)
        simp [hlt, hbig]
  have hext : BitVec.setWidth 8 (((w &&& ~~~ (0xFF#32 <<< (8 * k))) |||
      (b.toBitVec.setWidth 32 <<< (8 * k))) >>> (8 * l)) =
      if k = l then b.toBitVec else BitVec.setWidth 8 (w >>> (8 * l)) := by
    apply BitVec.eq_of_getLsbD_eq
    intro i hi
    rw [BitVec.getLsbD_setWidth, hbit i hi]
    split
    · simp [hi]
    · rw [BitVec.getLsbD_setWidth]
  rw [hext]
  split
  · exact UInt8.ofBitVec_toBitVec b
  · rfl

theorem byteOf_fillWord (b : UInt8) (v : Word) : byteOf (fillWord b) v = b := by
  have hv : v.toNat % 4 < 4 := Nat.mod_lt _ (by decide)
  have h0 : (0#32 : Word).toNat % 4 = 0 := rfl
  have h1 : (1#32 : Word).toNat % 4 = 1 := rfl
  have h2 : (2#32 : Word).toNat % 4 = 2 := rfl
  have h3 : (3#32 : Word).toNat % 4 = 3 := rfl
  unfold fillWord
  rw [byteOf_withByte, byteOf_withByte, byteOf_withByte, byteOf_withByte, h0, h1, h2, h3]
  split
  · rfl
  split
  · rfl
  split
  · rfl
  rw [if_pos (by omega)]

end Bytes

section Pages
variable {c c' t u : Phys} {ds : Set Nat} {d : Nat} {cur : Task} {v w : Word}

/-- An edit takes one free frame at most and writes to no other one. -/
theorem Edited.free_mem {i j n : Nat} {e : Word} (h : Edited (baseFlags cur) d i j e c c')
    (hd : d ∉ c.free) (ht : c.mem d i ≠ nilPgEnt → frameNo (c.mem d i) ∉ c.free)
    (hn : n ∈ c'.free) : n ∈ c.free ∧ c'.mem n = c.mem n := by
  obtain ⟨c₁, hen, rfl⟩ := h
  change n ∈ c₁.free at hn
  cases hen with
  | old hne =>
    refine ⟨hn, setWord_mem_frame ?_⟩
    intro heq
    exact ht hne (heq ▸ hn)
  | new m _ hm =>
    rw [newTable_free hm] at hn
    obtain ⟨hnm, hfree⟩ := Finset.mem_erase.mp hn
    refine ⟨hfree, ?_⟩
    rw [newTable_mem_slot, frameNo_entry hm, setWord_mem_frame hnm]
    apply newTable_mem_of_ne hnm
    intro heq
    exact hd (heq ▸ hfree)

theorem byteAt_congr (htr : translate c' d v = translate c d v)
    (hmem : ∀ r, translate c d v = some r → c'.mem r.1 = c.mem r.1) :
    byteAt c' d v = byteAt c d v := by
  unfold byteAt loadVia
  rw [htr]
  cases hr : translate c d v with
  | none => rfl
  | some r =>
    simp only [Option.map_some, hmem r hr]

section Added
variable (h : LowPages t ds) (hd : frameNo cur.pgd ∈ ds) (hstep : PageAdded cur v t u)

include h hd hstep

/-- `pg_alloc` leaves the other pages below `KZERO` and their bytes as they are. -/
theorem LowPages.added_other (hw : w < kZero) (hne : pgAddr w ≠ pgAddr v) :
    translate u (frameNo cur.pgd) w = translate t (frameNo cur.pgd) w ∧
      byteAt u (frameNo cur.pgd) w = byteAt t (frameNo cur.pgd) w := by
  obtain ⟨n, hn, hed⟩ := hstep
  have hm := h.mark hn
  have htr : translate u (frameNo cur.pgd) w = translate (t.mark n) (frameNo cur.pgd) w := by
    apply hm.mapped.translate_page hd (addrPde_lt v) hed hd
    intro hpde hpte
    exact hne (pgAddr_eq_of_slots hpde hpte)
  refine ⟨htr, byteAt_congr htr ?_⟩
  intro r hr
  obtain ⟨hused, hplain⟩ := hm.page_plain hd hw hr
  rw [hed.mem_of_ne hused]
  · rfl
  · intro heq
    exact hplain.1 (heq ▸ hd)
  · intro hslot heq
    exact hplain.2 _ hd _ (addrPde_lt v) hslot heq.symm

theorem LowPages.added_page (hv : v < kZero) : ∃ n ∈ t.free, ∀ w, pgAddr w = pgAddr v →
    (∃ r, translate u (frameNo cur.pgd) w = some r ∧ r.1 = n) ∧
      byteAt u (frameNo cur.pgd) w = some (byteOf (t.mem n (wordIdx w)) w) := by
  obtain ⟨n, hn, hed⟩ := hstep
  refine ⟨n, hn, ?_⟩
  intro w hw
  have hm := h.mark hn
  obtain ⟨hp, hx, hpage⟩ := hm.mapped.edited_page hd (addrPde_lt v) hed
  have hnarrow : ¬ Extended (u.mem (frameNo cur.pgd) (addrPde v)) :=
    fun hxt => hm.narrow _ hd _ (addrPde_lt_iff.mpr hv) (hx hxt)
  obtain ⟨hpde, hpte⟩ := slots_of_pgAddr_eq hw
  have htr : ∃ r, translate u (frameNo cur.pgd) w = some r ∧ r.1 = n := by
    unfold translate
    dsimp only
    rw [hpde, hpte, if_neg (not_not.mpr hp), if_neg hnarrow, hpage, if_pos (present_entry cur n)]
    exact ⟨_, rfl, frameNo_entry hn cur⟩
  refine ⟨htr, ?_⟩
  obtain ⟨r, hr, hrn⟩ := htr
  have hmem : u.mem n = t.mem n := by
    refine hed.mem_of_ne ?_ ?_ ?_
    · rw [free_mark hn]
      exact Finset.notMem_erase n _
    · intro heq
      exact h.mapped.dirUsed _ hd (heq ▸ hn)
    · intro hslot heq
      apply h.mapped.tableUsed _ hd _ (addrPde_lt v) hslot
      rw [← show n = frameNo (t.mem (frameNo cur.pgd) (addrPde v)) from heq]
      exact hn
  unfold byteAt loadVia
  rw [hr, Option.map_some, Option.map_some, hrn, hmem]

theorem LowPages.added_free {n : Nat} (hn : n ∈ u.free) : n ∈ t.free ∧ u.mem n = t.mem n := by
  obtain ⟨m, hm, hed⟩ := hstep
  have hmark := h.mark hm
  obtain ⟨hfree, hmem⟩ := hed.free_mem (hmark.mapped.dirUsed _ hd)
    (fun hne => hmark.mapped.tableUsed _ hd _ (addrPde_lt v) hne) hn
  rw [free_mark hm] at hfree
  exact ⟨Finset.mem_of_mem_erase hfree, hmem⟩

end Added

end Pages

/-- The memory of the programs, in free frames what satisfies `Q`. -/
structure UserPages (Q : Word → UInt8 → Prop) (ds : Set Nat) (c : Phys) : Prop where
  init : c.frameAllocInitialized = true
  pages : PagesOwned c ds
  left : Leftover Q c

/-- Pages `P` are new, and all others below `KZERO` hold what they held. -/
structure Relaid (Q : Word → UInt8 → Prop) (d : Nat) (P : Set Nat) (c c' : Phys) : Prop where
  kept : ∀ v, v < kZero → v.toNat / 4096 ∉ P → byteAt c' d v = byteAt c d v
  fresh : ∀ v, v < kZero → v.toNat / 4096 ∈ P → ∃ b, byteAt c' d v = some b ∧ Q v b

/-- The rounds of `pg_alloc_range(start, limit)`. -/
def allocRounds (start limit : Nat) : Nat := (limit + 4096 - start + 4095) / 4096

section Range
variable {Q : Word → UInt8 → Prop} {c c' c'' : Phys} {ds : Set Nat} {d n fuel : Nat} {cur : Task}
  {P P' : Set Nat} {v start limit : Word}

theorem Relaid.refl (Q : Word → UInt8 → Prop) (d : Nat) (c : Phys) : Relaid Q d ∅ c c :=
  ⟨fun _ _ _ => rfl, fun _ _ h => absurd h (Set.notMem_empty _)⟩

theorem Relaid.trans (h : Relaid Q d P c c') (h' : Relaid Q d P' c' c'') :
    Relaid Q d (P ∪ P') c c'' := by
  refine ⟨?_, ?_⟩
  · intro v hv hP
    rw [Set.mem_union, not_or] at hP
    rw [h'.kept v hv hP.2, h.kept v hv hP.1]
  · intro v hv hP
    by_cases hP' : v.toNat / 4096 ∈ P'
    · exact h'.fresh v hv hP'
    · rw [h'.kept v hv hP']
      exact h.fresh v hv (hP.resolve_right hP')

theorem UserPages.alloc (h : UserPages Q ds c) (hd : frameNo cur.pgd ∈ ds)
    (hrun : Direct.pgAlloc cur v c = .ok ((), c')) :
    UserPages Q ds c' ∧ Relaid Q (frameNo cur.pgd) {v.toNat / 4096} c c' := by
  have hstep := pgAlloc_step h.init hrun
  have hlow := h.pages.toLowPages
  obtain ⟨hinit, hpages⟩ := (LowPages.keeper_own hd).alloc c v c' trivial ⟨h.init, h.pages⟩ hstep
  refine ⟨⟨hinit, hpages, ?_⟩, ?_, ?_⟩
  · intro m hm w
    obtain ⟨hfree, hmem⟩ := hlow.added_free hd hstep hm
    rw [hmem]
    exact h.left m hfree w
  · intro w hw hpage
    refine (hlow.added_other hd hstep hw ?_).2
    intro heq
    exact hpage (pgAddr_eq_iff.mp heq)
  · intro w hw hpage
    have heq : pgAddr w = pgAddr v := pgAddr_eq_iff.mpr hpage
    have hv : v < kZero := by
      obtain ⟨hpde, -⟩ := slots_of_pgAddr_eq heq
      rw [← addrPde_lt_iff, ← hpde]
      exact addrPde_lt_iff.mpr hw
    obtain ⟨m, hm, hall⟩ := hlow.added_page hd hstep hv
    exact ⟨_, (hall w heq).2, h.left m hm w⟩

section Rounds
variable (hle : start ≤ limit) (hlimit : limit.toNat ≤ kZero.toNat)

include hle hlimit

/-- The loop of `pg_alloc_range` up to `KZERO`; it may come to the page at `KZERO`. -/
theorem allocRange_rounds :
    (∀ k ≤ allocRounds start.toNat limit.toNat,
      (roundAddr start k).toNat = start.toNat + k * 4096) ∧
    (∀ k < allocRounds start.toNat limit.toNat, roundAddr start k < limit + pageSize) ∧
    ¬ roundAddr start (allocRounds start.toNat limit.toNat) < limit + pageSize := by
  have hz : kZero.toNat = 3221225472 := rfl
  have hsz : pageSize.toNat = 4096 := rfl
  have hle' := BitVec.le_def.mp hle
  have hadd : (limit + pageSize).toNat = limit.toNat + 4096 := by
    rw [BitVec.toNat_add, hsz]
    omega
  have hrounds : allocRounds start.toNat limit.toNat =
      (limit.toNat + 4096 - start.toNat + 4095) / 4096 := rfl
  have haddr : ∀ k ≤ allocRounds start.toNat limit.toNat,
      (roundAddr start k).toNat = start.toNat + k * 4096 := by
    intro k hk
    exact roundAddr_toNat (by omega)
  refine ⟨haddr, ?_, ?_⟩
  · intro k hk
    rw [BitVec.lt_def, haddr k (Nat.le_of_lt hk), hadd]
    omega
  · rw [BitVec.lt_def, haddr _ (Nat.le_refl _), hadd]
    omega

theorem UserPages.allocRange (h : UserPages Q ds c) (hd : frameNo cur.pgd ∈ ds)
    (hrun : Direct.pgAllocRange cur fuel start limit c = .ok ((), c')) :
    UserPages Q ds c' ∧
      Relaid Q (frameNo cur.pgd) (passed 4096 start.toNat (limit.toNat + 4096)) c c' := by
  obtain ⟨haddr, hvisits, hend⟩ := allocRange_rounds hle hlimit
  obtain ⟨hpages, hlaid⟩ := forPages_ended (I := fun k t => UserPages Q ds t ∧
      Relaid Q (frameNo cur.pgd) {p | start.toNat / 4096 ≤ p ∧ p < start.toNat / 4096 + k} c t)
    hvisits hend
    (by
      rintro k t u hk ⟨ht, hlaid⟩ hbody
      obtain ⟨hu, hpage⟩ := ht.alloc hd hbody
      refine ⟨hu, ?_⟩
      have hnext : ({p | start.toNat / 4096 ≤ p ∧ p < start.toNat / 4096 + k} : Set Nat) ∪
          {(roundAddr start k).toNat / 4096} =
          {p | start.toNat / 4096 ≤ p ∧ p < start.toNat / 4096 + (k + 1)} := by
        ext p
        rw [haddr k (Nat.le_of_lt hk)]
        simp only [Set.mem_union, Set.mem_ofPred_eq, Set.mem_singleton_iff]
        omega
      rw [← hnext]
      exact hlaid.trans hpage)
    (by
      refine ⟨h, ?_⟩
      have hempty : ({p | start.toNat / 4096 ≤ p ∧ p < start.toNat / 4096 + 0} : Set Nat) = ∅ := by
        apply Set.eq_empty_of_forall_notMem
        rintro p ⟨hle, hlt⟩
        omega
      rw [hempty]
      exact Relaid.refl _ _ _)
    hrun
  refine ⟨hpages, ?_⟩
  have hle' := BitVec.le_def.mp hle
  have hall : ({p | start.toNat / 4096 ≤ p ∧
      p < start.toNat / 4096 + allocRounds start.toNat limit.toNat} : Set Nat) =
      passed 4096 start.toNat (limit.toNat + 4096) := by
    ext p
    simp only [passed, allocRounds, Set.mem_ofPred_eq]
    omega
  rw [← hall]
  exact hlaid

/-- With frames for its pages and their tables the loop ends. -/
theorem FramesFor.allocRange (cur : Task) (hfuel : allocRounds start.toNat limit.toNat ≤ fuel)
    (h : FramesFor (n + allocRounds start.toNat limit.toNat) c) :
    ∃ c', Direct.pgAllocRange cur fuel start limit c = .ok ((), c') ∧ FramesFor n c' := by
  obtain ⟨-, hvisits, hend⟩ := allocRange_rounds hle hlimit
  obtain ⟨c', hrun, hleft⟩ := forPages_rounds (Direct.pgAlloc cur)
    (I := fun k t => FramesFor (n + (allocRounds start.toNat limit.toNat - k)) t)
    hvisits hend hfuel
    (by
      intro k t hk ht
      have hnext : n + (allocRounds start.toNat limit.toNat - k) =
          n + (allocRounds start.toNat limit.toNat - (k + 1)) + 1 := by omega
      rw [hnext] at ht
      exact ht.alloc cur (roundAddr start k))
    h
  rw [Nat.sub_self, Nat.add_zero] at hleft
  exact ⟨c', hrun, hleft⟩

end Rounds

theorem byteOf_setWord (c : Phys) (n m : Nat) (v w : Word) (b : UInt8) :
    byteOf ((c.setWord n (wordIdx v) (withByte (c.mem n (wordIdx v)) v b)).mem m (wordIdx w)) w =
      if m = n ∧ wordIdx w = wordIdx v ∧ v.toNat % 4 = w.toNat % 4 then b
      else byteOf (c.mem m (wordIdx w)) w := by
  by_cases hframe : m = n
  · subst hframe
    by_cases hidx : wordIdx w = wordIdx v
    · rw [hidx, setWord_mem_self, byteOf_withByte]
      simp only [true_and]
    · rw [setWord_mem_of_ne hidx, if_neg fun h => hidx h.2.1]
  · rw [setWord_mem_frame hframe, if_neg fun h => hframe h.1]

theorem eq_of_byte {w : Word} (hpage : pgAddr w = pgAddr v)
    (hidx : wordIdx w = wordIdx v) (hbyte : v.toNat % 4 = w.toNat % 4) : w = v := by
  have hpage := pgAddr_eq_iff.mp hpage
  apply BitVec.eq_of_toNat_eq
  unfold wordIdx at hidx
  omega

theorem UserPages.store (h : UserPages Q ds c) (hd : d ∈ ds) (hv : v < kZero)
    {r : Nat × Word × Word} (hr : translate c d v = some r) (b : UInt8) :
    UserPages Q ds (c.setWord r.1 (wordIdx v) (withByte (c.mem r.1 (wordIdx v)) v b)) ∧
    ∀ w, w < kZero →
      byteAt (c.setWord r.1 (wordIdx v) (withByte (c.mem r.1 (wordIdx v)) v b)) d w =
        if w = v then some b else byteAt c d w := by
  obtain ⟨hused, hplain⟩ := h.pages.page_plain hd hv hr
  refine ⟨⟨h.init, h.pages.store hplain _ _, ?_⟩, ?_⟩
  · intro m hm w
    rw [setWord_mem_frame]
    · exact h.left m hm w
    · intro heq
      exact hused (heq ▸ hm)
  intro w hw
  have htr : translate (c.setWord r.1 (wordIdx v) (withByte (c.mem r.1 (wordIdx v)) v b)) d w =
      translate c d w := by
    apply translate_congr
    · rw [hplain.setWord_dir _ _ hd]
    · intro hp _
      rw [hplain.setWord_table _ _ hd (addrPde_lt w) hp.ne_nil]
  unfold byteAt loadVia
  rw [htr]
  cases hu : translate c d w with
  | none =>
    have hne : w ≠ v := by
      intro heq
      rw [heq, hr] at hu
      cases hu
    rw [if_neg hne]
    rfl
  | some u =>
    -- no other address has the frame of `v`
    have hsame : (u.1 = r.1 ∧ wordIdx w = wordIdx v ∧ v.toNat % 4 = w.toNat % 4) ↔ w = v := by
      constructor
      · rintro ⟨hframe, hidx, hbyte⟩
        exact eq_of_byte (h.pages.page_eq hd hd hw hv hu hr hframe) hidx hbyte
      · intro heq
        rw [heq, hr] at hu
        cases hu
        exact ⟨rfl, by rw [heq], by rw [heq]⟩
    simp only [Option.map_some, byteOf_setWord, hsame]
    split
    · rfl
    · rfl

end Range

section Refill
variable {Q : Word → UInt8 → Prop} {c : Phys} {ds : Set Nat} {d n : Nat} {v : Word}
  {left : Nat → Nat → Word}

theorem refill_mem (hn : n ∉ c.free) : (c.refill left).mem n = c.mem n := if_neg hn

theorem PagesOwned.refill (h : PagesOwned c ds) (left : Nat → Nat → Word) :
    PagesOwned (c.refill left) ds := by
  have hdir : ∀ x ∈ ds, (c.refill left).mem x = c.mem x :=
    fun x hx => refill_mem (h.mapped.dirUsed x hx)
  have htable : ∀ x ∈ ds, ∀ l, l < 1024 → c.mem x l ≠ nilPgEnt →
      (c.refill left).mem (frameNo (c.mem x l)) = c.mem (frameNo (c.mem x l)) :=
    fun x hx l hl hne => refill_mem (h.mapped.tableUsed x hx l hl hne)
  exact ⟨h.toLowPages.congr rfl hdir htable, h.own.congr hdir htable⟩

theorem PagesOwned.refill_byteAt (h : PagesOwned c ds) (hd : d ∈ ds) (hv : v < kZero)
    (left : Nat → Nat → Word) : byteAt (c.refill left) d v = byteAt c d v := by
  apply byteAt_congr
  · apply translate_congr
    · rw [refill_mem (h.mapped.dirUsed d hd)]
    · intro hp _
      rw [refill_mem (h.mapped.tableUsed d hd _ (addrPde_lt v) hp.ne_nil)]
  · intro r hr
    exact refill_mem (h.page_plain hd hv hr).1

theorem UserPages.refill (hinit : c.frameAllocInitialized = true) (h : PagesOwned c ds)
    (hleft : ∀ n ∈ c.free, ∀ v, Q v (byteOf (left n (wordIdx v)) v)) :
    UserPages Q ds (c.refill left) := by
  refine ⟨hinit, h.refill left, ?_⟩
  intro n hn v
  have hmem : (c.refill left).mem n = left n := if_pos hn
  rw [hmem]
  exact hleft n hn v

end Refill

end AkKernel
