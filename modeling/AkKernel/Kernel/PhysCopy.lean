import AkKernel.Foundation.BlockCopy
import AkKernel.Kernel.TmpSlots
import AkKernel.Kernel.UserMemory

/-!
# Copying from physical memory

`memcpy_phys` of `arch/x86/mem/mmu.c` reads its source through temporary mappings, a page at a
time, and writes to addresses of the directory that is loaded.
-/

set_option autoImplicit false

namespace AkKernel

open Programs BlockCopy

/-- The byte at an offset of a frame. -/
def byteIn (c : Phys) (p : Nat × Nat) : UInt8 :=
  byteOf (c.mem p.1 (p.2 / 4)) (BitVec.ofNat 32 p.2)

/-- Where the physical address is. -/
def physLoc (addr : Word) : Nat × Nat := (frameNo addr, addr.toNat % 4096)

/-- Where `addr` is under directory `d`. -/
def locate (c : Phys) (d : Nat) (addr : Word) : Option (Nat × Nat) :=
  (translate c d addr).map fun r => (r.1, addr.toNat % 4096)

/-- The words that the processor reads to find `addr`. -/
def OnWalk (c : Phys) (d : Nat) (addr : Word) (n k : Nat) : Prop :=
  (n = d ∧ k = addrPde addr) ∨
    (TableEntry (c.mem d (addrPde addr)) ∧ n = frameNo (c.mem d (addrPde addr)) ∧ k = addrPte addr)

/-- One round of `memcpy_phys`, for `p.2` bytes from offset `p.1` on. -/
def copyChunk (dest src : Word) (p : Nat × Nat) : KernM Unit := do
  let seek := src + BitVec.ofNat 32 p.1
  let tmpmap ← onMem fun _ => pgTmpMap (pgAddr seek)
  memcpy (dest + BitVec.ofNat 32 p.1) (tmpmap + (seek - pgAddr seek)) p.2
  onMem fun _ => pgTmpUnmap tmpmap

/-- The bytes from `dest` on are at the locations `loc`: no two at the same one, none where a
source byte is that is copied after it, and none in the page tables that map them. None is in
the frame of `TmpPageTbl`, nor below `top` on the kernel's stack, where `memcpy_phys` runs. -/
structure CopyTarget (c : Phys) (d : Nat) (dest src : Word) (n : Nat) (loc : Nat → Nat × Nat)
    (top : Word) : Prop where
  mapped : ∀ i < n, locate c d (dest + BitVec.ofNat 32 i) = some (loc i)
  distinct : ∀ i j, i < j → j < n → loc i ≠ loc j
  ahead : ∀ i j, i < j → j < n → loc i ≠ physLoc (src + BitVec.ofNat 32 j)
  tables : ∀ i < n, ∀ j < n, ¬ OnWalk c d (dest + BitVec.ofNat 32 j) (loc i).1 ((loc i).2 / 4)
  tmp : ∀ i < n, (loc i).1 ≠ frameNo (c.mem d (addrPde kTmpMem))
  stack : ∀ i < n, ∀ v, kStackPage ≤ v → v < top → locate c d v ≠ some (loc i)

/-- The bytes from `dest` on are those that were at physical address `src`. All others are as
they were, and so is everything else, `TmpPageTbl` with it. -/
structure PhysCopied (s : Kern) (dest src : Word) (n : Nat) (s' : Kern) : Prop where
  copied : ∀ i < n, byteAt s'.mem.1 (frameNo s.proc.cr3) (dest + BitVec.ofNat 32 i) =
    some (byteIn s.mem.1 (physLoc (src + BitVec.ofNat 32 i)))
  others : ∀ p, (∀ i < n, locate s.mem.1 (frameNo s.proc.cr3) (dest + BitVec.ofNat 32 i) ≠ some p) →
    byteIn s'.mem.1 p = byteIn s.mem.1 p
  state : s' = s.withPhys { s.mem.1 with mem := s'.mem.1.mem }

section Chunks
variable {dest src len x : Word}

theorem sub_pgAddr (addr : Word) : (addr - pgAddr addr).toNat = addr.toNat % 4096 := by
  have hle : pgAddr addr ≤ addr := by
    rw [BitVec.le_def, pgAddr_toNat]
    exact Nat.sub_le _ _
  rw [BitVec.toNat_sub_of_le hle, pgAddr_toNat]
  have := Nat.mod_le addr.toNat 4096
  omega

/-- What a round copies: the rest of the page, or of the range. -/
theorem chunk_size (seek : Word) (hx : x < len) {sz : Word}
    (hsz : sz = if len - x < pageSize - (seek - pgAddr seek) then len - x
      else pageSize - (seek - pgAddr seek)) :
    0 < sz.toNat ∧ x.toNat + sz.toNat ≤ len.toNat ∧ seek.toNat % 4096 + sz.toNat ≤ 4096 := by
  have hps : pageSize.toNat = 4096 := rfl
  have hofs := sub_pgAddr seek
  have hlt := BitVec.lt_def.mp hx
  have hrest : (len - x).toNat = len.toNat - x.toNat := BitVec.toNat_sub_of_le (BitVec.le_of_lt hx)
  have hroom : (pageSize - (seek - pgAddr seek)).toNat = 4096 - seek.toNat % 4096 := by
    rw [BitVec.toNat_sub_of_le, hps, hofs]
    rw [BitVec.le_def, hps, hofs]
    omega
  rw [hsz]
  split
  · rename_i hshort
    rw [BitVec.lt_def, hrest, hroom] at hshort
    omega
  · rename_i hlong
    rw [BitVec.lt_def, hrest, hroom] at hlong
    omega

theorem ofNat_toNat_word (x : Word) : BitVec.ofNat 32 x.toNat = x := by
  rw [BitVec.ofNat_toNat, BitVec.setWidth_eq]

theorem memcpyPhysLoop_chunks (dest src len : Word) (fuel : Nat) : ∀ x : Word,
    x.toNat ≤ len.toNat → len.toNat ≤ x.toNat + fuel →
    ∃ l, memcpyPhysLoop dest src len fuel x = l.forM (copyChunk dest src) ∧
      Tiles len.toNat x.toNat l ∧ ∀ p ∈ l, (src.toNat + p.1) % 4096 + p.2 ≤ 4096 := by
  induction fuel with
  | zero =>
    intro x hle hge
    have heq : x.toNat = len.toNat := by omega
    refine ⟨[], ?_, ?_, nofun⟩
    · unfold memcpyPhysLoop
      rw [if_neg (by rw [BitVec.lt_def]; omega)]
      rfl
    · rw [heq]
      exact .nil
  | succ fuel ih =>
    intro x hle hge
    by_cases hx : x < len
    · obtain ⟨hpos, hend, hpage⟩ := chunk_size (src + x) hx rfl
      generalize hsz : (if len - x < pageSize - (src + x - pgAddr (src + x)) then len - x
        else pageSize - (src + x - pgAddr (src + x))) = sz at hpos hend hpage
      have hadd : (x + sz).toNat = x.toNat + sz.toNat := by
        have := len.isLt
        rw [BitVec.toNat_add]
        omega
      obtain ⟨l, hloop, htiles, hin⟩ := ih (x + sz) (by omega) (by omega)
      refine ⟨(x.toNat, sz.toNat) :: l, ?_, .cons hpos (hadd ▸ htiles), ?_⟩
      · unfold memcpyPhysLoop
        rw [if_pos hx]
        dsimp only
        rw [hsz, hloop]
        change _ = (copyChunk dest src (x.toNat, sz.toNat) >>= fun _ => l.forM (copyChunk dest src))
        rw [copyChunk]
        dsimp only
        rw [ofNat_toNat_word]
        simp only [bind_assoc]
      · intro p hp
        rcases List.mem_cons.mp hp with rfl | hp
        · rw [BitVec.toNat_add] at hpage
          change (src.toNat + x.toNat) % 4096 + sz.toNat ≤ 4096
          omega
        · exact hin p hp
    · have heq : x.toNat = len.toNat := by
        rw [BitVec.lt_def] at hx
        omega
      refine ⟨[], ?_, ?_, nofun⟩
      · unfold memcpyPhysLoop
        rw [if_neg hx]
        rfl
      · rw [heq]
        exact .nil

end Chunks

section Locations
variable {c t : Phys} {d : Nat} {v : Word} {p : Nat × Nat}

theorem byteAt_eq_locate : byteAt c d v = (locate c d v).map (byteIn c) := by
  unfold byteAt loadVia locate
  cases translate c d v with
  | none => rfl
  | some r =>
    have hlt := v.isLt
    have hbyte : ∀ w, byteOf w v = byteOf w (BitVec.ofNat 32 (v.toNat % 4096)) := by
      intro w
      unfold byteOf
      rw [BitVec.toNat_ofNat]
      have hmod : v.toNat % 4096 % 2 ^ 32 % 4 = v.toNat % 4 := by omega
      rw [hmod]
    exact congrArg some (hbyte _)

theorem locate_congr (h : ∀ n k, OnWalk c d v n k → t.mem n k = c.mem n k) :
    locate t d v = locate c d v := by
  unfold locate translate
  rw [h d (addrPde v) (Or.inl ⟨rfl, rfl⟩)]
  dsimp only
  by_cases hp : Present (c.mem d (addrPde v))
  · by_cases hx : Extended (c.mem d (addrPde v))
    · rw [if_neg (not_not.mpr hp), if_pos hx, if_neg (not_not.mpr hp), if_pos hx]
    · rw [h _ _ (Or.inr ⟨⟨hp, hx⟩, rfl, rfl⟩)]
  · rw [if_pos hp, if_pos hp]

theorem byteIn_setWord (b : UInt8) :
    byteIn (t.setWord p.1 (p.2 / 4) (withByte (t.mem p.1 (p.2 / 4)) (BitVec.ofNat 32 p.2) b)) =
      Function.update (byteIn t) p b := by
  funext q
  have hofs : (BitVec.ofNat 32 p.2).toNat % 4 = p.2 % 4 := by
    rw [BitVec.toNat_ofNat]
    omega
  have hofs' : (BitVec.ofNat 32 q.2).toNat % 4 = q.2 % 4 := by
    rw [BitVec.toNat_ofNat]
    omega
  by_cases hq : q = p
  · rw [hq, Function.update_self]
    unfold byteIn
    rw [setWord_mem_self, byteOf_withByte, if_pos rfl]
  · rw [Function.update_of_ne hq]
    unfold byteIn
    by_cases hframe : q.1 = p.1
    · by_cases hword : q.2 / 4 = p.2 / 4
      · have hne : p.2 % 4 ≠ q.2 % 4 := by
          intro heq
          apply hq
          apply Prod.ext hframe
          omega
        rw [hframe, hword, setWord_mem_self, byteOf_withByte, hofs, hofs', if_neg hne]
      · rw [hframe, setWord_mem_of_ne hword]
    · rw [setWord_mem_frame hframe]

theorem physLoc_add {o : Nat} (h : v.toNat % 4096 + o < 4096) :
    physLoc (v + BitVec.ofNat 32 o) = (frameNo (pgAddr v), v.toNat % 4096 + o) := by
  have hlt := v.isLt
  have hadd : (v + BitVec.ofNat 32 o).toNat = v.toNat + o := offset_toNat (by omega)
  unfold physLoc frameNo
  rw [hadd, pgAddr_toNat]
  apply Prod.ext
  · dsimp only
    omega
  · dsimp only
    omega

end Locations

/-- The first `k` bytes have been copied. -/
structure CopiedTo (c : Phys) (d : Nat) (dest src : Word) (n : Nat) (loc : Nat → Nat × Nat)
    (k : Nat) (t : Phys) : Prop where
  stored : StoredAt loc (fun i => byteIn c (physLoc (src + BitVec.ofNat 32 i))) k (byteIn c)
    (byteIn t)
  walks : ∀ i < n, ∀ m j, OnWalk c d (dest + BitVec.ofNat 32 i) m j → t.mem m j = c.mem m j
  other : t = { c with mem := t.mem }

section Copy
variable {c t : Phys} {d n k : Nat} {dest src top : Word} {loc : Nat → Nat × Nat}

theorem CopiedTo.start : CopiedTo c d dest src n loc 0 c :=
  ⟨.refl _ _ _, fun _ _ _ _ _ => rfl, rfl⟩

theorem CopiedTo.source (h : CopiedTo c d dest src n loc k t)
    (ht : CopyTarget c d dest src n loc top) (hk : k < n) :
    byteIn t (physLoc (src + BitVec.ofNat 32 k)) = byteIn c (physLoc (src + BitVec.ofNat 32 k)) :=
  h.stored.outside _ fun i hi => ht.ahead i k hi hk

theorem CopiedTo.locate (h : CopiedTo c d dest src n loc k t)
    (ht : CopyTarget c d dest src n loc top) {i : Nat} (hi : i < n) :
    AkKernel.locate t d (dest + BitVec.ofNat 32 i) = some (loc i) := by
  rw [locate_congr (h.walks i hi), ht.mapped i hi]

theorem CopiedTo.store (h : CopiedTo c d dest src n loc k t)
    (ht : CopyTarget c d dest src n loc top) (hk : k < n) :
    CopiedTo c d dest src n loc (k + 1) (t.setWord (loc k).1 ((loc k).2 / 4)
      (withByte (t.mem (loc k).1 ((loc k).2 / 4)) (BitVec.ofNat 32 (loc k).2)
        (byteIn c (physLoc (src + BitVec.ofNat 32 k))))) := by
  refine ⟨h.stored.snoc (fun i hi => ht.distinct i k hi hk) (byteIn_setWord _), ?_, ?_⟩
  · intro i hi m j hw
    have hne : ¬ (m = (loc k).1 ∧ j = (loc k).2 / 4) := by
      rintro ⟨rfl, rfl⟩
      exact ht.tables k hk i hi hw
    by_cases hm : m = (loc k).1
    · subst hm
      rw [setWord_mem_of_ne fun hj => hne ⟨rfl, hj⟩]
      exact h.walks i hi _ _ hw
    · rw [setWord_mem_frame hm]
      exact h.walks i hi _ _ hw
  · rw [h.other]
    rfl

variable {s : Kern} {tmp : TmpTbl} {entry : Nat} {addr v : Word}

theorem loadByte_tmp (hentry : entry < 1024) (hset : s.mem.2 entry = pageEntry addr kernelFlags)
    {o : Nat} (ho : o < 4096) : loadByte (tmpAddr entry + BitVec.ofNat 32 o) s =
      .ok (byteIn s.mem.1 (frameNo addr, o), s) := by
  have hptr : (tmpAddr entry + BitVec.ofNat 32 o).toNat = 0xFFC00000 + entry * 4096 + o := by
    have hk : kTmpMem.toNat = 0xFFC00000 := rfl
    rw [BitVec.toNat_add, tmpAddr, BitVec.toNat_add, BitVec.toNat_ofNat, BitVec.toNat_ofNat, hk]
    omega
  have hhigh : kTmpMem ≤ tmpAddr entry + BitVec.ofNat 32 o := by
    have hk : kTmpMem.toNat = 0xFFC00000 := rfl
    rw [BitVec.le_def, hptr, hk]
    omega
  have hpte : addrPte (tmpAddr entry + BitVec.ofNat 32 o) = entry := by
    rw [addrPte_eq, hptr]
    omega
  have hwalk : walk s (tmpAddr entry + BitVec.ofNat 32 o) = some (frameNo addr) := by
    unfold walk
    rw [if_pos hhigh, hpte, hset, if_neg (tmpEntry_ne_nil addr), frameNo_pageEntry (by decide)]
  have haccess : access (tmpAddr entry + BitVec.ofNat 32 o) s = .ok (frameNo addr, s) := by
    unfold access
    rw [hwalk]
  have hidx : wordIdx (tmpAddr entry + BitVec.ofNat 32 o) = o / 4 := by
    rw [wordIdx, hptr]
    omega
  have hbyte : ∀ w,
      byteOf w (tmpAddr entry + BitVec.ofNat 32 o) = byteOf w (BitVec.ofNat 32 o) := by
    intro w
    unfold byteOf
    rw [hptr, BitVec.toNat_ofNat]
    have hmod : (0xFFC00000 + entry * 4096 + o) % 4 = o % 2 ^ 32 % 4 := by omega
    rw [hmod]
  unfold loadByte
  rw [bind_run haccess]
  change Except.ok (byteOf (s.mem.1.mem (frameNo addr) (wordIdx _)) _, s) = _
  rw [hidx, hbyte]
  rfl

theorem storeByte_locate {p : Nat × Nat} (hv : v < kTmpMem)
    (hp : AkKernel.locate s.mem.1 (frameNo s.proc.cr3) v = some p) (b : UInt8) :
    storeByte v b s = .ok ((), { s with mem := (s.mem.1.setWord p.1 (p.2 / 4)
      (withByte (s.mem.1.mem p.1 (p.2 / 4)) (BitVec.ofNat 32 p.2) b), s.mem.2) }) := by
  obtain ⟨r, hr, rfl⟩ := Option.map_eq_some_iff.mp hp
  have hbyte : ∀ w, withByte w v b = withByte w (BitVec.ofNat 32 (v.toNat % 4096)) b := by
    intro w
    unfold withByte
    rw [BitVec.toNat_ofNat]
    have hmod : v.toNat % 4096 % 2 ^ 32 % 4 = v.toNat % 4 := by omega
    rw [hmod]
  unfold storeByte
  rw [bind_run (access_mapped hv hr)]
  change Except.ok ((), { s with mem := (s.mem.1.setWord r.1 (wordIdx v)
    (withByte (s.mem.1.mem r.1 (wordIdx v)) v b), s.mem.2) }) = _
  rw [hbyte]
  rfl

theorem copyChunk_run (ht : CopyTarget c (frameNo s.proc.cr3) dest src n loc top)
    (hdest : ∀ i < n, dest + BitVec.ofNat 32 i < kTmpMem) (htmp : Ready [] 1 s.mem.2)
    {p : Nat × Nat} (hend : p.1 + p.2 ≤ n) (hpage : (src.toNat + p.1) % 4096 + p.2 ≤ 4096)
    (h : CopiedTo c (frameNo s.proc.cr3) dest src n loc p.1 t) :
    ∃ u, copyChunk dest src p (s.withPhys t) = .ok ((), s.withPhys u) ∧
      CopiedTo c (frameNo s.proc.cr3) dest src n loc (p.1 + p.2) u := by
  obtain ⟨entry, hfound, hentry, hnil⟩ := pgFreeTmpMap_ok htmp
  generalize hseek : src + BitVec.ofNat 32 p.1 = seek
  have hofs : seek.toNat % 4096 = (src.toNat + p.1) % 4096 := by
    rw [← hseek, BitVec.toNat_add, BitVec.toNat_ofNat]
    omega
  have hmap : onMem (fun _ => pgTmpMap (pgAddr seek)) (s.withPhys t) = .ok (tmpAddr entry,
      { s with mem := (t, Function.update s.mem.2 entry (pageEntry (pgAddr seek) kernelFlags)) }) :=
    onMem_run (pgTmpMap_run hfound t)
  generalize hslots : Function.update s.mem.2 entry (pageEntry (pgAddr seek) kernelFlags) = slots
    at hmap
  have hslot : slots entry = pageEntry (pgAddr seek) kernelFlags := by
    rw [← hslots, Function.update_self]
  -- the bytes of the round, read through the slot
  have hround : ∃ s₁, memcpy (dest + BitVec.ofNat 32 p.1) (tmpAddr entry + (seek - pgAddr seek))
      p.2 { s with mem := (t, slots) } = .ok ((), s₁) ∧
      ∃ u, s₁ = { s with mem := (u, slots) } ∧
        CopiedTo c (frameNo s.proc.cr3) dest src n loc (p.1 + p.2) u := by
    refine upTo_ends (I := fun i s' => ∃ u, s' = { s with mem := (u, slots) } ∧
      CopiedTo c (frameNo s.proc.cr3) dest src n loc (p.1 + i) u) ⟨t, rfl, h⟩ ?_
    rintro i - hi ⟨u, rfl, hu⟩
    have hlt : p.1 + i < n := by omega
    have hptr : tmpAddr entry + (seek - pgAddr seek) + BitVec.ofNat 32 i =
        tmpAddr entry + BitVec.ofNat 32 (seek.toNat % 4096 + i) := by
      rw [← sub_pgAddr, BitVec.ofNat_add, ofNat_toNat_word, BitVec.add_assoc]
    have hload := loadByte_tmp (s := { s with mem := (u, slots) }) hentry hslot
      (o := seek.toNat % 4096 + i) (by omega)
    have haddr : dest + BitVec.ofNat 32 p.1 + BitVec.ofNat 32 i =
        dest + BitVec.ofNat 32 (p.1 + i) := by
      rw [BitVec.ofNat_add, BitVec.add_assoc]
    have hloc : (frameNo (pgAddr seek), seek.toNat % 4096 + i) =
        physLoc (src + BitVec.ofNat 32 (p.1 + i)) := by
      rw [BitVec.ofNat_add, ← BitVec.add_assoc, hseek]
      exact (physLoc_add (by omega)).symm
    rw [hloc] at hload
    have hstore := storeByte_locate (s := { s with mem := (u, slots) }) (hdest _ hlt)
      (hu.locate ht hlt) (byteIn u (physLoc (src + BitVec.ofNat 32 (p.1 + i))))
    rw [hu.source ht hlt] at hload hstore
    refine ⟨_, ?_, _, rfl, hu.store ht hlt⟩
    rw [hptr, haddr]
    exact (bind_run hload).trans hstore
  obtain ⟨_, hcopy, u, rfl, hu⟩ := hround
  refine ⟨u, ?_, hu⟩
  have hunmap : onMem (fun _ => pgTmpUnmap (tmpAddr entry)) { s with mem := (u, slots) } =
      .ok ((), s.withPhys u) := by
    refine (onMem_run (pgTmpUnmap_run hentry u)).trans ?_
    rw [← hslots, update_nil hnil]
  unfold copyChunk
  rw [hseek]
  exact (bind_run hmap).trans ((bind_run hcopy).trans hunmap)

end Copy

/-- `memcpy_phys` copies in chunks that tile the range, each inside one page of the source. With
a free slot, and a destination that is mapped below `KTMPMEM` as `CopyTarget` says, it returns
with the bytes copied and nothing else changed. -/
theorem memcpyPhys_copies (s : Kern) (dest src len : Word) :
    (∃ l, memcpyPhys dest src len = l.forM (copyChunk dest src) ∧ Tiles len.toNat 0 l ∧
      ∀ p ∈ l, (src.toNat + p.1) % 4096 + p.2 ≤ 4096) ∧
    ∀ loc top, CopyTarget s.mem.1 (frameNo s.proc.cr3) dest src len.toNat loc top →
      (∀ i < len.toNat, dest + BitVec.ofNat 32 i < kTmpMem) → (freeSlots s.mem.2).Nonempty →
      ∃ s', memcpyPhys dest src len s = .ok ((), s') ∧ PhysCopied s dest src len.toNat s' := by
  have hzero : (0#32 : Word).toNat = 0 := rfl
  obtain ⟨l, hloop, htiles, hin⟩ := memcpyPhysLoop_chunks dest src len len.toNat 0#32
    (Nat.zero_le _) (by omega)
  refine ⟨⟨l, hloop, htiles, hin⟩, ?_⟩
  intro loc top ht hdest hfree
  have htmp : Ready [] 1 s.mem.2 := ⟨nofun, Finset.card_pos.mpr hfree⟩
  have hchunks : ∃ s', l.forM (copyChunk dest src) s = .ok ((), s') ∧
      ∃ t, s' = s.withPhys t ∧
        CopiedTo s.mem.1 (frameNo s.proc.cr3) dest src len.toNat loc len.toNat t := by
    refine htiles.forM_ends (I := fun k s' => ∃ t, s' = s.withPhys t ∧
      CopiedTo s.mem.1 (frameNo s.proc.cr3) dest src len.toNat loc k t) ⟨s.mem.1, rfl, .start⟩ ?_
    rintro p hp _ ⟨t, rfl, hcopied⟩
    obtain ⟨u, hrun, hu⟩ := copyChunk_run ht hdest htmp (htiles.mem_le hp).2.2 (hin p hp) hcopied
    exact ⟨_, hrun, u, rfl, hu⟩
  obtain ⟨_, hrun, u, rfl, hu⟩ := hchunks
  refine ⟨s.withPhys u, (congrFun hloop s).trans hrun, ?_, ?_, congrArg s.withPhys hu.other⟩
  · intro i hi
    rw [byteAt_eq_locate]
    change Option.map _ (locate u (frameNo s.proc.cr3) _) = _
    rw [hu.locate ht hi, Option.map_some, hu.stored.inside i hi]
  · intro p hp
    refine hu.stored.outside p fun i hi heq => hp i hi ?_
    rw [ht.mapped i hi, heq]

/-- `oneTaskKern` with the bytes 1 to 4 across the end of frame 5. -/
def acrossFrames : Kern :=
  oneTaskKern.withPhys ((oneTask.setWord 5 1023 0x02010000#32).setWord 6 0 0x0403#32)

/-- They go to the task's first page. -/
theorem memcpyPhys_copies_acrossFrames : ∃ s',
    memcpyPhys 0x0#32 0x5FFE#32 0x4#32 acrossFrames = .ok ((), s') ∧
      ∀ i < 4, byteAt s'.mem.1 2 (BitVec.ofNat 32 i) = some (UInt8.ofNat (i + 1)) := by
  have hcr3 : frameNo acrossFrames.proc.cr3 = 2 := by decide +kernel
  have htarget : CopyTarget acrossFrames.mem.1 (frameNo acrossFrames.proc.cr3) 0x0#32 0x5FFE#32 4
      (fun i => (4, i)) kZero := by
    rw [hcr3]
    refine ⟨?_, ?_, ?_, ?_, ?_, ?_⟩
    · decide +kernel
    · intro i j hij _ heq
      exact absurd (congrArg Prod.snd heq) (Nat.ne_of_lt hij)
    · have hframe : ∀ j < 4, (physLoc (0x5FFE#32 + BitVec.ofNat 32 j)).1 ≠ 4 := by decide
      intro i j _ hj heq
      exact hframe j hj (congrArg Prod.fst heq).symm
    · have htable : ∀ j < 4,
          frameNo (acrossFrames.mem.1.mem 2 (addrPde (0x0#32 + BitVec.ofNat 32 j))) ≠ 4 := by
        decide +kernel
      rintro i - j hj (⟨h, -⟩ | ⟨-, h, -⟩)
      · cases h
      · exact htable j hj h.symm
    · have htmp : frameNo (acrossFrames.mem.1.mem 2 (addrPde kTmpMem)) ≠ 4 := by decide +kernel
      exact fun i _ => htmp.symm
    · have hnone : acrossFrames.mem.1.mem 2 767 = 0#32 := by decide +kernel
      intro i _ v hpage hzero
      have hpde : addrPde v = 767 := by
        have hpage' : 0xBFFFF000 ≤ v.toNat := hpage
        have hzero' : v.toNat < 0xC0000000 := hzero
        rw [addrPde_eq]
        omega
      unfold locate translate
      rw [hpde, hnone]
      nofun
  obtain ⟨s', hrun, hcopied⟩ := (memcpyPhys_copies acrossFrames 0x0#32 0x5FFE#32 0x4#32).2 _ _ htarget
    (by decide) (Finset.card_pos.mp (ready_nil (by decide : 1 ≤ 1024)).free)
  refine ⟨s', hrun, ?_⟩
  intro i hi
  have hbyte := hcopied.copied i hi
  rw [hcr3, BitVec.zero_add] at hbyte
  rw [hbyte]
  have hall : ∀ i < 4, some (byteIn acrossFrames.mem.1 (physLoc (0x5FFE#32 + BitVec.ofNat 32 i))) =
      some (UInt8.ofNat (i + 1)) := by decide +kernel
  exact hall i hi

/-- `oneTaskKern` with the bytes 1 and 2 at the start of frame 5. -/
def twoBytes : Kern := oneTaskKern.withPhys (oneTask.setWord 5 0 0x0201#32)

/-- Copied to where the kernel sees the second byte, they become 1 and 1. -/
theorem not_physCopied_overlap :
    (∀ i < 2, 0xC0005001#32 + BitVec.ofNat 32 i < kTmpMem ∧
      byteAt twoBytes.mem.1 (frameNo twoBytes.proc.cr3) (0xC0005001#32 + BitVec.ofNat 32 i) ≠
        none) ∧
    ∃ s', memcpyPhys 0xC0005001#32 0x5000#32 0x2#32 twoBytes = .ok ((), s') ∧
      ¬ PhysCopied twoBytes 0xC0005001#32 0x5000#32 2 s' := by
  have htest : Runs.passes (memcpyPhys 0xC0005001#32 0x5000#32 0x2#32 twoBytes) (fun _ s' =>
      byteAt s'.mem.1 2 0xC0005002#32 != some 2) = true := by
    decide +kernel
  rw [Runs.passes_iff] at htest
  obtain ⟨⟨⟩, s', hrun, hne⟩ := htest
  refine ⟨by decide +kernel, s', hrun, ?_⟩
  intro h
  rw [bne_iff_ne] at hne
  have hcr3 : frameNo twoBytes.proc.cr3 = 2 := by decide +kernel
  have hbyte := h.copied 1 (by decide)
  rw [hcr3] at hbyte
  apply hne
  refine hbyte.trans ?_
  decide +kernel

end AkKernel
