import AkKernel.Kernel.UserBytes

/-!
# Reading and writing the memory of the program

What the byte loops of the kernel do to addresses below `KZERO` that are mapped in the directory
that is loaded.
-/

set_option autoImplicit false

namespace AkKernel

open Programs Runs Bytes

/-- The kernel with other contents of memory and other page tables. -/
abbrev Kern.withPhys (s : Kern) (c : Phys) : Kern := { s with mem := (c, s.mem.2) }

/-- `n` bytes from `dest` on are those of `f`, and all others below `KZERO` are as they were. -/
structure Written (d : Nat) (dest : Word) (n : Nat) (f : Nat → UInt8) (c c' : Phys) : Prop where
  inside : ∀ i < n, byteAt c' d (dest + BitVec.ofNat 32 i) = some (f i)
  outside : ∀ v, v < kZero → ¬ (dest.toNat ≤ v.toNat ∧ v.toNat < dest.toNat + n) →
    byteAt c' d v = byteAt c d v
  frames : ∀ m, FramesFor m c → FramesFor m c'

section Words
variable {data : ElfData} {ofs : Word}

theorem elfWord_bytes (data : ElfData) (ofs : Word) :
    (data (ofs + 3#32)).toBitVec ++ (data (ofs + 2#32)).toBitVec ++ (data (ofs + 1#32)).toBitVec ++
      (data ofs).toBitVec = elfWord data ofs := by
  have h0 := (data ofs).toBitVec.isLt
  have h1 := (data (ofs + 1#32)).toBitVec.isLt
  have h2 := (data (ofs + 2#32)).toBitVec.isLt
  have h3 := (data (ofs + 3#32)).toBitVec.isLt
  have hofs : ofs + 2#32 + 1#32 = ofs + 3#32 := by
    rw [BitVec.add_assoc]
    rfl
  have happend : ∀ {m n : Nat} (x : BitVec m) (y : BitVec n),
      (x ++ y).toNat = x.toNat * 2 ^ n + y.toNat := by
    intro m n x y
    rw [BitVec.toNat_append, ← Nat.shiftLeft_add_eq_or_of_lt y.isLt, Nat.shiftLeft_eq]
  apply BitVec.eq_of_toNat_eq
  rw [elfWord, BitVec.toNat_ofNat, happend, happend, happend]
  unfold read16
  rw [hofs]
  simp only [UInt8.toNat_toBitVec] at *
  omega

end Words

section Bytes
variable {Q : Word → UInt8 → Prop} {s : Kern} {c c' : Phys} {ds : Set Nat} {v dest src : Word}
  {b : UInt8} {n : Nat} {f : Nat → UInt8}

theorem eq_add_offset (h : dest.toNat ≤ v.toNat) :
    v = dest + BitVec.ofNat 32 (v.toNat - dest.toNat) := by
  have hlt := v.isLt
  apply BitVec.eq_of_toNat_eq
  rw [BitVec.toNat_add, BitVec.toNat_ofNat]
  omega

theorem offset_toNat {i : Nat} (h : dest.toNat + i < 2 ^ 32) :
    (dest + BitVec.ofNat 32 i).toNat = dest.toNat + i := by
  rw [BitVec.toNat_add, BitVec.toNat_ofNat]
  omega

theorem byteAt_ne_none {d : Nat} : byteAt c d v ≠ none ↔ ∃ r, translate c d v = some r := by
  unfold byteAt loadVia
  cases translate c d v with
  | none => exact iff_of_false (fun h => h rfl) nofun
  | some r => exact iff_of_true nofun ⟨r, rfl⟩

theorem Written.store {d i : Nat} {t t' : Phys} (hw : Written d dest i f c t)
    (hlow : dest.toNat + i < kZero.toNat) (hframes : ∀ m, FramesFor m t → FramesFor m t')
    (hbytes : ∀ w, w < kZero → byteAt t' d w =
      if w = dest + BitVec.ofNat 32 i then some (f i) else byteAt t d w) :
    Written d dest (i + 1) f c t' := by
  have hz : kZero.toNat = 3221225472 := rfl
  have haddr : ∀ j ≤ i, (dest + BitVec.ofNat 32 j).toNat = dest.toNat + j := by
    intro j hj
    exact offset_toNat (by omega)
  refine ⟨?_, ?_, fun m hm => hframes m (hw.frames m hm)⟩
  · intro j hj
    have hj' : dest + BitVec.ofNat 32 j < kZero := by
      rw [BitVec.lt_def, haddr j (by omega)]
      omega
    rw [hbytes _ hj']
    split
    · rename_i heq
      have hji : j = i := by
        have := congrArg BitVec.toNat heq
        rw [haddr j (by omega), haddr i (Nat.le_refl i)] at this
        omega
      rw [hji]
    · rename_i hne
      have hji : j ≠ i := fun heq => hne (by rw [heq])
      exact hw.inside j (by omega)
  · intro w hw' hout
    rw [hbytes w hw', if_neg, hw.outside w hw' (by omega)]
    intro heq
    rw [heq, haddr i (Nat.le_refl i)] at hout
    omega

theorem access_mapped (hv : v < kTmpMem) {r : Nat × Word × Word}
    (hr : translate s.mem.1 (frameNo s.proc.cr3) v = some r) : access v s = .ok (r.1, s) := by
  have hwalk : walk s v = some r.1 := by
    unfold walk
    rw [if_neg (BitVec.not_le.mpr hv), hr]
    rfl
  unfold access
  rw [hwalk]

section Loaded
variable (hl : Loaded s)

include hl

theorem access_run (hv : v < kZero) {r : Nat × Word × Word}
    (hr : translate c (frameNo s.proc.cur.pgd) v = some r) :
    access v (s.withPhys c) = .ok (r.1, s.withPhys c) := by
  refine access_mapped (BitVec.lt_def.mpr (Nat.lt_trans (BitVec.lt_def.mp hv) (by decide))) ?_
  change translate c (frameNo s.proc.cr3) v = some r
  rw [hl, hr]

theorem loadByte_run (hv : v < kZero) (hb : byteAt c (frameNo s.proc.cur.pgd) v = some b) :
    loadByte v (s.withPhys c) = .ok (b, s.withPhys c) := by
  have hsome : byteAt c (frameNo s.proc.cur.pgd) v ≠ none := by
    rw [hb]
    exact nofun
  obtain ⟨r, hr⟩ := byteAt_ne_none.mp hsome
  unfold byteAt loadVia at hb
  rw [hr] at hb
  cases hb
  exact bind_run (access_run hl hv hr)

/-- The fields of the file are words of it. -/
theorem loadWord_run {data : ElfData} {ofs : Word} (hv : v.toNat + 4 ≤ kZero.toNat)
    (hb : ∀ i < 4, byteAt c (frameNo s.proc.cur.pgd) (v + BitVec.ofNat 32 i) =
      some (data (ofs + BitVec.ofNat 32 i))) :
    loadWord v (s.withPhys c) = .ok (elfWord data ofs, s.withPhys c) := by
  have hz : kZero.toNat = 3221225472 := rfl
  have hbyte : ∀ i < 4, loadByte (v + BitVec.ofNat 32 i) (s.withPhys c) =
      .ok (data (ofs + BitVec.ofNat 32 i), s.withPhys c) := by
    intro i hi
    refine loadByte_run hl ?_ (hb i hi)
    rw [BitVec.lt_def, offset_toNat (by omega)]
    omega
  have h0 := hbyte 0 (by decide)
  have hzero : ∀ x : Word, x + BitVec.ofNat 32 0 = x := fun x => BitVec.add_zero x
  rw [hzero, hzero] at h0
  rw [← elfWord_bytes]
  unfold loadWord
  rw [bind_run h0, bind_run (hbyte 1 (by decide)), bind_run (hbyte 2 (by decide)),
    bind_run (hbyte 3 (by decide))]
  rfl

variable (hd : frameNo s.proc.cur.pgd ∈ ds)

include hd

theorem storeByte_run (h : UserPages Q ds c) (hv : v < kZero)
    (hne : byteAt c (frameNo s.proc.cur.pgd) v ≠ none) (b : UInt8) :
    ∃ c', storeByte v b (s.withPhys c) = .ok ((), s.withPhys c') ∧ UserPages Q ds c' ∧
      (∀ m, FramesFor m c → FramesFor m c') ∧ ∀ w, w < kZero →
        byteAt c' (frameNo s.proc.cur.pgd) w =
          if w = v then some b else byteAt c (frameNo s.proc.cur.pgd) w := by
  obtain ⟨r, hr⟩ := byteAt_ne_none.mp hne
  obtain ⟨hpages, hbytes⟩ := h.store hd hv hr b
  have hrun : storeByte v b (s.withPhys c) = .ok ((), s.withPhys
      (c.setWord r.1 (wordIdx v) (withByte (c.mem r.1 (wordIdx v)) v b))) :=
    bind_run (access_run hl hv hr)
  refine ⟨_, hrun, hpages, ?_, hbytes⟩
  intro m hm
  exact ⟨hm.init, hm.ready, hm.room⟩

/-- A loop of stores to one address behind the other. -/
theorem upTo_written {body : Nat → KernM Unit} (h : UserPages Q ds c)
    (hdest : dest.toNat + n ≤ kZero.toNat)
    (hmapped : ∀ i < n, byteAt c (frameNo s.proc.cur.pgd) (dest + BitVec.ofNat 32 i) ≠ none)
    (hbody : ∀ i t, i < n → Written (frameNo s.proc.cur.pgd) dest i f c t →
      body i (s.withPhys t) = storeByte (dest + BitVec.ofNat 32 i) (f i) (s.withPhys t)) :
    ∃ c', upTo body n (s.withPhys c) = .ok ((), s.withPhys c') ∧ UserPages Q ds c' ∧
      Written (frameNo s.proc.cur.pgd) dest n f c c' := by
  have hz : kZero.toNat = 3221225472 := rfl
  have haddr : ∀ i < n, (dest + BitVec.ofNat 32 i).toNat = dest.toNat + i := by
    intro i hi
    exact offset_toNat (by omega)
  have hlow : ∀ i < n, dest + BitVec.ofNat 32 i < kZero := by
    intro i hi
    rw [BitVec.lt_def, haddr i hi]
    omega
  obtain ⟨u, hrun, c', rfl, hc', hw⟩ := upTo_ends
    (I := fun i u => ∃ t, u = s.withPhys t ∧ UserPages Q ds t ∧
      Written (frameNo s.proc.cur.pgd) dest i f c t)
    ⟨c, rfl, h, nofun, fun _ _ _ => rfl, fun _ hm => hm⟩
    (by
      rintro i - hi ⟨t, rfl, ht, hw⟩
      have hout : ¬ (dest.toNat ≤ (dest + BitVec.ofNat 32 i).toNat ∧
          (dest + BitVec.ofNat 32 i).toNat < dest.toNat + i) := by
        rw [haddr i hi]
        omega
      obtain ⟨t', hrun, ht', hframes, hbytes⟩ := storeByte_run hl hd ht (hlow i hi)
        (by
          rw [hw.outside _ (hlow i hi) hout]
          exact hmapped i hi) (f i)
      exact ⟨s.withPhys t', (hbody i t hi hw).trans hrun, t', rfl, ht',
        hw.store (by omega) hframes hbytes⟩)
  exact ⟨c', hrun, hc', hw⟩

theorem memset_written (h : UserPages Q ds c) (hdest : dest.toNat + n ≤ kZero.toNat)
    (hmapped : ∀ i < n, byteAt c (frameNo s.proc.cur.pgd) (dest + BitVec.ofNat 32 i) ≠ none)
    (b : UInt8) : ∃ c', memset dest b n (s.withPhys c) = .ok ((), s.withPhys c') ∧
      UserPages Q ds c' ∧ Written (frameNo s.proc.cur.pgd) dest n (fun _ => b) c c' :=
  upTo_written hl hd h hdest hmapped fun _ _ _ _ => rfl

/-- The running task writes bytes to its memory, with a request for each. -/
theorem stores_written {s₀ : Kern} {tr : List (SystemOp × Unit)}
    (hrun : Run SystemStep s₀ tr (s.withPhys c)) (h : UserPages Q ds c)
    (hdest : dest.toNat + n ≤ kStackPage.toNat)
    (hmapped : ∀ i < n, byteAt c (frameNo s.proc.cur.pgd) (dest + BitVec.ofNat 32 i) ≠ none)
    (f : Nat → UInt8) :
    ∃ tr' c', Run SystemStep s₀ tr' (s.withPhys c') ∧ UserPages Q ds c' ∧
      Written (frameNo s.proc.cur.pgd) dest n f c c' := by
  have hs : kStackPage.toNat = 3221221376 := rfl
  have hz : kZero.toNat = 3221225472 := rfl
  induction n with
  | zero => exact ⟨tr, c, hrun, h, nofun, fun _ _ _ => rfl, fun _ hm => hm⟩
  | succ n ih =>
    obtain ⟨tr₁, t, hrun₁, ht, hw⟩ := ih (by omega) (fun i hi => hmapped i (by omega))
    have haddr : (dest + BitVec.ofNat 32 n).toNat = dest.toNat + n := offset_toNat (by omega)
    have hbelow : dest + BitVec.ofNat 32 n < kStackPage := by
      rw [BitVec.lt_def, haddr]
      omega
    have hlow := lt_kZero_of_below hbelow
    have hne : byteAt t (frameNo s.proc.cur.pgd) (dest + BitVec.ofNat 32 n) ≠ none := by
      rw [hw.outside _ hlow (by omega)]
      exact hmapped n (Nat.lt_succ_self n)
    obtain ⟨t', hstore, ht', hframes, hbytes⟩ := storeByte_run hl hd ht hlow hne (f n)
    have hstep : SystemStep (s.withPhys t)
        (.request (.store (dest + BitVec.ofNat 32 n) (f n)), ()) (s.withPhys t') :=
      ⟨hl, 0, hbelow, hstore⟩
    exact ⟨_, t', hrun₁.snoc hstep, ht', hw.store (by omega) hframes hbytes⟩

/-- The source is not among the bytes that are written. -/
theorem memcpy_written (h : UserPages Q ds c) (hdest : dest.toNat + n ≤ kZero.toNat)
    (hmapped : ∀ i < n, byteAt c (frameNo s.proc.cur.pgd) (dest + BitVec.ofNat 32 i) ≠ none)
    (hsrc : src.toNat + n ≤ kZero.toNat)
    (hapart : dest.toNat + n ≤ src.toNat ∨ src.toNat + n ≤ dest.toNat)
    (hbytes : ∀ i < n, byteAt c (frameNo s.proc.cur.pgd) (src + BitVec.ofNat 32 i) =
      some (f i)) :
    ∃ c', memcpy dest src n (s.withPhys c) = .ok ((), s.withPhys c') ∧ UserPages Q ds c' ∧
      Written (frameNo s.proc.cur.pgd) dest n f c c' := by
  have hz : kZero.toNat = 3221225472 := rfl
  refine upTo_written hl hd h hdest hmapped ?_
  intro i t hi hw
  have haddr : (src + BitVec.ofNat 32 i).toNat = src.toNat + i := offset_toNat (by omega)
  have hlow : src + BitVec.ofNat 32 i < kZero := by
    rw [BitVec.lt_def, haddr]
    omega
  apply bind_run
  apply loadByte_run hl hlow
  rw [hw.outside _ hlow, hbytes i hi]
  rw [haddr]
  omega

end Loaded

theorem onMem_allocRange {fuel : Nat} {start limit : Word} (htmp : Ready [] 6 s.mem.2)
    (hrun : Direct.pgAllocRange s.proc.cur fuel start limit c = .ok ((), c')) :
    onMem (fun cur => pgAllocRange cur fuel start limit) (s.withPhys c) =
      .ok ((), s.withPhys c') := by
  have hlift : Lifts (Ready [] 6) (pgAllocRange s.proc.cur fuel start limit)
      (Direct.pgAllocRange s.proc.cur fuel start limit) := pgAllocRange_lifts _ _ _ _
  exact onMem_eq_ok.mpr ⟨_, hlift.run htmp hrun, rfl⟩

end Bytes

end AkKernel
