import AkKernel.Mem.Growth
import AkKernel.Mem.Walkable

/-!
# The frames of `PreallocFrames`

How many of them the loops over pages take while the bitmap is not there: one for every page that
is allocated, and one for every page table that is made.
-/

set_option autoImplicit false

namespace AkKernel

open Programs

def outOfPrealloc : Fault := .panic "Out of preallocated frames\n" []

def Phys.takePrealloc (c : Phys) : Phys := { c with preallocCount := c.preallocCount + 1 }

/-- The address that a loop over pages comes to in round `k`. -/
def roundAddr (start : Word) (k : Nat) : Word := start + BitVec.ofNat 32 (k * 4096)

section Rounds
variable {σ : Type} {body : Word → Prog Fault σ Unit} {I : Nat → σ → Prop} {s : σ}
  {start limit : Word} {r fuel : Nat}

theorem roundAddr_toNat {k : Nat} (h : start.toNat + k * 4096 < 2 ^ 32) :
    (roundAddr start k).toNat = start.toNat + k * 4096 := by
  rw [roundAddr, BitVec.toNat_add, BitVec.toNat_ofNat]
  omega

theorem roundAddr_succ (k : Nat) : roundAddr start k + pageSize = roundAddr start (k + 1) := by
  have hsz : pageSize = BitVec.ofNat 32 4096 := rfl
  rw [roundAddr, roundAddr, hsz, BitVec.add_assoc, ← BitVec.ofNat_add, Nat.succ_mul]

theorem forPages_prefix (hvisits : ∀ k < r, roundAddr start k < limit)
    (hstep : ∀ k t, k < r → I k t → ∃ u, body (roundAddr start k) t = .ok ((), u) ∧ I (k + 1) u)
    (h0 : I 0 s) : ∃ t, I r t ∧ ∀ fuel,
      forPages body (fuel + r) start limit s = forPages body fuel (roundAddr start r) limit t := by
  induction r with
  | zero =>
    refine ⟨s, h0, fun fuel => ?_⟩
    have hstart : roundAddr start 0 = start := by
      rw [roundAddr, Nat.zero_mul]
      exact BitVec.add_zero start
    rw [hstart, Nat.add_zero]
  | succ r ih =>
    obtain ⟨t, ht, heq⟩ := ih (fun k hk => hvisits k (by omega))
      (fun k t hk => hstep k t (by omega))
    obtain ⟨u, hu, hI⟩ := hstep r t (Nat.lt_succ_self r) ht
    refine ⟨u, hI, fun fuel => ?_⟩
    have hround : forPages body (fuel + 1) (roundAddr start r) limit t =
        forPages body fuel (roundAddr start (r + 1)) limit u := by
      rw [forPages, if_pos (hvisits r (Nat.lt_succ_self r)), bind_run hu, roundAddr_succ]
    rw [← hround, ← heq, Nat.add_assoc, Nat.add_comm 1 r]

theorem forPages_rounds (body : Word → Prog Fault σ Unit)
    (hvisits : ∀ k < r, roundAddr start k < limit)
    (hend : ¬ roundAddr start r < limit) (hfuel : r ≤ fuel)
    (hstep : ∀ k t, k < r → I k t → ∃ u, body (roundAddr start k) t = .ok ((), u) ∧ I (k + 1) u)
    (h0 : I 0 s) : ∃ t, forPages body fuel start limit s = .ok ((), t) ∧ I r t := by
  obtain ⟨t, ht, heq⟩ := forPages_prefix hvisits hstep h0
  refine ⟨t, ?_, ht⟩
  obtain ⟨rest, rfl⟩ := Nat.exists_eq_add_of_le' hfuel
  rw [heq]
  cases rest with
  | zero => rw [forPages, if_neg hend]; rfl
  | succ rest => rw [forPages, if_neg hend]; rfl

theorem roundAddr_next (k : Nat) : roundAddr (start + pageSize) k = roundAddr start (k + 1) := by
  have hsz : pageSize = BitVec.ofNat 32 4096 := rfl
  rw [roundAddr, roundAddr, hsz, BitVec.add_assoc, ← BitVec.ofNat_add, Nat.succ_mul,
    Nat.add_comm 4096]

theorem forPages_ended {u : σ} (hvisits : ∀ k < r, roundAddr start k < limit)
    (hend : ¬ roundAddr start r < limit)
    (hstep : ∀ k t u, k < r → I k t → body (roundAddr start k) t = .ok ((), u) → I (k + 1) u)
    (h0 : I 0 s) (hrun : forPages body fuel start limit s = .ok ((), u)) : I r u := by
  have hstart : ∀ x : Word, roundAddr x 0 = x := by
    intro x
    rw [roundAddr, Nat.zero_mul]
    exact BitVec.add_zero x
  induction r generalizing start fuel s I with
  | zero =>
    rw [hstart] at hend
    cases fuel with
    | zero =>
      rw [forPages, if_neg hend] at hrun
      cases hrun
      exact h0
    | succ fuel =>
      rw [forPages, if_neg hend] at hrun
      cases hrun
      exact h0
  | succ r ih =>
    have hlt := hvisits 0 (Nat.succ_pos r)
    rw [hstart] at hlt
    cases fuel with
    | zero =>
      rw [forPages, if_pos hlt] at hrun
      cases hrun
    | succ fuel =>
      rw [forPages, if_pos hlt] at hrun
      obtain ⟨⟨⟩, t, hbody, hrest⟩ := bind_ok.mp hrun
      have hbody₀ : body (roundAddr start 0) s = .ok ((), t) := by
        rw [hstart]
        exact hbody
      refine ih (I := fun k => I (k + 1)) ?_ ?_ ?_ (hstep 0 s t (Nat.succ_pos r) h0 hbody₀) hrest
      · intro k hk
        rw [roundAddr_next]
        exact hvisits (k + 1) (Nat.succ_lt_succ hk)
      · rw [roundAddr_next]
        exact hend
      · intro k t u hk hI hb
        rw [roundAddr_next] at hb
        exact hstep (k + 1) t u (Nat.succ_lt_succ hk) hI hb

theorem forPages_fails {e : Fault} (hvisits : ∀ k ≤ r, roundAddr start k < limit)
    (hfuel : r < fuel)
    (hstep : ∀ k t, k < r → I k t → ∃ u, body (roundAddr start k) t = .ok ((), u) ∧ I (k + 1) u)
    (hfails : ∀ t, I r t → body (roundAddr start r) t = .error e) (h0 : I 0 s) :
    forPages body fuel start limit s = .error e := by
  obtain ⟨t, ht, heq⟩ := forPages_prefix (fun k hk => hvisits k (Nat.le_of_lt hk)) hstep h0
  obtain ⟨rest, rfl⟩ := Nat.exists_eq_add_of_le' hfuel
  have hround : rest + (r + 1) = rest + 1 + r := by omega
  rw [hround, heq, forPages, if_pos (hvisits r (Nat.le_refl r)), bind_fails (hfails t ht)]

end Rounds

section Take
variable {c c' : Phys} {cur : Task} {pgd v e f : Word}

theorem frameAlloc_prealloc (hinit : c.frameAllocInitialized = false) : frameAlloc c =
    if c.preallocCount = preallocMaxCount then .error outOfPrealloc
    else .ok (c.preallocFrames + BitVec.ofNat 32 (c.preallocCount * 4096), c.takePrealloc) := by
  change (if c.frameAllocInitialized = false then
    (if c.preallocCount = preallocMaxCount then throw outOfPrealloc else _ : PhysM Word)
    else frameAllocAfter 0#32) c = _
  rw [if_pos hinit]
  split
  · rfl
  · rfl

theorem frameTake_prealloc (hinit : c.frameAllocInitialized = false)
    (hcount : c.preallocCount ≠ preallocMaxCount) : frameTake c =
      .ok (c.preallocFrames + BitVec.ofNat 32 (c.preallocCount * 4096), c.takePrealloc) := by
  have halloc := frameAlloc_prealloc hinit
  rw [if_neg hcount] at halloc
  have hset : ∀ f, frameSet f c.takePrealloc = .ok ((), c.takePrealloc) := fun f => if_pos hinit
  unfold frameTake
  rw [bind_run halloc, bind_run (hset _)]
  rfl

theorem frameTake_out (hinit : c.frameAllocInitialized = false)
    (hcount : c.preallocCount = preallocMaxCount) : frameTake c = .error outOfPrealloc := by
  have halloc := frameAlloc_prealloc hinit
  rw [if_pos hcount] at halloc
  exact bind_fails halloc

theorem pgWriteEntry_out (hinit : c.frameAllocInitialized = false)
    (hcount : c.preallocCount = preallocMaxCount)
    (hnil : c.mem (frameNo pgd) (addrPde v) = nilPgEnt) :
    Direct.pgWriteEntry cur pgd v e c = .error outOfPrealloc := by
  have hread : readWord (frameNo pgd) (addrPde v) c =
      .ok (c.mem (frameNo pgd) (addrPde v), c) := rfl
  have htable : Direct.pgTableFrame cur pgd (addrPde v) c = .error outOfPrealloc := by
    unfold Direct.pgTableFrame Direct.pgDirNew
    rw [bind_run hread]
    dsimp only
    rw [if_pos hnil]
    apply bind_fails
    exact bind_fails (frameTake_out hinit hcount)
  exact bind_fails htable

theorem pgWriteEntry_makes (cur : Task) (e : Word) (ha : PreallocOk c)
    (hinit : c.frameAllocInitialized = false)
    (hcount : c.preallocCount ≠ preallocMaxCount)
    (hnil : c.mem (frameNo pgd) (addrPde v) = nilPgEnt) : ∃ n, Handed c n c.takePrealloc ∧
      Direct.pgWriteEntry cur pgd v e c = .ok ((), ((c.takePrealloc.setFrame n fun _ => 0#32).setWord
        (frameNo pgd) (addrPde v) (pageEntry (frameAddr n) (baseFlags cur))).setWord
          n (addrPte v) e) := by
  have htake := frameTake_prealloc hinit hcount
  obtain ⟨n, hf, hn⟩ := frameTake_handed ha htake
  refine ⟨n, hn, ?_⟩
  rw [hf] at htake
  have hnew : Direct.pgDirNew c =
      .ok (frameAddr n, c.takePrealloc.setFrame n fun _ => 0#32) := by
    unfold Direct.pgDirNew
    rw [bind_run htake, frameNo_frameAddr hn.lt]
    rfl
  have hread : readWord (frameNo pgd) (addrPde v) c =
      .ok (c.mem (frameNo pgd) (addrPde v), c) := rfl
  have htable : Direct.pgTableFrame cur pgd (addrPde v) c =
      .ok (pteAddr (pageEntry (frameAddr n) (baseFlags cur)),
        (c.takePrealloc.setFrame n fun _ => 0#32).setWord
          (frameNo pgd) (addrPde v) (pageEntry (frameAddr n) (baseFlags cur))) := by
    unfold Direct.pgTableFrame
    rw [bind_run hread]
    dsimp only
    rw [if_pos hnil, bind_run hnew]
    change Except.ok (pteAddr (Phys.mem (Phys.setWord _ _ _ _) _ _), _) = _
    rw [setWord_mem_self]
  unfold Direct.pgWriteEntry
  rw [bind_run htable, frameNo_pteAddr, frameNo_made hn.lt]
  rfl

end Take

/-- Of `PreallocFrames` `n` frames are taken, and of the pages behind the 4 MB page of the kernel
the first `m` are present, so there is a table for them as soon as there is one. -/
structure Behind (d n m : Nat) (c : Phys) : Prop where
  walk : BootWalkable {0, 768} d c
  ready : c.mmuReady = true
  taken : c.preallocCount = n
  wide : Extended (c.mem d 768)
  noTable : m = 0 → c.mem d 769 = nilPgEnt
  table : m ≠ 0 → c.mem d 769 ≠ nilPgEnt
  pages : m ≠ 0 → ∀ j, j < 1024 → (Present (c.mem (frameNo (c.mem d 769)) j) ↔ j < m)

section Pages
variable {c c' : Phys} {cur : Task} {d n m x : Nat} {v e f : Word}

theorem addrPde_kernel (hv : v.toNat = kZero.toNat + x) : addrPde v = 768 + x / 4194304 := by
  have hk : kZero.toNat = 768 * 4194304 := rfl
  rw [addrPde_eq]
  omega

theorem addrPte_kernel (hv : v.toNat = kZero.toNat + x) : addrPte v = x / 4096 % 1024 := by
  have hk : kZero.toNat = 768 * 1024 * 4096 := rfl
  rw [addrPte_eq]
  omega

theorem Behind.narrow (h : Behind d n m c) : ¬ Extended (c.mem d 769) := by
  intro hx
  rcases (h.walk.1.wide 769 (by decide) hx).1 with h0 | h768
  · cases h0
  · cases h768

theorem Behind.wide_ne (h : Behind d n m c) : c.mem d 768 ≠ nilPgEnt := by
  intro hnil
  have hx := h.wide
  rw [hnil] at hx
  exact absurd hx (by decide)

theorem Behind.allocated (h : Behind d n m c) (hv : v.toNat = kZero.toNat + x)
    (hx : x < 8388608) : Allocated d c v ↔ x / 4096 < 1024 + m := by
  unfold Allocated
  rw [isAllocated_iff, addrPde_kernel hv, addrPte_kernel hv]
  by_cases hlow : x < 4194304
  · have hslot : 768 + x / 4194304 = 768 := by omega
    rw [hslot]
    exact iff_of_true ⟨h.walk.1.present 768 (by decide) h.wide_ne, Or.inl h.wide⟩ (by omega)
  · have hslot : 768 + x / 4194304 = 769 := by omega
    rw [hslot]
    by_cases hm : m = 0
    · rw [h.noTable hm]
      exact iff_of_false (fun hp => absurd hp.1 not_present_nil) (by omega)
    · rw [h.pages hm _ (Nat.mod_lt _ (by decide))]
      have hp := h.walk.1.present 769 (by decide) (h.table hm)
      constructor
      · rintro ⟨-, hwide | hlt⟩
        · exact absurd hwide h.narrow
        · omega
      · intro hlt
        exact ⟨hp, Or.inr (by omega)⟩

theorem Behind.take (h : Behind d n m c) (hn : n < 8) :
    ∃ f, frameTake c = .ok (f, c.takePrealloc) ∧ Behind d (n + 1) m c.takePrealloc := by
  have hcount : c.preallocCount ≠ preallocMaxCount := by
    rw [h.taken]
    exact Nat.ne_of_lt hn
  have htake := frameTake_prealloc h.walk.2 hcount
  obtain ⟨k, -, hk⟩ := frameTake_handed h.walk.1.prealloc htake
  refine ⟨_, htake, ⟨h.walk.1.handed hk, h.walk.2⟩, h.ready, ?_, h.wide, h.noTable, h.table,
    h.pages⟩
  exact congrArg Nat.succ h.taken

section Write
variable {ws : Set Nat} {i t : Nat}

theorem BootWalkable.writes (h : BootWalkable ws (frameNo cur.pgd) c) (hv : addrPde v = i)
    (hne : c.mem (frameNo cur.pgd) i ≠ nilPgEnt) (e : Word) :
    Direct.pgWriteEntry cur cur.pgd v e c =
        .ok ((), c.setWord (frameNo (c.mem (frameNo cur.pgd) i)) (addrPte v) e) ∧
      BootWalkable ws (frameNo cur.pgd)
        (c.setWord (frameNo (c.mem (frameNo cur.pgd) i)) (addrPte v) e) ∧
      (c.setWord (frameNo (c.mem (frameNo cur.pgd) i)) (addrPte v) e).mem (frameNo cur.pgd) =
        c.mem (frameNo cur.pgd) := by
  subst hv
  have hrun := pgWriteEntry_run cur e hne
  have hapart := (h.1.tables (addrPde v) (addrPde_lt v) hne).2
  exact ⟨hrun, pgWriteEntry_walkable cur _ _ _ _ _ _ h hrun, setWord_mem_frame (Ne.symm hapart)⟩

theorem BootWalkable.makes (h : BootWalkable ws (frameNo cur.pgd) c) (hcount : c.preallocCount < 8)
    (hv : addrPde v = i) (hnil : c.mem (frameNo cur.pgd) i = nilPgEnt) (e : Word) :
    ∃ t, t < 2 ^ 20 ∧ frameNo cur.pgd ≠ t ∧
      Direct.pgWriteEntry cur cur.pgd v e c =
        .ok ((), ((c.takePrealloc.setFrame t fun _ => 0#32).setWord (frameNo cur.pgd) i
          (pageEntry (frameAddr t) (baseFlags cur))).setWord t (addrPte v) e) ∧
      BootWalkable ws (frameNo cur.pgd)
        (((c.takePrealloc.setFrame t fun _ => 0#32).setWord (frameNo cur.pgd) i
          (pageEntry (frameAddr t) (baseFlags cur))).setWord t (addrPte v) e) := by
  subst hv
  obtain ⟨t, ht, hrun⟩ :=
    pgWriteEntry_makes cur e h.1.prealloc h.2 (Nat.ne_of_lt hcount) hnil
  refine ⟨t, ht.lt, ?_, hrun, pgWriteEntry_walkable cur _ _ _ _ _ _ h hrun⟩
  intro heq
  exact h.1.dir (heq ▸ ht.spare)

end Write

/-- In the 4 MB page no entry that is written is that of a page. -/
theorem Behind.write_wide (h : Behind (frameNo cur.pgd) n m c) (hv : addrPde v = 768) (e : Word) :
    ∃ c', Direct.pgWriteEntry cur cur.pgd v e c = .ok ((), c') ∧
      Behind (frameNo cur.pgd) n m c' := by
  obtain ⟨hrun, hwalk, hdir⟩ := h.walk.writes hv h.wide_ne e
  refine ⟨_, hrun, hwalk, h.ready, h.taken, ?_, ?_, ?_, ?_⟩
  · rw [hdir]
    exact h.wide
  · rw [hdir]
    exact h.noTable
  · rw [hdir]
    exact h.table
  · intro hm
    -- the table is not the frame that the 4 MB entry is taken to refer to
    have hapart : frameNo (c.mem (frameNo cur.pgd) 769) ≠
        frameNo (c.mem (frameNo cur.pgd) 768) := by
      intro heq
      have := h.walk.1.apart 769 768 (by decide) (by decide) (h.table hm) h.narrow h.wide_ne heq
      cases this
    rw [hdir, setWord_mem_frame hapart]
    exact h.pages hm

theorem Behind.write_page (h : Behind (frameNo cur.pgd) n m c) (hm : m ≠ 0)
    (hv : addrPde v = 769) (hj : addrPte v ≤ m) (he : Present e) :
    ∃ c', Direct.pgWriteEntry cur cur.pgd v e c = .ok ((), c') ∧
      Behind (frameNo cur.pgd) n (max m (addrPte v + 1)) c' := by
  obtain ⟨hrun, hwalk, hdir⟩ := h.walk.writes hv (h.table hm) e
  refine ⟨_, hrun, hwalk, h.ready, h.taken, ?_, fun h0 => by omega, fun _ => ?_, ?_⟩
  · rw [hdir]
    exact h.wide
  · rw [hdir]
    exact h.table hm
  · intro _ j hlt
    rw [hdir]
    by_cases hjv : j = addrPte v
    · rw [hjv, setWord_mem_self]
      exact iff_of_true he (by omega)
    · rw [setWord_mem_of_ne hjv, h.pages hm j hlt]
      omega

/-- The first page, for which the table is made. -/
theorem Behind.write_first (h : Behind (frameNo cur.pgd) n 0 c) (hn : n < 8)
    (hv : addrPde v = 769) (hj : addrPte v = 0) (he : Present e) :
    ∃ c', Direct.pgWriteEntry cur cur.pgd v e c = .ok ((), c') ∧
      Behind (frameNo cur.pgd) (n + 1) 1 c' := by
  obtain ⟨t, ht, hdt, hrun, hwalk⟩ :=
    h.walk.makes (h.taken.trans_lt hn) hv (h.noTable rfl) e
  rw [hj] at hrun hwalk
  refine ⟨_, hrun, hwalk, h.ready, congrArg Nat.succ h.taken, ?_, fun h0 => by omega, fun _ => ?_,
    ?_⟩
  · rw [setWord_mem_frame hdt, setWord_mem_of_ne (by decide), setFrame_mem_of_ne _ hdt]
    exact h.wide
  · rw [setWord_mem_frame hdt, setWord_mem_self]
    exact (present_entry cur t).ne_nil
  · intro _ j _
    rw [setWord_mem_frame hdt, setWord_mem_self, frameNo_made ht]
    by_cases hj0 : j = 0
    · rw [hj0, setWord_mem_self]
      exact iff_of_true he Nat.one_pos
    · rw [setWord_mem_of_ne hj0, setWord_mem_frame (Ne.symm hdt), setFrame_mem_self]
      exact iff_of_false not_present_nil (by omega)

end Pages

/-- A round of the loop of `task_brk` above the break. -/
def brkRound (cur : Task) (page : Word) : PhysM Unit := do
  let c ← get
  if c.mmuReady then
    if ¬ (← Direct.pgIsAllocated cur page) then Direct.pgAlloc cur page

/-- The frames it takes to have `m'` pages where there were `m`. -/
def spent (m m' : Nat) : Nat := m' - m + if m = 0 ∧ m' ≠ 0 then 1 else 0

section Loops
variable {c : Phys} {cur : Task} {n m m' m'' t x o l fuel : Nat}
  {v paddr vaddr length old new : Word}

theorem spent_self : spent m m = 0 := by
  unfold spent
  split
  · omega
  · omega

theorem spent_trans (h : m ≤ m') (h' : m' ≤ m'') : spent m m' + spent m' m'' = spent m m'' := by
  unfold spent
  split_ifs <;> omega

theorem Behind.map (h : Behind (frameNo cur.pgd) t t c) (ht : t ≤ 1)
    (hv : v.toNat = kZero.toNat + x) (hx : x < 4198400) (paddr : Word) :
    ∃ c', Direct.pgMap cur paddr v c = .ok ((), c') ∧
      Behind (frameNo cur.pgd) (max t (x / 4096 + 1 - 1024)) (max t (x / 4096 + 1 - 1024)) c' := by
  have hpde := (addrPde_pgAddr v).trans (addrPde_kernel hv)
  have hpte := (addrPte_pgAddr v).trans (addrPte_kernel hv)
  by_cases hlow : x < 4194304
  · have hmax : max t (x / 4096 + 1 - 1024) = t := by omega
    rw [hmax]
    exact h.write_wide (by omega) _
  · have hpage : addrPte (pgAddr v) = 0 := by omega
    have hslot : addrPde (pgAddr v) = 769 := by omega
    have hmax : max t (x / 4096 + 1 - 1024) = 1 := by omega
    rw [hmax]
    by_cases h0 : t = 0
    · subst h0
      exact h.write_first (by decide) hslot hpage (present_pageEntry_baseFlags cur paddr)
    · have h1 : t = 1 := by omega
      subst h1
      obtain ⟨c', hrun, hc'⟩ := h.write_page (by decide) hslot (by omega)
        (present_pageEntry_baseFlags cur paddr)
      rw [hpage] at hc'
      exact ⟨c', hrun, hc'⟩

theorem Behind.mapSequence (h : Behind (frameNo cur.pgd) t t c) (ht : t ≤ 1)
    (hv : vaddr.toNat = kZero.toNat + x) (hx : x % 4096 = 0) (hlen : x + length.toNat ≤ 4198400)
    (hlow : x ≤ 4194304) (hfuel : 1025 ≤ fuel) (paddr : Word) :
    ∃ c', forPages (fun i => Direct.pgMap cur (paddr + i) (vaddr + i)) fuel 0#32 length c =
        .ok ((), c') ∧
      Behind (frameNo cur.pgd) (max t ((x + length.toNat + 4095) / 4096 - 1024))
        (max t ((x + length.toNat + 4095) / 4096 - 1024)) c' := by
  have hk : kZero.toNat = 3221225472 := rfl
  have haddr : ∀ k ≤ (length.toNat + 4095) / 4096, (roundAddr 0#32 k).toNat = k * 4096 := by
    intro k hle
    have h0 : (0#32 : Word).toNat = 0 := rfl
    rw [roundAddr_toNat (by omega), h0, Nat.zero_add]
  have hvisits : ∀ k < (length.toNat + 4095) / 4096, roundAddr 0#32 k < length := by
    intro k hlt
    rw [BitVec.lt_def, haddr k (Nat.le_of_lt hlt)]
    omega
  have hrounds : (length.toNat + 4095) / 4096 ≤ fuel := by omega
  obtain ⟨c', hrun, hc'⟩ := forPages_rounds
    (fun i => Direct.pgMap cur (paddr + i) (vaddr + i))
    (I := fun k => Behind (frameNo cur.pgd) (max t (x / 4096 + k - 1024))
      (max t (x / 4096 + k - 1024)))
    hvisits
    (by
      rw [BitVec.lt_def, haddr _ (Nat.le_refl _)]
      omega)
    hrounds
    (by
      intro k c hlt hc
      have hnext : (vaddr + roundAddr 0#32 k).toNat = kZero.toNat + (x + k * 4096) := by
        rw [BitVec.toNat_add, haddr k (Nat.le_of_lt hlt)]
        omega
      obtain ⟨c', hrun, hc'⟩ := hc.map (by omega) hnext (by omega) (paddr + roundAddr 0#32 k)
      have hmax : max (max t (x / 4096 + k - 1024)) ((x + k * 4096) / 4096 + 1 - 1024) =
          max t (x / 4096 + (k + 1) - 1024) := by omega
      rw [hmax] at hc'
      exact ⟨c', hrun, hc'⟩)
    (by
      have hmax : max t (x / 4096 + 0 - 1024) = t := by omega
      rw [hmax]
      exact h)
  have hend : x / 4096 + (length.toNat + 4095) / 4096 = (x + length.toNat + 4095) / 4096 := by
    omega
  rw [hend] at hc'
  exact ⟨c', hrun, hc'⟩

theorem Behind.brk_page (h : Behind (frameNo cur.pgd) n m c) (hv : v.toNat = kZero.toNat + x)
    (hx : x < 8388608) (hnext : x / 4096 ≤ 1024 + m)
    (hn : n + spent m (max m (x / 4096 + 1 - 1024)) ≤ 8) :
    ∃ c', brkRound cur v c = .ok ((), c') ∧
      Behind (frameNo cur.pgd) (n + spent m (max m (x / 4096 + 1 - 1024)))
        (max m (x / 4096 + 1 - 1024)) c' := by
  rw [brkRound, brk_round cur v h.ready]
  split
  · rename_i hpage
    rw [h.allocated hv hx] at hpage
    have hmax : max m (x / 4096 + 1 - 1024) = m := by omega
    rw [hmax, spent_self]
    exact ⟨c, rfl, h⟩
  · rename_i hpage
    rw [h.allocated hv hx] at hpage
    have hmax : max m (x / 4096 + 1 - 1024) = m + 1 := by omega
    have hpde := (addrPde_pgAddr v).trans (addrPde_kernel hv)
    have hpte := (addrPte_pgAddr v).trans (addrPte_kernel hv)
    have hslot : addrPde (pgAddr v) = 769 := by omega
    rw [hmax] at hn ⊢
    unfold spent at hn ⊢
    obtain ⟨f, htake, h₁⟩ := h.take (by omega)
    rw [show Direct.pgAlloc cur v c = Direct.pgMap cur f v c.takePrealloc from bind_run htake]
    by_cases h0 : m = 0
    · subst h0
      rw [if_pos ⟨rfl, by decide⟩] at hn ⊢
      exact h₁.write_first (by omega) hslot (by omega) (present_pageEntry_baseFlags cur f)
    · rw [if_neg (fun hm => h0 hm.1)] at hn ⊢
      have hspent : n + (m + 1 - m + 0) = n + 1 := by omega
      obtain ⟨c', hrun, hc'⟩ := h₁.write_page h0 hslot (by omega)
        (present_pageEntry_baseFlags cur f)
      have hlast : max m (addrPte (pgAddr v) + 1) = m + 1 := by omega
      rw [hlast] at hc'
      rw [hspent]
      exact ⟨c', hrun, hc'⟩

theorem Behind.brk_out (h : Behind (frameNo cur.pgd) n m c) (hv : v.toNat = kZero.toNat + x)
    (hx : x < 8388608) (hpage : x / 4096 = 1024 + m) (hn : n ≤ 8) (hout : 8 < n + spent m (m + 1)) :
    brkRound cur v c = .error outOfPrealloc := by
  have hnot : ¬ Allocated (frameNo cur.pgd) c v := by
    rw [h.allocated hv hx]
    omega
  rw [brkRound, brk_round cur v h.ready, if_neg hnot]
  by_cases h8 : n = 8
  · exact bind_fails (frameTake_out h.walk.2 (h.taken.trans h8))
  · -- the frame of the page is the last one, and its table has none
    unfold spent at hout
    split at hout
    · rename_i hm
      obtain ⟨f, htake, h₁⟩ := h.take (by omega)
      rw [show Direct.pgAlloc cur v c = Direct.pgMap cur f v c.takePrealloc from bind_run htake]
      have hslot : addrPde (pgAddr v) = 769 := by
        rw [addrPde_pgAddr, addrPde_kernel hv]
        omega
      apply pgWriteEntry_out h₁.walk.2
      · rw [h₁.taken]
        change n + 1 = 8
        omega
      · rw [hslot]
        exact h₁.noTable hm.1
    · omega

/-- The pages behind the 4 MB page that are present when the first `k` rounds of a loop from
`KZERO + o` on are over. -/
def pagesAfter (m o k : Nat) : Nat := max m (o / 4096 + k - 1024)

theorem pagesAfter_zero (hfirst : o / 4096 ≤ 1024 + m) : pagesAfter m o 0 = m := by
  unfold pagesAfter
  omega

theorem spent_mono (h : m ≤ m') (h' : m' ≤ m'') : spent m m' ≤ spent m m'' := by
  rw [← spent_trans h h']
  exact Nat.le_add_right _ _

theorem brk_rounds (hold : old.toNat = kZero.toNat + o) {limit : Word}
    (hlimit : limit.toNat = kZero.toNat + l) (hhigh : l < 8388608 - 4096) {k : Nat}
    (hk : k ≤ (l - o + 4095) / 4096) (hlt : o < l) :
    (roundAddr old k).toNat = kZero.toNat + (o + k * 4096) ∧
      (roundAddr old k < limit ↔ k < (l - o + 4095) / 4096) := by
  have hz : kZero.toNat = 3221225472 := rfl
  have haddr : (roundAddr old k).toNat = kZero.toNat + (o + k * 4096) := by
    rw [roundAddr_toNat (by omega), hold, Nat.add_assoc]
  refine ⟨haddr, ?_⟩
  rw [BitVec.lt_def, haddr]
  omega

section Rise
variable {limit : Word} (h : Behind (frameNo cur.pgd) n m c)
  (hold : old.toNat = kZero.toNat + o) (hlimit : limit.toNat = kZero.toNat + l)
  (hlt : o < l) (hhigh : l < 8388608 - 4096) (hfirst : o / 4096 ≤ 1024 + m)

include hold hlimit hlt hhigh hfirst in
theorem Behind.brk_step {k : Nat} {c₁ : Phys}
    (h₁ : Behind (frameNo cur.pgd) (n + spent m (pagesAfter m o k)) (pagesAfter m o k) c₁)
    (hk : k < (l - o + 4095) / 4096) (hfit : n + spent m (pagesAfter m o (k + 1)) ≤ 8) :
    ∃ c₂, brkRound cur (roundAddr old k) c₁ = .ok ((), c₂) ∧
      Behind (frameNo cur.pgd) (n + spent m (pagesAfter m o (k + 1))) (pagesAfter m o (k + 1))
        c₂ := by
  obtain ⟨haddr, -⟩ := brk_rounds hold hlimit hhigh (Nat.le_of_lt hk) hlt
  have hnext : max (pagesAfter m o k) ((o + k * 4096) / 4096 + 1 - 1024) =
      pagesAfter m o (k + 1) := by
    unfold pagesAfter
    omega
  have hsum : n + spent m (pagesAfter m o k) +
      spent (pagesAfter m o k) (pagesAfter m o (k + 1)) = n + spent m (pagesAfter m o (k + 1)) := by
    rw [Nat.add_assoc, spent_trans (by unfold pagesAfter; omega) (by unfold pagesAfter; omega)]
  have hstep := h₁.brk_page haddr (by omega) (by unfold pagesAfter; omega)
  rw [hnext, hsum] at hstep
  exact hstep hfit

include h hold hlimit hlt hhigh hfirst

theorem Behind.brk_loop
    (hfit : n + spent m (pagesAfter m o ((l - o + 4095) / 4096)) ≤ 8)
    (hfuel : (l - o + 4095) / 4096 ≤ fuel) :
    ∃ c', forPages (brkRound cur) fuel old limit c = .ok ((), c') ∧
      Behind (frameNo cur.pgd) (n + spent m (pagesAfter m o ((l - o + 4095) / 4096)))
        (pagesAfter m o ((l - o + 4095) / 4096)) c' := by
  apply forPages_rounds
    (I := fun k => Behind (frameNo cur.pgd) (n + spent m (pagesAfter m o k)) (pagesAfter m o k))
  · intro k hk
    exact (brk_rounds hold hlimit hhigh (Nat.le_of_lt hk) hlt).2.mpr hk
  · intro hend
    exact absurd ((brk_rounds hold hlimit hhigh (Nat.le_refl _) hlt).2.mp hend) (Nat.lt_irrefl _)
  · exact hfuel
  · intro k c₁ hk h₁
    apply Behind.brk_step hold hlimit hlt hhigh hfirst h₁ hk
    have hfrom : m ≤ pagesAfter m o (k + 1) := by
      unfold pagesAfter
      omega
    have hto : pagesAfter m o (k + 1) ≤ pagesAfter m o ((l - o + 4095) / 4096) := by
      unfold pagesAfter
      omega
    have := spent_mono hfrom hto
    omega
  · rw [pagesAfter_zero hfirst, spent_self]
    exact h

/-- The first page for which no frame is left ends it. -/
theorem Behind.brk_loop_out (hn : n ≤ 8)
    (hout : 8 < n + spent m (pagesAfter m o ((l - o + 4095) / 4096)))
    (hfuel : (l - o + 4095) / 4096 ≤ fuel) :
    forPages (brkRound cur) fuel old limit c = .error outOfPrealloc := by
  have hex : ∃ k, 8 < n + spent m (pagesAfter m o k) := ⟨_, hout⟩
  have hlast := Nat.find_spec hex
  have hle := Nat.find_min' hex hout
  obtain ⟨k, hk⟩ : ∃ k, Nat.find hex = k + 1 := by
    apply Nat.exists_eq_succ_of_ne_zero
    intro hz
    rw [hz, pagesAfter_zero hfirst, spent_self] at hlast
    omega
  rw [hk] at hlast hle
  have hbefore : ∀ j ≤ k, n + spent m (pagesAfter m o j) ≤ 8 := by
    intro j hj
    exact Nat.not_lt.mp (Nat.find_min hex (by omega))
  apply forPages_fails (r := k)
    (I := fun k => Behind (frameNo cur.pgd) (n + spent m (pagesAfter m o k)) (pagesAfter m o k))
  · intro j hj
    exact (brk_rounds hold hlimit hhigh (by omega) hlt).2.mpr (by omega)
  · omega
  · intro j c₁ hj h₁
    exact Behind.brk_step hold hlimit hlt hhigh hfirst h₁ (by omega) (hbefore (j + 1) (by omega))
  · intro c₁ h₁
    obtain ⟨haddr, -⟩ := brk_rounds hold hlimit hhigh (k := k) (by omega) hlt
    have hgrows : pagesAfter m o (k + 1) ≠ pagesAfter m o k := by
      intro heq
      rw [heq] at hlast
      have := hbefore k (Nat.le_refl k)
      omega
    have hfrom : m ≤ pagesAfter m o k := by
      unfold pagesAfter
      omega
    have hto : pagesAfter m o k ≤ pagesAfter m o (k + 1) := by
      unfold pagesAfter
      omega
    have hsum := spent_trans hfrom hto
    have hone : pagesAfter m o (k + 1) = pagesAfter m o k + 1 ∧
        (o + k * 4096) / 4096 = 1024 + pagesAfter m o k := by
      unfold pagesAfter at hgrows ⊢
      omega
    rw [hone.1] at hsum hlast
    exact h₁.brk_out haddr (by omega) hone.2 (hbefore k (Nat.le_refl k)) (by omega)
  · rw [pagesAfter_zero hfirst, spent_self]
    exact h

end Rise

section Brk
variable (h : Behind (frameNo cur.pgd) n m c) (hold : old.toNat = kZero.toNat + o)
  (hnew : new.toNat = kZero.toNat + l)

theorem kernel_ne_zero (hnew : new.toNat = kZero.toNat + l) : new ≠ 0#32 := by
  have hz : kZero.toNat = 3221225472 := rfl
  intro h0
  rw [h0] at hnew
  change 0 = _ at hnew
  omega

theorem brk_limit (hnew : new.toNat = kZero.toNat + l) (hhigh : l < 8388608 - 8192) :
    (new + pageSize).toNat = kZero.toNat + (l + 4096) := by
  have hz : kZero.toNat = 3221225472 := rfl
  have hsz : pageSize.toNat = 4096 := rfl
  rw [BitVec.toNat_add, hsz]
  omega

include h hold hnew

theorem Behind.taskBrk_up (hlt : o < l) (hhigh : l < 8388608 - 8192)
    (hfirst : o / 4096 ≤ 1024 + m)
    (hfit : n + spent m (pagesAfter m o ((l + 4096 - o + 4095) / 4096)) ≤ 8)
    {fuel : Nat} (hfuel : 2 ^ 20 ≤ fuel) :
    ∃ c', Direct.taskBrk cur fuel old new c = .ok (new, c') ∧
      Behind (frameNo cur.pgd) (n + spent m (pagesAfter m o ((l + 4096 - o + 4095) / 4096)))
        (pagesAfter m o ((l + 4096 - o + 4095) / 4096)) c' := by
  have hrounds : (l + 4096 - o + 4095) / 4096 ≤ fuel := by omega
  obtain ⟨c', hrun, hc'⟩ := h.brk_loop hold (brk_limit hnew hhigh) (by omega) (by omega) hfirst
    hfit hrounds
  refine ⟨c', ?_, hc'⟩
  unfold Direct.taskBrk
  rw [if_neg (kernel_ne_zero hnew), if_pos (BitVec.lt_def.mpr (by omega))]
  exact bind_run hrun

theorem Behind.taskBrk_out (hlt : o < l) (hhigh : l < 8388608 - 8192)
    (hfirst : o / 4096 ≤ 1024 + m) (hn : n ≤ 8)
    (hout : 8 < n + spent m (pagesAfter m o ((l + 4096 - o + 4095) / 4096)))
    {fuel : Nat} (hfuel : 2 ^ 20 ≤ fuel) :
    Direct.taskBrk cur fuel old new c = .error outOfPrealloc := by
  have hrounds : (l + 4096 - o + 4095) / 4096 ≤ fuel := by omega
  have hrun := h.brk_loop_out hold (brk_limit hnew hhigh) (by omega) (by omega) hfirst hn hout
    hrounds
  unfold Direct.taskBrk
  rw [if_neg (kernel_ne_zero hnew), if_pos (BitVec.lt_def.mpr (by omega))]
  exact bind_fails hrun

theorem Behind.taskBrk_down (hlt : l < o) (hlow : o ≤ 4194304) (hfuel : 2 ^ 20 ≤ fuel) :
    ∃ c', Direct.taskBrk cur fuel old new c = .ok (new, c') ∧
      Behind (frameNo cur.pgd) n m c' := by
  have hz : kZero.toNat = 3221225472 := rfl
  have hpold := pgAddr_toNat old
  have hpnew := pgAddr_toNat new
  have hstart : (pgAddr new + 1#32).toNat = (pgAddr new).toNat + 1 := by
    rw [BitVec.toNat_add]
    change ((pgAddr new).toNat + 1) % 2 ^ 32 = _
    omega
  have hlimit : (pgAddr old).toNat + 4096 ≤ 2 ^ 32 := by omega
  obtain ⟨c', hrun, hc'⟩ := forPages_ends (s := c)
    (fun page => do
      let c ← get
      if c.mmuReady then Direct.pgUnmap cur page)
    (Behind (frameNo cur.pgd) n m) hlimit fuel (pgAddr new + 1#32) (by omega) h (by
      intro v t hv ht
      obtain ⟨k, hk, hlast⟩ := (visits_iff hlimit).mp hv
      have hslot : addrPde (pgAddr v) = 768 := by
        rw [addrPde_pgAddr, addrPde_eq]
        omega
      rw [unmap_round cur v ht.ready]
      exact ht.write_wide hslot _)
  refine ⟨c', ?_, hc'⟩
  unfold Direct.taskBrk
  rw [if_neg (kernel_ne_zero hnew), if_neg (by rw [BitVec.lt_def]; omega),
    if_pos (BitVec.lt_def.mpr (by omega))]
  exact bind_run hrun

/-- `task_brk` where the pages up to the new break are present. -/
theorem Behind.taskBrk_mapped (hlow : o ≤ 4194304) (hl : l ≤ 4194304) (hn : n ≤ 8)
    (hpages : (l + 4095) / 4096 < 1024 + m) (hfuel : 2 ^ 20 ≤ fuel) :
    ∃ c', Direct.taskBrk cur fuel old new c = .ok (new, c') ∧
      Behind (frameNo cur.pgd) n m c' := by
  rcases Nat.lt_trichotomy o l with hlt | heq | hlt
  · have hsame : pagesAfter m o ((l + 4096 - o + 4095) / 4096) = m := by
      unfold pagesAfter
      omega
    have hup := h.taskBrk_up hold hnew hlt (by omega) (by omega)
    rw [hsame, spent_self] at hup
    exact hup hn hfuel
  · have hsame : old = new := BitVec.eq_of_toNat_eq (by omega)
    refine ⟨c, ?_, h⟩
    unfold Direct.taskBrk
    rw [hsame, if_neg (kernel_ne_zero hnew), if_neg (BitVec.lt_irrefl _),
      if_neg (BitVec.lt_irrefl _)]
    rfl
  · exact h.taskBrk_down hold hnew hlt hlow hfuel

end Brk

end Loops

/-- Of `PreallocFrames` `n` frames are taken, each for the table of one slot behind the 4 MB page
of the kernel. -/
structure Tables (d n : Nat) (c : Phys) : Prop where
  walk : BootWalkable {0, 768} d c
  taken : c.preallocCount = n
  slots : ∀ i, 768 ≤ i → i < 1023 → (c.mem d i = nilPgEnt ↔ 768 + n < i)

section Tables
variable {c : Phys} {cur : Task} {n i x fuel : Nat} {v e paddr vaddr length : Word}

theorem Tables.old (h : Tables (frameNo cur.pgd) n c) (hv : addrPde v = i) (hlow : 768 ≤ i)
    (hi : i ≤ 768 + n) (hn : n ≤ 8) (e : Word) :
    ∃ c', Direct.pgWriteEntry cur cur.pgd v e c = .ok ((), c') ∧
      Tables (frameNo cur.pgd) n c' := by
  have hne : c.mem (frameNo cur.pgd) i ≠ nilPgEnt := by
    rw [Ne, h.slots i hlow (by omega)]
    omega
  obtain ⟨hrun, hwalk, hdir⟩ := h.walk.writes hv hne e
  refine ⟨_, hrun, hwalk, h.taken, ?_⟩
  rw [hdir]
  exact h.slots

theorem Tables.new (h : Tables (frameNo cur.pgd) n c) (hv : addrPde v = 769 + n) (hn : n < 8)
    (e : Word) :
    ∃ c', Direct.pgWriteEntry cur cur.pgd v e c = .ok ((), c') ∧
      Tables (frameNo cur.pgd) (n + 1) c' := by
  have hnil : c.mem (frameNo cur.pgd) (769 + n) = nilPgEnt := by
    rw [h.slots (769 + n) (by omega) (by omega)]
    omega
  obtain ⟨t, -, hdt, hrun, hwalk⟩ := h.walk.makes (h.taken.trans_lt hn) hv hnil e
  refine ⟨_, hrun, hwalk, congrArg Nat.succ h.taken, ?_⟩
  intro i hlow hi
  rw [setWord_mem_frame hdt]
  by_cases hin : i = 769 + n
  · rw [hin, setWord_mem_self]
    exact iff_of_false (present_entry cur t).ne_nil (by omega)
  · rw [setWord_mem_of_ne hin, setFrame_mem_of_ne _ hdt]
    exact (h.slots i hlow hi).trans (by omega)

/-- A range of pages that needs nine tables. -/
theorem Tables.mapSequence_out (h : Tables (frameNo cur.pgd) 0 c)
    (hv : vaddr.toNat = kZero.toNat + 1048576) (hlen : 36700160 < length.toNat)
    (hfuel : 2 ^ 20 ≤ fuel) (paddr : Word) :
    forPages (fun i => Direct.pgMap cur (paddr + i) (vaddr + i)) fuel 0#32 length c =
      .error outOfPrealloc := by
  have hz : kZero.toNat = 3221225472 := rfl
  have haddr : ∀ k ≤ 8960, (roundAddr 0#32 k).toNat = k * 4096 := by
    intro k hle
    have h0 : (0#32 : Word).toNat = 0 := rfl
    rw [roundAddr_toNat (by omega), h0, Nat.zero_add]
  have hslot : ∀ k ≤ 8960,
      addrPde (pgAddr (vaddr + roundAddr 0#32 k)) = 768 + (k + 256) / 1024 := by
    intro k hle
    have hnext : (vaddr + roundAddr 0#32 k).toNat = kZero.toNat + (1048576 + k * 4096) := by
      rw [BitVec.toNat_add, haddr k hle]
      omega
    rw [addrPde_pgAddr, addrPde_kernel hnext]
    omega
  apply forPages_fails (r := 8960) (I := fun k => Tables (frameNo cur.pgd) ((k + 255) / 1024))
  · intro k hk
    rw [BitVec.lt_def, haddr k hk]
    omega
  · omega
  · intro k c₁ hk h₁
    have hk' := hslot k (Nat.le_of_lt hk)
    by_cases hmade : (k + 256) / 1024 ≤ (k + 255) / 1024
    · have hsame : (k + 1 + 255) / 1024 = (k + 255) / 1024 := by omega
      rw [hsame]
      exact h₁.old hk' (by omega) (by omega) (by omega) _
    · have hnew : (k + 1 + 255) / 1024 = (k + 255) / 1024 + 1 := by omega
      rw [hnew]
      exact h₁.new (hk'.trans (by omega)) (by omega) _
  · intro c₁ h₁
    have hk' := hslot 8960 (Nat.le_refl _)
    apply pgWriteEntry_out h₁.walk.2 h₁.taken
    rw [hk', h₁.slots _ (by omega) (by omega)]
    omega
  · exact h

end Tables

end AkKernel
