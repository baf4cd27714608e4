import AkKernel.Mem.Ownership
import AkKernel.Mem.Space

/-!
# What the processor walks and what `pg_write_entry` writes

`pg_write_entry` takes each directory entry that is not nil for a page table, also one that the
processor takes for a 4 MB page. Frames come from `PreallocFrames` until `frame_alloc_init`.
-/

set_option autoImplicit false

namespace AkKernel

open Programs

/-- The frames that `frame_alloc` can still return. -/
def spares (c : Phys) : Set Nat :=
  {n | if c.frameAllocInitialized = true then n ∈ c.free
    else ∃ k, c.preallocCount ≤ k ∧ k < preallocMaxCount ∧
      n = frameNo (c.preallocFrames + BitVec.ofNat 32 (k * 4096))}

/-- While it is in use, `PreallocFrames` is `PAGE_ALIGN`, and no more frames were taken than
there are. -/
structure PreallocOk (c : Phys) : Prop where
  aligned : c.frameAllocInitialized = false → c.preallocFrames.toNat % 4096 = 0
  count : c.frameAllocInitialized = false → c.preallocCount ≤ preallocMaxCount

/-- The frame `n` was handed out. -/
structure Handed (c : Phys) (n : Nat) (c₁ : Phys) : Prop where
  spare : n ∈ spares c
  lt : n < 2 ^ 20
  mem : c₁.mem = c.mem
  left : ∀ m ∈ spares c₁, m ∈ spares c ∧ m ≠ n
  prealloc : PreallocOk c₁
  init : c₁.frameAllocInitialized = c.frameAllocInitialized

section Spares
variable {c c' : Phys} {n k m : Nat} {f : Word}

theorem spares_init (h : c.frameAllocInitialized = true) : n ∈ spares c ↔ n ∈ c.free := by
  change (if c.frameAllocInitialized = true then n ∈ c.free else _) ↔ _
  rw [if_pos h]

theorem spares_prealloc (h : c.frameAllocInitialized = false) : n ∈ spares c ↔
    ∃ k, c.preallocCount ≤ k ∧ k < preallocMaxCount ∧
      n = frameNo (c.preallocFrames + BitVec.ofNat 32 (k * 4096)) := by
  change (if c.frameAllocInitialized = true then n ∈ c.free else _) ↔ _
  rw [if_neg (by rw [h]; decide)]

theorem preallocFrame_toNat (p : Word) (k : Nat) :
    (p + BitVec.ofNat 32 (k * 4096)).toNat = (p.toNat + k * 4096) % 2 ^ 32 := by
  rw [BitVec.toNat_add, BitVec.toNat_ofNat, Nat.add_mod_mod]

theorem preallocFrame_inj {p : Word} (hk : k < 8) (hm : m < 8)
    (h : frameNo (p + BitVec.ofNat 32 (k * 4096)) = frameNo (p + BitVec.ofNat 32 (m * 4096))) :
    k = m := by
  unfold frameNo at h
  rw [preallocFrame_toNat, preallocFrame_toNat] at h
  have := p.isLt
  omega

theorem preallocFrame_addr {p : Word} (hp : p.toNat % 4096 = 0) (k : Nat) :
    p + BitVec.ofNat 32 (k * 4096) = frameAddr (frameNo (p + BitVec.ofNat 32 (k * 4096))) := by
  apply BitVec.eq_of_toNat_eq
  unfold frameAddr frameNo
  rw [preallocFrame_toNat, BitVec.toNat_ofNat]
  omega

theorem frameTake_handed (ha : PreallocOk c) (h : frameTake c = .ok (f, c')) :
    ∃ n, f = frameAddr n ∧ Handed c n c' := by
  by_cases hinit : c.frameAllocInitialized = true
  · obtain ⟨n, hn, hf, rfl⟩ := frameTake_fresh hinit h
    refine ⟨n, hf, (spares_init hinit).mpr hn, FrameBitmap.free_lt hn, rfl, ?_,
      ⟨ha.aligned, ha.count⟩, rfl⟩
    intro m hm
    have hm' : m ∈ (c.mark n).free := (spares_init (c := c.mark n) hinit).mp hm
    rw [free_mark hn] at hm'
    obtain ⟨hne, hm'⟩ := Finset.mem_erase.mp hm'
    exact ⟨(spares_init hinit).mpr hm', hne⟩
  · have hinit' : c.frameAllocInitialized = false := by simpa using hinit
    obtain ⟨g, c₁, h1, h2⟩ := bind_ok.mp h
    obtain ⟨⟨⟩, c₂, h3, h4⟩ := bind_ok.mp h2
    obtain ⟨rfl, rfl⟩ := pure_ok.mp h4
    obtain ⟨c₀, c₃, h5, h6⟩ := bind_ok.mp h1
    cases h5
    rw [if_pos hinit'] at h6
    split at h6
    · cases h6
    · rename_i hne
      have hcount : c.preallocCount < 8 := Nat.lt_of_le_of_ne (ha.count hinit') hne
      cases h6
      have hset : c' = { c with preallocCount := c.preallocCount + 1 } := by
        unfold frameSet at h3
        rw [if_pos hinit'] at h3
        cases h3
        rfl
      subst hset
      refine ⟨_, preallocFrame_addr (ha.aligned hinit') _, ?_, frameNo_lt _, rfl, ?_,
        ⟨ha.aligned, fun _ => hcount⟩, rfl⟩
      · exact (spares_prealloc hinit').mpr ⟨c.preallocCount, Nat.le_refl _, hcount, rfl⟩
      · intro m hm
        obtain ⟨k, hle, hlt, he⟩ := (spares_prealloc
          (c := { c with preallocCount := c.preallocCount + 1 }) hinit').mp hm
        refine ⟨(spares_prealloc hinit').mpr ⟨k, Nat.le_of_succ_le hle, hlt, he⟩, ?_⟩
        rw [he]
        intro heq
        have := preallocFrame_inj hlt hcount heq
        change c.preallocCount + 1 ≤ k at hle
        omega

end Spares

/-- A directory with 4 MB pages at slots of `ws` only, whose tables are frames in use, each at
one slot. -/
structure Walkable (ws : Set Nat) (c : Phys) (d : Nat) : Prop where
  prealloc : PreallocOk c
  dir : d ∉ spares c
  present : ∀ i, i < 1024 → c.mem d i ≠ nilPgEnt → Present (c.mem d i)
  wide : ∀ i, i < 1024 → Extended (c.mem d i) → i ∈ ws ∧ Linked (c.mem d i)
  tables : ∀ i, i < 1024 → c.mem d i ≠ nilPgEnt →
    frameNo (c.mem d i) ∉ spares c ∧ frameNo (c.mem d i) ≠ d
  apart : ∀ i j, i < 1024 → j < 1024 → c.mem d i ≠ nilPgEnt → ¬ Extended (c.mem d i) →
    c.mem d j ≠ nilPgEnt → frameNo (c.mem d i) = frameNo (c.mem d j) → i = j

/-- Slot `i` of `d` has a table in `c₁`: the one it had, or a frame that was handed out. -/
inductive TableReady (flags : Word) (d i : Nat) (c : Phys) : Phys → Prop where
  | old : c.mem d i ≠ nilPgEnt → TableReady flags d i c c
  | new (n : Nat) (c₁ : Phys) : c.mem d i = nilPgEnt → Handed c n c₁ →
      TableReady flags d i c
        ((c₁.setFrame n fun _ => 0#32).setWord d i (pageEntry (frameAddr n) flags))

section Walk
variable {ws : Set Nat} {c c' c₁ : Phys} {cur : Task} {d i j n : Nat} {pgd a v e paddr : Word}

theorem pgTableFrame_ready (ha : PreallocOk c) (h : Direct.pgTableFrame cur pgd i c = .ok (a, c')) :
    TableReady (baseFlags cur) (frameNo pgd) i c c' ∧ a = pteAddr (c'.mem (frameNo pgd) i) := by
  obtain ⟨dirent, c₁, h1, h2⟩ := bind_ok.mp h
  cases h1
  dsimp only at h2
  split at h2
  · rename_i hnil
    obtain ⟨f, c₂, h3, h4⟩ := bind_ok.mp h2
    obtain ⟨⟨⟩, c₃, h5, h6⟩ := bind_ok.mp h4
    obtain ⟨dirent, c₄, h7, h8⟩ := bind_ok.mp h6
    obtain ⟨rfl, rfl⟩ := pure_ok.mp h8
    obtain ⟨g, c₅, h9, h10⟩ := bind_ok.mp h3
    obtain ⟨n, rfl, hhand⟩ := frameTake_handed ha h9
    obtain ⟨⟨⟩, c₆, h11, h12⟩ := bind_ok.mp h10
    obtain ⟨rfl, rfl⟩ := pure_ok.mp h12
    cases h5
    cases h7
    cases h11
    rw [frameNo_frameAddr hhand.lt]
    exact ⟨.new n c₅ hnil hhand, rfl⟩
  · rename_i hne
    obtain ⟨dirent, c₂, h3, h4⟩ := bind_ok.mp h2
    obtain ⟨rfl, rfl⟩ := pure_ok.mp h4
    cases h3
    exact ⟨.old hne, rfl⟩

theorem pgWriteEntry_set (ha : PreallocOk c)
    (h : Direct.pgWriteEntry cur pgd v e c = .ok ((), c')) :
    ∃ c₁, TableReady (baseFlags cur) (frameNo pgd) (addrPde v) c c₁ ∧
      c' = c₁.setWord (frameNo (c₁.mem (frameNo pgd) (addrPde v))) (addrPte v) e := by
  obtain ⟨f, c₁, h1, h2⟩ := bind_ok.mp h
  obtain ⟨hready, rfl⟩ := pgTableFrame_ready ha h1
  cases h2
  refine ⟨c₁, hready, ?_⟩
  rw [frameNo_pteAddr]

theorem pgWriteEntry_run (cur : Task) (e : Word)
    (hne : c.mem (frameNo pgd) (addrPde v) ≠ nilPgEnt) : Direct.pgWriteEntry cur pgd v e c =
      .ok ((), c.setWord (frameNo (c.mem (frameNo pgd) (addrPde v))) (addrPte v) e) := by
  have hread : readWord (frameNo pgd) (addrPde v) c =
      .ok (c.mem (frameNo pgd) (addrPde v), c) := rfl
  have htable : Direct.pgTableFrame cur pgd (addrPde v) c =
      .ok (pteAddr (c.mem (frameNo pgd) (addrPde v)), c) := by
    unfold Direct.pgTableFrame
    rw [bind_run hread]
    dsimp only
    rw [if_neg hne]
    rfl
  unfold Direct.pgWriteEntry
  rw [bind_run htable, frameNo_pteAddr]
  rfl

theorem Walkable.handed (h : Walkable ws c d) (hn : Handed c n c₁) : Walkable ws c₁ d := by
  refine ⟨hn.prealloc, fun hd => h.dir (hn.left d hd).1, ?_, ?_, ?_, ?_⟩
  · rw [hn.mem]
    exact h.present
  · rw [hn.mem]
    exact h.wide
  · rw [hn.mem]
    exact fun i hi hne => ⟨fun hs => (h.tables i hi hne).1 (hn.left _ hs).1, (h.tables i hi hne).2⟩
  · rw [hn.mem]
    exact h.apart

theorem Walkable.made (cur : Task) (h : Walkable ws c d) (hn : Handed c n c₁) :
    Walkable ws ((c₁.setFrame n fun _ => 0#32).setWord d i
      (pageEntry (frameAddr n) (baseFlags cur))) d := by
  have hdn : d ≠ n := by
    intro he
    exact h.dir (he ▸ hn.spare)
  have hslot : ∀ k, ((c₁.setFrame n fun _ => 0#32).setWord d i
      (pageEntry (frameAddr n) (baseFlags cur))).mem d k =
      if k = i then pageEntry (frameAddr n) (baseFlags cur) else c.mem d k := by
    intro k
    split
    · rename_i hk
      rw [hk]
      exact setWord_mem_self
    · rename_i hk
      rw [setWord_mem_of_ne hk, setFrame_mem_of_ne _ hdn, hn.mem]
  have h₁ := h.handed hn
  have hspare : n ∉ spares c₁ := fun hs => (hn.left n hs).2 rfl
  have hold : ∀ k, k < 1024 → c.mem d k ≠ nilPgEnt → frameNo (c.mem d k) ≠ n := by
    intro k hk hne he
    exact (h.tables k hk hne).1 (he ▸ hn.spare)
  refine ⟨⟨hn.prealloc.aligned, hn.prealloc.count⟩, h₁.dir, ?_, ?_, ?_, ?_⟩
  · intro k hk
    rw [hslot]
    split
    · exact fun _ => present_entry cur n
    · exact h.present k hk
  · intro k hk
    rw [hslot]
    split
    · exact fun hx => absurd hx (not_extended_entry cur n)
    · exact h.wide k hk
  · intro k hk
    rw [hslot]
    split
    · rw [frameNo_made hn.lt]
      exact fun _ => ⟨hspare, Ne.symm hdn⟩
    · intro hne
      exact ⟨fun hs => (h.tables k hk hne).1 (hn.left _ hs).1, (h.tables k hk hne).2⟩
  · intro k l hk hl
    rw [hslot, hslot]
    split
    · rename_i hki
      split
      · rename_i hli
        intro _ _ _ _
        rw [hki, hli]
      · intro _ _ hne he
        rw [frameNo_made hn.lt] at he
        exact absurd he.symm (hold l hl hne)
    · split
      · intro hne _ _ he
        rw [frameNo_made hn.lt] at he
        exact absurd he (hold k hk hne)
      · exact h.apart k l hk hl

/-- Writing through a slot leaves the directory as it is, a 4 MB entry being none of its
tables either. -/
theorem Walkable.through (h : Walkable ws c d) (hi : i < 1024) (hne : c.mem d i ≠ nilPgEnt) :
    Walkable ws (c.setWord (frameNo (c.mem d i)) j e) d := by
  have hdir : (c.setWord (frameNo (c.mem d i)) j e).mem d = c.mem d :=
    setWord_mem_frame (Ne.symm (h.tables i hi hne).2)
  refine ⟨⟨h.prealloc.aligned, h.prealloc.count⟩, h.dir, ?_, ?_, ?_, ?_⟩
  · rw [hdir]
    exact h.present
  · rw [hdir]
    exact h.wide
  · rw [hdir]
    exact h.tables
  · rw [hdir]
    exact h.apart

theorem Walkable.ready (h : Walkable ws c d) (hr : TableReady (baseFlags cur) d i c c₁) :
    Walkable ws c₁ d ∧ c₁.mem d i ≠ nilPgEnt := by
  cases hr with
  | old hne => exact ⟨h, hne⟩
  | new n c₁ _ hn =>
    refine ⟨h.made cur hn, ?_⟩
    rw [setWord_mem_self]
    exact (present_entry cur n).ne_nil

theorem TableReady.init (hr : TableReady (baseFlags cur) d i c c₁) :
    c₁.frameAllocInitialized = c.frameAllocInitialized := by
  cases hr with
  | old _ => rfl
  | new n c₂ _ hn => exact hn.init

/-- `Walkable` before `frame_alloc_init`. -/
def BootWalkable (ws : Set Nat) (d : Nat) (c : Phys) : Prop :=
  Walkable ws c d ∧ c.frameAllocInitialized = false

theorem pgWriteEntry_walkable (cur : Task) (pgd v e : Word) :
    Preserves (BootWalkable ws (frameNo pgd)) (Direct.pgWriteEntry cur pgd v e) := by
  rintro c ⟨⟩ c' ⟨h, hinit⟩ hrun
  obtain ⟨c₁, hr, rfl⟩ := pgWriteEntry_set h.prealloc hrun
  obtain ⟨h₁, hne⟩ := h.ready hr
  exact ⟨h₁.through (addrPde_lt v) hne, hr.init.trans hinit⟩

theorem pgAlloc_walkable (cur : Task) (v : Word) :
    Preserves (BootWalkable ws (frameNo cur.pgd)) (Direct.pgAlloc cur v) := by
  have htake : Preserves (BootWalkable ws (frameNo cur.pgd)) frameTake := by
    rintro c f c' ⟨h, hinit⟩ hrun
    obtain ⟨n, -, hn⟩ := frameTake_handed h.prealloc hrun
    exact ⟨h.handed hn, hn.init.trans hinit⟩
  exact htake.bind fun f => pgWriteEntry_walkable cur _ _ _

theorem taskBrk_walkable (cur : Task) (fuel : Nat) (old new : Word) :
    Preserves (BootWalkable ws (frameNo cur.pgd)) (Direct.taskBrk cur fuel old new) := by
  have hget : Preserves (BootWalkable ws (frameNo cur.pgd)) (get : PhysM Phys) := by
    intro c a c' h hrun
    cases hrun
    exact h
  have hallocated : ∀ v,
      Preserves (BootWalkable ws (frameNo cur.pgd)) (Direct.pgIsAllocated cur v) := by
    intro v c a c' h hrun
    rw [pgIsAllocated_run] at hrun
    cases hrun
    exact h
  refine Preserves.ite (fun _ => preserves_pure _) fun _ => ?_
  refine Preserves.ite (fun _ => ?_) fun _ => Preserves.ite (fun _ => ?_) fun _ => preserves_pure _
  · refine Preserves.bind (preserves_forPages (fun v => ?_) fuel _ _) fun _ => preserves_pure _
    refine hget.bind fun c => Preserves.ite (fun _ => ?_) fun _ => preserves_pure _
    apply (hallocated v).bind
    intro b
    exact Preserves.ite (fun _ => pgAlloc_walkable cur v) fun _ => preserves_pure _
  · refine Preserves.bind (preserves_forPages (fun v => ?_) fuel _ _) fun _ => preserves_pure _
    apply hget.bind
    intro c
    exact Preserves.ite (fun _ => pgWriteEntry_walkable cur _ _ _) fun _ => preserves_pure _

/-- After `pg_map(paddr, v)` the processor finds `paddr` at `v`, and no frame is written but
the directory and its page tables, those just made with them. -/
def MapsRight (cur : Task) (paddr v : Word) (c c' : Phys) : Prop :=
  (translate c' (frameNo cur.pgd) v).map Prod.fst = some (frameNo paddr) ∧
  ∀ n, c'.mem n ≠ c.mem n → n = frameNo cur.pgd ∨ ∃ i, i < 1024 ∧
    TableEntry (c'.mem (frameNo cur.pgd) i) ∧ frameNo (c'.mem (frameNo cur.pgd) i) = n

/-- Where the processor takes the entry of `v` for a 4 MB page, that page has `paddr` at `v`,
and the word that `pg_write_entry` takes for the page entry is as `pg_map` would write it. -/
def WideMapped (cur : Task) (paddr v : Word) (c : Phys) : Prop :=
  Extended (c.mem (frameNo cur.pgd) (addrPde v)) →
    frameNo (pdeAddr (c.mem (frameNo cur.pgd) (addrPde v))) + addrPte v = frameNo paddr ∧
    c.mem (frameNo (c.mem (frameNo cur.pgd) (addrPde v))) (addrPte v) =
      pageEntry paddr (baseFlags cur)

/-- The entry of a page is written to a table. -/
theorem Walkable.translate_write (h : Walkable ws c d) (hne : c.mem d (addrPde v) ≠ nilPgEnt)
    (hx : ¬ Extended (c.mem d (addrPde v))) (he : Present e) :
    (translate (c.setWord (frameNo (c.mem d (addrPde v))) (addrPte v) e) d v).map Prod.fst =
      some (frameNo e) := by
  have hdir : (c.setWord (frameNo (c.mem d (addrPde v))) (addrPte v) e).mem d = c.mem d :=
    setWord_mem_frame (Ne.symm (h.tables _ (addrPde_lt v) hne).2)
  have hp : Present (c.mem d (addrPde v)) := h.present _ (addrPde_lt v) hne
  unfold translate
  rw [hdir]
  dsimp only
  rw [setWord_mem_self, if_neg (not_not.mpr hp), if_neg hx, if_pos he, Option.map_some]

theorem TableReady.changed (hr : TableReady (baseFlags cur) d i c c₁)
    (hm : (c₁.setWord (frameNo (c₁.mem d i)) j e).mem n ≠ c.mem n) :
    n = d ∨ n = frameNo (c₁.mem d i) := by
  by_contra hno
  rw [not_or] at hno
  rw [setWord_mem_frame hno.2] at hm
  cases hr with
  | old _ => exact hm rfl
  | new m c₂ _ hn =>
    rw [setWord_mem_self, frameNo_made hn.lt] at hno
    rw [setWord_mem_frame hno.1, setFrame_mem_of_ne _ hno.2, hn.mem] at hm
    exact hm rfl

theorem TableReady.not_extended (hr : TableReady (baseFlags cur) d i c c₁)
    (hx : ¬ Extended (c.mem d i)) : ¬ Extended (c₁.mem d i) := by
  cases hr with
  | old _ => exact hx
  | new n c₂ _ _ =>
    rw [setWord_mem_self]
    exact not_extended_entry cur n

theorem TableReady.of_extended (hr : TableReady (baseFlags cur) d i c c₁)
    (hx : Extended (c.mem d i)) : c₁ = c := by
  cases hr with
  | old _ => rfl
  | new n c₂ hnil _ =>
    rw [hnil] at hx
    exact absurd hx (by decide)

/-- Through a table `pg_map` does what the processor then walks. -/
theorem Walkable.maps_table (h : Walkable ws c (frameNo cur.pgd))
    (hr : TableReady (baseFlags cur) (frameNo cur.pgd) (addrPde v) c c₁)
    (hx : ¬ Extended (c.mem (frameNo cur.pgd) (addrPde v))) :
    MapsRight cur paddr v c (c₁.setWord (frameNo (c₁.mem (frameNo cur.pgd) (addrPde v)))
      (addrPte v) (pageEntry paddr (baseFlags cur))) := by
  obtain ⟨h₁, hne⟩ := h.ready hr
  have hx₁ := hr.not_extended hx
  refine ⟨?_, ?_⟩
  · rw [h₁.translate_write hne hx₁ (present_pageEntry_baseFlags cur paddr),
      frameNo_pageEntry (baseFlags_lt cur)]
  · intro n hn
    rcases hr.changed hn with hd | ht
    · exact Or.inl hd
    · refine Or.inr ⟨addrPde v, addrPde_lt v, ?_⟩
      rw [setWord_mem_frame (Ne.symm (h₁.tables _ (addrPde_lt v) hne).2)]
      exact ⟨⟨h₁.present _ (addrPde_lt v) hne, hx₁⟩, ht.symm⟩

/-- Through a 4 MB entry it writes a word of a frame that is no table. -/
theorem Walkable.maps_wide (h : Walkable ws c (frameNo cur.pgd))
    (hx : Extended (c.mem (frameNo cur.pgd) (addrPde v))) :
    MapsRight cur paddr v c (c.setWord (frameNo (c.mem (frameNo cur.pgd) (addrPde v)))
      (addrPte v) (pageEntry paddr (baseFlags cur))) ↔ WideMapped cur paddr v c := by
  have hi := addrPde_lt v
  have hne : c.mem (frameNo cur.pgd) (addrPde v) ≠ nilPgEnt := by
    intro hnil
    rw [hnil] at hx
    exact absurd hx (by decide)
  have hp := h.present _ hi hne
  have hdir : (c.setWord (frameNo (c.mem (frameNo cur.pgd) (addrPde v))) (addrPte v)
      (pageEntry paddr (baseFlags cur))).mem (frameNo cur.pgd) = c.mem (frameNo cur.pgd) :=
    setWord_mem_frame (Ne.symm (h.tables _ hi hne).2)
  have hwalk : (translate (c.setWord (frameNo (c.mem (frameNo cur.pgd) (addrPde v))) (addrPte v)
      (pageEntry paddr (baseFlags cur))) (frameNo cur.pgd) v).map Prod.fst =
      some (frameNo (pdeAddr (c.mem (frameNo cur.pgd) (addrPde v))) + addrPte v) := by
    unfold translate
    rw [hdir, if_neg (not_not.mpr hp), if_pos hx, Option.map_some]
  unfold MapsRight
  rw [hwalk, Option.some.injEq]
  constructor
  · rintro ⟨hframe, hframes⟩ _
    refine ⟨hframe, ?_⟩
    by_contra hword
    have hchanged : (c.setWord (frameNo (c.mem (frameNo cur.pgd) (addrPde v))) (addrPte v)
        (pageEntry paddr (baseFlags cur))).mem (frameNo (c.mem (frameNo cur.pgd) (addrPde v))) ≠
        c.mem (frameNo (c.mem (frameNo cur.pgd) (addrPde v))) := by
      intro hsame
      have := congrFun hsame (addrPte v)
      rw [setWord_mem_self] at this
      exact hword this.symm
    rcases hframes _ hchanged with hd | ⟨k, hk, ht, he⟩
    · exact (h.tables _ hi hne).2 hd
    · rw [hdir] at ht he
      have hki := h.apart k _ hk hi ht.1.ne_nil ht.2 hne he
      rw [hki] at ht
      exact ht.2 hx
  · intro hw
    obtain ⟨hframe, hword⟩ := hw hx
    refine ⟨hframe, ?_⟩
    intro n hn
    rw [← hword, setWord_self] at hn
    exact absurd rfl hn

theorem Walkable.maps_iff (h : Walkable ws c (frameNo cur.pgd))
    (hrun : Direct.pgMap cur paddr v c = .ok ((), c')) :
    MapsRight cur paddr v c c' ↔ WideMapped cur paddr v c := by
  obtain ⟨c₁, hr, rfl⟩ := pgWriteEntry_set h.prealloc hrun
  rw [addrPde_pgAddr] at hr
  rw [addrPde_pgAddr, addrPte_pgAddr]
  by_cases hx : Extended (c.mem (frameNo cur.pgd) (addrPde v))
  · rw [hr.of_extended hx]
    exact h.maps_wide hx
  · exact iff_of_true (h.maps_table hr hx) (fun hw => absurd hw hx)

end Walk

end AkKernel
