import AkKernel.Mem.CloneTable

/-!
# What a change of a mapping does

Every call that changes mappings goes through `pg_write_entry`: it makes the table if
the directory slot is nil, and then sets one word of the table. Loops over pages
are reduced to that by one rule.
-/

set_option autoImplicit false

namespace AkKernel

open Programs

/-- The state after frame `n` was made the table of slot `i` of directory `d`. -/
def Phys.newTable (c : Phys) (d i n : Nat) (flags : Word) : Phys :=
  ((c.mark n).setFrame n fun _ => 0#32).setWord d i (pageEntry (frameAddr n) flags)

/-- Slot `i` of `d` has a table in `c'`, which is the old one or was made just now. -/
inductive Ensured (flags : Word) (d i : Nat) (c : Phys) : Phys → Prop where
  | old : c.mem d i ≠ nilPgEnt → Ensured flags d i c c
  | new (n : Nat) : c.mem d i = nilPgEnt → n ∈ c.free → Ensured flags d i c (c.newTable d i n flags)

/-- Word `j` of the table of slot `i` of `d` was set to `e`. -/
def Edited (flags : Word) (d i j : Nat) (e : Word) (c c' : Phys) : Prop :=
  ∃ c₁, Ensured flags d i c c₁ ∧ c' = c₁.setWord (frameNo (c₁.mem d i)) j e

section NewTable
variable {c : Phys} {d i n m : Nat} {flags : Word}

theorem newTable_mem_of_ne (hn : m ≠ n) (hd : m ≠ d) :
    (c.newTable d i n flags).mem m = c.mem m :=
  (setWord_mem_frame hd).trans (setFrame_mem_of_ne (c := c.mark n) _ hn)

theorem newTable_mem_table (hd : n ≠ d) (j : Nat) : (c.newTable d i n flags).mem n j = 0#32 := by
  have h : (c.newTable d i n flags).mem n = fun _ => 0#32 :=
    (setWord_mem_frame hd).trans (setFrame_mem_self (c := c.mark n) _)
  rw [h]

theorem newTable_mem_slot :
    (c.newTable d i n flags).mem d i = pageEntry (frameAddr n) flags := setWord_mem_self

theorem newTable_mem_dir (hd : d ≠ n) {k : Nat} (hk : k ≠ i) :
    (c.newTable d i n flags).mem d k = c.mem d k := by
  have h : (c.newTable d i n flags).mem d k = ((c.mark n).setFrame n fun _ => 0#32).mem d k :=
    setWord_mem_of_ne hk
  rw [h]
  exact congrFun (setFrame_mem_of_ne (c := c.mark n) _ hd) k

theorem newTable_slot {d' k : Nat} (flags : Word) (hd : d ≠ n) (hd' : d' ≠ n) :
    (d' = d ∧ k = i ∧ (c.newTable d i n flags).mem d' k = pageEntry (frameAddr n) flags) ∨
      ((d' = d → k ≠ i) ∧ (c.newTable d i n flags).mem d' k = c.mem d' k) := by
  by_cases hdd : d' = d
  · subst hdd
    by_cases hk : k = i
    · subst hk
      exact Or.inl ⟨rfl, rfl, newTable_mem_slot⟩
    · exact Or.inr ⟨fun _ => hk, newTable_mem_dir hd' hk⟩
  · refine Or.inr ⟨fun he => absurd he hdd, ?_⟩
    rw [newTable_mem_of_ne hd' hdd]

theorem newTable_free (hn : n ∈ c.free) : (c.newTable d i n flags).free = c.free.erase n :=
  free_mark hn

end NewTable

theorem Edited.init {flags e : Word} {d i j : Nat} {c c' : Phys} (h : Edited flags d i j e c c') :
    c'.frameAllocInitialized = c.frameAllocInitialized := by
  obtain ⟨c₁, hen, hc'⟩ := h
  rw [hc']
  cases hen with
  | old _ => rfl
  | new n _ _ => rfl

theorem Edited.mmuReady {flags e : Word} {d i j : Nat} {c c' : Phys}
    (h : Edited flags d i j e c c') : c'.mmuReady = c.mmuReady := by
  obtain ⟨c₁, hen, hc'⟩ := h
  rw [hc']
  cases hen with
  | old _ => rfl
  | new n _ _ => rfl

theorem setWord_self {c : Phys} (n i : Nat) : c.setWord n i (c.mem n i) = c := by
  unfold Phys.setWord Phys.setFrame
  rw [Function.update_eq_self, Function.update_eq_self]

section Flags
variable {cur : Task} {n : Nat}

/-- What holds of the flags of the kernel and of those of programs holds of a task's. -/
theorem baseFlags_of {P : Word → Prop} (cur : Task) (hkernel : P kernelFlags)
    (huser : P userFlags) : P (baseFlags cur) := by
  unfold baseFlags
  split
  · exact hkernel
  · exact huser

theorem pteFlags_baseFlags (cur : Task) : pteFlags (baseFlags cur) = baseFlags cur :=
  baseFlags_of (P := fun flags => pteFlags flags = flags) cur (by decide) (by decide)

theorem pteFlags_entry (cur : Task) (n : Nat) :
    pteFlags (pageEntry (frameAddr n) (baseFlags cur)) = baseFlags cur :=
  pteFlags_pageEntry n (pteFlags_baseFlags cur)

theorem present_entry (cur : Task) (n : Nat) :
    Present (pageEntry (frameAddr n) (baseFlags cur)) := by
  rw [present_iff, pteFlags_entry]
  exact baseFlags_of (P := fun flags => flags &&& pagePresent ≠ 0#32) cur (by decide) (by decide)

theorem present_pageEntry_baseFlags (cur : Task) (paddr : Word) :
    Present (pageEntry paddr (baseFlags cur)) := by
  intro h
  have hbit : (pageEntry paddr (baseFlags cur) &&& pagePresent).getLsbD 0 = true := by
    apply baseFlags_of (P := fun flags =>
      (pageEntry paddr flags &&& pagePresent).getLsbD 0 = true) cur
    · simp [pageEntry, kernelFlags, baseFlagBits, pagePresent, pageRw, pageLink]
    · simp [pageEntry, userFlags, baseFlagBits, pagePresent, pageRw, pageUser]
  rw [h] at hbit
  exact absurd hbit (by decide)

theorem not_extended_entry (cur : Task) (n : Nat) :
    ¬ Extended (pageEntry (frameAddr n) (baseFlags cur)) := by
  rw [extended_iff, pteFlags_entry]
  exact baseFlags_of (P := fun flags => ¬ flags &&& pageExtended ≠ 0#32) cur (by decide)
    (by decide)

theorem linked_entry (cur : Task) (n : Nat) :
    Linked (pageEntry (frameAddr n) (baseFlags cur)) ↔ cur.pid = kernelPid := by
  rw [linked_iff, pteFlags_entry]
  unfold baseFlags
  split
  · rename_i h
    exact ⟨fun _ => h, fun _ => by decide⟩
  · rename_i h
    exact ⟨fun hl => absurd hl (by decide), fun hp => absurd hp h⟩

theorem baseFlags_lt (cur : Task) : (baseFlags cur).toNat < 4096 :=
  baseFlags_of (P := fun flags => flags.toNat < 4096) cur (by decide) (by decide)

theorem frameNo_flags {flags : Word} (hn : n < 2 ^ 20) (hf : flags.toNat < 4096) :
    frameNo (pageEntry (frameAddr n) flags) = n := by
  rw [frameNo_pageEntry hf, frameNo_frameAddr hn]

theorem frameNo_made (hn : n < 2 ^ 20) (cur : Task) :
    frameNo (pageEntry (frameAddr n) (baseFlags cur)) = n :=
  frameNo_flags hn (baseFlags_lt cur)

theorem frameNo_entry {c : Phys} (hn : n ∈ c.free) (cur : Task) :
    frameNo (pageEntry (frameAddr n) (baseFlags cur)) = n :=
  frameNo_made (FrameBitmap.free_lt hn) cur

theorem taken_entry {c : Phys} (hn : n ∈ c.free) (cur : Task) :
    frameNo (pageEntry (frameAddr n) (baseFlags cur)) ∉ (c.mark n).free := by
  rw [frameNo_entry hn, free_mark hn]
  exact Finset.notMem_erase n _

/-- An entry that `pg_reserve` writes. -/
theorem not_present_reserved (cur : Task) :
    ¬ Present (pageEntry 0#32 ((baseFlags cur ||| pageReserved) &&& ~~~ pagePresent)) :=
  baseFlags_of (P := fun flags =>
    ¬ Present (pageEntry 0#32 ((flags ||| pageReserved) &&& ~~~ pagePresent))) cur
    (by decide) (by decide)

end Flags

/-- Frames that no walk to the edited page reads are as they were. -/
theorem Edited.mem_of_ne {cur : Task} {e : Word} {d i j m : Nat} {c c' : Phys}
    (h : Edited (baseFlags cur) d i j e c c') (hm : m ∉ c.free) (hd : m ≠ d)
    (ht : c.mem d i ≠ nilPgEnt → m ≠ frameNo (c.mem d i)) : c'.mem m = c.mem m := by
  obtain ⟨c₁, hen, hc'⟩ := h
  rw [hc']
  cases hen with
  | old hne => exact setWord_mem_frame (ht hne)
  | new n _ hn =>
    have hmn : m ≠ n := by
      intro he
      rw [he] at hm
      exact hm hn
    rw [newTable_mem_slot, frameNo_entry hn, setWord_mem_frame hmn]
    exact newTable_mem_of_ne hmn hd

section Spec
variable {c c' : Phys} {cur : Task} {pgd a v e : Word} {i : Nat}

theorem pgTableFrame_ok (hinit : c.frameAllocInitialized = true)
    (h : Direct.pgTableFrame cur pgd i c = .ok (a, c')) :
    Ensured (baseFlags cur) (frameNo pgd) i c c' ∧ a = pteAddr (c'.mem (frameNo pgd) i) := by
  obtain ⟨dirent, c₁, h1, h2⟩ := bind_ok.mp h
  cases h1
  dsimp only at h2
  split at h2
  · rename_i hnil
    obtain ⟨f, c₂, h3, h4⟩ := bind_ok.mp h2
    obtain ⟨n, hn, hf, hc₂⟩ := pgDirNew_ok hinit h3
    obtain ⟨⟨⟩, c₃, h5, h6⟩ := bind_ok.mp h4
    obtain ⟨dirent, c₄, h7, h8⟩ := bind_ok.mp h6
    obtain ⟨ha, hc'⟩ := pure_ok.mp h8
    cases h5
    cases h7
    rw [hc', ha, hc₂, hf]
    exact ⟨.new n hnil hn, rfl⟩
  · rename_i hnil
    obtain ⟨dirent, c₂, h3, h4⟩ := bind_ok.mp h2
    obtain ⟨ha, hc'⟩ := pure_ok.mp h4
    cases h3
    rw [hc', ha]
    exact ⟨.old hnil, rfl⟩

theorem pgWriteEntry_ok (hinit : c.frameAllocInitialized = true)
    (h : Direct.pgWriteEntry cur pgd v e c = .ok ((), c')) :
    Edited (baseFlags cur) (frameNo pgd) (addrPde v) (addrPte v) e c c' := by
  obtain ⟨a, c₁, h1, h2⟩ := bind_ok.mp h
  obtain ⟨hen, ha⟩ := pgTableFrame_ok hinit h1
  cases h2
  refine ⟨c₁, hen, ?_⟩
  rw [ha, frameNo_pteAddr]

theorem pgReadEntry_ok (hinit : c.frameAllocInitialized = true)
    (h : Direct.pgReadEntry cur pgd v c = .ok (a, c')) :
    Ensured (baseFlags cur) (frameNo pgd) (addrPde v) c c' ∧
      a = c'.mem (frameNo (c'.mem (frameNo pgd) (addrPde v))) (addrPte v) := by
  obtain ⟨f, c₁, h1, h2⟩ := bind_ok.mp h
  obtain ⟨hen, hf⟩ := pgTableFrame_ok hinit h1
  cases h2
  refine ⟨hen, ?_⟩
  rw [hf, frameNo_pteAddr]

theorem pgTableFrame_ends (cur : Task) (hinit : c.frameAllocInitialized = true)
    (hfree : c.mem (frameNo pgd) i = nilPgEnt → c.free.Nonempty) :
    ∃ a c', Direct.pgTableFrame cur pgd i c = .ok (a, c') := by
  have hread : readWord (frameNo pgd) i c = .ok (c.mem (frameNo pgd) i, c) := rfl
  unfold Direct.pgTableFrame
  rw [bind_run hread]
  dsimp only
  split
  · rename_i hnil
    obtain ⟨⟨f, c₁⟩, h1⟩ := pgDirNew_ends hinit (hfree hnil)
    rw [bind_run h1]
    exact ⟨_, _, rfl⟩
  · exact ⟨_, _, rfl⟩

theorem pgWriteEntry_ends (cur : Task) (e : Word) (hinit : c.frameAllocInitialized = true)
    (hfree : c.mem (frameNo pgd) (addrPde v) = nilPgEnt → c.free.Nonempty) :
    ∃ c', Direct.pgWriteEntry cur pgd v e c = .ok ((), c') := by
  obtain ⟨a, c₁, h⟩ := pgTableFrame_ends cur hinit hfree
  unfold Direct.pgWriteEntry
  rw [bind_run h]
  exact ⟨_, rfl⟩

theorem pgReadEntry_ends (cur : Task) (hinit : c.frameAllocInitialized = true)
    (hfree : c.mem (frameNo pgd) (addrPde v) = nilPgEnt → c.free.Nonempty) :
    ∃ a c', Direct.pgReadEntry cur pgd v c = .ok (a, c') := by
  obtain ⟨a, c₁, h⟩ := pgTableFrame_ends cur hinit hfree
  unfold Direct.pgReadEntry
  rw [bind_run h]
  exact ⟨_, _, rfl⟩

theorem pgReadEntry_run (cur : Task) (hinit : c.frameAllocInitialized = true)
    (hne : c.mem (frameNo pgd) (addrPde v) ≠ nilPgEnt) :
    Direct.pgReadEntry cur pgd v c =
      .ok (c.mem (frameNo (c.mem (frameNo pgd) (addrPde v))) (addrPte v), c) := by
  obtain ⟨a, c', h⟩ := pgReadEntry_ends cur hinit fun hnil => absurd hnil hne
  obtain ⟨hen, ha⟩ := pgReadEntry_ok hinit h
  cases hen with
  | old _ => rw [h, ha]
  | new n hnil _ => exact absurd hnil hne

/-- `pg_write_entry` and `pg_alloc` take the page of an address, so its slot. -/
theorem pgWriteEntry_page_ok (hinit : c.frameAllocInitialized = true)
    (h : Direct.pgWriteEntry cur pgd (pgAddr v) e c = .ok ((), c')) :
    Edited (baseFlags cur) (frameNo pgd) (addrPde v) (addrPte v) e c c' := by
  have := pgWriteEntry_ok hinit h
  rw [addrPde_pgAddr, addrPte_pgAddr] at this
  exact this

theorem pgAlloc_ok (hinit : c.frameAllocInitialized = true)
    (h : Direct.pgAlloc cur v c = .ok ((), c')) :
    ∃ n ∈ c.free, Edited (baseFlags cur) (frameNo cur.pgd) (addrPde v) (addrPte v)
      (pageEntry (frameAddr n) (baseFlags cur)) (c.mark n) c' := by
  obtain ⟨f, c₁, h1, h2⟩ := bind_ok.mp h
  obtain ⟨n, hn, hf, hc₁⟩ := frameTake_fresh hinit h1
  refine ⟨n, hn, ?_⟩
  rw [hf, hc₁] at h2
  exact pgWriteEntry_page_ok (c := c.mark n) hinit h2

/-- The page that is copied is there before: one that had to be made would be nil. -/
theorem pgCopyMapping_ok {dest src : Word} (hinit : c.frameAllocInitialized = true)
    (hsrc : frameNo src ∉ c.free) (h : Direct.pgCopyMapping cur dest src v c = .ok ((), c')) :
    c.mem (frameNo src) (addrPde v) ≠ nilPgEnt ∧
      c.mem (frameNo (c.mem (frameNo src) (addrPde v))) (addrPte v) ≠ nilPgEnt ∧
      Edited (baseFlags cur) (frameNo dest) (addrPde v) (addrPte v)
        (c.mem (frameNo (c.mem (frameNo src) (addrPde v))) (addrPte v)) c c' := by
  obtain ⟨entry, c₁, h1, h2⟩ := bind_ok.mp h
  obtain ⟨hen, hentry⟩ := pgReadEntry_ok hinit h1
  rw [addrPde_pgAddr, addrPte_pgAddr] at hentry
  rw [addrPde_pgAddr] at hen
  split at h2
  · cases h2
  rename_i hnil
  cases hen with
  | old hne =>
    rw [hentry] at h2 hnil
    exact ⟨hne, hnil, pgWriteEntry_page_ok hinit h2⟩
  | new n _ hn =>
    have hd : n ≠ frameNo src := by
      intro he
      rw [he] at hn
      exact hsrc hn
    rw [newTable_mem_slot, frameNo_entry hn, newTable_mem_table hd] at hentry
    exact absurd hentry hnil

theorem pgCopyMapping_ends (cur : Task) {dest src : Word} (hinit : c.frameAllocInitialized = true)
    (hne : c.mem (frameNo src) (addrPde v) ≠ nilPgEnt)
    (hpage : c.mem (frameNo (c.mem (frameNo src) (addrPde v))) (addrPte v) ≠ nilPgEnt)
    (hfree : c.mem (frameNo dest) (addrPde v) = nilPgEnt → c.free.Nonempty) :
    ∃ c', Direct.pgCopyMapping cur dest src v c = .ok ((), c') := by
  have hread : Direct.pgReadEntry cur src (pgAddr v) c =
      .ok (c.mem (frameNo (c.mem (frameNo src) (addrPde v))) (addrPte v), c) := by
    have h := pgReadEntry_run (v := pgAddr v) cur hinit (by rw [addrPde_pgAddr]; exact hne)
    rw [addrPde_pgAddr, addrPte_pgAddr] at h
    exact h
  unfold Direct.pgCopyMapping
  rw [bind_run hread, if_neg hpage]
  apply pgWriteEntry_ends cur _ hinit
  rw [addrPde_pgAddr]
  exact hfree

end Spec

section Loop
variable {σ : Type} {body : Word → Prog Fault σ Unit} {I : σ → Prop} {s u : σ}

/-- The addresses that a loop over pages from `start` up to `limit` comes to. -/
inductive Visits (limit : Word) : Word → Word → Prop where
  | here (start : Word) : start < limit → Visits limit start start
  | later (start v : Word) : start < limit → Visits limit (start + pageSize) v →
      Visits limit start v

theorem Visits.lt {limit start v : Word} (h : Visits limit start v) : v < limit := by
  induction h with
  | here _ hlt => exact hlt
  | later _ _ _ _ ih => exact ih

theorem forPages_keeps {fuel : Nat} : ∀ {start limit : Word} {s : σ}, I s →
    (∀ v t u, Visits limit start v → I t → body v t = .ok ((), u) → I u) →
    forPages body fuel start limit s = .ok ((), u) → I u := by
  induction fuel with
  | zero =>
    intro start limit s h0 hs h
    unfold forPages at h
    split at h
    · cases h
    · obtain ⟨-, hu⟩ := pure_ok.mp h
      rw [hu]
      exact h0
  | succ fuel ih =>
    intro start limit s h0 hs h
    unfold forPages at h
    split at h
    · rename_i hlt
      obtain ⟨⟨⟩, t, h1, h2⟩ := bind_ok.mp h
      refine ih (hs start s t (.here start hlt) h0 h1) ?_ h2
      intro v t' u' hv
      exact hs v t' u' (.later start v hlt hv)
    · obtain ⟨-, hu⟩ := pure_ok.mp h
      rw [hu]
      exact h0

theorem preserves_forPages (h : ∀ v, Preserves I (body v)) (fuel : Nat) (start limit : Word) :
    Preserves I (forPages body fuel start limit) := by
  intro s a u hs hrun
  exact forPages_keeps hs (fun v t u _ ht hb => h v t () u ht hb) hrun

/-- The loop ends when every round does, if the step behind the last page does not wrap. What the
rounds need may depend on the number that is left. -/
theorem forPages_spends (body : Word → Prog Fault σ Unit) (J : Nat → σ → Prop) {limit : Word}
    (hlimit : limit.toNat + 4096 ≤ 2 ^ 32) (fuel : Nat) :
    ∀ (start : Word) {s : σ}, limit.toNat ≤ start.toNat + fuel * 4096 → J fuel s →
    (∀ n v t, Visits limit start v → J (n + 1) t → ∃ u, body v t = .ok ((), u) ∧ J n u) →
    ∃ n u, forPages body fuel start limit s = .ok ((), u) ∧ J n u := by
  induction fuel with
  | zero =>
    intro start s hfuel h0 _
    have hlt : ¬ start < limit := by
      rw [BitVec.lt_def]
      omega
    unfold forPages
    rw [if_neg hlt]
    exact ⟨0, s, rfl, h0⟩
  | succ fuel ih =>
    intro start s hfuel h0 hs
    unfold forPages
    split
    · rename_i hlt
      have hnext : (start + pageSize).toNat = start.toNat + 4096 := by
        have hsz : pageSize.toNat = 4096 := rfl
        have := BitVec.lt_def.mp hlt
        rw [BitVec.toNat_add, hsz]
        omega
      obtain ⟨t, h1, hJ⟩ := hs fuel start s (.here start hlt) h0
      rw [bind_run h1]
      apply ih _ (by rw [hnext]; omega) hJ
      intro n v t hv
      exact hs n v t (.later start v hlt hv)
    · exact ⟨fuel + 1, s, rfl, h0⟩

theorem forPages_ends (body : Word → Prog Fault σ Unit) (I : σ → Prop) {limit : Word}
    (hlimit : limit.toNat + 4096 ≤ 2 ^ 32) (fuel : Nat) (start : Word) {s : σ}
    (hfuel : limit.toNat ≤ start.toNat + fuel * 4096) (h0 : I s)
    (hs : ∀ v t, Visits limit start v → I t → ∃ u, body v t = .ok ((), u) ∧ I u) :
    ∃ u, forPages body fuel start limit s = .ok ((), u) ∧ I u := by
  obtain ⟨-, u, hrun, hu⟩ := forPages_spends body (fun _ => I) hlimit fuel start hfuel h0
    fun _ => hs
  exact ⟨u, hrun, hu⟩

end Loop

end AkKernel
