import AkKernel.Mem.Edit

/-!
# The calls that change the mappings of the running task

Each call is a sequence of page steps: a page gets a frame that was free, or an entry
that is not present. What every page step keeps, every call keeps.
-/

set_option autoImplicit false

namespace AkKernel

open Programs

/-- `brk` has the break of the task before the call; `fault` is the branch of
`pg_fault_handler` for reserved pages. -/
inductive MemOp where
  | alloc (vaddr : Word)
  | allocRange (start limit : Word)
  | reserve (vaddr : Word)
  | unmap (vaddr : Word)
  | brk (old new : Word)
  | fault (vaddr : Word)
deriving DecidableEq, Repr

/-- Gives the new break for `brk`. -/
def MemOp.run (cur : Task) (fuel : Nat) : MemOp → MemM Word
  | .alloc vaddr => do pgAlloc cur vaddr; pure 0#32
  | .allocRange start limit => do pgAllocRange cur fuel start limit; pure 0#32
  | .reserve vaddr => do pgReserve cur vaddr; pure 0#32
  | .unmap vaddr => do pgUnmap cur vaddr; pure 0#32
  | .brk old new => taskBrk cur fuel old new
  | .fault vaddr => do pgFaultReserved cur vaddr; pure 0#32

def Direct.pgAllocRange (cur : Task) (fuel : Nat) (start limit : Word) : PhysM Unit :=
  forPages (Direct.pgAlloc cur) fuel start (limit + pageSize)

def MemOp.runDirect (cur : Task) (fuel : Nat) : MemOp → PhysM Word
  | .alloc vaddr => do Direct.pgAlloc cur vaddr; pure 0#32
  | .allocRange start limit => do Direct.pgAllocRange cur fuel start limit; pure 0#32
  | .reserve vaddr => do Direct.pgReserve cur vaddr; pure 0#32
  | .unmap vaddr => do Direct.pgUnmap cur vaddr; pure 0#32
  | .brk old new => Direct.taskBrk cur fuel old new
  | .fault vaddr => do Direct.pgFaultReserved cur vaddr; pure 0#32

theorem pgAllocRange_lifts {ms : List (Word × Nat)} {k : Nat} (cur : Task) (fuel : Nat)
    (start limit : Word) : Lifts (Ready ms (k + 2)) (pgAllocRange cur fuel start limit)
      (Direct.pgAllocRange cur fuel start limit) :=
  forPages_lifts (fun page => pgAlloc_lifts cur page) fuel _ _

theorem MemOp.run_lifts {ms : List (Word × Nat)} {k : Nat} (cur : Task) (fuel : Nat) (op : MemOp) :
    Lifts (Ready ms (k + 2)) (op.run cur fuel) (op.runDirect cur fuel) := by
  cases op with
  | alloc vaddr => exact (pgAlloc_lifts cur vaddr).bind fun _ => lifts_pure _
  | allocRange start limit =>
    exact (pgAllocRange_lifts cur fuel start limit).bind fun _ => lifts_pure _
  | reserve vaddr => exact (pgWriteEntry_lifts cur _ _ _).bind fun _ => lifts_pure _
  | unmap vaddr => exact (pgWriteEntry_lifts cur _ _ _).bind fun _ => lifts_pure _
  | brk old new => exact taskBrk_lifts cur fuel old new
  | fault vaddr => exact (pgFaultReserved_lifts cur vaddr).bind fun _ => lifts_pure _

/-- What `pg_is_allocated` answers. -/
def Allocated (d : Nat) (c : Phys) (v : Word) : Prop :=
  Direct.isAllocated (c.mem d (addrPde v)) (c.mem (frameNo (c.mem d (addrPde v))) (addrPte v)) = true

instance (d : Nat) (c : Phys) (v : Word) : Decidable (Allocated d c v) :=
  inferInstanceAs (Decidable (_ = true))

theorem isAllocated_iff {pgd pte : Word} : Direct.isAllocated pgd pte = true ↔
    Present pgd ∧ (Extended pgd ∨ Present pte) := by
  unfold Direct.isAllocated
  by_cases h1 : pgd = nilPgEnt
  · rw [if_pos h1, h1]
    simp [not_present_nil]
  rw [if_neg h1]
  by_cases h2 : Present pgd
  · rw [if_neg (not_not.mpr h2)]
    by_cases h3 : Extended pgd
    · simp [h2, h3]
    · rw [if_neg h3]
      by_cases h4 : pte = nilPgEnt
      · simp [h4, h3, not_present_nil]
      · simp [h4, h2, h3]
  · simp [h2]

/-- A page that is allocated stays so when another one is, or the same one again, as long
as directory and tables are different frames. -/
theorem allocated_of_edited {cur : Task} {c c' : Phys} {d i j : Nat} {e w : Word}
    (hd : d ∉ c.free) (htables : ∀ k, k < 1024 → Present (c.mem d k) → ¬ Extended (c.mem d k) →
      frameNo (c.mem d k) ∉ c.free ∧ frameNo (c.mem d k) ≠ d)
    (hT : c.mem d i ≠ nilPgEnt → frameNo (c.mem d i) ≠ d) (he : Present e)
    (hed : Edited (baseFlags cur) d i j e c c') (hw : Allocated d c w) : Allocated d c' w := by
  obtain ⟨hp, hor⟩ := isAllocated_iff.mp hw
  have hpw := addrPde_lt w
  have hslot : c'.mem d (addrPde w) = c.mem d (addrPde w) := by
    obtain ⟨c₁, hen, hc'⟩ := hed
    rw [hc']
    cases hen with
    | old hne => rw [setWord_mem_frame (Ne.symm (hT hne))]
    | new n hnil hn =>
      have hdn : d ≠ n := by
        intro hdn
        rw [← hdn] at hn
        exact hd hn
      have hk : addrPde w ≠ i := by
        intro hk
        rw [hk, hnil] at hp
        exact not_present_nil hp
      rw [newTable_mem_slot, frameNo_entry hn, setWord_mem_frame hdn, newTable_mem_dir hdn hk]
  apply isAllocated_iff.mpr
  rw [hslot]
  refine ⟨hp, ?_⟩
  by_cases hx : Extended (c.mem d (addrPde w))
  · exact Or.inl hx
  right
  have hpj := hor.resolve_left hx
  obtain ⟨hfree, hne⟩ := htables _ hpw hp hx
  by_cases hsame : c.mem d i ≠ nilPgEnt ∧ frameNo (c.mem d (addrPde w)) = frameNo (c.mem d i)
  · obtain ⟨c₁, hen, hc'⟩ := hed
    cases hen with
    | new n hnil _ => exact absurd hnil hsame.1
    | old _ =>
      rw [hc', hsame.2]
      by_cases hj : addrPte w = j
      · rw [hj, setWord_mem_self]
        exact he
      · rw [setWord_mem_of_ne hj, ← hsame.2]
        exact hpj
  · rw [hed.mem_of_ne hfree hne (fun hs heq => hsame ⟨hs, heq⟩)]
    exact hpj

/-- The addresses whose pages a call changes, from the state it is made in. A growing
break passes over the pages that are allocated. -/
def MemOp.Touches (cur : Task) (c : Phys) : MemOp → Word → Prop
  | .alloc vaddr, v => v = vaddr
  | .allocRange start limit, v => Visits (limit + pageSize) start v
  | .reserve vaddr, v => v = vaddr
  | .unmap vaddr, v => v = vaddr
  | .brk old new, v =>
    (old < new ∧ Visits (new + pageSize) old v ∧ ¬ Allocated (frameNo cur.pgd) c v) ∨
      (new < old ∧ new ≠ 0#32 ∧ Visits (pgAddr old) (pgAddr new + 1#32) v)
  | .fault vaddr, v => v = vaddr

/-- The page of `v` gets a frame that was free. -/
def PageAdded (cur : Task) (v : Word) (c c' : Phys) : Prop :=
  ∃ n ∈ c.free, Edited (baseFlags cur) (frameNo cur.pgd) (addrPde v) (addrPte v)
    (pageEntry (frameAddr n) (baseFlags cur)) (c.mark n) c'

/-- The page of `v` gets an entry that is not present. -/
def PageCleared (cur : Task) (v : Word) (c c' : Phys) : Prop :=
  ∃ e, ¬ Present e ∧
    Edited (baseFlags cur) (frameNo cur.pgd) (addrPde v) (addrPte v) e c c'

/-- `I` is kept by the page steps at addresses in `V`. -/
structure Keeper (cur : Task) (V : Word → Prop) (I : Phys → Prop) : Prop where
  init : ∀ c, I c → c.frameAllocInitialized = true
  alloc : ∀ c v c', V v → I c → PageAdded cur v c c' → I c'
  clear : ∀ c v c', V v → I c → PageCleared cur v c c' → I c'
  allocated : ∀ c v c' w, V v → I c → PageAdded cur v c c' →
    Allocated (frameNo cur.pgd) c w → Allocated (frameNo cur.pgd) c' w

section Keeper
variable {cur : Task} {V : Word → Prop} {I : Phys → Prop} {c c' : Phys} {fuel : Nat} {r : Word}

theorem pgIsAllocated_run (cur : Task) (v : Word) (c : Phys) :
    Direct.pgIsAllocated cur v c = .ok (decide (Allocated (frameNo cur.pgd) c v), c) := by
  change Except.ok (Direct.isAllocated (c.mem (frameNo cur.pgd) (addrPde v))
    (c.mem (frameNo (pteAddr (c.mem (frameNo cur.pgd) (addrPde v)))) (addrPte v)), c) = _
  rw [frameNo_pteAddr]
  exact congrArg (fun b => Except.ok (b, c)) Bool.decide_eq_true.symm

theorem pgIsReserved_ok {v : Word} {b : Bool} (h : Direct.pgIsReserved cur v c = .ok (b, c')) :
    c' = c := by
  cases h
  rfl

theorem pgAlloc_step (hinit : c.frameAllocInitialized = true) {v : Word}
    (h : Direct.pgAlloc cur v c = .ok ((), c')) : PageAdded cur v c c' := pgAlloc_ok hinit h

theorem pgUnmap_step (hinit : c.frameAllocInitialized = true) {v : Word}
    (h : Direct.pgUnmap cur v c = .ok ((), c')) : PageCleared cur v c c' :=
  ⟨nilPgEnt, not_present_nil, pgWriteEntry_page_ok hinit h⟩

theorem pgReserve_step (hinit : c.frameAllocInitialized = true) {v : Word}
    (h : Direct.pgReserve cur v c = .ok ((), c')) : PageCleared cur v c c' :=
  ⟨_, not_present_reserved cur, pgWriteEntry_page_ok hinit h⟩

theorem readyPages_keeps {body : Word → PhysM Unit} {start limit : Word} (hI : I c)
    (hbody : ∀ v t u, Visits limit start v → I t → body v t = .ok ((), u) → I u)
    (h : forPages (fun page => do
      let t ← get
      if t.mmuReady then body page) fuel start limit c = .ok ((), c')) : I c' := by
  refine forPages_keeps hI ?_ h
  intro v t u hv hIt hb
  obtain ⟨s, t', hget, hrest⟩ := bind_ok.mp hb
  cases hget
  split at hrest
  · exact hbody v t u hv hIt hrest
  · obtain ⟨-, hu⟩ := pure_ok.mp hrest
    rw [hu]
    exact hIt

/-- A call of `task_brk` keeps what its page steps keep: a growing break maps pages that are
not allocated yet, a shrinking one makes entries nil. -/
theorem taskBrk_keeps {old new : Word} (hinit : ∀ t, I t → t.frameAllocInitialized = true)
    (hgrow : ∀ t v t', old < new → Visits (new + pageSize) old v →
      ¬ Allocated (frameNo cur.pgd) t v → I t → PageAdded cur v t t' → I t')
    (hshrink : ∀ t v t', new < old → new ≠ 0#32 → Visits (pgAddr old) (pgAddr new + 1#32) v →
      I t → Edited (baseFlags cur) (frameNo cur.pgd) (addrPde v) (addrPte v) nilPgEnt t t' → I t')
    (hI : I c) (h : Direct.taskBrk cur fuel old new c = .ok (r, c')) : I c' := by
  unfold Direct.taskBrk at h
  split at h
  · obtain ⟨-, hc⟩ := pure_ok.mp h
    rw [hc]
    exact hI
  rename_i hnz
  split at h
  · rename_i hlt
    obtain ⟨⟨⟩, c₁, h1, h2⟩ := bind_ok.mp h
    obtain ⟨-, hc⟩ := pure_ok.mp h2
    rw [hc]
    refine readyPages_keeps hI ?_ h1
    intro v t u hv hIt hb
    obtain ⟨b, t', h5, h6⟩ := bind_ok.mp hb
    rw [pgIsAllocated_run] at h5
    cases h5
    split at h6
    · rename_i hna
      have hnow : ¬ Allocated (frameNo cur.pgd) t v := by simpa using hna
      exact hgrow t v u hlt hv hnow hIt (pgAlloc_step (hinit t hIt) h6)
    · obtain ⟨-, hu⟩ := pure_ok.mp h6
      rw [hu]
      exact hIt
  split at h
  · rename_i hlt
    obtain ⟨⟨⟩, c₁, h1, h2⟩ := bind_ok.mp h
    obtain ⟨-, hc⟩ := pure_ok.mp h2
    rw [hc]
    refine readyPages_keeps hI ?_ h1
    intro v t u hv hIt hb
    exact hshrink t v u hlt hnz hv hIt (pgWriteEntry_page_ok (hinit t hIt) hb)
  · obtain ⟨-, hc⟩ := pure_ok.mp h
    rw [hc]
    exact hI

theorem Keeper.brk (hk : Keeper cur V I) {old new : Word}
    (hV : ∀ v, (MemOp.brk old new).Touches cur c v → V v) (hI : I c)
    (h : Direct.taskBrk cur fuel old new c = .ok (r, c')) : I c' := by
  have hkept := taskBrk_keeps
    (I := fun t => I t ∧ ∀ w, Allocated (frameNo cur.pgd) c w → Allocated (frameNo cur.pgd) t w ∨
      new < old)
    (fun t ht => hk.init t ht.1) ?_ ?_ ⟨hI, fun w hw => Or.inl hw⟩ h
  · exact hkept.1
  · intro t v t' hlt hv hna ht hstep
    have hnot : ¬ new < old := BitVec.not_lt.mpr (BitVec.le_of_lt hlt)
    have hVv : V v := by
      apply hV v (Or.inl ⟨hlt, hv, ?_⟩)
      intro h0
      exact hna ((ht.2 v h0).resolve_right hnot)
    refine ⟨hk.alloc t v t' hVv ht.1 hstep, ?_⟩
    intro w hw
    exact Or.inl (hk.allocated t v t' w hVv ht.1 hstep ((ht.2 w hw).resolve_right hnot))
  · intro t v t' hlt hnz hv ht hstep
    refine ⟨hk.clear t v t' (hV v (Or.inr ⟨hlt, hnz, hv⟩)) ht.1 ⟨nilPgEnt, not_present_nil, hstep⟩, ?_⟩
    intro w _
    exact Or.inr hlt

theorem Keeper.run (hk : Keeper cur V I) {op : MemOp} (hV : ∀ v, op.Touches cur c v → V v)
    (hI : I c) (h : op.runDirect cur fuel c = .ok (r, c')) : I c' := by
  cases op with
  | alloc vaddr =>
    obtain ⟨⟨⟩, c₁, h1, h2⟩ := bind_ok.mp h
    obtain ⟨-, hc⟩ := pure_ok.mp h2
    rw [hc]
    exact hk.alloc c vaddr c₁ (hV vaddr rfl) hI (pgAlloc_step (hk.init c hI) h1)
  | allocRange start limit =>
    obtain ⟨⟨⟩, c₁, h1, h2⟩ := bind_ok.mp h
    obtain ⟨-, hc⟩ := pure_ok.mp h2
    rw [hc]
    refine forPages_keeps hI ?_ h1
    intro v t u hv hIt hb
    exact hk.alloc t v u (hV v hv) hIt (pgAlloc_step (hk.init t hIt) hb)
  | reserve vaddr =>
    obtain ⟨⟨⟩, c₁, h1, h2⟩ := bind_ok.mp h
    obtain ⟨-, hc⟩ := pure_ok.mp h2
    rw [hc]
    exact hk.clear c vaddr c₁ (hV vaddr rfl) hI (pgReserve_step (hk.init c hI) h1)
  | unmap vaddr =>
    obtain ⟨⟨⟩, c₁, h1, h2⟩ := bind_ok.mp h
    obtain ⟨-, hc⟩ := pure_ok.mp h2
    rw [hc]
    exact hk.clear c vaddr c₁ (hV vaddr rfl) hI (pgUnmap_step (hk.init c hI) h1)
  | brk old new => exact hk.brk hV hI h
  | fault vaddr =>
    obtain ⟨⟨⟩, c₁, h1, h2⟩ := bind_ok.mp h
    obtain ⟨-, hc⟩ := pure_ok.mp h2
    rw [hc]
    obtain ⟨b, c₂, h3, h4⟩ := bind_ok.mp h1
    rw [pgIsReserved_ok h3] at h4
    split at h4
    · exact hk.alloc c vaddr c₁ (hV vaddr rfl) hI (pgAlloc_step (hk.init c hI) h4)
    · cases h4

end Keeper

end AkKernel
