import AkKernel.Mem.Mmu

/-!
# Page tables without the temporary mappings

The same functions on physical memory alone. As long as `TmpPageTbl` has the few
free slots that a call needs, a function of `mmu.c` does to physical memory what
its counterpart here does, and gives back every slot it used.
-/

set_option autoImplicit false

namespace AkKernel

open Programs

namespace Direct

def pgDirNew : PhysM Word := do
  let dirframe ← frameTake
  writeFrame (frameNo dirframe) fun _ => 0#32
  pure dirframe

def pgTableFrame (cur : Task) (pgdAddr : Word) (idx : Nat) : PhysM Word := do
  let dirent ← readWord (frameNo pgdAddr) idx
  if dirent = nilPgEnt then
    let tblframe ← pgDirNew
    writeWord (frameNo pgdAddr) idx (pageEntry tblframe (baseFlags cur))
  let dirent ← readWord (frameNo pgdAddr) idx
  pure (pteAddr dirent)

def pgWriteEntry (cur : Task) (pgdAddr vaddr entry : Word) : PhysM Unit := do
  let tblframe ← pgTableFrame cur pgdAddr (addrPde vaddr)
  writeWord (frameNo tblframe) (addrPte vaddr) entry

def pgReadEntry (cur : Task) (pgdAddr vaddr : Word) : PhysM Word := do
  let tblframe ← pgTableFrame cur pgdAddr (addrPde vaddr)
  readWord (frameNo tblframe) (addrPte vaddr)

def pgMapExt (cur : Task) (paddr vaddr flags : Word) : PhysM Unit :=
  pgWriteEntry cur cur.pgd (pgAddr vaddr) (pageEntry paddr flags)

def pgMap (cur : Task) (paddr vaddr : Word) : PhysM Unit :=
  pgMapExt cur paddr vaddr (baseFlags cur)

def pgUnmap (cur : Task) (vaddr : Word) : PhysM Unit :=
  pgWriteEntry cur cur.pgd (pgAddr vaddr) nilPgEnt

def pgAlloc (cur : Task) (vaddr : Word) : PhysM Unit := do
  let frame ← frameTake
  pgMap cur frame vaddr

def pgReserve (cur : Task) (vaddr : Word) : PhysM Unit :=
  pgMapExt cur 0#32 vaddr ((baseFlags cur ||| pageReserved) &&& ~~~ pagePresent)

/-- The directory entry and the table entry that a walk for `addr` reads; what it
reads behind a directory entry that is no table is not used. -/
def walk (pgdAddr addr : Word) : PhysM (Word × Word) := do
  let pgd ← readWord (frameNo pgdAddr) (addrPde addr)
  let pte ← readWord (frameNo (pteAddr pgd)) (addrPte addr)
  pure (pgd, pte)

def isAllocated (pgd pte : Word) : Bool :=
  if pgd = nilPgEnt then false
  else if ¬ Present pgd then false
  else if Extended pgd then true
  else if pte = nilPgEnt then false
  else if ¬ Present pte then false
  else true

def isReserved (pgd pte : Word) : Bool :=
  if pgd = nilPgEnt then false
  else if Reserved pgd ∧ Extended pgd then true
  else if Extended pgd then false
  else if pte = nilPgEnt then false
  else if Reserved pte then true
  else false

def pgIsAllocated (cur : Task) (addr : Word) : PhysM Bool := do
  let e ← walk cur.pgd addr
  pure (isAllocated e.1 e.2)

def pgIsReserved (cur : Task) (addr : Word) : PhysM Bool := do
  let e ← walk cur.pgd addr
  pure (isReserved e.1 e.2)

def taskBrk (cur : Task) (fuel : Nat) (taskBrk brk : Word) : PhysM Word := do
  if brk = 0#32 then pure taskBrk
  else if taskBrk < brk then
    forPages (fun page => do
      let c ← get
      if c.mmuReady then
        if ¬ (← pgIsAllocated cur page) then pgAlloc cur page) fuel taskBrk (brk + pageSize)
    pure brk
  else if brk < taskBrk then
    forPages (fun page => do
      let c ← get
      if c.mmuReady then pgUnmap cur page) fuel (pgAddr brk + 1#32) (pgAddr taskBrk)
    pure brk
  else pure taskBrk

def pgCopyMapping (cur : Task) (destPgd srcPgd addr : Word) : PhysM Unit := do
  let entry ← pgReadEntry cur srcPgd (pgAddr addr)
  if entry = nilPgEnt then throw (.panic "Tried to copy nil page entry\n" [])
  pgWriteEntry cur destPgd (pgAddr addr) entry

def pgFaultReserved (cur : Task) (faultAddr : Word) : PhysM Unit := do
  if ← pgIsReserved cur faultAddr then pgAlloc cur faultAddr
  else throw (.panic "Page fault on unreserved page %02x\n" [faultAddr])

end Direct

section Slots

/-- The slots of `TmpPageTbl` that are nil. -/
def freeSlots (tmp : TmpTbl) : Finset Nat := (Finset.range 1024).filter fun i => tmp i = nilPgEnt

theorem freeSlots_update {tmp : TmpTbl} {e : Word} (entry : Nat) (he : e ≠ nilPgEnt) :
    freeSlots (Function.update tmp entry e) = (freeSlots tmp).erase entry := by
  ext i
  unfold freeSlots
  rw [Finset.mem_erase, Finset.mem_filter, Finset.mem_filter]
  by_cases hi : i = entry
  · subst hi
    simp [he]
  · simp [hi]

/-- The pointers `ms` reach the frames given with them, and `k` slots are free. -/
structure Ready (ms : List (Word × Nat)) (k : Nat) (tmp : TmpTbl) : Prop where
  maps : ∀ m ∈ ms, tmp (addrPte m.1) ≠ nilPgEnt ∧ frameNo (tmp (addrPte m.1)) = m.2
  free : k ≤ ((Finset.range 1024).filter fun i => tmp i = nilPgEnt).card

variable {ms : List (Word × Nat)} {k n : Nat} {tmp : TmpTbl} {ptr addr : Word}

/-- A table with no mapping in it has slots for every call. -/
theorem ready_nil {k : Nat} (hk : k ≤ 1024) : Ready [] k (fun _ => nilPgEnt) := by
  refine ⟨fun m hm => absurd hm List.not_mem_nil, ?_⟩
  have hall : (Finset.range 1024).filter (fun _ => nilPgEnt = nilPgEnt) = Finset.range 1024 :=
    Finset.filter_true_of_mem fun _ _ => rfl
  rw [hall, Finset.card_range]
  exact hk

theorem addrPte_tmp {entry : Nat} (h : entry < 1024) :
    addrPte (tmpAddr entry) = entry := by
  have h1 : (tmpAddr entry).toNat = 0xFFC00000 + entry * 4096 := by
    rw [tmpAddr, BitVec.toNat_add, BitVec.toNat_ofNat]
    change (0xFFC00000 + entry * 4096 % 2 ^ 32) % 2 ^ 32 = _
    omega
  rw [addrPte_eq, h1]
  omega

theorem tmpEntry_ne_nil (addr : Word) : pageEntry addr kernelFlags ≠ nilPgEnt := by
  intro h
  have h1 := congrArg (fun x : Word => x &&& 1#32) h
  have h2 : pageEntry addr kernelFlags &&& 1#32 = 1#32 := by
    rw [pageEntry, BitVec.and_or_distrib_right]
    apply BitVec.eq_of_getLsbD_eq
    intro i hi
    by_cases h0 : i = 0
    · subst h0
      simp [kernelFlags, baseFlagBits, pagePresent, pageRw, pageLink]
    · simp [h0]
  rw [h2] at h1
  exact absurd h1 (by decide)

theorem pgFreeTmpMap_ok (h : Ready ms (k + 1) tmp) :
    ∃ entry, pgFreeTmpMap tmp = some entry ∧ entry < 1024 ∧ tmp entry = nilPgEnt := by
  cases hf : pgFreeTmpMap tmp with
  | none =>
    have hempty : (Finset.range 1024).filter (fun i => tmp i = nilPgEnt) = ∅ := by
      apply Finset.filter_false_of_mem
      intro i hi hn
      have := List.find?_eq_none.mp hf i (List.mem_range.mpr (Finset.mem_range.mp hi))
      exact this (by simp [hn])
    have := h.free
    rw [hempty] at this
    simp at this
  | some entry =>
    have h1 := List.mem_range.mp (List.mem_of_find?_eq_some hf)
    have h2 := List.find?_some hf
    exact ⟨entry, rfl, h1, by simpa using h2⟩

theorem Ready.take (h : Ready ms (k + 1) tmp) {entry : Nat} (hlt : entry < 1024)
    (hnil : tmp entry = nilPgEnt) (addr : Word) :
    Ready ((tmpAddr entry, frameNo addr) :: ms) k
      (Function.update tmp entry (pageEntry addr kernelFlags)) := by
  refine ⟨?_, ?_⟩
  · intro m hm
    rcases List.mem_cons.mp hm with hm | hm
    · rw [hm]
      dsimp only
      rw [addrPte_tmp hlt, Function.update_self]
      exact ⟨tmpEntry_ne_nil addr, frameNo_pageEntry (by decide)⟩
    · obtain ⟨h1, h2⟩ := h.maps m hm
      have hne : addrPte m.1 ≠ entry := by
        intro he
        rw [he] at h1
        exact h1 hnil
      rw [Function.update_of_ne hne]
      exact ⟨h1, h2⟩
  · have hmem : entry ∈ freeSlots tmp :=
      Finset.mem_filter.mpr ⟨Finset.mem_range.mpr hlt, hnil⟩
    have hfree := h.free
    change k ≤ (freeSlots (Function.update tmp entry (pageEntry addr kernelFlags))).card
    change k + 1 ≤ (freeSlots tmp).card at hfree
    rw [freeSlots_update entry (tmpEntry_ne_nil addr), Finset.card_erase_of_mem hmem]
    omega

theorem update_nil {entry : Nat} (hnil : tmp entry = nilPgEnt) (v : Word) :
    Function.update (Function.update tmp entry v) entry nilPgEnt = tmp := by
  rw [Function.update_idem, ← hnil, Function.update_eq_self]

theorem pgTmpMap_run {entry : Nat} (h : pgFreeTmpMap tmp = some entry) (c : Phys) :
    pgTmpMap addr (c, tmp) =
      .ok (tmpAddr entry, (c, Function.update tmp entry (pageEntry addr kernelFlags))) := by
  unfold pgTmpMap
  dsimp only
  rw [h]

theorem pgTmpUnmap_run {entry : Nat} (h : entry < 1024) (c : Phys) :
    pgTmpUnmap (tmpAddr entry) (c, tmp) = .ok ((), (c, Function.update tmp entry nilPgEnt)) := by
  unfold pgTmpUnmap
  rw [addrPte_tmp h]

theorem brackets_pgTmpMap (addr : Word) : Brackets (Ready ms (k + 1)) (pgTmpMap addr) pgTmpUnmap
    (fun ptr => Ready ((ptr, frameNo addr) :: ms) k) := by
  intro tmp h
  obtain ⟨entry, hf, hlt, hnil⟩ := pgFreeTmpMap_ok h
  refine ⟨tmpAddr entry, Function.update tmp entry (pageEntry addr kernelFlags),
    h.take hlt hnil addr, ?_, ?_⟩
  · intro c
    exact pgTmpMap_run hf c
  · intro c
    rw [pgTmpUnmap_run hlt, update_nil hnil]

theorem brackets_pgTmpMap_pair (addr addr' : Word) :
    Brackets (Ready ms (k + 2))
      (do let p ← pgTmpMap addr; let p' ← pgTmpMap addr'; pure (p, p'))
      (fun p => do pgTmpUnmap p.1; pgTmpUnmap p.2)
      (fun p => Ready ((p.2, frameNo addr') :: (p.1, frameNo addr) :: ms) k) := by
  apply Brackets.pair
  intro tmp h
  obtain ⟨i, hf, hlt, hnil⟩ := pgFreeTmpMap_ok h
  have h1 := h.take hlt hnil addr
  obtain ⟨j, hf', hlt', hnil'⟩ := pgFreeTmpMap_ok h1
  have hij : j ≠ i := by
    intro he
    rw [he, Function.update_self] at hnil'
    exact tmpEntry_ne_nil addr hnil'
  have hnilj : tmp j = nilPgEnt := by
    rw [Function.update_of_ne hij] at hnil'
    exact hnil'
  refine ⟨tmpAddr i, tmpAddr j, Function.update tmp i (pageEntry addr kernelFlags), _,
    Function.update tmp j (pageEntry addr' kernelFlags),
    h1.take hlt' hnil' addr', ?_, ?_, ?_, ?_⟩
  · intro c
    exact pgTmpMap_run hf c
  · intro c
    exact pgTmpMap_run hf' c
  · intro c
    rw [pgTmpUnmap_run hlt, Function.update_comm hij, update_nil hnil]
  · intro c
    rw [pgTmpUnmap_run hlt', update_nil hnilj]

end Slots

section Lifting
variable {ms : List (Word × Nat)} {k n : Nat} {ptr : Word}

theorem tmpFrame_run {tmp : TmpTbl} (h : Ready ms k tmp) (hm : (ptr, n) ∈ ms) (c : Phys) :
    tmpFrame ptr (c, tmp) = .ok (n, (c, tmp)) := by
  obtain ⟨h1, h2⟩ := h.maps _ hm
  unfold tmpFrame
  rw [if_neg h1, h2]

theorem lifts_tmpFrame (hm : (ptr, n) ∈ ms) : Lifts (Ready ms k) (tmpFrame ptr) (pure n) := by
  intro c tmp h
  exact tmpFrame_run h hm c

theorem lifts_load (hm : (ptr, n) ∈ ms) (i : Nat) :
    Lifts (Ready ms k) (load ptr i) (readWord n i) :=
  (lifts_tmpFrame hm).bind fun n => lifts_onFst (readWord n i)

theorem lifts_store (hm : (ptr, n) ∈ ms) (i : Nat) (v : Word) :
    Lifts (Ready ms k) (store ptr i v) (writeWord n i v) :=
  (lifts_tmpFrame hm).bind fun n => lifts_onFst (writeWord n i v)

theorem lifts_clearPage (hm : (ptr, n) ∈ ms) :
    Lifts (Ready ms k) (clearPage ptr) (writeFrame n fun _ => 0#32) :=
  (lifts_tmpFrame hm).bind fun n => lifts_onFst (writeFrame n fun _ => 0#32)

theorem lifts_copyPage {d : Nat} {dest : Word} (hd : (dest, d) ∈ ms) (hm : (ptr, n) ∈ ms) :
    Lifts (Ready ms k) (copyPage dest ptr) (copyFrame d n) :=
  (lifts_tmpFrame hd).bind fun d => (lifts_tmpFrame hm).bind fun n => lifts_onFst (copyFrame d n)

theorem lifts_mapped {α : Type} {addr : Word} {m : Word → MemM α} {a : PhysM α}
    (h : ∀ ptr, Lifts (Ready ((ptr, frameNo addr) :: ms) k) (m ptr) a) :
    Lifts (Ready ms (k + 1))
      (do let ptr ← pgTmpMap addr; let x ← m ptr; pgTmpUnmap ptr; pure x) a :=
  Lifts.bracket (brackets_pgTmpMap addr) h

theorem onFst_frameTake : (onFst frameTake : MemM Word) =
    (do let f ← onFst frameAlloc; onFst (frameSet f); pure f) := by
  rw [frameTake, onFst_bind]
  congr 1
  funext f
  rw [onFst_bind]
  rfl

theorem lifts_frameTake : Lifts (Ready ms k)
    (do let f ← onFst frameAlloc; onFst (frameSet f); pure f) frameTake := by
  rw [← onFst_frameTake]
  exact lifts_onFst frameTake

theorem pgDirNew_lifts : Lifts (Ready ms (k + 1)) pgDirNew Direct.pgDirNew := by
  have heq : pgDirNew = (do
      let f ← (do let f ← onFst frameAlloc; onFst (frameSet f); pure f)
      (do let ptr ← pgTmpMap f; let x ← clearPage ptr; pgTmpUnmap ptr; pure x)
      pure f) := by
    simp only [pgDirNew, bind_assoc, pure_bind]
  rw [heq]
  apply lifts_frameTake.bind
  intro f
  refine (lifts_mapped fun ptr => lifts_clearPage List.mem_cons_self).bind fun _ => ?_
  exact lifts_pure f

theorem pgTableFrame_lifts {dir pgdAddr : Word} (cur : Task) (idx : Nat)
    (hm : (dir, frameNo pgdAddr) ∈ ms) :
    Lifts (Ready ms (k + 1)) (pgTableFrame cur dir idx) (Direct.pgTableFrame cur pgdAddr idx) := by
  apply (lifts_load hm idx).bind
  intro dirent
  have hrest : Lifts (Ready ms (k + 1)) (do let dirent ← load dir idx; pure (pteAddr dirent))
      (do let dirent ← readWord (frameNo pgdAddr) idx; pure (pteAddr dirent)) :=
    (lifts_load hm idx).bind fun dirent => lifts_pure (pteAddr dirent)
  have hnew : Lifts (Ready ms (k + 1))
      (do let f ← pgDirNew; store dir idx (pageEntry f (baseFlags cur)))
      (do let f ← Direct.pgDirNew; writeWord (frameNo pgdAddr) idx (pageEntry f (baseFlags cur))) :=
    pgDirNew_lifts.bind fun f => lifts_store hm idx _
  dsimp only
  split
  · have h := hnew.bind fun _ => hrest
    simpa only [bind_assoc] using h
  · exact hrest

theorem pgWriteEntry_lifts (cur : Task) (pgdAddr vaddr entry : Word) :
    Lifts (Ready ms (k + 2)) (pgWriteEntry cur pgdAddr vaddr entry)
      (Direct.pgWriteEntry cur pgdAddr vaddr entry) := by
  have heq : pgWriteEntry cur pgdAddr vaddr entry = (do
      let dir ← pgTmpMap pgdAddr
      let x ← (do
        let tblframe ← pgTableFrame cur dir (addrPde vaddr)
        (do
          let table ← pgTmpMap tblframe
          let x ← store table (addrPte vaddr) entry
          pgTmpUnmap table
          pure x))
      pgTmpUnmap dir
      pure x) := by
    simp only [pgWriteEntry, bind_assoc, pure_bind]
    rfl
  rw [heq]
  apply lifts_mapped
  intro dir
  apply (pgTableFrame_lifts cur _ List.mem_cons_self).bind
  intro tblframe
  exact lifts_mapped fun table => lifts_store List.mem_cons_self _ _

theorem pgReadEntry_lifts (cur : Task) (pgdAddr vaddr : Word) :
    Lifts (Ready ms (k + 2)) (pgReadEntry cur pgdAddr vaddr)
      (Direct.pgReadEntry cur pgdAddr vaddr) := by
  have heq : pgReadEntry cur pgdAddr vaddr = (do
      let dir ← pgTmpMap pgdAddr
      let x ← (do
        let tblframe ← pgTableFrame cur dir (addrPde vaddr)
        (do
          let table ← pgTmpMap tblframe
          let x ← load table (addrPte vaddr)
          pgTmpUnmap table
          pure x))
      pgTmpUnmap dir
      pure x) := by
    simp only [pgReadEntry, bind_assoc, pure_bind]
  rw [heq]
  apply lifts_mapped
  intro dir
  apply (pgTableFrame_lifts cur _ List.mem_cons_self).bind
  intro tblframe
  exact lifts_mapped fun table => lifts_load List.mem_cons_self _

theorem pgAlloc_lifts (cur : Task) (vaddr : Word) :
    Lifts (Ready ms (k + 2)) (pgAlloc cur vaddr) (Direct.pgAlloc cur vaddr) := by
  have heq : pgAlloc cur vaddr = (do
      let f ← (do let f ← onFst frameAlloc; onFst (frameSet f); pure f)
      pgMap cur f vaddr) := by
    simp only [pgAlloc, bind_assoc, pure_bind]
  rw [heq]
  exact lifts_frameTake.bind fun f => pgWriteEntry_lifts cur _ _ _

/-- A read whose value does not matter can be left out. -/
theorem lifts_pure_readWord {P : TmpTbl → Prop} {f : Word → Bool} {b : Bool} (i : Nat)
    (h : ∀ e, f e = b) :
    Lifts P (pure b : MemM Bool) (do let e ← readWord n i; pure (f e)) := by
  intro c tmp _
  change Except.ok (b, (c, tmp)) = .ok (f (c.mem n i), (c, tmp))
  rw [h]

theorem lifts_readMapped (addr : Word) (i : Nat) : Lifts (Ready ms (k + 1))
    (do let ptr ← pgTmpMap addr; let x ← load ptr i; pgTmpUnmap ptr; pure x)
    (readWord (frameNo addr) i) :=
  lifts_mapped fun _ => lifts_load List.mem_cons_self i

theorem pgIsAllocated_lifts (cur : Task) (addr : Word) :
    Lifts (Ready ms (k + 1)) (pgIsAllocated cur addr) (Direct.pgIsAllocated cur addr) := by
  have heq : pgIsAllocated cur addr = (do
      let pgd ← (do
        let ptr ← pgTmpMap cur.pgd; let x ← load ptr (addrPde addr); pgTmpUnmap ptr; pure x)
      if pgd = nilPgEnt then pure false
      else if ¬ Present pgd then pure false
      else if Extended pgd then pure true
      else
        let pte ← (do
          let ptr ← pgTmpMap (pteAddr pgd); let x ← load ptr (addrPte addr); pgTmpUnmap ptr; pure x)
        if pte = nilPgEnt then pure false
        else if ¬ Present pte then pure false
        else pure true) := by
    simp only [pgIsAllocated, bind_assoc, pure_bind]
  have hdirect : Direct.pgIsAllocated cur addr = (do
      let pgd ← readWord (frameNo cur.pgd) (addrPde addr)
      let pte ← readWord (frameNo (pteAddr pgd)) (addrPte addr)
      pure (Direct.isAllocated pgd pte)) := by
    simp only [Direct.pgIsAllocated, Direct.walk, bind_assoc, pure_bind]
  rw [heq, hdirect]
  apply (lifts_readMapped _ _).bind
  intro pgd
  by_cases h1 : pgd = nilPgEnt
  · rw [if_pos h1]
    exact lifts_pure_readWord _ fun pte => if_pos h1
  rw [if_neg h1]
  by_cases h2 : ¬ Present pgd
  · rw [if_pos h2]
    exact lifts_pure_readWord _ fun pte => by rw [Direct.isAllocated, if_neg h1, if_pos h2]
  rw [if_neg h2]
  by_cases h3 : Extended pgd
  · rw [if_pos h3]
    exact lifts_pure_readWord _ fun pte => by
      rw [Direct.isAllocated, if_neg h1, if_neg h2, if_pos h3]
  rw [if_neg h3]
  apply (lifts_readMapped _ _).bind
  intro pte
  rw [Direct.isAllocated, if_neg h1, if_neg h2, if_neg h3]
  split
  · exact lifts_pure false
  · split
    · exact lifts_pure false
    · exact lifts_pure true

theorem pgIsReserved_lifts (cur : Task) (addr : Word) :
    Lifts (Ready ms (k + 1)) (pgIsReserved cur addr) (Direct.pgIsReserved cur addr) := by
  have heq : pgIsReserved cur addr = (do
      let pgd ← (do
        let ptr ← pgTmpMap cur.pgd; let x ← load ptr (addrPde addr); pgTmpUnmap ptr; pure x)
      if pgd = nilPgEnt then pure false
      else if Reserved pgd ∧ Extended pgd then pure true
      else if Extended pgd then pure false
      else
        let pte ← (do
          let ptr ← pgTmpMap (pteAddr pgd); let x ← load ptr (addrPte addr); pgTmpUnmap ptr; pure x)
        if pte = nilPgEnt then pure false
        else if Reserved pte then pure true
        else pure false) := by
    simp only [pgIsReserved, bind_assoc, pure_bind]
  have hdirect : Direct.pgIsReserved cur addr = (do
      let pgd ← readWord (frameNo cur.pgd) (addrPde addr)
      let pte ← readWord (frameNo (pteAddr pgd)) (addrPte addr)
      pure (Direct.isReserved pgd pte)) := by
    simp only [Direct.pgIsReserved, Direct.walk, bind_assoc, pure_bind]
  rw [heq, hdirect]
  apply (lifts_readMapped _ _).bind
  intro pgd
  by_cases h1 : pgd = nilPgEnt
  · rw [if_pos h1]
    exact lifts_pure_readWord _ fun pte => if_pos h1
  rw [if_neg h1]
  by_cases h2 : Reserved pgd ∧ Extended pgd
  · rw [if_pos h2]
    exact lifts_pure_readWord _ fun pte => by rw [Direct.isReserved, if_neg h1, if_pos h2]
  rw [if_neg h2]
  by_cases h3 : Extended pgd
  · rw [if_pos h3]
    exact lifts_pure_readWord _ fun pte => by
      rw [Direct.isReserved, if_neg h1, if_neg h2, if_pos h3]
  rw [if_neg h3]
  apply (lifts_readMapped _ _).bind
  intro pte
  rw [Direct.isReserved, if_neg h1, if_neg h2, if_neg h3]
  split
  · exact lifts_pure false
  · split
    · exact lifts_pure true
    · exact lifts_pure false

theorem forPages_lifts {P : TmpTbl → Prop} {m : Word → MemM Unit} {a : Word → PhysM Unit}
    (h : ∀ page, Lifts P (m page) (a page)) (fuel : Nat) :
    ∀ start limit, Lifts P (forPages m fuel start limit) (forPages a fuel start limit) := by
  induction fuel with
  | zero =>
    intro start limit
    unfold forPages
    split
    · intro c tmp _
      rfl
    · exact lifts_pure ()
  | succ fuel ih =>
    intro start limit
    unfold forPages
    split
    · exact (h start).bind fun _ => ih _ _
    · exact lifts_pure ()

theorem lifts_mmuReady {P : TmpTbl → Prop} {m : MemM Unit} {a : PhysM Unit} (h : Lifts P m a) :
    Lifts P (do let s ← get; if s.1.mmuReady then m else pure ())
      (do let c ← get; if c.mmuReady then a else pure ()) := by
  intro c tmp hP
  change (if c.mmuReady then m else pure ()) (c, tmp) =
    onFst (fun c => (if c.mmuReady then a else pure ()) c) (c, tmp)
  unfold onFst
  dsimp only
  split
  · exact h c tmp hP
  · rfl

theorem taskBrk_lifts (cur : Task) (fuel : Nat) (old brk : Word) :
    Lifts (Ready ms (k + 2)) (taskBrk cur fuel old brk) (Direct.taskBrk cur fuel old brk) := by
  unfold taskBrk Direct.taskBrk
  split
  · exact lifts_pure old
  split
  · refine (forPages_lifts (fun page => ?_) fuel _ _).bind fun _ => lifts_pure brk
    refine lifts_mmuReady ((pgIsAllocated_lifts cur page).bind fun b => ?_)
    exact Lifts.ite (pgAlloc_lifts cur page) (lifts_pure ())
  split
  · refine (forPages_lifts (fun page => ?_) fuel _ _).bind fun _ => lifts_pure brk
    exact lifts_mmuReady (pgWriteEntry_lifts cur _ _ _)
  · exact lifts_pure old

theorem pgCopyMapping_lifts (cur : Task) (destPgd srcPgd addr : Word) :
    Lifts (Ready ms (k + 2)) (pgCopyMapping cur destPgd srcPgd addr)
      (Direct.pgCopyMapping cur destPgd srcPgd addr) := by
  apply (pgReadEntry_lifts cur _ _).bind
  intro entry
  dsimp only
  split
  · intro c tmp _
    rfl
  · exact pgWriteEntry_lifts cur _ _ _

theorem pgFaultReserved_lifts (cur : Task) (addr : Word) :
    Lifts (Ready ms (k + 2)) (pgFaultReserved cur addr) (Direct.pgFaultReserved cur addr) := by
  apply (pgIsReserved_lifts cur addr).bind
  intro b
  split
  · exact pgAlloc_lifts cur addr
  · intro c tmp _
    rfl

end Lifting

end AkKernel
