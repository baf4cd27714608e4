import AkKernel.Foundation.Slots
import AkKernel.Mem.Clone

/-!
# The slots of `TmpPageTbl` that a call holds

The functions of `mmu.c` and `mmu_clone_dir.c` with a log of the slots they take and give back.
Without the log they are the functions themselves.
-/

set_option autoImplicit false

namespace AkKernel

open Programs Slots

def pgUnmapExt (cur : Task) (vaddr : Word) : MemM Unit := do
  let dir ← pgTmpMap cur.pgd
  let dirent ← load dir (addrPde vaddr)
  if dirent = nilPgEnt then pgTmpUnmap dir
  else
    store dir (addrPde vaddr) nilPgEnt
    pgTmpUnmap dir

abbrev SlotM (α : Type) := Traced Nat Fault Mem α

namespace Slotted

open Slots.Traced

def pgTmpMap (addr : Word) : SlotM Word := fun s =>
  ⟨[match pgFreeTmpMap s.2 with
    | none => .full
    | some entry => .took entry], AkKernel.pgTmpMap addr s⟩

def pgTmpUnmap (mapping : Word) : SlotM Unit := fun s =>
  ⟨[.gave (addrPte mapping)], AkKernel.pgTmpUnmap mapping s⟩

def pgDirNew : SlotM Word := do
  let dirframe ← quiet (onFst frameAlloc)
  quiet (onFst (frameSet dirframe))
  let dir ← pgTmpMap dirframe
  quiet (clearPage dir)
  pgTmpUnmap dir
  pure dirframe

def pgTableFrame (cur : Task) (dir : Word) (idx : Nat) : SlotM Word := do
  let dirent ← quiet (load dir idx)
  if dirent = nilPgEnt then
    let tblframe ← pgDirNew
    quiet (store dir idx (pageEntry tblframe (baseFlags cur)))
  let dirent ← quiet (load dir idx)
  pure (pteAddr dirent)

def pgWriteEntry (cur : Task) (pgdAddr vaddr entry : Word) : SlotM Unit := do
  let dir ← pgTmpMap pgdAddr
  let tblframe ← pgTableFrame cur dir (addrPde vaddr)
  let table ← pgTmpMap tblframe
  quiet (store table (addrPte vaddr) entry)
  pgTmpUnmap table
  pgTmpUnmap dir

def pgReadEntry (cur : Task) (pgdAddr vaddr : Word) : SlotM Word := do
  let dir ← pgTmpMap pgdAddr
  let tblframe ← pgTableFrame cur dir (addrPde vaddr)
  let table ← pgTmpMap tblframe
  let entry ← quiet (load table (addrPte vaddr))
  pgTmpUnmap table
  pgTmpUnmap dir
  pure entry

def pgUnmapExt (cur : Task) (vaddr : Word) : SlotM Unit := do
  let dir ← pgTmpMap cur.pgd
  let dirent ← quiet (load dir (addrPde vaddr))
  if dirent = nilPgEnt then pgTmpUnmap dir
  else
    quiet (store dir (addrPde vaddr) nilPgEnt)
    pgTmpUnmap dir

def pgIsAllocated (cur : Task) (addr : Word) : SlotM Bool := do
  let dir ← pgTmpMap cur.pgd
  let pgd ← quiet (load dir (addrPde addr))
  pgTmpUnmap dir
  if pgd = nilPgEnt then pure false
  else if ¬ Present pgd then pure false
  else if Extended pgd then pure true
  else
    let pt ← pgTmpMap (pteAddr pgd)
    let pte ← quiet (load pt (addrPte addr))
    pgTmpUnmap pt
    if pte = nilPgEnt then pure false
    else if ¬ Present pte then pure false
    else pure true

def pgIsReserved (cur : Task) (addr : Word) : SlotM Bool := do
  let dir ← pgTmpMap cur.pgd
  let pgd ← quiet (load dir (addrPde addr))
  pgTmpUnmap dir
  if pgd = nilPgEnt then pure false
  else if Reserved pgd ∧ Extended pgd then pure true
  else if Extended pgd then pure false
  else
    let pt ← pgTmpMap (pteAddr pgd)
    let pte ← quiet (load pt (addrPte addr))
    pgTmpUnmap pt
    if pte = nilPgEnt then pure false
    else if Reserved pte then pure true
    else pure false

def pgCopyMapping (cur : Task) (destPgd srcPgd addr : Word) : SlotM Unit := do
  let entry ← pgReadEntry cur srcPgd (pgAddr addr)
  if entry = nilPgEnt then quiet (throw (.panic "Tried to copy nil page entry\n" []))
  pgWriteEntry cur destPgd (pgAddr addr) entry

def pgFaultReserved (cur : Task) (faultAddr : Word) : SlotM Unit := do
  if ← pgIsReserved cur faultAddr then
    let frame ← quiet (onFst frameAlloc)
    quiet (onFst (frameSet frame))
    pgWriteEntry cur cur.pgd (pgAddr faultAddr) (pageEntry frame (baseFlags cur))
  else quiet (throw (.panic "Page fault on unreserved page %02x\n" [faultAddr]))

def pgFaultHandler (cur : Task) (kernelPgd : Word) (userPgd : Option Word) (faultAddr : Word) :
    SlotM Unit :=
  match userPgd with
  | some pgd =>
    if pgIsKernel faultAddr then pgCopyMapping cur pgd kernelPgd faultAddr
    else pgFaultReserved cur faultAddr
  | none => pgFaultReserved cur faultAddr

def frameCopy (src dest : Word) : SlotM Unit := do
  let vsrc ← pgTmpMap src
  let vdest ← pgTmpMap dest
  quiet (copyPage vdest vsrc)
  pgTmpUnmap vsrc
  pgTmpUnmap vdest

def pgClonePage4m (page : Word) : SlotM Word := do
  let flags := pdeFlags page
  let pgframe := pdeAddr page
  if flags &&& pagePresent = 0#32 then pure page
  else if flags &&& pageLink ≠ 0#32 then pure page
  else
    let newpgframe ← quiet (onFst frameAlloc4m)
    let limit := newpgframe + BitVec.ofNat 32 (1024 * 4096)
    quiet (onFst (frameSetRange newpgframe limit))
    Traced.upTo (fun i => do
      let offset := BitVec.ofNat 32 (i * 4096)
      frameCopy (pgframe + offset) (newpgframe + offset)) 1024
    pure (pageEntry newpgframe flags)

def pgClonePage (page : Word) : SlotM Word := do
  let flags := pteFlags page
  let pgframe := pteAddr page
  if flags &&& pagePresent = 0#32 then pure page
  else if flags &&& pageLink ≠ 0#32 then pure page
  else
    let newpgframe ← quiet (onFst frameAlloc)
    quiet (onFst (frameSet newpgframe))
    frameCopy pgframe newpgframe
    pure (pageEntry newpgframe flags)

def pgCloneTbl (tblent : Word) : SlotM Word := do
  let flags := pteFlags tblent
  let tblframe := pteAddr tblent
  if flags &&& pageLink ≠ 0#32 then pure tblent
  else if flags &&& pagePresent = 0#32 then pure tblent
  else
    let newtblframe ← pgDirNew
    let tbl ← pgTmpMap tblframe
    let newtbl ← pgTmpMap newtblframe
    Traced.upTo (fun i => do
      let e ← quiet (load tbl i)
      if e ≠ nilPgEnt then
        let e' ← pgClonePage e
        quiet (store newtbl i e')) 1024
    pgTmpUnmap tbl
    pgTmpUnmap newtbl
    pure (pageEntry newtblframe flags)

def pgCloneDir (dirframe : Word) : SlotM Word := do
  let newdirframe ← pgDirNew
  let dir ← pgTmpMap dirframe
  let newdir ← pgTmpMap newdirframe
  Traced.upTo (fun i => do
    let e ← quiet (load dir i)
    if e ≠ nilPgEnt then
      if e &&& pageExtended ≠ 0#32 then
        let e' ← pgClonePage4m e
        quiet (store newdir i e')
      else
        let e' ← pgCloneTbl e
        quiet (store newdir i e')) 1024
  pgTmpUnmap dir
  pgTmpUnmap newdir
  pure newdirframe

section Erase

@[simp] theorem erase_pgTmpMap (addr : Word) : erase (pgTmpMap addr) = AkKernel.pgTmpMap addr := by
  funext s
  simp only [erase, pgTmpMap]

@[simp] theorem erase_pgTmpUnmap (mapping : Word) :
    erase (pgTmpUnmap mapping) = AkKernel.pgTmpUnmap mapping := by
  funext s
  simp only [erase, pgTmpUnmap]

@[simp] theorem erase_pgDirNew : erase pgDirNew = AkKernel.pgDirNew := by
  simp [pgDirNew, AkKernel.pgDirNew, -bind_pure_comp]

@[simp] theorem erase_pgTableFrame (cur : Task) (dir : Word) (idx : Nat) :
    erase (pgTableFrame cur dir idx) = AkKernel.pgTableFrame cur dir idx := by
  simp [pgTableFrame, AkKernel.pgTableFrame, -bind_pure_comp]

@[simp] theorem erase_pgWriteEntry (cur : Task) (pgdAddr vaddr entry : Word) :
    erase (pgWriteEntry cur pgdAddr vaddr entry) = AkKernel.pgWriteEntry cur pgdAddr vaddr entry := by
  simp [pgWriteEntry, AkKernel.pgWriteEntry, -bind_pure_comp]

@[simp] theorem erase_pgReadEntry (cur : Task) (pgdAddr vaddr : Word) :
    erase (pgReadEntry cur pgdAddr vaddr) = AkKernel.pgReadEntry cur pgdAddr vaddr := by
  simp [pgReadEntry, AkKernel.pgReadEntry, -bind_pure_comp]

@[simp] theorem erase_pgUnmapExt (cur : Task) (vaddr : Word) :
    erase (pgUnmapExt cur vaddr) = AkKernel.pgUnmapExt cur vaddr := by
  simp [pgUnmapExt, AkKernel.pgUnmapExt, -bind_pure_comp]

@[simp] theorem erase_pgIsAllocated (cur : Task) (addr : Word) :
    erase (pgIsAllocated cur addr) = AkKernel.pgIsAllocated cur addr := by
  simp [pgIsAllocated, AkKernel.pgIsAllocated, -bind_pure_comp]

@[simp] theorem erase_pgIsReserved (cur : Task) (addr : Word) :
    erase (pgIsReserved cur addr) = AkKernel.pgIsReserved cur addr := by
  simp [pgIsReserved, AkKernel.pgIsReserved, -bind_pure_comp]

@[simp] theorem erase_pgCopyMapping (cur : Task) (destPgd srcPgd addr : Word) :
    erase (pgCopyMapping cur destPgd srcPgd addr) =
      AkKernel.pgCopyMapping cur destPgd srcPgd addr := by
  simp [pgCopyMapping, AkKernel.pgCopyMapping, -bind_pure_comp]

@[simp] theorem erase_pgFaultReserved (cur : Task) (faultAddr : Word) :
    erase (pgFaultReserved cur faultAddr) = AkKernel.pgFaultReserved cur faultAddr := by
  simp [pgFaultReserved, AkKernel.pgFaultReserved, pgMap, pgMapExt, -bind_pure_comp]

@[simp] theorem erase_pgFaultHandler (cur : Task) (kernelPgd : Word) (userPgd : Option Word)
    (faultAddr : Word) : erase (pgFaultHandler cur kernelPgd userPgd faultAddr) =
      AkKernel.pgFaultHandler cur kernelPgd userPgd faultAddr := by
  cases userPgd with
  | none => simp [pgFaultHandler, AkKernel.pgFaultHandler, -bind_pure_comp]
  | some pgd => simp [pgFaultHandler, AkKernel.pgFaultHandler, -bind_pure_comp]

@[simp] theorem erase_frameCopy (src dest : Word) :
    erase (frameCopy src dest) = AkKernel.frameCopy src dest := by
  simp [frameCopy, AkKernel.frameCopy, -bind_pure_comp]

@[simp] theorem erase_pgClonePage4m (page : Word) :
    erase (pgClonePage4m page) = AkKernel.pgClonePage4m page := by
  unfold pgClonePage4m AkKernel.pgClonePage4m
  dsimp only [-Nat.reduceMul]
  rw [erase_ite, erase_ite]
  split
  · exact erase_pure page
  split
  · exact erase_pure page
  rw [erase_bind, erase_quiet]
  apply bind_congr
  intro f
  rw [erase_bind, erase_quiet]
  apply bind_congr
  intro _
  rw [erase_bind, erase_upTo]
  have hround : (fun i => erase (frameCopy (pdeAddr page + BitVec.ofNat 32 (i * 4096))
      (f + BitVec.ofNat 32 (i * 4096)))) = fun i => AkKernel.frameCopy
        (pdeAddr page + BitVec.ofNat 32 (i * 4096)) (f + BitVec.ofNat 32 (i * 4096)) :=
    funext fun i => erase_frameCopy _ _
  rw [hround]
  apply bind_congr
  intro _
  exact erase_pure _

@[simp] theorem erase_pgClonePage (page : Word) :
    erase (pgClonePage page) = AkKernel.pgClonePage page := by
  simp [pgClonePage, AkKernel.pgClonePage, -bind_pure_comp]

@[simp] theorem erase_pgCloneTbl (tblent : Word) :
    erase (pgCloneTbl tblent) = AkKernel.pgCloneTbl tblent := by
  simp [pgCloneTbl, AkKernel.pgCloneTbl, -bind_pure_comp]

@[simp] theorem erase_pgCloneDir (dirframe : Word) :
    erase (pgCloneDir dirframe) = AkKernel.pgCloneDir dirframe := by
  simp [pgCloneDir, AkKernel.pgCloneDir, -bind_pure_comp]

end Erase

section Quiet
variable {r : TmpTbl} {α : Type}

theorem preserves_onFst (a : PhysM α) : Preserves (fun s : Mem => s.2 = r) (onFst a) := by
  intro s x t hs h
  unfold onFst at h
  cases ha : a s.1 with
  | error e =>
    rw [ha] at h
    cases h
  | ok p =>
    rw [ha] at h
    cases h
    exact hs

theorem preserves_tmpFrame (ptr : Word) : Preserves (fun s : Mem => s.2 = r) (tmpFrame ptr) := by
  intro s x t hs h
  unfold tmpFrame at h
  split at h
  · cases h
  · cases h
    exact hs

theorem preserves_load (ptr : Word) (i : Nat) :
    Preserves (fun s : Mem => s.2 = r) (load ptr i) :=
  (preserves_tmpFrame ptr).bind fun n => preserves_onFst (readWord n i)

theorem preserves_store (ptr : Word) (i : Nat) (v : Word) :
    Preserves (fun s : Mem => s.2 = r) (store ptr i v) :=
  (preserves_tmpFrame ptr).bind fun n => preserves_onFst (writeWord n i v)

theorem preserves_clearPage (ptr : Word) : Preserves (fun s : Mem => s.2 = r) (clearPage ptr) :=
  (preserves_tmpFrame ptr).bind fun n => preserves_onFst (writeFrame n fun _ => 0#32)

theorem preserves_copyPage (dest src : Word) :
    Preserves (fun s : Mem => s.2 = r) (copyPage dest src) :=
  (preserves_tmpFrame dest).bind fun d =>
    (preserves_tmpFrame src).bind fun n => preserves_onFst (copyFrame d n)

end Quiet

/-- `m` holds at most `n` slots, each free before, and gives all of them back. -/
def Frugal {α : Type} (n : Nat) (m : SlotM α) : Prop := Balanced (fun s : Mem => s.2) freeSlots n m

section Balance
variable {α β : Type} {n m : Nat} {x : SlotM α} {f : α → SlotM β}

theorem frugal_quiet {p : MemM α} (h : ∀ r, Preserves (fun s : Mem => s.2 = r) p) :
    Frugal n (quiet p) :=
  balanced_quiet fun s a t hrun => h s.2 s a t rfl hrun

theorem frugal_throw (e : Fault) : Frugal n (quiet (throw e) : SlotM α) :=
  frugal_quiet fun _ => preserves_throw e

theorem mem_freeSlots {tmp : TmpTbl} {i : Nat} : i ∈ freeSlots tmp ↔ i < 1024 ∧ tmp i = nilPgEnt := by
  unfold freeSlots
  rw [Finset.mem_filter, Finset.mem_range]

theorem pgTmpMap_took (addr : Word) {s : Mem} (h : 1 ≤ (freeSlots s.2).card) :
    ∃ i ∈ freeSlots s.2, pgTmpMap addr s = ⟨[.took i], .ok (tmpAddr i,
      (s.1, Function.update s.2 i (pageEntry addr kernelFlags)))⟩ := by
  have hready : Ready [] 1 s.2 := ⟨fun m hm => absurd hm List.not_mem_nil, h⟩
  obtain ⟨i, hfound, hlt, hnil⟩ := pgFreeTmpMap_ok hready
  refine ⟨i, mem_freeSlots.mpr ⟨hlt, hnil⟩, ?_⟩
  unfold pgTmpMap
  rw [hfound]
  exact congrArg (Logs.Logged.mk [Event.took i]) (pgTmpMap_run hfound s.1)

theorem pgTmpUnmap_gave {i : Nat} (hi : i < 1024) (s : Mem) :
    pgTmpUnmap (tmpAddr i) s = ⟨[.gave i], .ok ((), (s.1, Function.update s.2 i nilPgEnt))⟩ := by
  unfold pgTmpUnmap
  rw [addrPte_tmp hi]
  exact congrArg (Logs.Logged.mk [Event.gave i]) (pgTmpUnmap_run hi s.1)

theorem borrows_pgTmpMap (addr : Word) :
    Borrows (fun s : Mem => s.2) freeSlots 1 (pgTmpMap addr) pgTmpUnmap := by
  intro s hs
  obtain ⟨i, hi, htook⟩ := pgTmpMap_took addr hs
  obtain ⟨hlt, hnil⟩ := mem_freeSlots.mp hi
  refine ⟨[i], [i], tmpAddr i, _, List.nodup_singleton i, ?_, rfl, List.Perm.refl _, htook, ?_, ?_⟩
  · intro j hj
    rw [List.mem_singleton.mp hj]
    exact hi
  · rw [freeSlots_update i (tmpEntry_ne_nil addr), List.toFinset_cons, List.toFinset_nil,
      Finset.erase_eq]
    rfl
  · intro t ht
    refine ⟨_, pgTmpUnmap_gave hlt t, ?_⟩
    dsimp only at ht ⊢
    rw [ht, update_nil hnil]

theorem borrows_pgTmpMap_pair (addr addr' : Word) :
    Borrows (fun s : Mem => s.2) freeSlots 2
      (do let p ← pgTmpMap addr; let p' ← pgTmpMap addr'; pure (p, p'))
      (fun p => do pgTmpUnmap p.1; pgTmpUnmap p.2) := by
  apply Borrows.pair
  intro s hs
  obtain ⟨i, hi, htook⟩ := pgTmpMap_took addr (Nat.le_of_succ_le hs)
  obtain ⟨hlt, hnil⟩ := mem_freeSlots.mp hi
  have hfree : freeSlots (Function.update s.2 i (pageEntry addr kernelFlags)) =
      (freeSlots s.2).erase i := freeSlots_update i (tmpEntry_ne_nil addr)
  have hcard : 1 ≤ (freeSlots (Function.update s.2 i (pageEntry addr kernelFlags))).card := by
    rw [hfree, Finset.card_erase_of_mem hi]
    omega
  obtain ⟨j, hj, htook'⟩ := pgTmpMap_took addr'
    (s := (s.1, Function.update s.2 i (pageEntry addr kernelFlags))) hcard
  dsimp only at hj htook'
  rw [hfree] at hj
  obtain ⟨hji, hj⟩ := Finset.mem_erase.mp hj
  obtain ⟨hlt', hnil'⟩ := mem_freeSlots.mp hj
  refine ⟨i, j, tmpAddr i, tmpAddr j, _, _, hi, hj, hji, htook, htook', ?_, ?_⟩
  · rw [freeSlots_update j (tmpEntry_ne_nil addr'), hfree]
  · intro t ht
    refine ⟨_, _, pgTmpUnmap_gave hlt t, pgTmpUnmap_gave hlt' _, ?_⟩
    dsimp only at ht ⊢
    rw [ht, Function.update_comm hji, update_nil hnil, update_nil hnil']

theorem frugal_mapped (addr : Word) {b : Word → SlotM α} (h : ∀ ptr, Frugal n (b ptr)) :
    Frugal (n + 1) (do let ptr ← pgTmpMap addr; let x ← b ptr; pgTmpUnmap ptr; pure x) :=
  Balanced.bracket (borrows_pgTmpMap addr) h

theorem frugal_mapped_pair (addr addr' : Word) {b : Word → Word → SlotM α}
    (h : ∀ p p', Frugal n (b p p')) : Frugal (n + 2) (do
      let p ← pgTmpMap addr
      let p' ← pgTmpMap addr'
      let x ← b p p'
      pgTmpUnmap p
      pgTmpUnmap p'
      pure x) := by
  have hbody : ∀ p : Word × Word, Frugal n (b p.1 p.2) := fun p => h p.1 p.2
  have hb := Balanced.bracket (borrows_pgTmpMap_pair addr addr') hbody
  unfold Frugal
  simpa only [bind_assoc, pure_bind] using hb

theorem frugal_load (ptr : Word) (i : Nat) : Frugal n (quiet (load ptr i)) :=
  frugal_quiet fun _ => preserves_load ptr i

theorem frugal_store (ptr : Word) (i : Nat) (v : Word) : Frugal n (quiet (store ptr i v)) :=
  frugal_quiet fun _ => preserves_store ptr i v

theorem frugal_onFst (a : PhysM α) : Frugal n (quiet (onFst a)) :=
  frugal_quiet fun _ => preserves_onFst a

theorem frugal_pgDirNew : Frugal 1 pgDirNew := by
  have heq : pgDirNew = (do
      let f ← quiet (onFst frameAlloc)
      quiet (onFst (frameSet f))
      (do let ptr ← pgTmpMap f; let x ← quiet (clearPage ptr); pgTmpUnmap ptr; pure x)
      pure f) := by
    simp only [pgDirNew, bind_assoc, pure_bind]
  rw [heq]
  apply (frugal_onFst frameAlloc).bind
  intro f
  apply (frugal_onFst (frameSet f)).bind
  intro _
  have hclear := frugal_mapped (n := 0) f fun ptr =>
    frugal_quiet fun _ => preserves_clearPage ptr
  exact hclear.bind fun _ => balanced_pure f

theorem frugal_pgTableFrame (cur : Task) (dir : Word) (idx : Nat) :
    Frugal 1 (pgTableFrame cur dir idx) := by
  have hrest : Frugal 1 (do let dirent ← quiet (load dir idx); pure (pteAddr dirent)) :=
    (frugal_load dir idx).bind fun dirent => balanced_pure (pteAddr dirent)
  apply (frugal_load dir idx).bind
  intro dirent
  dsimp only
  split
  · have h := (frugal_pgDirNew.bind fun f =>
      frugal_store dir idx (pageEntry f (baseFlags cur))).bind fun _ => hrest
    simpa only [bind_assoc] using h
  · exact hrest

theorem frugal_pgWriteEntry (cur : Task) (pgdAddr vaddr entry : Word) :
    Frugal 2 (pgWriteEntry cur pgdAddr vaddr entry) := by
  have heq : pgWriteEntry cur pgdAddr vaddr entry = (do
      let dir ← pgTmpMap pgdAddr
      let x ← (do
        let tblframe ← pgTableFrame cur dir (addrPde vaddr)
        (do
          let table ← pgTmpMap tblframe
          let x ← quiet (store table (addrPte vaddr) entry)
          pgTmpUnmap table
          pure x))
      pgTmpUnmap dir
      pure x) := by
    simp only [pgWriteEntry, bind_assoc, bind_pure_unit]
  rw [heq]
  apply frugal_mapped _
  intro dir
  apply (frugal_pgTableFrame cur dir _).bind
  intro tblframe
  exact frugal_mapped _ fun table => frugal_store table _ entry

theorem frugal_pgReadEntry (cur : Task) (pgdAddr vaddr : Word) :
    Frugal 2 (pgReadEntry cur pgdAddr vaddr) := by
  have heq : pgReadEntry cur pgdAddr vaddr = (do
      let dir ← pgTmpMap pgdAddr
      let x ← (do
        let tblframe ← pgTableFrame cur dir (addrPde vaddr)
        (do
          let table ← pgTmpMap tblframe
          let x ← quiet (load table (addrPte vaddr))
          pgTmpUnmap table
          pure x))
      pgTmpUnmap dir
      pure x) := by
    simp only [pgReadEntry, bind_assoc, pure_bind]
  rw [heq]
  apply frugal_mapped _
  intro dir
  apply (frugal_pgTableFrame cur dir _).bind
  intro tblframe
  exact frugal_mapped _ fun table => frugal_load table _

theorem frugal_pgUnmapExt (cur : Task) (vaddr : Word) : Frugal 1 (pgUnmapExt cur vaddr) := by
  have heq : pgUnmapExt cur vaddr = (do
      let dir ← pgTmpMap cur.pgd
      let x ← (do
        let dirent ← quiet (load dir (addrPde vaddr))
        if dirent = nilPgEnt then pure ()
        else quiet (store dir (addrPde vaddr) nilPgEnt))
      pgTmpUnmap dir
      pure x) := by
    unfold pgUnmapExt
    simp only [bind_assoc]
    refine bind_congr fun dir => bind_congr fun dirent => ?_
    split
    · simp only [pure_bind, bind_pure_unit]
    · simp only [bind_pure_unit]
  rw [heq]
  apply frugal_mapped _
  intro dir
  apply (frugal_load dir _).bind
  intro dirent
  exact Balanced.ite (balanced_pure ()) (frugal_store dir _ _)

theorem frugal_readMapped (addr : Word) (i : Nat) : Frugal 1
    (do let ptr ← pgTmpMap addr; let x ← quiet (load ptr i); pgTmpUnmap ptr; pure x) :=
  frugal_mapped _ fun ptr => frugal_load ptr i

theorem frugal_pgIsAllocated (cur : Task) (addr : Word) : Frugal 1 (pgIsAllocated cur addr) := by
  have heq : pgIsAllocated cur addr = (do
      let pgd ← (do
        let ptr ← pgTmpMap cur.pgd; let x ← quiet (load ptr (addrPde addr)); pgTmpUnmap ptr; pure x)
      if pgd = nilPgEnt then pure false
      else if ¬ Present pgd then pure false
      else if Extended pgd then pure true
      else
        let pte ← (do
          let ptr ← pgTmpMap (pteAddr pgd)
          let x ← quiet (load ptr (addrPte addr))
          pgTmpUnmap ptr
          pure x)
        if pte = nilPgEnt then pure false
        else if ¬ Present pte then pure false
        else pure true) := by
    simp only [pgIsAllocated, bind_assoc, pure_bind]
  rw [heq]
  apply (frugal_readMapped _ _).bind
  intro pgd
  refine Balanced.ite (balanced_pure _) (Balanced.ite (balanced_pure _)
    (Balanced.ite (balanced_pure _) ?_))
  apply (frugal_readMapped _ _).bind
  intro pte
  exact Balanced.ite (balanced_pure _) (Balanced.ite (balanced_pure _) (balanced_pure _))

theorem frugal_pgIsReserved (cur : Task) (addr : Word) : Frugal 1 (pgIsReserved cur addr) := by
  have heq : pgIsReserved cur addr = (do
      let pgd ← (do
        let ptr ← pgTmpMap cur.pgd; let x ← quiet (load ptr (addrPde addr)); pgTmpUnmap ptr; pure x)
      if pgd = nilPgEnt then pure false
      else if Reserved pgd ∧ Extended pgd then pure true
      else if Extended pgd then pure false
      else
        let pte ← (do
          let ptr ← pgTmpMap (pteAddr pgd)
          let x ← quiet (load ptr (addrPte addr))
          pgTmpUnmap ptr
          pure x)
        if pte = nilPgEnt then pure false
        else if Reserved pte then pure true
        else pure false) := by
    simp only [pgIsReserved, bind_assoc, pure_bind]
  rw [heq]
  apply (frugal_readMapped _ _).bind
  intro pgd
  refine Balanced.ite (balanced_pure _) (Balanced.ite (balanced_pure _)
    (Balanced.ite (balanced_pure _) ?_))
  apply (frugal_readMapped _ _).bind
  intro pte
  exact Balanced.ite (balanced_pure _) (Balanced.ite (balanced_pure _) (balanced_pure _))

theorem frugal_pgCopyMapping (cur : Task) (destPgd srcPgd addr : Word) :
    Frugal 2 (pgCopyMapping cur destPgd srcPgd addr) := by
  apply (frugal_pgReadEntry cur _ _).bind
  intro entry
  dsimp only
  split
  · exact (frugal_throw _).bind fun _ => frugal_pgWriteEntry cur _ _ _
  · exact frugal_pgWriteEntry cur _ _ _

theorem frugal_pgFaultReserved (cur : Task) (addr : Word) :
    Frugal 2 (pgFaultReserved cur addr) := by
  refine ((frugal_pgIsReserved cur addr).mono (Nat.le_succ 1)).bind fun b => Balanced.ite ?_ ?_
  · apply (frugal_onFst frameAlloc).bind
    intro f
    apply (frugal_onFst (frameSet f)).bind
    intro _
    exact frugal_pgWriteEntry cur _ _ _
  · exact frugal_throw _

theorem frugal_pgFaultHandler (cur : Task) (kernelPgd : Word) (userPgd : Option Word)
    (addr : Word) : Frugal 2 (pgFaultHandler cur kernelPgd userPgd addr) := by
  cases userPgd with
  | none => exact frugal_pgFaultReserved cur addr
  | some pgd => exact Balanced.ite (frugal_pgCopyMapping cur _ _ _) (frugal_pgFaultReserved cur addr)

theorem frugal_frameCopy (src dest : Word) : Frugal 2 (frameCopy src dest) := by
  have heq : frameCopy src dest = (do
      let p ← pgTmpMap src
      let p' ← pgTmpMap dest
      let x ← quiet (copyPage p' p)
      pgTmpUnmap p
      pgTmpUnmap p'
      pure x) := by
    simp only [frameCopy, bind_pure_unit]
  rw [heq]
  exact frugal_mapped_pair _ _ fun p p' => frugal_quiet fun _ => preserves_copyPage p' p

theorem frugal_pgClonePage4m (page : Word) : Frugal 2 (pgClonePage4m page) := by
  refine Balanced.ite (balanced_pure page) (Balanced.ite (balanced_pure page) ?_)
  apply (frugal_onFst frameAlloc4m).bind
  intro f
  apply (frugal_onFst (frameSetRange f _)).bind
  intro _
  refine (Balanced.upTo (fun i => ?_) 1024).bind fun _ => balanced_pure _
  exact frugal_frameCopy _ _

theorem frugal_pgClonePage (page : Word) : Frugal 2 (pgClonePage page) := by
  refine Balanced.ite (balanced_pure page) (Balanced.ite (balanced_pure page) ?_)
  apply (frugal_onFst frameAlloc).bind
  intro f
  apply (frugal_onFst (frameSet f)).bind
  intro _
  exact (frugal_frameCopy _ f).bind fun _ => balanced_pure _

theorem frugal_pgCloneTbl (tblent : Word) : Frugal 4 (pgCloneTbl tblent) := by
  refine Balanced.ite (balanced_pure tblent) (Balanced.ite (balanced_pure tblent) ?_)
  apply (frugal_pgDirNew.mono (by decide)).bind
  intro f
  have hslots (p p' : Word) : Frugal 2 (Traced.upTo (fun i => do
      let e ← quiet (load p i)
      if e ≠ nilPgEnt then
        let e' ← pgClonePage e
        quiet (store p' i e')) 1024) := by
    refine Balanced.upTo (fun i => ?_) 1024
    refine (frugal_load p i).bind fun e => Balanced.ite ?_ (balanced_pure ())
    exact (frugal_pgClonePage e).bind fun e' => frugal_store p' i e'
  have h := (frugal_mapped_pair (pteAddr tblent) f hslots).bind
    fun _ => balanced_pure (pageEntry f (pteFlags tblent))
  simpa only [bind_assoc, pure_bind] using h

theorem frugal_pgCloneDir (dirframe : Word) : Frugal 6 (pgCloneDir dirframe) := by
  apply (frugal_pgDirNew.mono (by decide)).bind
  intro f
  have hslots (p p' : Word) : Frugal 4 (Traced.upTo (fun i => do
      let e ← quiet (load p i)
      if e ≠ nilPgEnt then
        if e &&& pageExtended ≠ 0#32 then
          let e' ← pgClonePage4m e
          quiet (store p' i e')
        else
          let e' ← pgCloneTbl e
          quiet (store p' i e')) 1024) := by
    refine Balanced.upTo (fun i => ?_) 1024
    refine (frugal_load p i).bind fun e => Balanced.ite (Balanced.ite ?_ ?_) (balanced_pure ())
    · exact ((frugal_pgClonePage4m e).mono (by decide)).bind fun e' => frugal_store p' i e'
    · exact (frugal_pgCloneTbl e).bind fun e' => frugal_store p' i e'
  have h := (frugal_mapped_pair dirframe f hslots).bind
    fun _ => balanced_pure f
  simpa only [bind_assoc, pure_bind] using h

end Balance

end Slotted

end AkKernel
