import AkKernel.Kernel.Execve
import AkKernel.Mem.TmpSlots

/-!
# Temporary mappings are balanced

`memcpy_phys` writes through the loaded directory, so a fault of its destination takes slots
while it holds one of its own. What each of the calls holds is put together here.
-/

set_option autoImplicit false

namespace AkKernel

open Programs Slots Logs

/-- The loop of `memcpy_phys` from offset `x` on. Each round copies at least one byte, so `len`
rounds are enough. -/
def memcpyPhysLoop (dest src len : Word) : Nat → Word → KernM Unit
  | 0, x => if x < len then throw .diverges else pure ()
  | fuel + 1, x => do
    if x < len then
      let seek := src + x
      let pg := pgAddr seek
      let ofs := seek - pg
      let sz := pageSize - ofs
      let sz := if len - x < sz then len - x else sz
      let tmpmap ← onMem fun _ => pgTmpMap pg
      memcpy (dest + x) (tmpmap + ofs) sz.toNat
      onMem fun _ => pgTmpUnmap tmpmap
      memcpyPhysLoop dest src len fuel (x + sz)

def memcpyPhys (dest src len : Word) : KernM Unit := memcpyPhysLoop dest src len len.toNat 0#32

/-- The calls that map frames for their own use. -/
inductive SlotCall where
  | dirNew
  | writeEntry (pgdAddr vaddr entry : Word)
  | readEntry (pgdAddr vaddr : Word)
  | unmapExt (vaddr : Word)
  | isAllocated (addr : Word)
  | isReserved (addr : Word)
  | memcpyPhys (dest src len : Word)
  | copyMapping (destPgd srcPgd addr : Word)
  | cloneDir (dirframe : Word)
deriving DecidableEq, Repr

def SlotCall.run : SlotCall → KernM Unit
  | .dirNew => do let _ ← onMem fun _ => pgDirNew; pure ()
  | .writeEntry pgdAddr vaddr entry => onMem fun cur => pgWriteEntry cur pgdAddr vaddr entry
  | .readEntry pgdAddr vaddr => do let _ ← onMem fun cur => pgReadEntry cur pgdAddr vaddr; pure ()
  | .unmapExt vaddr => onMem fun cur => pgUnmapExt cur vaddr
  | .isAllocated addr => do let _ ← onMem fun cur => pgIsAllocated cur addr; pure ()
  | .isReserved addr => do let _ ← onMem fun cur => pgIsReserved cur addr; pure ()
  | .memcpyPhys dest src len => AkKernel.memcpyPhys dest src len
  | .copyMapping destPgd srcPgd addr => onMem fun cur => pgCopyMapping cur destPgd srcPgd addr
  | .cloneDir dirframe => do let _ ← onMem fun _ => pgCloneDir dirframe; pure ()

/-- The addresses and the destination of the call are below `KTMPMEM`. -/
def SlotCall.BelowTmp : SlotCall → Prop
  | .dirNew => True
  | .writeEntry _ vaddr _ => vaddr < kTmpMem
  | .readEntry _ vaddr => vaddr < kTmpMem
  | .unmapExt vaddr => vaddr < kTmpMem
  | .isAllocated addr => addr < kTmpMem
  | .isReserved addr => addr < kTmpMem
  | .memcpyPhys dest _ len => dest.toNat + len.toNat ≤ kTmpMem.toNat
  | .copyMapping _ _ addr => addr < kTmpMem
  | .cloneDir _ => True

abbrev SlotK (α : Type) := Traced Nat Fault Kern α

namespace Slotted

open Slots.Traced

def onMem {α : Type} (m : Task → SlotM α) : SlotK α :=
  zoom (fun s : Kern => s.mem) (fun s mem => { s with mem := mem }) fun s => m s.proc.cur

def pgFault (addr : Word) : SlotK Unit := fun s =>
  onMem (fun cur => pgFaultHandler cur (s.proc.task kernelTask).pgd
    (s.proc.userTask.map fun u => (s.proc.task u).pgd) addr) s

def access (addr : Word) : SlotK Nat := fun s =>
  match walk s addr with
  | some n => pure (n, s)
  | none => pgFault addr s >>= fun p =>
    match walk p.2 addr with
    | some n => pure (n, p.2)
    | none => Logged.lift (.error .diverges)

def loadByte (addr : Word) : SlotK UInt8 := do
  let n ← access addr
  quiet (do
    let s ← get
    pure (byteOf (s.mem.1.mem n (wordIdx addr)) addr))

def storeByte (addr : Word) (b : UInt8) : SlotK Unit := do
  let n ← access addr
  quiet (do
    let s ← get
    let w := withByte (s.mem.1.mem n (wordIdx addr)) addr b
    set { s with mem := (s.mem.1.setWord n (wordIdx addr) w, s.mem.2) })

def memcpy (dest src : Word) (n : Nat) : SlotK Unit :=
  Traced.upTo (fun i => do
    let b ← loadByte (src + BitVec.ofNat 32 i)
    storeByte (dest + BitVec.ofNat 32 i) b) n

def memcpyPhysLoop (dest src len : Word) : Nat → Word → SlotK Unit
  | 0, x => if x < len then quiet (throw .diverges) else pure ()
  | fuel + 1, x => do
    if x < len then
      let seek := src + x
      let pg := pgAddr seek
      let ofs := seek - pg
      let sz := pageSize - ofs
      let sz := if len - x < sz then len - x else sz
      let tmpmap ← onMem fun _ => pgTmpMap pg
      memcpy (dest + x) (tmpmap + ofs) sz.toNat
      onMem fun _ => pgTmpUnmap tmpmap
      memcpyPhysLoop dest src len fuel (x + sz)

def memcpyPhys (dest src len : Word) : SlotK Unit := memcpyPhysLoop dest src len len.toNat 0#32

section Erase

theorem erase_onMem {α : Type} (m : Task → SlotM α) :
    erase (onMem m) = AkKernel.onMem fun cur => erase (m cur) := by
  funext s
  change (m s.proc.cur s.mem >>= fun p => pure (p.1, { s with mem := p.2 })).res = _
  rw [Logged.res_bind]
  unfold AkKernel.onMem erase
  dsimp only
  cases (m s.proc.cur s.mem).res with
  | error e => rfl
  | ok p => rfl

theorem erase_pgFault (addr : Word) : erase (pgFault addr) = AkKernel.pgFault addr := by
  funext s
  have h := congrFun (erase_onMem fun cur => pgFaultHandler cur (s.proc.task kernelTask).pgd
    (s.proc.userTask.map fun u => (s.proc.task u).pgd) addr) s
  simp only [erase_pgFaultHandler] at h
  exact h

theorem erase_access (addr : Word) : erase (access addr) = AkKernel.access addr := by
  funext s
  have hfault : (pgFault addr s).res = AkKernel.pgFault addr s := congrFun (erase_pgFault addr) s
  unfold erase access AkKernel.access
  cases walk s addr with
  | some n => rfl
  | none =>
    dsimp only
    rw [Logged.res_bind, hfault]
    cases AkKernel.pgFault addr s with
    | error e => rfl
    | ok p =>
      change (match walk p.2 addr with
        | some n => pure (n, p.2)
        | none => Logged.lift (.error .diverges) : Logged (Event Nat) Fault (Nat × Kern)).res = _
      dsimp only
      cases walk p.2 addr with
      | some n => rfl
      | none => rfl

theorem erase_loadByte (addr : Word) : erase (loadByte addr) = AkKernel.loadByte addr := by
  unfold loadByte AkKernel.loadByte
  rw [erase_bind, erase_access]
  rfl

theorem erase_storeByte (addr : Word) (b : UInt8) :
    erase (storeByte addr b) = AkKernel.storeByte addr b := by
  unfold storeByte AkKernel.storeByte
  rw [erase_bind, erase_access]
  rfl

theorem erase_memcpy (dest src : Word) (n : Nat) :
    erase (memcpy dest src n) = AkKernel.memcpy dest src n := by
  simp only [memcpy, AkKernel.memcpy, erase_upTo, erase_bind, erase_loadByte, erase_storeByte]

theorem erase_memcpyPhysLoop (dest src len : Word) (fuel : Nat) : ∀ x,
    erase (memcpyPhysLoop dest src len fuel x) = AkKernel.memcpyPhysLoop dest src len fuel x := by
  induction fuel with
  | zero =>
    intro x
    simp only [memcpyPhysLoop, AkKernel.memcpyPhysLoop, erase_ite, erase_quiet, erase_pure]
  | succ fuel ih =>
    intro x
    simp only [memcpyPhysLoop, AkKernel.memcpyPhysLoop, erase_ite, erase_bind, erase_onMem,
      erase_memcpy, erase_pgTmpMap, erase_pgTmpUnmap, erase_pure, ih]

end Erase

/-- `m` holds at most `n` slots, each free before, and gives all of them back. -/
def FrugalK {α : Type} (n : Nat) (m : SlotK α) : Prop :=
  Balanced (fun s : Kern => s.mem.2) freeSlots n m

section Balance
variable {α : Type} {n : Nat}

theorem FrugalK.mono {x : SlotK α} {k : Nat} (h : FrugalK n x) (hnk : n ≤ k) : FrugalK k x :=
  Balanced.mono h hnk

theorem FrugalK.bind {β : Type} {x : SlotK α} {f : α → SlotK β} (h : FrugalK n x)
    (hf : ∀ a, FrugalK n (f a)) : FrugalK n (x >>= f) :=
  Balanced.bind h hf

theorem frugal_onMem {m : Task → SlotM α} (h : ∀ cur, Frugal n (m cur)) :
    FrugalK n (onMem m) :=
  Balanced.zoom (fun _ => rfl) (fun _ _ => rfl) fun s => h s.proc.cur

theorem frugal_pgFault (addr : Word) : FrugalK 2 (pgFault addr) := by
  intro s hs
  exact frugal_onMem (fun cur => frugal_pgFaultHandler cur (s.proc.task kernelTask).pgd
    (s.proc.userTask.map fun u => (s.proc.task u).pgd) addr) s hs

theorem frugal_found (addr : Word) : FrugalK n (fun s => match walk s addr with
    | some n => pure (n, s)
    | none => Logged.lift (.error .diverges) : SlotK Nat) := by
  intro s _
  dsimp only
  cases walk s addr with
  | some m =>
    refine ⟨∅, .nil ∅, fun a t h => ?_⟩
    cases h
    exact ⟨rfl, rfl⟩
  | none => exact ⟨∅, .nil ∅, fun a t h => nomatch h⟩

theorem frugal_access (addr : Word) : FrugalK 2 (access addr) := by
  have hmiss := (frugal_pgFault addr).bind fun _ => frugal_found addr
  intro s hs
  unfold access
  cases walk s addr with
  | some m =>
    refine ⟨∅, .nil ∅, fun a t h => ?_⟩
    cases h
    exact ⟨rfl, rfl⟩
  | none => exact hmiss s hs

theorem frugal_loadByte (addr : Word) : FrugalK 2 (loadByte addr) := by
  refine (frugal_access addr).bind fun n => balanced_quiet ?_
  intro s a t h
  cases h
  rfl

theorem frugal_storeByte (addr : Word) (b : UInt8) : FrugalK 2 (storeByte addr b) := by
  refine (frugal_access addr).bind fun n => balanced_quiet ?_
  intro s a t h
  cases h
  rfl

theorem frugal_memcpy (dest src : Word) (n : Nat) : FrugalK 2 (memcpy dest src n) :=
  Balanced.upTo (fun _ => (frugal_loadByte _).bind fun b => frugal_storeByte _ b) n

theorem borrows_onMem (addr : Word) : Borrows (fun s : Kern => s.mem.2) freeSlots 1
    (onMem fun _ => pgTmpMap addr) (fun ptr => onMem fun _ => pgTmpUnmap ptr) :=
  (borrows_pgTmpMap addr).zoom (fun _ => rfl) (fun _ _ => rfl)

/-- A round holds the slot of its page while the destination may fault. -/
theorem frugal_memcpyPhysLoop (dest src len : Word) (fuel : Nat) :
    ∀ x, FrugalK 3 (memcpyPhysLoop dest src len fuel x) := by
  induction fuel with
  | zero =>
    intro x
    exact Balanced.ite (balanced_quiet fun s a t h => nomatch h) (balanced_pure ())
  | succ fuel ih =>
    intro x
    unfold memcpyPhysLoop
    refine Balanced.ite ?_ (balanced_pure ())
    have h := (Balanced.bracket (borrows_onMem (pgAddr (src + x)))
      fun ptr => frugal_memcpy (dest + x) (ptr + (src + x - pgAddr (src + x)))
        (if len - x < pageSize - (src + x - pgAddr (src + x)) then len - x
          else pageSize - (src + x - pgAddr (src + x))).toNat).bind
      fun _ => ih (x + if len - x < pageSize - (src + x - pgAddr (src + x)) then len - x
          else pageSize - (src + x - pgAddr (src + x)))
    simpa only [bind_assoc, pure_bind] using h

end Balance

end Slotted

/-- The call with its log. -/
def SlotCall.logged : SlotCall → SlotK Unit
  | .dirNew => do let _ ← Slotted.onMem fun _ => Slotted.pgDirNew; pure ()
  | .writeEntry pgdAddr vaddr entry =>
    Slotted.onMem fun cur => Slotted.pgWriteEntry cur pgdAddr vaddr entry
  | .readEntry pgdAddr vaddr => do
    let _ ← Slotted.onMem fun cur => Slotted.pgReadEntry cur pgdAddr vaddr
    pure ()
  | .unmapExt vaddr => Slotted.onMem fun cur => Slotted.pgUnmapExt cur vaddr
  | .isAllocated addr => do
    let _ ← Slotted.onMem fun cur => Slotted.pgIsAllocated cur addr
    pure ()
  | .isReserved addr => do
    let _ ← Slotted.onMem fun cur => Slotted.pgIsReserved cur addr
    pure ()
  | .memcpyPhys dest src len => Slotted.memcpyPhys dest src len
  | .copyMapping destPgd srcPgd addr =>
    Slotted.onMem fun cur => Slotted.pgCopyMapping cur destPgd srcPgd addr
  | .cloneDir dirframe => do
    let _ ← Slotted.onMem fun _ => Slotted.pgCloneDir dirframe
    pure ()

theorem SlotCall.erase_logged (call : SlotCall) : call.logged.erase = call.run := by
  cases call with
  | memcpyPhys dest src len => exact Slotted.erase_memcpyPhysLoop dest src len _ _
  | _ =>
    simp only [logged, run, Traced.erase_bind, Traced.erase_pure, Slotted.erase_onMem,
      Slotted.erase_pgDirNew, Slotted.erase_pgWriteEntry, Slotted.erase_pgReadEntry,
      Slotted.erase_pgUnmapExt, Slotted.erase_pgIsAllocated, Slotted.erase_pgIsReserved,
      Slotted.erase_pgCopyMapping, Slotted.erase_pgCloneDir]

/-- `pg_clone_dir` is the call that holds six slots: two directories, two tables, two pages. -/
theorem SlotCall.frugal (call : SlotCall) : Slotted.FrugalK 6 call.logged := by
  have hcall : ∀ {α : Type} {n : Nat} {m : Task → SlotM α}, n ≤ 6 →
      (∀ cur, Slotted.Frugal n (m cur)) → Slotted.FrugalK 6 (Slotted.onMem m) := by
    intro α n m hn h
    exact (Slotted.frugal_onMem h).mono hn
  have hdone : ∀ {α : Type} {n : Nat} {m : Task → SlotM α}, n ≤ 6 →
      (∀ cur, Slotted.Frugal n (m cur)) →
      Slotted.FrugalK 6 (do let _ ← Slotted.onMem m; pure ()) := by
    intro α n m hn h
    exact (hcall hn h).bind fun _ => balanced_pure ()
  cases call with
  | dirNew => exact hdone (by decide) fun _ => Slotted.frugal_pgDirNew
  | writeEntry pgdAddr vaddr entry =>
    rw [logged]
    exact hcall (by decide) fun cur => Slotted.frugal_pgWriteEntry cur pgdAddr vaddr entry
  | readEntry pgdAddr vaddr =>
    exact hdone (by decide) fun cur => Slotted.frugal_pgReadEntry cur pgdAddr vaddr
  | unmapExt vaddr =>
    rw [logged]
    exact hcall (by decide) fun cur => Slotted.frugal_pgUnmapExt cur vaddr
  | isAllocated addr =>
    exact hdone (by decide) fun cur => Slotted.frugal_pgIsAllocated cur addr
  | isReserved addr => exact hdone (by decide) fun cur => Slotted.frugal_pgIsReserved cur addr
  | memcpyPhys dest src len =>
    exact (Slotted.frugal_memcpyPhysLoop dest src len _ _).mono (by decide)
  | copyMapping destPgd srcPgd addr =>
    rw [logged]
    exact hcall (by decide) fun cur => Slotted.frugal_pgCopyMapping cur destPgd srcPgd addr
  | cloneDir dirframe => exact hdone (by decide) fun _ => Slotted.frugal_pgCloneDir dirframe

/-- With six free slots, each of the calls finds the slots it asks for, holds at most six at
once, all different and none of them in use before, and returns with `TmpPageTbl` as it was. -/
theorem tmpMaps_balanced (call : SlotCall) (s : Kern) (_hbelow : call.BelowTmp)
    (hfree : 6 ≤ (freeSlots s.mem.2).card) :
    (call.logged s).res = call.run s ∧ Within (freeSlots s.mem.2) 6 (call.logged s).log ∧
      ∀ t, call.run s = .ok ((), t) →
        t.mem.2 = s.mem.2 ∧ heldFrom [] (call.logged s).log = [] := by
  have herase : (call.logged s).res = call.run s := congrFun call.erase_logged s
  obtain ⟨H, hkeeps, hres⟩ := call.frugal s hfree
  refine ⟨herase, hkeeps.within, ?_⟩
  intro t ht
  rw [← herase] at ht
  obtain ⟨hH, htbl⟩ := hres () t ht
  refine ⟨htbl, ?_⟩
  have hempty := (hkeeps.heldFrom [] List.nodup_nil rfl).2
  rw [hH] at hempty
  exact List.toFinset_eq_empty_iff _ |>.mp hempty

/-- A kernel whose task has the directory of `oneTask`. -/
def oneTaskKern : Kern where
  proc := bootProc 0#32 0x2000#32
  mem := (oneTask, fun _ => nilPgEnt)
  earlyMallocEnabled := false
  allocStack := []
  allocSP := 0

/-- The clone of that directory. -/
theorem tmpMaps_balanced_oneTask :
    Within (freeSlots fun _ => nilPgEnt) 6
      ((SlotCall.cloneDir 0x2000#32).logged oneTaskKern).log ∧
    ∀ t, (SlotCall.cloneDir 0x2000#32).run oneTaskKern = .ok ((), t) →
      t.mem.2 = fun _ => nilPgEnt := by
  have hfree : 6 ≤ (freeSlots fun _ => nilPgEnt).card := (ready_nil (by decide)).free
  obtain ⟨-, hwithin, hreturn⟩ :=
    tmpMaps_balanced (.cloneDir 0x2000#32) oneTaskKern trivial hfree
  exact ⟨hwithin, fun t ht => (hreturn t ht).1⟩

end AkKernel
