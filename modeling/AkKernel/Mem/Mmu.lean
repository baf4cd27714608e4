import AkKernel.Mem.Frame
import AkKernel.Proc.Task

/-!
# Page tables

`arch/x86/mem/mmu.c`. The functions reach a frame through a slot of `TmpPageTbl`,
which stands beside physical memory here: every directory holds it as its last
table, and nothing but `pg_tmp_map` and `pg_tmp_unmap` writes it. The translation
buffer is not modelled; each change of an entry is followed by its `invlpg`.
`cur` is `CurrentTask`.
-/

set_option autoImplicit false

namespace AkKernel

open Programs

abbrev TmpTbl := Nat → Word
abbrev Mem := Phys × TmpTbl
abbrev MemM (α : Type) := Prog Fault Mem α

def baseFlags (cur : Task) : Word := if cur.pid = kernelPid then kernelFlags else userFlags

def pgFreeTmpMap (tmp : TmpTbl) : Option Nat := (List.range 1024).find? fun i => tmp i = nilPgEnt

/-- The address that slot `entry` of `TmpPageTbl` maps. -/
def tmpAddr (entry : Nat) : Word := kTmpMem + BitVec.ofNat 32 (entry * 4096)

def pgTmpMap (addr : Word) : MemM Word := fun s =>
  match pgFreeTmpMap s.2 with
  | none => .error (.panic "Out of free temporary mapping pages\n" [])
  | some entry =>
    .ok (tmpAddr entry, (s.1, Function.update s.2 entry (pageEntry addr kernelFlags)))

def pgTmpUnmap (mapping : Word) : MemM Unit := fun s =>
  .ok ((), (s.1, Function.update s.2 (addrPte mapping) nilPgEnt))

/-- The frame behind a pointer into the temporary mapping area. -/
def tmpFrame (ptr : Word) : MemM Nat := fun s =>
  if s.2 (addrPte ptr) = nilPgEnt then .error .badPointer
  else .ok (frameNo (s.2 (addrPte ptr)), s)

def readWord (n i : Nat) : PhysM Word := fun c => .ok (c.mem n i, c)
def writeWord (n i : Nat) (v : Word) : PhysM Unit := fun c => .ok ((), c.setWord n i v)
def writeFrame (n : Nat) (v : Nat → Word) : PhysM Unit := fun c => .ok ((), c.setFrame n v)
def copyFrame (dest src : Nat) : PhysM Unit := fun c => .ok ((), c.setFrame dest (c.mem src))

/-- `ptr[i]` -/
def load (ptr : Word) (i : Nat) : MemM Word := do
  let n ← tmpFrame ptr
  onFst (readWord n i)

/-- `ptr[i] = v` -/
def store (ptr : Word) (i : Nat) (v : Word) : MemM Unit := do
  let n ← tmpFrame ptr
  onFst (writeWord n i v)

/-- `memset(ptr, 0, PAGE_SIZE)` -/
def clearPage (ptr : Word) : MemM Unit := do
  let n ← tmpFrame ptr
  onFst (writeFrame n fun _ => 0#32)

/-- `memcpy(dest, src, PAGE_SIZE)` -/
def copyPage (dest src : Word) : MemM Unit := do
  let d ← tmpFrame dest
  let n ← tmpFrame src
  onFst (copyFrame d n)

def pgDirNew : MemM Word := do
  let dirframe ← onFst frameAlloc
  onFst (frameSet dirframe)
  let dir ← pgTmpMap dirframe
  clearPage dir
  pgTmpUnmap dir
  pure dirframe

/-- The part that `pg_write_entry` and `pg_read_entry` have in common: the table
that slot `idx` of the mapped directory refers to, made if the slot is nil. -/
def pgTableFrame (cur : Task) (dir : Word) (idx : Nat) : MemM Word := do
  let dirent ← load dir idx
  if dirent = nilPgEnt then
    let tblframe ← pgDirNew
    store dir idx (pageEntry tblframe (baseFlags cur))
  let dirent ← load dir idx
  pure (pteAddr dirent)

def pgWriteEntry (cur : Task) (pgdAddr vaddr entry : Word) : MemM Unit := do
  let dir ← pgTmpMap pgdAddr
  let tblframe ← pgTableFrame cur dir (addrPde vaddr)
  let table ← pgTmpMap tblframe
  store table (addrPte vaddr) entry
  pgTmpUnmap table
  pgTmpUnmap dir

def pgReadEntry (cur : Task) (pgdAddr vaddr : Word) : MemM Word := do
  let dir ← pgTmpMap pgdAddr
  let tblframe ← pgTableFrame cur dir (addrPde vaddr)
  let table ← pgTmpMap tblframe
  let entry ← load table (addrPte vaddr)
  pgTmpUnmap table
  pgTmpUnmap dir
  pure entry

def pgMapExt (cur : Task) (paddr vaddr flags : Word) : MemM Unit :=
  pgWriteEntry cur cur.pgd (pgAddr vaddr) (pageEntry paddr flags)

def pgMap (cur : Task) (paddr vaddr : Word) : MemM Unit := pgMapExt cur paddr vaddr (baseFlags cur)

def pgUnmap (cur : Task) (vaddr : Word) : MemM Unit :=
  pgWriteEntry cur cur.pgd (pgAddr vaddr) nilPgEnt

def pgAlloc (cur : Task) (vaddr : Word) : MemM Unit := do
  let frame ← onFst frameAlloc
  onFst (frameSet frame)
  pgMap cur frame vaddr

/-- `for (; start < limit; start += PAGE_SIZE) body(start)`. The addition wraps, so
the loop need not end: `fuel` bounds the rounds. -/
def forPages {σ : Type} (body : Word → Prog Fault σ Unit) : Nat → Word → Word → Prog Fault σ Unit
  | 0, start, limit => if start < limit then throw .diverges else pure ()
  | fuel + 1, start, limit => do
    if start < limit then
      body start
      forPages body fuel (start + pageSize) limit

def pgAllocRange (cur : Task) (fuel : Nat) (start limit : Word) : MemM Unit :=
  forPages (pgAlloc cur) fuel start (limit + pageSize)

/-- Reserved pages are not present, they are allocated on a page fault. -/
def pgReserve (cur : Task) (vaddr : Word) : MemM Unit :=
  pgMapExt cur 0#32 vaddr ((baseFlags cur ||| pageReserved) &&& ~~~ pagePresent)

def pgIsAllocated (cur : Task) (addr : Word) : MemM Bool := do
  let dir ← pgTmpMap cur.pgd
  let pgd ← load dir (addrPde addr)
  pgTmpUnmap dir
  if pgd = nilPgEnt then pure false
  else if ¬ Present pgd then pure false
  else if Extended pgd then pure true
  else
    let pt ← pgTmpMap (pteAddr pgd)
    let pte ← load pt (addrPte addr)
    pgTmpUnmap pt
    if pte = nilPgEnt then pure false
    else if ¬ Present pte then pure false
    else pure true

def pgIsReserved (cur : Task) (addr : Word) : MemM Bool := do
  let dir ← pgTmpMap cur.pgd
  let pgd ← load dir (addrPde addr)
  pgTmpUnmap dir
  if pgd = nilPgEnt then pure false
  else if Reserved pgd ∧ Extended pgd then pure true
  else if Extended pgd then pure false
  else
    let pt ← pgTmpMap (pteAddr pgd)
    let pte ← load pt (addrPte addr)
    pgTmpUnmap pt
    if pte = nilPgEnt then pure false
    else if Reserved pte then pure true
    else pure false

/-- `task_brk` of `arch/x86/mem/brk.c` on a task whose break is `taskBrk`; gives the
break it leaves. The pages it maps are those of `CurrentTask`. -/
def taskBrk (cur : Task) (fuel : Nat) (taskBrk brk : Word) : MemM Word := do
  if brk = 0#32 then pure taskBrk
  else if taskBrk < brk then
    forPages (fun page => do
      let s ← get
      if s.1.mmuReady then
        if ¬ (← pgIsAllocated cur page) then pgAlloc cur page) fuel taskBrk (brk + pageSize)
    pure brk
  else if brk < taskBrk then
    forPages (fun page => do
      let s ← get
      if s.1.mmuReady then pgUnmap cur page) fuel (pgAddr brk + 1#32) (pgAddr taskBrk)
    pure brk
  else pure taskBrk

def pgIsKernel (addr : Word) : Bool := kZero ≤ addr && addr < kTmpMem

def pgCopyMapping (cur : Task) (destPgd srcPgd addr : Word) : MemM Unit := do
  let entry ← pgReadEntry cur srcPgd (pgAddr addr)
  if entry = nilPgEnt then throw (.panic "Tried to copy nil page entry\n" [])
  pgWriteEntry cur destPgd (pgAddr addr) entry

/-- The branch of `pg_fault_handler` that is not about the kernel's own pages. -/
def pgFaultReserved (cur : Task) (faultAddr : Word) : MemM Unit := do
  if ← pgIsReserved cur faultAddr then
    let frame ← onFst frameAlloc
    onFst (frameSet frame)
    pgMap cur frame faultAddr
  else throw (.panic "Page fault on unreserved page %02x\n" [faultAddr])

/-- `kernelPgd` is the directory of `KernelTask`, `userPgd` that of `UserTask` if
there is one. -/
def pgFaultHandler (cur : Task) (kernelPgd : Word) (userPgd : Option Word) (faultAddr : Word) :
    MemM Unit :=
  match userPgd with
  | some pgd =>
    if pgIsKernel faultAddr then pgCopyMapping cur pgd kernelPgd faultAddr
    else pgFaultReserved cur faultAddr
  | none => pgFaultReserved cur faultAddr

end AkKernel
