import AkKernel.Foundation.Tlb
import AkKernel.Mem.Mapped

/-!
# Page tables behind a translation buffer

The functions of `mmu.c` and `mmu_clone_dir.c` on a processor that keeps translations, with the
`invlpg` that they do. Frames are reached through the temporary mappings, and so through the buffer.
`d` is the frame of the directory that is loaded.
-/

set_option autoImplicit false

namespace AkKernel

open Programs Tlb

/-- The frame of a page, and the flags of the entries on the way there. -/
abbrev Translation := Nat × Word × Word

abbrev CachedM (α : Type) := BufProg Fault Mem Word Translation α

/-- The walk of the processor; the pages from `KTMPMEM` on are those of `TmpPageTbl`. -/
def pageWalk (d : Nat) (s : Mem) : Buffer Word Translation := fun addr =>
  if kTmpMem ≤ addr then
    if Present (s.2 (addrPte addr)) then
      some (frameNo (s.2 (addrPte addr)), kernelFlags, pteFlags (s.2 (addrPte addr)))
    else none
  else translate s.1 d addr

namespace Cached

section Functions
variable (d : Nat)

/-- A function that touches kernel data only. -/
def phys {α : Type} (a : PhysM α) : CachedM α := plain (pageWalk d) (onFst a)

def tlbInvlpg (addr : Word) : CachedM Unit := drop (pageWalk d) fun v => pgAddr v = pgAddr addr

def pgTmpMap (addr : Word) : CachedM Word := do
  let tmpaddr ← plain (pageWalk d) (AkKernel.pgTmpMap addr)
  tlbInvlpg d tmpaddr
  pure tmpaddr

def pgTmpUnmap (mapping : Word) : CachedM Unit := do
  plain (pageWalk d) (AkKernel.pgTmpUnmap mapping)
  tlbInvlpg d mapping

/-- The frame behind a pointer, as the processor has it. -/
def frameAt (ptr : Word) : CachedM Nat := do
  match ← lookup (pageWalk d) ptr with
  | none => throw .badPointer
  | some t => pure t.1

def load (ptr : Word) (i : Nat) : CachedM Word := do
  let n ← frameAt d ptr
  phys d (readWord n i)

def store (ptr : Word) (i : Nat) (v : Word) : CachedM Unit := do
  let n ← frameAt d ptr
  phys d (writeWord n i v)

def clearPage (ptr : Word) : CachedM Unit := do
  let n ← frameAt d ptr
  phys d (writeFrame n fun _ => 0#32)

def copyPage (dest src : Word) : CachedM Unit := do
  let m ← frameAt d dest
  let n ← frameAt d src
  phys d (copyFrame m n)

def pgDirNew : CachedM Word := do
  let dirframe ← phys d frameAlloc
  phys d (frameSet dirframe)
  let dir ← pgTmpMap d dirframe
  clearPage d dir
  pgTmpUnmap d dir
  pure dirframe

def pgTableFrame (cur : Task) (dir : Word) (idx : Nat) : CachedM Word := do
  let dirent ← load d dir idx
  if dirent = nilPgEnt then
    let tblframe ← pgDirNew d
    store d dir idx (pageEntry tblframe (baseFlags cur))
  let dirent ← load d dir idx
  pure (pteAddr dirent)

def pgWriteEntry (cur : Task) (pgdAddr vaddr entry : Word) : CachedM Unit := do
  let dir ← pgTmpMap d pgdAddr
  let tblframe ← pgTableFrame d cur dir (addrPde vaddr)
  let table ← pgTmpMap d tblframe
  store d table (addrPte vaddr) entry
  pgTmpUnmap d table
  pgTmpUnmap d dir
  tlbInvlpg d vaddr

def pgReadEntry (cur : Task) (pgdAddr vaddr : Word) : CachedM Word := do
  let dir ← pgTmpMap d pgdAddr
  let tblframe ← pgTableFrame d cur dir (addrPde vaddr)
  let table ← pgTmpMap d tblframe
  let entry ← load d table (addrPte vaddr)
  pgTmpUnmap d table
  pgTmpUnmap d dir
  pure entry

def pgMapExt (cur : Task) (paddr vaddr flags : Word) : CachedM Unit :=
  pgWriteEntry d cur cur.pgd (pgAddr vaddr) (pageEntry paddr flags)

def pgMap (cur : Task) (paddr vaddr : Word) : CachedM Unit :=
  pgMapExt d cur paddr vaddr (baseFlags cur)

def pgUnmap (cur : Task) (vaddr : Word) : CachedM Unit :=
  pgWriteEntry d cur cur.pgd (pgAddr vaddr) nilPgEnt

def pgAlloc (cur : Task) (vaddr : Word) : CachedM Unit := do
  let frame ← phys d frameAlloc
  phys d (frameSet frame)
  pgMap d cur frame vaddr

def pgAllocRange (cur : Task) (fuel : Nat) (start limit : Word) : CachedM Unit :=
  forPages (pgAlloc d cur) fuel start (limit + pageSize)

def pgReserve (cur : Task) (vaddr : Word) : CachedM Unit :=
  pgMapExt d cur 0#32 vaddr ((baseFlags cur ||| pageReserved) &&& ~~~ pagePresent)

def pgIsAllocated (cur : Task) (addr : Word) : CachedM Bool := do
  let dir ← pgTmpMap d cur.pgd
  let pgd ← load d dir (addrPde addr)
  pgTmpUnmap d dir
  if pgd = nilPgEnt then pure false
  else if ¬ Present pgd then pure false
  else if Extended pgd then pure true
  else
    let pt ← pgTmpMap d (pteAddr pgd)
    let pte ← load d pt (addrPte addr)
    pgTmpUnmap d pt
    if pte = nilPgEnt then pure false
    else if ¬ Present pte then pure false
    else pure true

def pgIsReserved (cur : Task) (addr : Word) : CachedM Bool := do
  let dir ← pgTmpMap d cur.pgd
  let pgd ← load d dir (addrPde addr)
  pgTmpUnmap d dir
  if pgd = nilPgEnt then pure false
  else if Reserved pgd ∧ Extended pgd then pure true
  else if Extended pgd then pure false
  else
    let pt ← pgTmpMap d (pteAddr pgd)
    let pte ← load d pt (addrPte addr)
    pgTmpUnmap d pt
    if pte = nilPgEnt then pure false
    else if Reserved pte then pure true
    else pure false

def taskBrk (cur : Task) (fuel : Nat) (taskBrk brk : Word) : CachedM Word := do
  if brk = 0#32 then pure taskBrk
  else if taskBrk < brk then
    forPages (fun page => do
      let s ← get
      if s.mem.1.mmuReady then
        if ¬ (← pgIsAllocated d cur page) then pgAlloc d cur page) fuel taskBrk (brk + pageSize)
    pure brk
  else if brk < taskBrk then
    forPages (fun page => do
      let s ← get
      if s.mem.1.mmuReady then pgUnmap d cur page) fuel (pgAddr brk + 1#32) (pgAddr taskBrk)
    pure brk
  else pure taskBrk

def pgCopyMapping (cur : Task) (destPgd srcPgd addr : Word) : CachedM Unit := do
  let entry ← pgReadEntry d cur srcPgd (pgAddr addr)
  if entry = nilPgEnt then throw (.panic "Tried to copy nil page entry\n" [])
  pgWriteEntry d cur destPgd (pgAddr addr) entry

def pgFaultReserved (cur : Task) (faultAddr : Word) : CachedM Unit := do
  if ← pgIsReserved d cur faultAddr then
    let frame ← phys d frameAlloc
    phys d (frameSet frame)
    pgMap d cur frame faultAddr
  else throw (.panic "Page fault on unreserved page %02x\n" [faultAddr])

def pgFaultHandler (cur : Task) (kernelPgd : Word) (userPgd : Option Word) (faultAddr : Word) :
    CachedM Unit :=
  match userPgd with
  | some pgd =>
    if pgIsKernel faultAddr then pgCopyMapping d cur pgd kernelPgd faultAddr
    else pgFaultReserved d cur faultAddr
  | none => pgFaultReserved d cur faultAddr

def frameCopy (src dest : Word) : CachedM Unit := do
  let vsrc ← pgTmpMap d src
  let vdest ← pgTmpMap d dest
  copyPage d vdest vsrc
  pgTmpUnmap d vsrc
  pgTmpUnmap d vdest

def pgClonePage4m (page : Word) : CachedM Word := do
  let flags := pdeFlags page
  let pgframe := pdeAddr page
  if flags &&& pagePresent = 0#32 then pure page
  else if flags &&& pageLink ≠ 0#32 then pure page
  else
    let newpgframe ← phys d frameAlloc4m
    let limit := newpgframe + BitVec.ofNat 32 (1024 * 4096)
    phys d (frameSetRange newpgframe limit)
    upTo (fun i => do
      let offset := BitVec.ofNat 32 (i * 4096)
      frameCopy d (pgframe + offset) (newpgframe + offset)) 1024
    pure (pageEntry newpgframe flags)

def pgClonePage (page : Word) : CachedM Word := do
  let flags := pteFlags page
  let pgframe := pteAddr page
  if flags &&& pagePresent = 0#32 then pure page
  else if flags &&& pageLink ≠ 0#32 then pure page
  else
    let newpgframe ← phys d frameAlloc
    phys d (frameSet newpgframe)
    frameCopy d pgframe newpgframe
    pure (pageEntry newpgframe flags)

def pgCloneTbl (tblent : Word) : CachedM Word := do
  let flags := pteFlags tblent
  let tblframe := pteAddr tblent
  if flags &&& pageLink ≠ 0#32 then pure tblent
  else if flags &&& pagePresent = 0#32 then pure tblent
  else
    let newtblframe ← pgDirNew d
    let tbl ← pgTmpMap d tblframe
    let newtbl ← pgTmpMap d newtblframe
    upTo (fun i => do
      let e ← load d tbl i
      if e ≠ nilPgEnt then
        let e' ← pgClonePage d e
        store d newtbl i e') 1024
    pgTmpUnmap d tbl
    pgTmpUnmap d newtbl
    pure (pageEntry newtblframe flags)

def pgCloneDir (dirframe : Word) : CachedM Word := do
  let newdirframe ← pgDirNew d
  let dir ← pgTmpMap d dirframe
  let newdir ← pgTmpMap d newdirframe
  upTo (fun i => do
    let e ← load d dir i
    if e ≠ nilPgEnt then
      if e &&& pageExtended ≠ 0#32 then
        let e' ← pgClonePage4m d e
        store d newdir i e'
      else
        let e' ← pgCloneTbl d e
        store d newdir i e') 1024
  pgTmpUnmap d dir
  pgTmpUnmap d newdir
  pure newdirframe

end Functions

/-- The pointers of `ms` are temporary mappings of the frames with them, and `k` slots are free. -/
structure Holding (ms : List (Word × Nat)) (k : Nat) (tmp : TmpTbl) : Prop
    extends Ready ms k tmp where
  tmpPtr : ∀ m ∈ ms, kTmpMem ≤ m.1
  present : ∀ m ∈ ms, Present (tmp (addrPte m.1))

/-- From `c`, with the temporary mappings `ms`, `m` does to memory what `a` does and puts the
mappings back; the buffer is coherent outside `X` before, and outside `Y` after it. -/
def Tracks {α : Type} (d : Nat) (ms : List (Word × Nat)) (k : Nat) (X Y : Set Word) (c : Phys)
    (m : CachedM α) (a : PhysM α) : Prop :=
  ∀ tmp, Holding ms k tmp → Follows (pageWalk d) X Y (c, tmp) m (onFst a)

section Rules
variable {d k n : Nat} {ms : List (Word × Nat)} {X X' Y Y' Z : Set Word} {c : Phys} {tmp : TmpTbl}
  {ptr addr : Word} {α β : Type} {m : CachedM α} {a : PhysM α}

theorem onFst_ok {x : α} {t : Mem} (h : onFst a (c, tmp) = .ok (x, t)) :
    ∃ c', a c = .ok (x, c') ∧ t = (c', tmp) :=
  (lifts_onFst (P := fun _ : TmpTbl => True) a).ok trivial h

theorem Tracks.mono (h : Tracks d ms k X Y c m a) (hX : X' ⊆ X) (hY : Y ⊆ Y') :
    Tracks d ms k X' Y' c m a := fun tmp ht => (h tmp ht).mono hX hY

theorem tracks_pure (x : α) : Tracks d ms k X X c (pure x) (pure x) :=
  fun _ _ => (follows_pure x).congr rfl

theorem tracks_throw (e : Fault) : Tracks d ms k X Y c (throw e : CachedM α) (throw e) :=
  fun _ _ => (follows_throw e).congr rfl

theorem Tracks.bind {f : α → CachedM β} {g : α → PhysM β} (h : Tracks d ms k X Y c m a)
    (hf : ∀ x c', a c = .ok (x, c') → Tracks d ms k Y Z c' (f x) (g x)) :
    Tracks d ms k X Z c (m >>= f) (a >>= g) := by
  intro tmp ht
  rw [onFst_bind]
  apply (h tmp ht).bind
  intro x t hx
  obtain ⟨c', hc', rfl⟩ := onFst_ok hx
  exact hf x c' hc' tmp ht

theorem Tracks.ite {m' : CachedM α} {a' : PhysM α} {b : Prop} [Decidable b]
    (h : b → Tracks d ms k X Y c m a) (h' : ¬ b → Tracks d ms k X Y c m' a') :
    Tracks d ms k X Y c (if b then m else m') (if b then a else a') := by
  split
  · exact h (by assumption)
  · exact h' (by assumption)

theorem pageWalk_congr {c' : Phys} {v : Word} (h : translate c' d v = translate c d v) :
    pageWalk d (c', tmp) v = pageWalk d (c, tmp) v := by
  unfold pageWalk
  rw [h]

theorem tracks_phys (a : PhysM α) (hX : X ⊆ Y)
    (h : ∀ x c', a c = .ok (x, c') → ∀ v, v ∉ Y → translate c' d v = translate c d v) :
    Tracks d ms k X Y c (phys d a) a := by
  intro tmp _
  apply follows_plain _ hX
  intro x t hx v hv
  obtain ⟨c', hc', rfl⟩ := onFst_ok hx
  exact pageWalk_congr (h x c' hc' v hv)

/-- A temporary mapping is in the buffer as it is in the table. -/
theorem tracks_frameAt (hm : (ptr, n) ∈ ms) : Tracks d ms k ∅ ∅ c (frameAt d ptr) (pure n) := by
  intro tmp ht
  have hwalk : pageWalk d (c, tmp) ptr =
      some (n, kernelFlags, pteFlags (tmp (addrPte ptr))) := by
    unfold pageWalk
    rw [if_pos (ht.tmpPtr _ hm), if_pos (ht.present _ hm), (ht.maps _ hm).2]
  apply Follows.lookup (Set.notMem_empty ptr)
  rw [hwalk]
  exact (follows_pure n).congr rfl

theorem tracks_load (hm : (ptr, n) ∈ ms) (i : Nat) :
    Tracks d ms k ∅ ∅ c (load d ptr i) (readWord n i) := by
  apply (tracks_frameAt hm).bind
  intro x c' hx
  cases hx
  apply tracks_phys _ subset_rfl
  intro x c' h v _
  cases h
  rfl

theorem tracks_write (hm : (ptr, n) ∈ ms) {c' : Phys} (f : Nat → PhysM Unit)
    (hf : f n c = .ok ((), c')) (h : ∀ v, v ∉ Y → translate c' d v = translate c d v) :
    Tracks d ms k ∅ Y c (do let n ← frameAt d ptr; phys d (f n)) (f n) := by
  apply (tracks_frameAt hm).bind
  intro x c₁ hx
  cases hx
  apply tracks_phys _ (Set.empty_subset Y)
  intro x c₂ hc₂
  rw [hf] at hc₂
  cases hc₂
  exact h

theorem tracks_store (hm : (ptr, n) ∈ ms) (i : Nat) (v : Word)
    (h : ∀ u, u ∉ Y → translate (c.setWord n i v) d u = translate c d u) :
    Tracks d ms k ∅ Y c (store d ptr i v) (writeWord n i v) :=
  tracks_write hm (fun n => writeWord n i v) rfl h

theorem tracks_clearPage (hm : (ptr, n) ∈ ms)
    (h : ∀ u, translate (c.setFrame n fun _ => 0#32) d u = translate c d u) :
    Tracks d ms k ∅ ∅ c (clearPage d ptr) (writeFrame n fun _ => 0#32) :=
  tracks_write hm (fun n => writeFrame n fun _ => 0#32) rfl fun u _ => h u

theorem tracks_copyPage {dest : Word} {nd : Nat} (hd : (dest, nd) ∈ ms) (hm : (ptr, n) ∈ ms)
    (h : ∀ u, translate (c.setFrame nd (c.mem n)) d u = translate c d u) :
    Tracks d ms k ∅ ∅ c (copyPage d dest ptr) (copyFrame nd n) := by
  apply (tracks_frameAt hd).bind
  intro x c₁ hx
  cases hx
  exact tracks_write hm (fun n => copyFrame nd n) rfl fun u _ => h u

end Rules

section Mappings
variable {d k n i : Nat} {ms : List (Word × Nat)} {X Y : Set Word} {c : Phys} {tmp : TmpTbl}
  {addr u v : Word} {α : Type} {a : PhysM α}

theorem present_tmpEntry (addr : Word) : Present (pageEntry addr kernelFlags) := by
  have hbit : (pageEntry addr kernelFlags &&& pagePresent).getLsbD 0 = true := by
    simp [pageEntry, kernelFlags, baseFlagBits, pagePresent, pageRw, pageLink]
  intro h
  rw [h] at hbit
  exact absurd hbit (by decide)

theorem addrPde_tmp (h : kTmpMem ≤ v) : addrPde v = 1023 := by
  have hk : kTmpMem.toNat = 1023 * 2 ^ 22 := rfl
  have hlt := v.isLt
  rw [BitVec.le_def, hk] at h
  rw [addrPde_eq]
  omega

theorem tmpAddr_ge (hi : i < 1024) : kTmpMem ≤ tmpAddr i := by
  have h : (tmpAddr i).toNat = 0xFFC00000 + i * 4096 := by
    rw [tmpAddr, BitVec.toNat_add, BitVec.toNat_ofNat]
    change (0xFFC00000 + i * 4096 % 2 ^ 32) % 2 ^ 32 = _
    omega
  rw [BitVec.le_def, h]
  exact Nat.le_add_right _ _

theorem pgAddr_tmp (hu : kTmpMem ≤ u) (hv : kTmpMem ≤ v) (h : addrPte u = addrPte v) :
    pgAddr u = pgAddr v :=
  pgAddr_eq_of_slots ((addrPde_tmp hu).trans (addrPde_tmp hv).symm) h

theorem pageWalk_slot {e : Word} (hu : kTmpMem ≤ u) (hv : pgAddr v ≠ pgAddr u) :
    pageWalk d (c, Function.update tmp (addrPte u) e) v = pageWalk d (c, tmp) v := by
  by_cases htmp : kTmpMem ≤ v
  · have hslot : Function.update tmp (addrPte u) e (addrPte v) = tmp (addrPte v) := by
      apply Function.update_of_ne
      intro h
      exact hv (pgAddr_tmp htmp hu h)
    simp only [pageWalk, htmp, if_true, hslot]
  · simp only [pageWalk, htmp, if_false]

theorem follows_tlbInvlpg (addr : Word) {s : Mem} :
    Follows (pageWalk d) (X ∪ {v | pgAddr v = pgAddr addr}) X s (tlbInvlpg d addr) (pure ()) :=
  follows_drop _ fun _ hv => hv.symm

theorem follows_pgTmpMap (hi : pgFreeTmpMap tmp = some i) (hlt : i < 1024) :
    Follows (pageWalk d) X X (c, tmp) (pgTmpMap d addr) (AkKernel.pgTmpMap addr) := by
  have hrun : AkKernel.pgTmpMap addr (c, tmp) =
      .ok (tmpAddr i, (c, Function.update tmp i (pageEntry addr kernelFlags))) :=
    pgTmpMap_run hi c
  have hstore : Follows (pageWalk d) X (X ∪ {v | pgAddr v = pgAddr (tmpAddr i)}) (c, tmp)
      (plain (pageWalk d) (AkKernel.pgTmpMap addr)) (AkKernel.pgTmpMap addr) := by
    apply follows_plain _ Set.subset_union_left
    intro x t ht v hv
    rw [hrun] at ht
    cases ht
    have hslot : pageWalk d (c, Function.update tmp (addrPte (tmpAddr i))
        (pageEntry addr kernelFlags)) v = pageWalk d (c, tmp) v :=
      pageWalk_slot (tmpAddr_ge hlt) fun h => hv (Or.inr h)
    rw [addrPte_tmp hlt] at hslot
    exact hslot
  have h := hstore.bind (f := fun p => do tlbInvlpg d p; pure p)
    (g := fun p => do (pure () : MemM Unit); pure p) (Z := X) ?_
  · apply h.congr
    rw [bind_run hrun]
    exact hrun.symm
  · intro p t ht
    rw [hrun] at ht
    cases ht
    exact (follows_tlbInvlpg _).bind fun _ _ _ => follows_pure _

theorem follows_pgTmpUnmap (hv : kTmpMem ≤ v) :
    Follows (pageWalk d) X X (c, tmp) (pgTmpUnmap d v) (AkKernel.pgTmpUnmap v) := by
  have hstore : Follows (pageWalk d) X (X ∪ {u | pgAddr u = pgAddr v}) (c, tmp)
      (plain (pageWalk d) (AkKernel.pgTmpUnmap v)) (AkKernel.pgTmpUnmap v) := by
    apply follows_plain _ Set.subset_union_left
    intro x t ht u hu
    cases ht
    exact pageWalk_slot hv fun h => hu (Or.inr h)
  have h := hstore.bind (g := fun _ => pure ()) fun _ _ _ => follows_tlbInvlpg v
  exact h.congr rfl

theorem Holding.take (h : Holding ms (k + 1) tmp) (hlt : i < 1024) (hnil : tmp i = nilPgEnt)
    (addr : Word) : Holding ((tmpAddr i, frameNo addr) :: ms) k
      (Function.update tmp i (pageEntry addr kernelFlags)) := by
  refine ⟨h.toReady.take hlt hnil addr, ?_, ?_⟩
  · intro m hm
    rcases List.mem_cons.mp hm with hm | hm
    · rw [hm]
      exact tmpAddr_ge hlt
    · exact h.tmpPtr m hm
  · intro m hm
    rcases List.mem_cons.mp hm with hm | hm
    · rw [hm, addrPte_tmp hlt, Function.update_self]
      exact present_tmpEntry addr
    · have hne : addrPte m.1 ≠ i := by
        intro he
        apply (h.maps m hm).1
        rw [he]
        exact hnil
      rw [Function.update_of_ne hne]
      exact h.present m hm

theorem tracks_mapped {m : Word → CachedM α}
    (h : ∀ ptr, Tracks d ((ptr, frameNo addr) :: ms) k X Y c (m ptr) a) :
    Tracks d ms (k + 1) X Y c
      (do let ptr ← pgTmpMap d addr; let x ← m ptr; pgTmpUnmap d ptr; pure x) a := by
  intro tmp ht
  obtain ⟨i, hi, hlt, hnil⟩ := pgFreeTmpMap_ok ht.toReady
  have hbody : Follows (pageWalk d) X Y (c, tmp)
      (do let ptr ← pgTmpMap d addr; let x ← m ptr; pgTmpUnmap d ptr; pure x)
      (do let ptr ← AkKernel.pgTmpMap addr; let x ← onFst a; AkKernel.pgTmpUnmap ptr; pure x) := by
    apply (follows_pgTmpMap hi hlt).bind
    intro ptr t hptr
    rw [pgTmpMap_run hi c] at hptr
    cases hptr
    apply (h _ _ (ht.take hlt hnil addr)).bind
    intro x t hx
    obtain ⟨c', -, rfl⟩ := onFst_ok hx
    exact (follows_pgTmpUnmap (tmpAddr_ge hlt)).bind fun _ _ _ => follows_pure x
  exact hbody.congr (lifts_mapped (fun _ => lifts_onFst a) c tmp ht.toReady)

theorem tracks_mapped_pair {addr' : Word} {m : Word → Word → CachedM α}
    (h : ∀ p p', Tracks d ((p', frameNo addr') :: (p, frameNo addr) :: ms) k X Y c (m p p') a) :
    Tracks d ms (k + 2) X Y c (do
      let p ← pgTmpMap d addr
      let p' ← pgTmpMap d addr'
      let x ← m p p'
      pgTmpUnmap d p
      pgTmpUnmap d p'
      pure x) a := by
  intro tmp ht
  obtain ⟨i, hi, hlt, hnil⟩ := pgFreeTmpMap_ok ht.toReady
  have ht₁ := ht.take hlt hnil addr
  obtain ⟨j, hj, hlt', hnil'⟩ := pgFreeTmpMap_ok ht₁.toReady
  have hbody : Follows (pageWalk d) X Y (c, tmp)
      (do
        let p ← pgTmpMap d addr
        let p' ← pgTmpMap d addr'
        let x ← m p p'
        pgTmpUnmap d p
        pgTmpUnmap d p'
        pure x)
      (do
        let p ← AkKernel.pgTmpMap addr
        let p' ← AkKernel.pgTmpMap addr'
        let x ← onFst a
        AkKernel.pgTmpUnmap p
        AkKernel.pgTmpUnmap p'
        pure x) := by
    apply (follows_pgTmpMap hi hlt).bind
    intro p t hp
    rw [pgTmpMap_run hi c] at hp
    cases hp
    apply (follows_pgTmpMap hj hlt').bind
    intro p' t hp'
    rw [pgTmpMap_run hj c] at hp'
    cases hp'
    apply (h _ _ _ (ht₁.take hlt' hnil' addr')).bind
    intro x t hx
    obtain ⟨c', -, rfl⟩ := onFst_ok hx
    apply (follows_pgTmpUnmap (tmpAddr_ge hlt)).bind
    intro _ t hu
    cases hu
    exact (follows_pgTmpUnmap (tmpAddr_ge hlt')).bind fun _ _ _ => follows_pure x
  exact hbody.congr (lifts_mapped_pair addr addr' (fun _ _ => lifts_onFst a) c tmp ht.toReady)

end Mappings

end Cached

end AkKernel
