import AkKernel.Kernel.UserRequests

/-!
# `MMUReady`

`pg_init` sets it, and no call after that changes it: the functions of the memory subsystem
write frames and mark them, and the other parts of the kernel go through these.
-/

set_option autoImplicit false

namespace AkKernel

open Programs Runs

def PhysReady (c : Phys) : Prop := c.mmuReady = true
def MemReady (s : Mem) : Prop := PhysReady s.1
def KernReady (s : Kern) : Prop := MemReady s.mem

section Memory
variable {α : Type}

theorem ready_onFst {a : PhysM α} (h : Preserves PhysReady a) :
    Preserves MemReady (onFst a) := by
  intro s x t hs hrun
  unfold onFst at hrun
  split at hrun
  · cases hrun
  · rename_i c' ha
    cases hrun
    exact h s.1 x c' hs ha

theorem ready_writeWord (n i : Nat) (v : Word) :
    Preserves PhysReady (writeWord n i v) := by
  intro c x c' hc hrun
  cases hrun
  exact hc

theorem ready_readWord (n i : Nat) :
    Preserves PhysReady (readWord n i) := by
  intro c x c' hc hrun
  cases hrun
  exact hc

theorem ready_frameAlloc : Preserves PhysReady frameAlloc := by
  intro c x c' hc hrun
  obtain ⟨c₁, c₂, hget, hrest⟩ := bind_ok.mp hrun
  cases hget
  split at hrest
  · split at hrest
    · cases hrest
    · obtain ⟨⟨⟩, c₃, hset, hpure⟩ := bind_ok.mp hrest
      cases hset
      cases hpure
      exact hc
  · unfold frameAllocAfter at hrest
    split at hrest
    · cases hrest
    · cases hrest
      exact hc

theorem ready_frameSet (ptr : Word) :
    Preserves PhysReady (frameSet ptr) := by
  intro c x c' hc hrun
  unfold frameSet at hrun
  split at hrun
  · cases hrun
    exact hc
  · split at hrun
    · cases hrun
      exact hc
    · cases hrun

theorem ready_pgTmpMap (addr : Word) :
    Preserves MemReady (pgTmpMap addr) := by
  intro s x t hs hrun
  unfold pgTmpMap at hrun
  split at hrun
  · cases hrun
  · cases hrun
    exact hs

theorem ready_pgTmpUnmap (mapping : Word) :
    Preserves MemReady (pgTmpUnmap mapping) := by
  intro s x t hs hrun
  cases hrun
  exact hs

theorem ready_tmpFrame (ptr : Word) :
    Preserves MemReady (tmpFrame ptr) := by
  intro s x t hs hrun
  unfold tmpFrame at hrun
  split at hrun
  · cases hrun
  · cases hrun
    exact hs

theorem ready_load (ptr : Word) (i : Nat) :
    Preserves MemReady (load ptr i) :=
  (ready_tmpFrame ptr).bind fun n => ready_onFst (ready_readWord n i)

theorem ready_store (ptr : Word) (i : Nat) (v : Word) :
    Preserves MemReady (store ptr i v) :=
  (ready_tmpFrame ptr).bind fun n => ready_onFst (ready_writeWord n i v)

theorem ready_clearPage (ptr : Word) :
    Preserves MemReady (clearPage ptr) := by
  apply (ready_tmpFrame ptr).bind
  intro n
  apply ready_onFst
  intro c x c' hc hrun
  cases hrun
  exact hc

theorem ready_pgDirNew : Preserves MemReady pgDirNew :=
  (ready_onFst ready_frameAlloc).bind fun frame =>
    (ready_onFst (ready_frameSet frame)).bind fun _ => (ready_pgTmpMap frame).bind fun dir =>
      (ready_clearPage dir).bind fun _ => (ready_pgTmpUnmap dir).bind fun _ => preserves_pure _

theorem ready_pgTableFrame (cur : Task) (dir : Word) (idx : Nat) :
    Preserves MemReady (pgTableFrame cur dir idx) := by
  apply (ready_load dir idx).bind
  intro dirent
  have hrest : Preserves MemReady (do
      let dirent ← load dir idx
      pure (pteAddr dirent)) := (ready_load dir idx).bind fun _ => preserves_pure _
  refine Preserves.ite (fun _ => ?_) fun _ => hrest
  exact ready_pgDirNew.bind fun tbl => (ready_store dir idx _).bind fun _ => hrest

theorem ready_pgWriteEntry (cur : Task) (pgd vaddr entry : Word) :
    Preserves MemReady (pgWriteEntry cur pgd vaddr entry) :=
  (ready_pgTmpMap pgd).bind fun dir => (ready_pgTableFrame cur dir _).bind fun tbl =>
    (ready_pgTmpMap tbl).bind fun table => (ready_store table _ entry).bind fun _ =>
      (ready_pgTmpUnmap table).bind fun _ => ready_pgTmpUnmap dir

theorem ready_pgReadEntry (cur : Task) (pgd vaddr : Word) :
    Preserves MemReady (pgReadEntry cur pgd vaddr) :=
  (ready_pgTmpMap pgd).bind fun dir => (ready_pgTableFrame cur dir _).bind fun tbl =>
    (ready_pgTmpMap tbl).bind fun table => (ready_load table _).bind fun _ =>
      (ready_pgTmpUnmap table).bind fun _ => (ready_pgTmpUnmap dir).bind fun _ => preserves_pure _

theorem ready_pgAlloc (cur : Task) (vaddr : Word) :
    Preserves MemReady (pgAlloc cur vaddr) :=
  (ready_onFst ready_frameAlloc).bind fun frame =>
    (ready_onFst (ready_frameSet frame)).bind fun _ => ready_pgWriteEntry cur _ _ _

theorem ready_pgIsReserved (cur : Task) (addr : Word) :
    Preserves MemReady (pgIsReserved cur addr) := by
  refine (ready_pgTmpMap _).bind fun dir => (ready_load dir _).bind fun pgd =>
    (ready_pgTmpUnmap dir).bind fun _ => ?_
  refine Preserves.ite (fun _ => preserves_pure _) fun _ =>
    Preserves.ite (fun _ => preserves_pure _) fun _ =>
      Preserves.ite (fun _ => preserves_pure _) fun _ => ?_
  refine (ready_pgTmpMap _).bind fun pt => (ready_load pt _).bind fun pte =>
    (ready_pgTmpUnmap pt).bind fun _ => ?_
  exact Preserves.ite (fun _ => preserves_pure _) fun _ =>
    Preserves.ite (fun _ => preserves_pure _) fun _ => preserves_pure _

theorem ready_pgFaultReserved (cur : Task) (addr : Word) :
    Preserves MemReady (pgFaultReserved cur addr) := by
  apply (ready_pgIsReserved cur addr).bind
  intro b
  exact Preserves.ite (fun _ => ready_pgAlloc cur addr) fun _ => preserves_throw _

theorem ready_pgFaultHandler (cur : Task) (kernelPgd : Word) (userPgd : Option Word) (addr : Word) :
    Preserves MemReady (pgFaultHandler cur kernelPgd userPgd addr) := by
  cases userPgd with
  | none => exact ready_pgFaultReserved cur addr
  | some pgd =>
    refine Preserves.ite (fun _ => ?_) fun _ => ready_pgFaultReserved cur addr
    apply (ready_pgReadEntry cur kernelPgd _).bind
    intro entry
    refine Preserves.ite (fun _ => ?_) fun _ => ready_pgWriteEntry cur pgd _ entry
    exact (preserves_throw _).bind fun _ => ready_pgWriteEntry cur pgd _ entry

theorem ready_pgAllocRange (cur : Task) (fuel : Nat) (start limit : Word) :
    Preserves MemReady (pgAllocRange cur fuel start limit) :=
  preserves_forPages (fun v => ready_pgAlloc cur v) fuel start _

end Memory

section Kernel
variable {α : Type}

theorem ready_onMem {m : Task → MemM α} (h : ∀ cur, Preserves MemReady (m cur)) :
    Preserves KernReady (onMem m) := by
  intro s x s' hs hrun
  obtain ⟨mem, hm, rfl⟩ := onMem_eq_ok.mp hrun
  exact h _ s.mem x mem hs hm

theorem ready_pgFault (addr : Word) : Preserves KernReady (pgFault addr) :=
  fun s x s' hs hrun =>
    ready_onMem (fun cur => ready_pgFaultHandler cur _ _ addr) s x s' hs hrun

theorem ready_access (addr : Word) : Preserves KernReady (access addr) := by
  intro s n s' hs hrun
  unfold access at hrun
  split at hrun
  · cases hrun
    exact hs
  · split at hrun
    · cases hrun
    · rename_i u t hfault
      have ht := ready_pgFault addr s u t hs hfault
      split at hrun
      · cases hrun
        exact ht
      · cases hrun

theorem ready_loadByte (addr : Word) : Preserves KernReady (loadByte addr) := by
  apply (ready_access addr).bind
  intro n s b s' hs hrun
  cases hrun
  exact hs

theorem ready_storeByte (addr : Word) (b : UInt8) : Preserves KernReady (storeByte addr b) := by
  apply (ready_access addr).bind
  intro n s u s' hs hrun
  cases hrun
  exact hs

theorem ready_loadWord (addr : Word) : Preserves KernReady (loadWord addr) :=
  (ready_loadByte _).bind fun _ => (ready_loadByte _).bind fun _ => (ready_loadByte _).bind fun _ =>
    (ready_loadByte _).bind fun _ => preserves_pure _

theorem ready_memcpy (dest src : Word) (n : Nat) : Preserves KernReady (memcpy dest src n) :=
  Preserves.upTo (fun _ => (ready_loadByte _).bind fun b => ready_storeByte _ b) n

theorem ready_memset (dest : Word) (b : UInt8) (n : Nat) :
    Preserves KernReady (memset dest b n) :=
  Preserves.upTo (fun _ => ready_storeByte _ b) n

theorem ready_elfLoadSegment (fuel : Nat) (elfData segment brk : Word) :
    Preserves KernReady (elfLoadSegment fuel elfData segment brk) := by
  apply (ready_loadWord segment).bind
  intro type
  refine Preserves.ite (fun _ => preserves_pure _) fun _ => ?_
  exact (ready_loadWord _).bind fun base => (ready_loadWord _).bind fun memsz =>
    (ready_loadWord _).bind fun _ =>
    (ready_onMem fun cur => ready_pgAllocRange cur fuel base _).bind fun _ =>
    (ready_loadWord _).bind fun offset => (ready_loadWord _).bind fun filesz =>
    (ready_memcpy base _ _).bind fun _ => (ready_loadWord _).bind fun filesz =>
    (ready_loadWord _).bind fun memsz => (ready_memset _ 0 _).bind fun _ => preserves_pure _

theorem ready_elfLoadLoop (fuel : Nat) (elfData phdr : Word) (rounds : Nat) :
    ∀ i brk, Preserves KernReady (elfLoadLoop fuel elfData phdr rounds i brk) := by
  induction rounds with
  | zero => exact fun _ _ => preserves_pure _
  | succ rounds ih =>
    intro i brk
    exact (ready_elfLoadSegment fuel elfData _ brk).bind fun brk => ih (i + 1) brk

theorem ready_elfLoad (fuel : Nat) (elfData phdr : Word) (numSegments : Nat) :
    Preserves KernReady (elfLoad fuel elfData phdr numSegments) := by
  apply (ready_elfLoadLoop fuel elfData phdr numSegments 0 0#32).bind
  intro brk s u s' hs hrun
  cases hrun
  exact hs

end Kernel

section Steps
variable {s s' : Kern} {op : KOp}

theorem readyKeeper {cur : Task} {ds : Set Nat} (hd : frameNo cur.pgd ∈ ds) :
    Keeper cur (fun _ => True)
      (fun c => (c.frameAllocInitialized = true ∧ Mapped c ds) ∧ PhysReady c) := by
  have hk : Keeper cur (fun _ => True) fun c => c.frameAllocInitialized = true ∧ Mapped c ds :=
    Mapped.keeper hd
  refine ⟨fun c h => h.1.1, ?_, ?_, fun c v c' w hv h hstep => hk.allocated c v c' w hv h.1 hstep⟩
  · intro c v c' hv h hstep
    refine ⟨hk.alloc c v c' hv h.1 hstep, ?_⟩
    obtain ⟨n, -, hed⟩ := hstep
    exact hed.mmuReady.trans h.2
  · intro c v c' hv h hstep
    refine ⟨hk.clear c v c' hv h.1 hstep, ?_⟩
    obtain ⟨e, -, hed⟩ := hstep
    exact hed.mmuReady.trans h.2

theorem MapInv.ready_effect (h : MapInv s) (hs : KernReady s) (he : KEffect s op s') :
    KernReady s' := by
  cases he with
  | enter _ _ => exact hs
  | enterKernel => exact hs
  | leaveKernel => exact hs
  | fork pgd c' clone p' hclone _ =>
    have hd := h.runner.cr3_mem
    have hinv := pgCloneDir_effect h.init (h.mapped.used hd) hclone
    exact hinv.grows.ready.trans hs
  | call _ m fuel r c' p' _ hrun _ =>
    exact ((readyKeeper h.runner.cur_mem).run (fun _ _ => trivial) ⟨⟨h.init, h.mapped⟩, hs⟩ hrun).2
  | copy _ dest addr c' _ hrun =>
    obtain ⟨-, -, hed⟩ := pgCopyMapping_ok h.init (h.mapped.dirUsed _ h.runner.kernel_mem) hrun
    exact hed.mmuReady.trans hs

theorem LowState.ready_step (h : LowState s) (hs : KernReady s) {lbl : SystemOp × Unit}
    (hstep : SystemStep s lbl s') : KernReady s' := by
  unfold SystemStep at hstep
  split at hstep
  · obtain ⟨-, fuel, hex⟩ := hstep
    exact h.ready_effect hs (KOp.exec_effect h.tmp hex)
  · rename_i req hreq
    obtain ⟨-, fuel, -, hex⟩ := hstep
    dsimp only at hex
    cases req with
    | load elfData phdr numSegments =>
      exact ready_elfLoad fuel elfData phdr numSegments s () s' hs hex
    | brk addr =>
      obtain ⟨r, t, hbrk, hret⟩ := bind_ok.mp hex
      obtain ⟨-, rfl⟩ := pure_ok.mp hret
      exact h.ready_effect hs (sysBrk_effect h.tmp hbrk)
    | mmap length flags =>
      obtain ⟨r, t, hmap, hret⟩ := bind_ok.mp hex
      obtain ⟨-, rfl⟩ := pure_ok.mp hret
      exact h.ready_effect hs (sysMmapPgoff_effect h.tmp hmap)
    | store addr b => exact ready_storeByte addr b s () s' hs hex
  · obtain ⟨-, rfl⟩ := hstep
    exact hs

theorem run_ready {s₀ : Kern} {tr : List (SystemOp × Unit)} (h₀ : LowState s₀) (hs : KernReady s₀)
    (hrun : Run SystemStep s₀ tr s) : LowState s ∧ KernReady s :=
  Run.invariant (I := fun _ s => LowState s ∧ KernReady s) ⟨h₀, hs⟩
    (fun _ _ _ _ h hstep => ⟨h.1.step hstep, h.1.ready_step h.2 hstep⟩) hrun

end Steps

end AkKernel
