import AkKernel.Kernel.Ops
import AkKernel.Mem.Ownership

/-!
# Frame ownership over runs

What the tasks' directories refer to is in use, and only links share it, whatever the
tasks map, copy and fork.
-/

set_option autoImplicit false

namespace AkKernel

open Programs Runs

/-- A directory slot that is empty or has a page table. -/
def TableSlot (e : Word) : Prop := e = nilPgEnt ∨ TableEntry e

/-- Tasks other than `KernelTask` map below `KZERO`, and `KernelTask` below `KTMPMEM`; what
is copied is a page that `KernelTask` has. -/
def KOp.InBounds (s : Kern) (op : KOp) : Prop :=
  (∀ m v, op.memOp s.proc = some m → m.Touches s.proc.cur s.mem.1 v →
    v < kTmpMem ∧ (s.proc.currentTask ≠ kernelTask → v < kZero)) ∧
  ∀ dest addr, op.copies s.proc = some (dest, addr) → addr < kTmpMem ∧
    Allocated (frameNo (s.proc.task kernelTask).pgd) s.mem.1 addr

/-- Pages are mapped where a page table is or can be made, and copied in the kernel's
range, as `pg_fault_handler` does. -/
def KOp.OnTables (s : Kern) (op : KOp) : Prop :=
  (∀ m v, op.memOp s.proc = some m → m.Touches s.proc.cur s.mem.1 v →
    TableSlot (s.mem.1.mem (frameNo s.proc.cur.pgd) (addrPde v))) ∧
  ∀ dest addr, op.copies s.proc = some (dest, addr) → pgIsKernel addr = true ∧
    TableSlot (s.mem.1.mem (frameNo dest) (addrPde addr)) ∧
    TableSlot (s.mem.1.mem (frameNo (s.proc.task kernelTask).pgd) (addrPde addr))

def BoundedStep (s : Kern) (lbl : KOp × Unit) (s' : Kern) : Prop :=
  lbl.1.InBounds s ∧ ∃ fuel, lbl.1.exec fuel s = .ok ((), s')

def OwnedStep (s : Kern) (lbl : KOp × Unit) (s' : Kern) : Prop :=
  lbl.1.OnTables s ∧ BoundedStep s lbl s'

/-- The frames of the state are owned as `Good` says. -/
def GoodKern (s : Kern) : Prop :=
  Good s.mem.1 (dirs s.proc) (frameNo (s.proc.task kernelTask).pgd)

/-- The frame allocator is set up, the temporary mappings are idle, and the variables of
the scheduler refer to tasks. -/
structure Running (s : Kern) : Prop where
  runner : Runner s.proc
  tmp : Ready [] 6 s.mem.2
  init : s.mem.1.frameAllocInitialized = true
  pid : (s.proc.task kernelTask).pid = kernelPid

structure OwnState (s : Kern) : Prop extends Running s where
  sound : Sound s.mem.1 (dirs s.proc) (frameNo (s.proc.task kernelTask).pgd)

/-- What a call keeps from the state `c₀` it is made in. -/
structure OwnInv (ds : Set Nat) (k d : Nat) (c₀ c : Phys) : Prop where
  init : c.frameAllocInitialized = true
  sound : Sound c ds k
  slots : ∀ i, i < 1024 → TableSlot (c₀.mem d i) → TableSlot (c.mem d i)

section Calls
variable {c c' c₀ : Phys} {ds : Set Nat} {k d i j n : Nat} {e : Word} {cur : Task}

theorem Sound.edited_slot (h : Sound c ds k) (he : EditAt c ds k d i cur e)
    (hed : Edited (baseFlags cur) d i j e c c') {l : Nat} (hl : TableSlot (c.mem d l)) :
    TableSlot (c'.mem d l) := by
  obtain ⟨c₁, hen, hc'⟩ := hed
  rw [hc']
  cases hen with
  | old hne =>
    have hte := he.table.resolve_left hne
    rw [h.write_dir ⟨d, he.dir, i, he.slot, hte, rfl⟩ he.dir]
    exact hl
  | new n hnil hn =>
    have hm : MakesTable c ds d i n := ⟨he.dir, he.slot, hnil, hn⟩
    have hdn := hm.ne_dir h d he.dir
    rw [newTable_mem_slot, frameNo_entry hn, setWord_mem_frame hdn]
    rcases newTable_slot (c := c) (i := i) (k := l) (baseFlags cur) hdn hdn with
      ⟨-, -, hs⟩ | ⟨-, hs⟩
    · rw [hs]
      exact Or.inr ⟨present_entry cur n, not_extended_entry cur n⟩
    · rw [hs]
      exact hl

theorem OwnInv.edited (h : OwnInv ds k d c₀ c) (hk : k ∈ ds) (he : EditAt c ds k d i cur e)
    (hed : Edited (baseFlags cur) d i j e c c') : OwnInv ds k d c₀ c' := by
  refine ⟨hed.init.trans h.init, h.sound.edited hk he hed, ?_⟩
  intro l hl hs
  exact h.sound.edited_slot he hed (h.slots l hl hs)

/-- The addresses that `cur` may map. -/
def MayMap (cur : Task) (c₀ : Phys) (v : Word) : Prop :=
  (addrPde v < 768 ∨ cur.pid = kernelPid) ∧
    TableSlot (c₀.mem (frameNo cur.pgd) (addrPde v))

theorem Sound.editAt_alloc (h : Sound c ds k) (hd : frameNo cur.pgd ∈ ds) {v : Word}
    (hv : addrPde v < 768 ∨ cur.pid = kernelPid)
    (hs : TableSlot (c.mem (frameNo cur.pgd) (addrPde v))) (hn : n ∈ c.free) :
    EditAt (c.mark n) ds k (frameNo cur.pgd) (addrPde v) cur
      (pageEntry (frameAddr n) (baseFlags cur)) := by
  refine ⟨hd, addrPde_lt v, hs, ?_, ?_, ?_⟩
  · intro _ hi _
    exact hv.resolve_left (Nat.not_lt.mpr hi)
  · intro _
    right
    refine ⟨⟨?_, taken_entry hn cur⟩, ?_⟩
    · rw [frameNo_entry hn, mark_covers]
      exact covered_of_free hn
    · rw [frameNo_entry hn]
      exact h.unref hn
  · intro _ hnl
    apply hv.resolve_right
    intro hpid
    exact hnl ((linked_entry cur n).mpr hpid)

theorem OwnInv.keeper (hk : k ∈ ds) (hd : frameNo cur.pgd ∈ ds) :
    Keeper cur (MayMap cur c₀) (OwnInv ds k (frameNo cur.pgd) c₀) := by
  refine ⟨fun c h => h.init, ?_, ?_, ?_⟩
  · intro c v c' hV h hstep
    obtain ⟨n, hn, hed⟩ := hstep
    have hs := h.slots _ (addrPde_lt v) hV.2
    have hmark : OwnInv ds k (frameNo cur.pgd) c₀ (c.mark n) :=
      ⟨h.init, h.sound.mark hn, h.slots⟩
    exact hmark.edited hk (h.sound.editAt_alloc hd hV.1 hs hn) hed
  · intro c v c' hV h hstep
    obtain ⟨e, hne, hed⟩ := hstep
    have hs := h.slots _ (addrPde_lt v) hV.2
    refine h.edited hk ⟨hd, addrPde_lt v, hs, ?_, ?_, ?_⟩ hed
    · intro _ hi _
      exact hV.1.resolve_left (Nat.not_lt.mpr hi)
    · intro hp
      exact absurd hp hne
    · intro hp
      exact absurd hp hne
  · intro c v c' w hV h hstep hw
    obtain ⟨n, hn, hed⟩ := hstep
    have hmark := h.sound.mark hn
    have htable : ∀ l, l < 1024 → TableEntry ((c.mark n).mem (frameNo cur.pgd) l) →
        IsTable (c.mark n) ds (frameNo ((c.mark n).mem (frameNo cur.pgd) l)) :=
      fun l hl he => ⟨_, hd, l, hl, he, rfl⟩
    have hdir : ∀ l, l < 1024 → TableEntry ((c.mark n).mem (frameNo cur.pgd) l) →
        frameNo ((c.mark n).mem (frameNo cur.pgd) l) ≠ frameNo cur.pgd := by
      intro l hl he heq
      apply hmark.dirTable _ hd
      have ht := htable l hl he
      rw [heq] at ht
      exact ht
    refine allocated_of_edited (hmark.dirs _ hd).2 ?_ ?_ (present_entry cur n) hed hw
    · intro l hl hp hx
      exact ⟨(hmark.tables _ (htable l hl ⟨hp, hx⟩)).2, hdir l hl ⟨hp, hx⟩⟩
    · intro hne
      have hs := h.slots _ (addrPde_lt v) hV.2
      exact hdir _ (addrPde_lt v) (hs.resolve_left hne)

end Calls

section Steps
variable {s s' : Kern} {op : KOp}

theorem kernel_slots {v : Word} (h : pgIsKernel v = true) : 768 ≤ addrPde v ∧ addrPde v < 1023 := by
  have hr : kZero ≤ v ∧ v < kTmpMem := by simpa [pgIsKernel] using h
  have ht : kTmpMem.toNat = 1023 * 2 ^ 22 := by decide
  have hlt := BitVec.lt_def.mp hr.2
  refine ⟨?_, ?_⟩
  · apply Nat.not_lt.mp
    intro hlow
    exact BitVec.not_lt.mpr hr.1 (addrPde_lt_iff.mp hlow)
  · rw [addrPde_eq]
    omega

theorem OwnState.mayMap (h : OwnState s) (hb : op.InBounds s) (ht : op.OnTables s) {m : MemOp}
    (hop : op.memOp s.proc = some m) :
    ∀ v, m.Touches s.proc.cur s.mem.1 v → MayMap s.proc.cur s.mem.1 v := by
  intro v hv
  refine ⟨?_, ht.1 m v hop hv⟩
  by_cases hk : s.proc.currentTask = kernelTask
  · right
    rw [Proc.cur, hk]
    exact h.pid
  · exact Or.inl (addrPde_lt_iff.mpr ((hb.1 m v hop hv).2 hk))

/-- A page of the kernel's range that is copied has a link, so the copy is one more. -/
theorem OwnState.copies (h : OwnState s) (ht : op.OnTables s) {c' : Phys} {dest addr : Word}
    (hop : op.copies s.proc = some (dest, addr))
    (hrun : Direct.pgCopyMapping s.proc.cur dest (s.proc.task kernelTask).pgd addr s.mem.1 =
      .ok ((), c')) :
    c'.frameAllocInitialized = true ∧
      Sound c' (dirs s.proc) (frameNo (s.proc.task kernelTask).pgd) := by
  have hk := h.runner.kernel_mem
  obtain ⟨hrange, hdest, hsrc⟩ := ht.2 dest addr hop
  obtain ⟨hlo, hhi⟩ := kernel_slots hrange
  obtain ⟨hne, -, hed⟩ := pgCopyMapping_ok h.init (h.sound.dirs _ hk).2 hrun
  have hte := hsrc.resolve_left hne
  refine ⟨hed.init.trans h.init, h.sound.edited hk ⟨h.runner.copies_mem hop, addrPde_lt addr, hdest,
    ?_, ?_, ?_⟩ hed⟩
  · intro hdk _ hnil
    rw [hdk] at hnil
    exact absurd hnil hne
  · intro hp
    left
    refine ⟨h.sound.kernelPages _ hlo hhi hte _ (addrPte_lt addr) hp, ?_⟩
    exact ⟨_, ⟨_, hk, _, addrPde_lt addr, hte, rfl⟩, _, addrPte_lt addr, hp, rfl⟩
  · intro hp hnl
    exact absurd (h.sound.kernelPages _ hlo hhi hte _ (addrPte_lt addr) hp) hnl

theorem OwnState.sameDirs (h : OwnState s) {p' : Proc} (hr : Runner p') (hs : SameDirs s.proc p') :
    OwnState { s with proc := p' } := by
  refine ⟨⟨hr, h.tmp, h.init, (hs.pid kernelTask).trans h.pid⟩, ?_⟩
  rw [hs.dirs_eq, hs.pgd]
  exact h.sound

theorem OwnState.effect (h : OwnState s) (hb : op.InBounds s) (ht : op.OnTables s)
    (he : KEffect s op s') : OwnState s' := by
  have hrunner := h.runner.step he
  have hk := h.runner.kernel_mem
  cases he with
  | enter task _ => exact h.sameDirs hrunner (sameDirs_taskEnter s.proc task)
  | enterKernel => exact h.sameDirs hrunner (sameDirs_enterKernel s.proc)
  | leaveKernel => exact h.sameDirs hrunner (sameDirs_leaveKernel s.proc)
  | fork pgd c' clone p' hclone hfork =>
    have hd := h.runner.cr3_mem
    obtain ⟨n, hpgd, hinv⟩ := pgCloneDir_ok h.init (h.sound.used hd) hclone
    obtain ⟨hkpgd, hkpid⟩ := taskFork_old hfork h.runner.kernel
    refine ⟨⟨hrunner, h.tmp, hinv.grows.init.trans h.init, hkpid.trans h.pid⟩, ?_⟩
    rw [taskFork_dirs hfork, hkpgd, hpgd, frameNo_frameAddr (FrameBitmap.free_lt hinv.fresh)]
    exact h.sound.clone hk hd hinv
  | call _ m fuel r c' p' hop hrun hsame =>
    have hinv := (OwnInv.keeper hk h.runner.cur_mem).run (h.mayMap hb ht hop)
      ⟨h.init, h.sound, fun _ _ hs => hs⟩ hrun
    refine ⟨⟨hrunner, h.tmp, hinv.init, (hsame.pid kernelTask).trans h.pid⟩, ?_⟩
    rw [hsame.dirs_eq, hsame.pgd]
    exact hinv.sound
  | copy _ dest addr c' hop hrun =>
    have hc := h.copies ht hop hrun
    exact ⟨⟨hrunner, h.tmp, hc.1, h.pid⟩, hc.2⟩

theorem OwnState.step (h : OwnState s) {lbl : KOp × Unit} (hs : OwnedStep s lbl s') :
    OwnState s' := by
  obtain ⟨ht, hb, fuel, hex⟩ := hs
  exact h.effect hb ht (KOp.exec_effect h.tmp hex)

end Steps

/-- A run of any length keeps the ownership of frames. -/
theorem frames_owned_over_runs (s₀ : Kern) (h₀ : OwnState s₀) (tr : List (KOp × Unit)) (s : Kern)
    (hrun : Run OwnedStep s₀ tr s) : GoodKern s := by
  have hinv : OwnState s := Run.invariant (I := fun _ s => OwnState s) h₀
    (fun _ _ _ _ hi hs => hi.step hs) hrun
  exact hinv.sound.toGood

section Machine

/-- Memory that is nil but for the words given as frame, index and value. -/
def wordsMem (ws : List (Nat × Nat × Word)) (n i : Nat) : Word :=
  ((ws.find? fun x => x.1 = n ∧ x.2.1 = i).map fun x => x.2.2).getD nilPgEnt

theorem wordsMem_mem {ws : List (Nat × Nat × Word)} {n i : Nat}
    (h : wordsMem ws n i ≠ nilPgEnt) : (n, i, wordsMem ws n i) ∈ ws := by
  unfold wordsMem at h ⊢
  cases hf : ws.find? fun x => x.1 = n ∧ x.2.1 = i with
  | none =>
    rw [hf] at h
    exact absurd rfl h
  | some x =>
    have hmem := List.mem_of_find?_eq_some hf
    have hx : x.1 = n ∧ x.2.1 = i := by simpa using List.find?_some hf
    simp only [Option.map_some, Option.getD_some]
    rw [← hx.1, ← hx.2]
    exact hmem

/-- `KernelTask` with its directory in frame 272 and a child with its directory in frame
276; frames 1024 to 1055 are free. -/
def pairKern (ws : List (Nat × Nat × Word)) (cur : TaskPtr) : Kern where
  proc :=
    { bootProc 0xC03FF000#32 0x110000#32 with
      task := fun t =>
        if t = kernelTask then kernelTaskInit 0xC03FF000#32 0x110000#32
        else { kernelTaskInit 0xC03FF000#32 0x114000#32 with pid := 1#32 }
      ntasks := 2
      currentTask := cur
      cr3 := if cur = kernelTask then 0x110000#32 else 0x114000#32 }
  mem := (
    { mem := wordsMem ws
      bitmap := firstFourMb
      frameAllocInitialized := true
      preallocFrames := 0#32
      preallocCount := 0
      mmuReady := true }, fun _ => nilPgEnt)
  earlyMallocEnabled := false
  allocStack := []
  allocSP := 0

def pairTables (ws : List (Nat × Nat × Word)) : List Nat :=
  (ws.filter fun x => (x.1 = 272 ∨ x.1 = 276) ∧ TableEntry x.2.2).map fun x => frameNo x.2.2

def pairHolds (ws : List (Nat × Nat × Word)) (n : Nat) : Prop :=
  n = 272 ∨ n = 276 ∨ n ∈ pairTables ws

instance (ws : List (Nat × Nat × Word)) (n : Nat) : Decidable (pairHolds ws n) :=
  inferInstanceAs (Decidable (_ ∨ _))

/-- What makes such a state good, on the words that are not nil. -/
structure PairGood (ws : List (Nat × Nat × Word)) : Prop where
  tables : ∀ n ∈ pairTables ws, Marked (pairKern [] 0).mem.1 n
  pages : ∀ x ∈ ws, x.1 ∈ pairTables ws → Present x.2.2 →
    Marked (pairKern [] 0).mem.1 (frameNo x.2.2) ∧ ¬ pairHolds ws (frameNo x.2.2)
  alone : ∀ x ∈ ws, ∀ y ∈ ws, pairHolds ws x.1 → pairHolds ws y.1 → Private x.2.2 →
    Private y.2.2 → frameNo x.2.2 = frameNo y.2.2 → x.1 = y.1 ∧ x.2.1 = y.2.1
  kernelSlots : ∀ x ∈ ws, x.1 = 272 → 768 ≤ x.2.1 → Present x.2.2 → Linked x.2.2
  kernelPages : ∀ x ∈ ws, x.1 = 272 → 768 ≤ x.2.1 → TableEntry x.2.2 →
    ∀ y ∈ ws, y.1 = frameNo x.2.2 → Present y.2.2 → Linked y.2.2
  wide : ∀ x ∈ ws, (x.1 = 272 ∨ x.1 = 276) → Present x.2.2 → Extended x.2.2 → Linked x.2.2

variable {ws : List (Nat × Nat × Word)} {cur : TaskPtr} {n : Nat}

theorem pair_kernel : frameNo ((pairKern ws cur).proc.task kernelTask).pgd = 272 := by
  have hpgd : ((pairKern ws cur).proc.task kernelTask).pgd = 0x110000#32 := by
    simp [pairKern, kernelTaskInit]
  rw [hpgd]
  decide

theorem pair_child : frameNo ((pairKern ws cur).proc.task 1).pgd = 276 := by
  have hpgd : ((pairKern ws cur).proc.task 1).pgd = 0x114000#32 := by
    simp [pairKern, kernelTaskInit, kernelTask]
  rw [hpgd]
  decide

theorem pair_dirs : n ∈ dirs (pairKern ws cur).proc ↔ n = 272 ∨ n = 276 := by
  have hk : frameNo ((pairKern ws cur).proc.task 0).pgd = 272 := pair_kernel
  have hc : frameNo ((pairKern ws cur).proc.task 1).pgd = 276 := pair_child
  constructor
  · intro hd
    obtain ⟨t, ht, he⟩ := hd
    have ht' : t < 2 := ht
    have hcases : t = 0 ∨ t = 1 := by omega
    rcases hcases with h | h
    · rw [h, hk] at he
      exact Or.inl he.symm
    · rw [h, hc] at he
      exact Or.inr he.symm
  · intro hd
    rcases hd with h | h
    · exact ⟨0, Nat.zero_lt_two, hk.trans h.symm⟩
    · exact ⟨1, Nat.one_lt_two, hc.trans h.symm⟩

theorem pair_isTable {ds : Set Nat} (hds : ∀ d ∈ ds, d = 272 ∨ d = 276)
    (h : IsTable (pairKern ws cur).mem.1 ds n) : n ∈ pairTables ws := by
  obtain ⟨d, hd, i, -, he, hf⟩ := h
  have hmem := wordsMem_mem he.ne_nil
  refine List.mem_map.mpr ⟨_, List.mem_filter.mpr ⟨hmem, ?_⟩, hf⟩
  exact decide_eq_true ⟨hds d hd, he⟩

theorem PairGood.good (h : PairGood ws) : GoodKern (pairKern ws cur) := by
  have hdir : ∀ d ∈ dirs (pairKern ws cur).proc, d = 272 ∨ d = 276 := fun d hd => pair_dirs.mp hd
  have hholds : ∀ m, HoldsEntries (pairKern ws cur).mem.1 (dirs (pairKern ws cur).proc) m →
      pairHolds ws m := by
    intro m hm
    rcases hm with hd | ht
    · rcases hdir m hd with h | h
      · exact Or.inl h
      · exact Or.inr (Or.inl h)
    · exact Or.inr (Or.inr (pair_isTable hdir ht))
  have hpage : ∀ m, IsPage (pairKern ws cur).mem.1 (dirs (pairKern ws cur).proc) m →
      Marked (pairKern [] 0).mem.1 m ∧ ¬ pairHolds ws m := by
    intro m hm
    obtain ⟨t, ht, j, -, hp, hf⟩ := hm
    rw [← hf]
    exact h.pages _ (wordsMem_mem hp.ne_nil) (pair_isTable hdir ht) hp
  unfold GoodKern
  rw [pair_kernel]
  refine ⟨?_, ?_, fun m hm => (hpage m hm).1, ?_, ?_, ?_, ?_, ?_⟩
  · intro d hd
    rcases hdir d hd with h | h
    · rw [h]
      exact (by decide +kernel : Marked (pairKern [] 0).mem.1 272)
    · rw [h]
      exact (by decide +kernel : Marked (pairKern [] 0).mem.1 276)
  · intro t ht
    exact h.tables t (pair_isTable hdir ht)
  · intro m i m' j hh _ hh' _ hp hp'
    exact h.alone _ (wordsMem_mem hp.ne_nil) _ (wordsMem_mem hp'.ne_nil) (hholds m hh)
      (hholds m' hh') hp hp'
  · intro m hh hm
    exact (hpage m hm).2 (hholds m hh)
  · intro i hi _ hp
    exact h.kernelSlots _ (wordsMem_mem hp.ne_nil) rfl hi hp
  · intro i hi _ he j _ hp
    exact h.kernelPages _ (wordsMem_mem he.ne_nil) rfl hi he _ (wordsMem_mem hp.ne_nil) rfl hp
  · intro d hd i _ hp hx
    exact h.wide _ (wordsMem_mem hp.ne_nil) (hdir d hd) hp hx

theorem pair_running (hcur : cur = 0 ∨ cur = 1) : Running (pairKern ws cur) := by
  have hlt : cur < 2 := by
    rcases hcur with h | h
    · rw [h]
      decide
    · rw [h]
      decide
  refine ⟨⟨Nat.zero_lt_two, hlt, ?_, ⟨cur, hlt, ?_⟩⟩, ready_nil (by decide), rfl, rfl⟩
  · intro u hu
    cases hu
  · rcases hcur with h | h
    · rw [h]
      rfl
    · rw [h]
      rfl

theorem pair_step (ws : List (Nat × Nat × Word)) (cur : TaskPtr) (op : KOp) (test : Phys → Bool)
    (h : (passes (op.exec 1 (pairKern ws cur)) fun _ s' =>
      s'.proc.ntasks == 2 && frameNo (s'.proc.task 0).pgd == 272 &&
        frameNo (s'.proc.task 1).pgd == 276 && test s'.mem.1) = true) :
    ∃ s', op.exec 1 (pairKern ws cur) = .ok ((), s') ∧ 272 ∈ dirs s'.proc ∧ 276 ∈ dirs s'.proc ∧
      frameNo (s'.proc.task kernelTask).pgd = 272 ∧ test s'.mem.1 = true := by
  obtain ⟨r, s', hex, h⟩ := passes_iff.mp h
  rw [Bool.and_eq_true, Bool.and_eq_true, Bool.and_eq_true, beq_iff_eq, beq_iff_eq,
    beq_iff_eq] at h
  obtain ⟨⟨⟨hn, hk⟩, hc⟩, htest⟩ := h
  refine ⟨s', hex, ⟨0, ?_, hk⟩, ⟨1, ?_, hc⟩, hk, htest⟩
  · rw [hn]
    decide
  · rw [hn]
    decide

/-- The child's empty directory is a page table of `KernelTask`. -/
def dirAsTable : List (Nat × Nat × Word) := [(272, 0, 0x114203#32)]

/-- A page table of the kernel's range is at a low slot of the child. -/
def kernelTableLow : List (Nat × Nat × Word) := [(272, 769, 0x115203#32), (276, 0, 0x115203#32)]

/-- The stack of `KernelTask`, with its own table and page. -/
def kernelStack : List (Nat × Nat × Word) := [(272, 767, 0x112003#32), (274, 1023, 0x113003#32)]

theorem dirAsTable_good : PairGood dirAsTable :=
  ⟨by decide +kernel, by decide +kernel, by decide +kernel, by decide +kernel, by decide +kernel,
    by decide +kernel⟩

theorem kernelTableLow_good : PairGood kernelTableLow :=
  ⟨by decide +kernel, by decide +kernel, by decide +kernel, by decide +kernel, by decide +kernel,
    by decide +kernel⟩

theorem kernelStack_good : PairGood kernelStack :=
  ⟨by decide +kernel, by decide +kernel, by decide +kernel, by decide +kernel, by decide +kernel,
    by decide +kernel⟩

/-- What makes it sound besides. -/
structure PairSound (ws : List (Nat × Nat × Word)) : Prop extends PairGood ws where
  dirTable : 272 ∉ pairTables ws ∧ 276 ∉ pairTables ws
  kernelHigh : ∀ x ∈ ws, x.2.1 < 768 → ∀ y ∈ ws, 768 ≤ y.2.1 → TableEntry x.2.2 →
    TableEntry y.2.2 → frameNo x.2.2 ≠ frameNo y.2.2

theorem PairSound.ownState (h : PairSound ws) (hcur : cur = 0 ∨ cur = 1) :
    OwnState (pairKern ws cur) := by
  have hdir : ∀ d ∈ dirs (pairKern ws cur).proc, d = 272 ∨ d = 276 := fun d hd => pair_dirs.mp hd
  refine ⟨pair_running hcur, ⟨h.toPairGood.good, ?_, ?_⟩⟩
  · intro d hd ht
    have htable := pair_isTable hdir ht
    rcases hdir d hd with h0 | h0
    · rw [h0] at htable
      exact h.dirTable.1 htable
    · rw [h0] at htable
      exact h.dirTable.2 htable
  · intro d _ i i' hi hi' _ he he'
    exact h.kernelHigh _ (wordsMem_mem he.ne_nil) hi _ (wordsMem_mem he'.ne_nil) hi' he he'

/-- The child shares the first 4 MB and a page table of the kernel's range. -/
def kernelShared : List (Nat × Nat × Word) :=
  [(272, 767, 0x112003#32), (274, 1023, 0x113003#32), (272, 768, kernelLow4M),
    (276, 768, kernelLow4M), (272, 769, 0x115203#32), (276, 769, 0x115203#32)]

theorem kernelShared_sound : PairSound kernelShared :=
  ⟨⟨by decide +kernel, by decide +kernel, by decide +kernel, by decide +kernel, by decide +kernel,
    by decide +kernel⟩, by decide +kernel, by decide +kernel⟩

theorem inBounds_alloc {s : Kern} {v : Word} (h : v < kZero) : (KOp.alloc v).InBounds s := by
  refine ⟨?_, fun _ _ hc => (nomatch hc)⟩
  intro m w hm hw
  cases hm
  rw [hw]
  exact ⟨BitVec.lt_def.mpr (Nat.lt_trans h (by decide : kZero.toNat < kTmpMem.toNat)), fun _ => h⟩

end Machine

/-- The child maps its first page. -/
theorem frames_owned_for_child : ∃ s', OwnState (pairKern kernelShared 1) ∧
    Run OwnedStep (pairKern kernelShared 1) [(.alloc 0x1000#32, ())] s' ∧ GoodKern s' := by
  obtain ⟨s', hex, -⟩ := pair_step kernelShared 1 (.alloc 0x1000#32)
    (fun _ => true) (by decide +kernel)
  have htables : (KOp.alloc 0x1000#32).OnTables (pairKern kernelShared 1) := by
    refine ⟨?_, fun _ _ hc => (nomatch hc)⟩
    intro m v hm hv
    cases hm
    left
    rw [hv]
    decide +kernel
  have hstep : OwnedStep (pairKern kernelShared 1) (.alloc 0x1000#32, ()) s' :=
    ⟨htables, inBounds_alloc (by decide), 1, hex⟩
  have hown := kernelShared_sound.ownState (Or.inr rfl : (1 : TaskPtr) = 0 ∨ (1 : TaskPtr) = 1)
  exact ⟨s', hown, Run.single hstep,
    frames_owned_over_runs _ hown _ s' (Run.single hstep)⟩

/-- Good states in which a step leaves one that is not: a directory that is a page table
too, a table of the kernel's range at a low slot, and a copied page without a link. -/
theorem frames_owned_fails :
    (∃ s', Running (pairKern dirAsTable 1) ∧ GoodKern (pairKern dirAsTable 1) ∧
      Run BoundedStep (pairKern dirAsTable 1) [(.alloc 0#32, ())] s' ∧ ¬ GoodKern s') ∧
    (∃ s', Running (pairKern kernelTableLow 1) ∧ GoodKern (pairKern kernelTableLow 1) ∧
      Run BoundedStep (pairKern kernelTableLow 1) [(.alloc 0#32, ())] s' ∧ ¬ GoodKern s') ∧
    ∃ s', Running (pairKern kernelStack 0) ∧ GoodKern (pairKern kernelStack 0) ∧
      Run BoundedStep (pairKern kernelStack 0) [(.copy 1 0xBFFFF000#32, ())] s' ∧
      ¬ GoodKern s' := by
  refine ⟨?_, ?_, ?_⟩
  · obtain ⟨s', hex, hk, hc, -, htest⟩ := pair_step dirAsTable 1 (.alloc 0#32)
      (fun c => decide (TableEntry (c.mem 276 0) ∧ TableEntry (c.mem 272 0) ∧
        frameNo (c.mem 272 0) = 276)) (by decide +kernel)
    obtain ⟨h1, h2, h3⟩ := of_decide_eq_true htest
    refine ⟨s', pair_running (Or.inr rfl), dirAsTable_good.good,
      Run.single ⟨inBounds_alloc (by decide), 1, hex⟩, ?_⟩
    intro hgood
    apply hgood.apart (frameNo (s'.mem.1.mem 276 0)) (Or.inr ⟨276, hc, 0, by decide, h1, rfl⟩)
    exact ⟨276, ⟨272, hk, 0, by decide, h2, h3⟩, 0, by decide, h1.1, rfl⟩
  · obtain ⟨s', hex, -, -, hk, htest⟩ := pair_step kernelTableLow 1 (.alloc 0#32)
      (fun c => decide (TableEntry (c.mem 272 769) ∧
        Private (c.mem (frameNo (c.mem 272 769)) 0))) (by decide +kernel)
    obtain ⟨h1, h2⟩ := of_decide_eq_true htest
    refine ⟨s', pair_running (Or.inr rfl), kernelTableLow_good.good,
      Run.single ⟨inBounds_alloc (by decide), 1, hex⟩, ?_⟩
    intro hgood
    unfold GoodKern at hgood
    rw [hk] at hgood
    exact h2.2 (hgood.kernelPages 769 (by decide) (by decide) h1 0 (by decide) h2.1)
  · obtain ⟨s', hex, hk, hc, -, htest⟩ := pair_step kernelStack 0 (.copy 1 0xBFFFF000#32)
      (fun c => decide (TableEntry (c.mem 272 767) ∧ TableEntry (c.mem 276 767) ∧
        frameNo (c.mem 272 767) ≠ frameNo (c.mem 276 767) ∧
        Private (c.mem (frameNo (c.mem 272 767)) 1023) ∧
        c.mem (frameNo (c.mem 276 767)) 1023 = c.mem (frameNo (c.mem 272 767)) 1023))
      (by decide +kernel)
    obtain ⟨h1, h2, hne, hp, heq⟩ := of_decide_eq_true htest
    have hbounds : (KOp.copy 1 0xBFFFF000#32).InBounds (pairKern kernelStack 0) := by
      refine ⟨fun _ _ hm => (nomatch hm), ?_⟩
      intro dest addr hcopy
      simp only [KOp.copies] at hcopy
      split at hcopy
      · cases hcopy
        exact ⟨by decide, by decide +kernel⟩
      · cases hcopy
    refine ⟨s', pair_running (Or.inl rfl), kernelStack_good.good,
      Run.single ⟨hbounds, 1, hex⟩, ?_⟩
    intro hgood
    have halone := hgood.alone (frameNo (s'.mem.1.mem 272 767)) 1023
      (frameNo (s'.mem.1.mem 276 767)) 1023 (Or.inr ⟨272, hk, 767, by decide, h1, rfl⟩)
      (by decide) (Or.inr ⟨276, hc, 767, by decide, h2, rfl⟩) (by decide) hp
      (by rw [heq]; exact hp) (by rw [heq])
    exact hne halone.1

end AkKernel
