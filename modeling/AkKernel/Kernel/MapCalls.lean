import AkKernel.Boot.FreeFrames
import AkKernel.Kernel.Mappings
import AkKernel.Mem.TmpSlots
import AkKernel.Mem.Walkable

/-!
# `pg_map` from `pg_init` on

While `arch_init` runs, `KernelTask` maps the boot loader's information by `vmmap` and its heap
by `task_brk`, with the frames of `PreallocFrames`. Then the bitmap is set up and the first 4 MB
are unmapped, and the calls of all tasks follow.
-/

set_option autoImplicit false

namespace AkKernel

open Programs Runs

def pgMapSequence (cur : Task) (fuel : Nat) (paddr vaddr length : Word) : MemM Unit :=
  forPages (fun i => pgMap cur (paddr + i) (vaddr + i)) fuel 0#32 length

def vmmap (fuel : Nat) (start limit : Word) : KernM Unit := do
  onMem fun cur => pgMapSequence cur fuel (start - kZero) start (limit - start + pageSize)
  let _ ← sysBrk fuel limit

/-- What `arch_init` does once `multiboot_mmap` and `frame_set_range` have made the bitmap what
it is: `pg_unmap_low_kernel`. -/
def pgUnmapLowKernel (frames : FrameBitmap) : KernM Unit := do
  onMem fun _ => onFst fun c => .ok ((), { c with bitmap := frames, frameAllocInitialized := true })
  onMem fun cur => pgUnmapExt cur 0#32

inductive BootOp where
  | map (paddr vaddr : Word)
  | brk (addr : Word)
deriving DecidableEq, Repr

def BootOp.exec (fuel : Nat) (s : Kern) : BootOp → Except Fault (Unit × Kern)
  | .map paddr vaddr => onMem (fun cur => pgMap cur paddr vaddr) s
  | .brk addr => (do let _ ← sysBrk fuel addr : KernM Unit) s

/-- As for `KOp`: no page of the temporary mappings is mapped. -/
def BootOp.Below (s : Kern) : BootOp → Prop
  | .map _ vaddr => vaddr < kTmpMem
  | .brk addr => (KOp.brk addr).Below s

/-- All that directory `d` refers to lies below `KBSSTOPHYS(brk)`. -/
structure BelowBrk (c : Phys) (d : Nat) (brk : Word) : Prop where
  low : kZero ≤ brk
  high : brk < kTmpMem
  dir : d * 4096 < (brk - kZero).toNat
  tables : ∀ i, i < 1024 → c.mem d i ≠ nilPgEnt →
    frameNo (c.mem d i) * 4096 < (brk - kZero).toNat
  pages : ∀ i, i < 1024 → c.mem d i ≠ nilPgEnt → ¬ Extended (c.mem d i) → ∀ j, j < 1024 →
    Present (c.mem (frameNo (c.mem d i)) j) →
      frameNo (c.mem (frameNo (c.mem d i)) j) * 4096 < (brk - kZero).toNat

inductive MapCall where
  | boot (op : BootOp)
  | unmapLow (frames : FrameBitmap)
  | kernel (op : KOp)

/-- The bitmap is the one that `arch_init` computes from the boot loader's information. -/
inductive CallStep (s : Kern) : MapCall → Kern → Prop where
  | boot (op : BootOp) (fuel : Nat) (s' : Kern) : s.mem.1.frameAllocInitialized = false →
      op.Below s → op.exec fuel s = .ok ((), s') → CallStep s (.boot op) s'
  | unmapLow (info : Boot.Info) (mbInfo : Word) (t : Boot) (frames : FrameBitmap) (s' : Kern) :
      s.mem.1.frameAllocInitialized = false →
      BelowBrk s.mem.1 (frameNo s.proc.cur.pgd) s.proc.cur.brk →
      Boot.archInit info mbInfo s.proc.cur.brk Boot.reset = some t → t.frames = some frames →
      pgUnmapLowKernel frames s = .ok ((), s') → CallStep s (.unmapLow frames) s'
  | kernel (op : KOp) (s' : Kern) : s.mem.1.frameAllocInitialized = true →
      KStep s (op, ()) s' → CallStep s (.kernel op) s'

/-- A frame of the kernel's image, which is linked to 1 MB, that is neither the directory nor one
of `PreallocFrames`. -/
def ImageFrame (s : Kern) (n : Nat) : Prop :=
  256 ≤ n ∧ n < 2 ^ 20 ∧ n ≠ frameNo s.proc.cr3 ∧ n ∉ spares s.mem.1

/-- `KernelPageDir` when `pg_init` returns. -/
structure PgInit (s : Kern) : Prop where
  proc : ∃ kernEnd pgd, s.proc = bootProc kernEnd pgd
  tmp : Ready [] 6 s.mem.2
  init : s.mem.1.frameAllocInitialized = false
  aligned : s.mem.1.preallocFrames.toNat % 4096 = 0
  count : s.mem.1.preallocCount = 0
  image : ∀ n, n = frameNo s.proc.cr3 ∨ n ∈ spares s.mem.1 → 256 ≤ n
  dir : frameNo s.proc.cr3 ∉ spares s.mem.1
  low : s.mem.1.mem (frameNo s.proc.cr3) 0 = kernelLow4M
  kernelLow : s.mem.1.mem (frameNo s.proc.cr3) 768 = kernelLow4M
  stack : ∃ n, ImageFrame s n ∧
    s.mem.1.mem (frameNo s.proc.cr3) 767 = pageEntry (frameAddr n) baseFlagBits
  tmpTbl : ∃ n, ImageFrame s n ∧
    s.mem.1.mem (frameNo s.proc.cr3) 1023 = pageEntry (frameAddr n) kernelFlags
  apart : frameNo (s.mem.1.mem (frameNo s.proc.cr3) 767) ≠
    frameNo (s.mem.1.mem (frameNo s.proc.cr3) 1023)
  others : ∀ i, i < 1024 → i ≠ 0 → i ≠ 767 → i ≠ 768 → i ≠ 1023 →
    s.mem.1.mem (frameNo s.proc.cr3) i = nilPgEnt

/-- What `arch_init` keeps until the bitmap is set up. -/
structure BootInv (s : Kern) : Prop where
  runner : Runner s.proc
  noCallYet : NoCallYet s.proc
  dirs : dirs s.proc = {frameNo s.proc.cur.pgd}
  tmp : Ready [] 6 s.mem.2
  walk : BootWalkable {0, 768} (frameNo s.proc.cur.pgd) s.mem.1

section PgInit
variable {s : Kern} {i j n : Nat}

theorem PgInit.cases (h : PgInit s) (hi : i < 1024)
    (hne : s.mem.1.mem (frameNo s.proc.cr3) i ≠ nilPgEnt) :
    (i = 0 ∨ i = 768) ∧ s.mem.1.mem (frameNo s.proc.cr3) i = kernelLow4M ∨
    (i = 767 ∨ i = 1023) ∧ ImageFrame s (frameNo (s.mem.1.mem (frameNo s.proc.cr3) i)) ∧
      Present (s.mem.1.mem (frameNo s.proc.cr3) i) ∧
      ¬ Extended (s.mem.1.mem (frameNo s.proc.cr3) i) := by
  by_cases h0 : i = 0
  · subst h0
    exact Or.inl ⟨Or.inl rfl, h.low⟩
  by_cases h768 : i = 768
  · subst h768
    exact Or.inl ⟨Or.inr rfl, h.kernelLow⟩
  right
  by_cases h767 : i = 767
  · subst h767
    obtain ⟨n, hn, he⟩ := h.stack
    rw [he, frameNo_flags hn.2.1 (by decide), present_flags (by decide),
      extended_flags (by decide)]
    exact ⟨Or.inl rfl, hn, by decide, by decide⟩
  by_cases h1023 : i = 1023
  · subst h1023
    obtain ⟨n, hn, he⟩ := h.tmpTbl
    rw [he, frameNo_flags hn.2.1 (by decide), present_flags (by decide),
      extended_flags (by decide)]
    exact ⟨Or.inr rfl, hn, by decide, by decide⟩
  exact absurd (h.others i hi h0 h767 h768 h1023) hne

theorem PgInit.walkable (h : PgInit s) : Walkable {0, 768} s.mem.1 (frameNo s.proc.cr3) := by
  have hzero : frameNo kernelLow4M = 0 := by decide
  refine ⟨⟨fun _ => h.aligned, fun _ => ?_⟩, h.dir, ?_, ?_, ?_, ?_⟩
  · rw [h.count]
    exact Nat.zero_le _
  · intro i hi hne
    rcases h.cases hi hne with ⟨-, he⟩ | ⟨-, -, hp, -⟩
    · rw [he]
      decide
    · exact hp
  · intro i hi hx
    have hne : s.mem.1.mem (frameNo s.proc.cr3) i ≠ nilPgEnt := by
      intro hnil
      rw [hnil] at hx
      exact absurd hx (by decide)
    rcases h.cases hi hne with ⟨hlow, he⟩ | ⟨-, -, -, hnx⟩
    · refine ⟨hlow, ?_⟩
      rw [he]
      decide
    · exact absurd hx hnx
  · intro i hi hne
    rcases h.cases hi hne with ⟨-, he⟩ | ⟨-, hn, -⟩
    · rw [he, hzero]
      refine ⟨?_, ?_⟩
      · intro hs
        exact absurd (h.image 0 (Or.inr hs)) (by decide)
      · intro hd
        exact absurd (h.image 0 (Or.inl hd)) (by decide)
    · exact ⟨hn.2.2.2, hn.2.2.1⟩
  · intro i j hi hj hne hx hne' heq
    rcases h.cases hi hne with ⟨-, he⟩ | ⟨hi', hn, -⟩
    · rw [he] at hx
      exact absurd (by decide) hx
    rcases h.cases hj hne' with ⟨-, he⟩ | ⟨hj', -⟩
    · rw [he, hzero] at heq
      rw [heq] at hn
      exact absurd hn.1 (by decide)
    rcases hi' with rfl | rfl
    · rcases hj' with rfl | rfl
      · rfl
      · exact absurd heq h.apart
    · rcases hj' with rfl | rfl
      · exact absurd heq.symm h.apart
      · rfl

theorem bootProc_cur (kernEnd pgd : Word) :
    (bootProc kernEnd pgd).cur.pgd = pgd ∧ (bootProc kernEnd pgd).cr3 = pgd := by
  refine ⟨?_, rfl⟩
  simp [bootProc, schedInit, fdioTblInit, kernelTaskInit, Proc.setTask, Proc.cur]

theorem PgInit.bootInv (h : PgInit s) : BootInv s := by
  have hwalk := h.walkable
  have hinit := h.init
  obtain ⟨kernEnd, pgd, hp⟩ := h.proc
  obtain ⟨hpgd, hcr3⟩ := bootProc_cur kernEnd pgd
  rw [hp, hcr3] at hwalk
  refine ⟨?_, ?_, ?_, h.tmp, ?_⟩
  · rw [hp]
    exact runner_bootProc kernEnd pgd
  · rw [hp]
    exact noCallYet_bootProc kernEnd pgd
  · rw [hp, hpgd]
    exact dirs_bootProc kernEnd pgd
  · rw [hp, hpgd]
    exact ⟨hwalk, hinit⟩

end PgInit

section Steps
variable {s s' : Kern} {op : BootOp} {fuel : Nat} {cur : Task} {c c' : Phys}

theorem pgMap_lifts {ms : List (Word × Nat)} {k : Nat} (cur : Task) (paddr vaddr : Word) :
    Lifts (Ready ms (k + 2)) (pgMap cur paddr vaddr) (Direct.pgMap cur paddr vaddr) :=
  pgWriteEntry_lifts cur _ _ _

theorem BootInv.step (h : BootInv s) (hrun : op.exec fuel s = .ok ((), s')) : BootInv s' := by
  cases op with
  | map paddr vaddr =>
    obtain ⟨c', hmap, rfl⟩ := onMem_ok (m := fun cur => pgMap cur paddr vaddr)
      (pgMap_lifts (k := 4) s.proc.cur paddr vaddr) h.tmp hrun
    refine ⟨h.runner, h.noCallYet, h.dirs, h.tmp, ?_⟩
    exact pgWriteEntry_walkable s.proc.cur _ _ _ _ () c' h.walk hmap
  | brk addr =>
    obtain ⟨r, s₁, h1, h2⟩ := bind_ok.mp hrun
    obtain ⟨-, rfl⟩ := pure_ok.mp h2
    have heffect := sysBrk_effect h.tmp h1
    have hrunner := h.runner.step heffect
    have hcall := h.noCallYet.step h.runner heffect
    cases heffect with
    | call _ m fuel' r' c' p' hop hmem hsame =>
      cases hop
      refine ⟨hrunner, hcall, ?_, h.tmp, ?_⟩
      · rw [hsame.dirs_eq, h.dirs]
        exact congrArg (fun pgd => {frameNo pgd}) hsame.cur_pgd.symm
      · have hkept := taskBrk_walkable s.proc.cur fuel' _ _ _ r' c' h.walk hmem
        have hpgd : (Kern.proc { s with proc := p', mem := (c', s.mem.2) }).cur.pgd =
            s.proc.cur.pgd := hsame.cur_pgd
        rw [hpgd]
        exact hkept
    | copy _ dest _ c' hop _ => cases hop

theorem pgUnmapExt_lifts {ms : List (Word × Nat)} {k : Nat} (cur : Task) (vaddr : Word) :
    Lifts (Ready ms (k + 1)) (pgUnmapExt cur vaddr)
      (writeWord (frameNo cur.pgd) (addrPde vaddr) nilPgEnt) := by
  have heq : pgUnmapExt cur vaddr = (do
      let dir ← pgTmpMap cur.pgd
      let x ← (do
        let dirent ← load dir (addrPde vaddr)
        if dirent = nilPgEnt then pure ()
        else store dir (addrPde vaddr) nilPgEnt)
      pgTmpUnmap dir
      pure x) := by
    unfold pgUnmapExt
    simp only [bind_assoc]
    refine bind_congr fun dir => bind_congr fun dirent => ?_
    split
    · simp only [pure_bind, bind_pure_unit]
    · simp only [bind_pure_unit]
  have hdirect : (do
      let dirent ← readWord (frameNo cur.pgd) (addrPde vaddr)
      if dirent = nilPgEnt then pure ()
      else writeWord (frameNo cur.pgd) (addrPde vaddr) nilPgEnt : PhysM Unit) =
      writeWord (frameNo cur.pgd) (addrPde vaddr) nilPgEnt := by
    funext c
    rw [bind_run (show readWord (frameNo cur.pgd) (addrPde vaddr) c = .ok (_, c) from rfl)]
    split
    · rename_i hnil
      unfold writeWord
      rw [← hnil, setWord_self]
      rfl
    · rfl
  rw [heq, ← hdirect]
  apply lifts_mapped
  intro dir
  apply (lifts_load List.mem_cons_self _).bind
  intro dirent
  exact Lifts.ite (lifts_pure ()) (lifts_store List.mem_cons_self _ _)

/-- The memory when the bitmap is there and the first 4 MB are unmapped. -/
def Phys.unmapLow (c : Phys) (frames : FrameBitmap) (d : Nat) : Phys :=
  Phys.setWord { c with bitmap := frames, frameAllocInitialized := true } d 0 nilPgEnt

theorem pgUnmapLowKernel_ok {frames : FrameBitmap} (htmp : Ready [] 6 s.mem.2)
    (h : pgUnmapLowKernel frames s = .ok ((), s')) :
    s' = { s with mem := (s.mem.1.unmapLow frames (frameNo s.proc.cur.pgd), s.mem.2) } := by
  obtain ⟨⟨⟩, s₁, h1, h2⟩ := bind_ok.mp h
  have hs₁ : s₁ = { s with mem := ({ s.mem.1 with
      bitmap := frames, frameAllocInitialized := true }, s.mem.2) } := by
    cases h1
    rfl
  have htmp₁ : Ready [] 6 s₁.mem.2 := by
    rw [hs₁]
    exact htmp
  have hslot : addrPde 0#32 = 0 := by decide
  obtain ⟨c', hrun, rfl⟩ := onMem_ok (m := fun cur => pgUnmapExt cur 0#32)
    (pgUnmapExt_lifts (k := 5) s₁.proc.cur 0#32) htmp₁ h2
  cases hrun
  rw [hs₁, hslot]
  rfl

theorem Walkable.unmapLow {d : Nat} {frames : FrameBitmap} (h : Walkable {0, 768} c d)
    (hdir : d ∉ frames.free)
    (htables : ∀ i, i < 1024 → c.mem d i ≠ nilPgEnt → frameNo (c.mem d i) ∉ frames.free)
    (hpages : ∀ i, i < 1024 → c.mem d i ≠ nilPgEnt → ¬ Extended (c.mem d i) → ∀ j, j < 1024 →
      Present (c.mem (frameNo (c.mem d i)) j) →
        frameNo (c.mem (frameNo (c.mem d i)) j) ∉ frames.free) :
    Mapped (c.unmapLow frames d) {d} := by
  have hslot : ∀ k, (c.unmapLow frames d).mem d k = if k = 0 then nilPgEnt else c.mem d k := by
    intro k
    split
    · rename_i hk
      rw [hk]
      exact setWord_mem_self
    · rename_i hk
      exact setWord_mem_of_ne hk
  have hold : ∀ k, (c.unmapLow frames d).mem d k ≠ nilPgEnt →
      k ≠ 0 ∧ (c.unmapLow frames d).mem d k = c.mem d k := by
    intro k hne
    rw [hslot] at hne ⊢
    split at hne
    · exact absurd rfl hne
    · rename_i hk
      exact ⟨hk, if_neg hk⟩
  have hwide : ∀ k, k < 1024 → (c.unmapLow frames d).mem d k ≠ nilPgEnt →
      Extended (c.mem d k) → k = 768 := by
    intro k hk hne hx
    rcases (h.wide k hk hx).1 with h0 | h768
    · exact absurd h0 (hold k hne).1
    · exact h768
  constructor
  case dirUsed =>
    rintro x rfl
    exact hdir
  case present =>
    rintro x rfl i hi hne
    have he := (hold i hne).2
    rw [he] at hne ⊢
    exact h.present i hi hne
  case wide =>
    rintro x rfl i hi hx
    have hne : (c.unmapLow frames x).mem x i ≠ nilPgEnt := by
      intro hnil
      rw [hnil] at hx
      exact absurd hx (by decide)
    refine ⟨?_, ?_⟩
    · rw [(hold i hne).2] at hx ⊢
      exact (h.wide i hi hx).2
    · rintro y rfl
      rfl
  case tableUsed =>
    rintro x rfl i hi hne
    have he := (hold i hne).2
    rw [he] at hne ⊢
    exact htables i hi hne
  case tableDir =>
    rintro x rfl i hi hne
    have he := (hold i hne).2
    rw [he] at hne ⊢
    exact (h.tables i hi hne).2
  case pageUsed =>
    rintro x rfl i hi hne hx j hj hp
    have he := (hold i hne).2
    rw [he] at hne hx hp ⊢
    have htable : (c.unmapLow frames x).mem (frameNo (c.mem x i)) = c.mem (frameNo (c.mem x i)) :=
      setWord_mem_frame (h.tables i hi hne).2
    rw [htable] at hp ⊢
    exact hpages i hi hne hx j hj hp
  case slot =>
    rintro x rfl y rfl i j hi hj hne hne' heq
    have he := (hold i hne).2
    have he' := (hold j hne').2
    have hwi := hwide i hi hne
    have hwj := hwide j hj hne'
    rw [he] at hne heq
    rw [he'] at hne' heq
    by_cases hx : Extended (c.mem y i)
    · by_cases hx' : Extended (c.mem y j)
      · rw [hwi hx, hwj hx']
      · exact (h.apart j i hj hi hne' hx' hne heq.symm).symm
    · exact h.apart i j hi hj hne hx hne' heq

theorem BootInv.unmapLow {info : Boot.Info} {mbInfo : Word} {t : Boot} {frames : FrameBitmap}
    (h : BootInv s) (hbrk : BelowBrk s.mem.1 (frameNo s.proc.cur.pgd) s.proc.cur.brk)
    (ht : Boot.archInit info mbInfo s.proc.cur.brk Boot.reset = some t)
    (hf : t.frames = some frames) (hrun : pgUnmapLowKernel frames s = .ok ((), s')) :
    MapInv s' := by
  rw [pgUnmapLowKernel_ok h.tmp hrun]
  refine ⟨h.runner, h.noCallYet, h.tmp, rfl, ?_⟩
  have hmarked : ∀ n, n * 4096 < (s.proc.cur.brk - kZero).toNat → n ∉ frames.free :=
    fun n hn => Boot.archInit_reserves ht hf hbrk.low hbrk.high hn
  rw [h.dirs]
  apply h.walk.1.unmapLow (hmarked _ hbrk.dir)
  · intro i hi hne
    exact hmarked _ (hbrk.tables i hi hne)
  · intro i hi hne hx j hj hp
    exact hmarked _ (hbrk.pages i hi hne hx j hj hp)

/-- A state from `pg_init` on. -/
def MapState (s : Kern) : Prop := BootInv s ∨ MapInv s

theorem MapState.step {call : MapCall} (h : MapState s) (hs : CallStep s call s') :
    MapState s' := by
  cases hs with
  | boot op fuel _ hinit _ hrun =>
    rcases h with h | h
    · exact Or.inl (h.step hrun)
    · rw [h.init] at hinit
      cases hinit
  | unmapLow info mbInfo t frames _ hinit hbrk ht hf hrun =>
    rcases h with h | h
    · exact Or.inr (h.unmapLow hbrk ht hf hrun)
    · rw [h.init] at hinit
      cases hinit
  | kernel op _ hinit hstep =>
    rcases h with h | h
    · rw [h.walk.2] at hinit
      cases hinit
    · exact Or.inr (h.step hstep)

theorem MapInv.walkable (h : MapInv s) :
    Walkable Set.univ s.mem.1 (frameNo s.proc.cur.pgd) := by
  have hd := h.runner.cur_mem
  have hspare : ∀ n, n ∈ spares s.mem.1 ↔ n ∈ s.mem.1.free := fun n => spares_init h.init
  have hnot : ∀ b, s.mem.1.frameAllocInitialized = false → b := by
    intro b hf
    rw [h.init] at hf
    cases hf
  refine ⟨⟨hnot _, hnot _⟩, ?_, ?_, ?_, ?_, ?_⟩
  · rw [hspare]
    exact h.mapped.dirUsed _ hd
  · exact h.mapped.present _ hd
  · intro i hi hx
    exact ⟨trivial, (h.mapped.wide _ hd i hi hx).1⟩
  · intro i hi hne
    rw [hspare]
    refine ⟨h.mapped.tableUsed _ hd i hi hne, ?_⟩
    intro he
    apply h.mapped.tableDir _ hd i hi hne
    rw [he]
    exact hd
  · intro i j hi hj hne _ hne' heq
    exact h.mapped.slot _ hd _ hd i j hi hj hne hne' heq

theorem MapState.walkable (h : MapState s) :
    Ready [] 6 s.mem.2 ∧ ∃ ws, Walkable ws s.mem.1 (frameNo s.proc.cur.pgd) := by
  rcases h with h | h
  · exact ⟨h.tmp, _, h.walk.1⟩
  · exact ⟨h.tmp, _, h.walkable⟩

/-- The pages that a loop maps one after the other while `arch_init` runs. -/
theorem mapLoop_run {paddr vaddr limit : Word} {start : Word} {m : Mem} (h : BootInv s)
    (hbelow : ∀ i, Visits limit start i → vaddr + i < kTmpMem)
    (hrun : forPages (fun i => pgMap s.proc.cur (paddr + i) (vaddr + i)) fuel start limit s.mem =
      .ok ((), m)) :
    BootInv { s with mem := m } ∧ ∃ tr, Run CallStep s tr { s with mem := m } := by
  induction fuel generalizing start s with
  | zero =>
    unfold forPages at hrun
    split at hrun
    · cases hrun
    · obtain ⟨-, rfl⟩ := pure_ok.mp hrun
      exact ⟨h, [], .nil⟩
  | succ fuel ih =>
    unfold forPages at hrun
    split at hrun
    · rename_i hlt
      obtain ⟨⟨⟩, m₁, h1, h2⟩ := bind_ok.mp hrun
      have hmap : pgMap s.proc.cur (paddr + start) (vaddr + start) s.mem = .ok ((), m₁) := h1
      have hexec : (BootOp.map (paddr + start) (vaddr + start)).exec 0 s =
          .ok ((), { s with mem := m₁ }) := by
        unfold BootOp.exec
        exact onMem_run (m := fun cur => pgMap cur (paddr + start) (vaddr + start)) hmap
      have hstep : CallStep s (.boot (.map (paddr + start) (vaddr + start)))
          { s with mem := m₁ } := .boot _ 0 _ h.walk.2 (hbelow start (.here start hlt)) hexec
      obtain ⟨h', tr, hrest⟩ := ih (s := { s with mem := m₁ }) (h.step hexec)
        (fun i hi => hbelow i (.later start i hlt hi)) h2
      exact ⟨h', _, (Run.single hstep).trans hrest⟩
    · obtain ⟨-, rfl⟩ := pure_ok.mp hrun
      exact ⟨h, [], .nil⟩

/-- A call of `vmmap` is a run of these calls. -/
theorem vmmap_run {start limit : Word} (h : BootInv s)
    (hbelow : ∀ i, Visits (limit - start + pageSize) 0#32 i → start + i < kTmpMem)
    (hbrk : (MemOp.brk s.proc.cur.brk limit).limit kTmpMem = true)
    (hrun : vmmap fuel start limit s = .ok ((), s')) : ∃ tr, Run CallStep s tr s' := by
  obtain ⟨⟨⟩, s₁, h1, h2⟩ := bind_ok.mp hrun
  obtain ⟨m, hloop, rfl⟩ := onMem_eq_ok.mp h1
  obtain ⟨h', tr, htr⟩ := mapLoop_run h hbelow hloop
  refine ⟨_, htr.trans (Run.single (.boot (.brk limit) fuel s' h'.walk.2 ⟨?_, ?_⟩ h2))⟩
  · intro op v hop hv
    cases hop
    exact MemOp.touches_lt hbrk hv
  · intro dest addr hcopy
    cases hcopy

theorem run_mapState {s₀ : Kern} {tr : List MapCall} (h₀ : PgInit s₀)
    (hrun : Run CallStep s₀ tr s) : MapState s :=
  Run.invariant (I := fun _ s => MapState s) (Or.inl h₀.bootInv) (fun _ _ _ _ h hs => h.step hs) hrun

end Steps

/-- After every run from `pg_init` on, `pg_map` makes the processor find the page where it was
mapped and writes nothing but the directory and its tables, unless the processor takes the
directory entry for a 4 MB page: then the page is found, and nothing else is written, exactly if
both were so before. -/
theorem pgMap_walks_iff {s₀ s s' : Kern} {tr : List MapCall} (h₀ : PgInit s₀)
    (hrun : Run CallStep s₀ tr s) (paddr v : Word) (_hv : v < kTmpMem)
    (hmap : onMem (fun cur => pgMap cur paddr v) s = .ok ((), s')) :
    MapsRight s.proc.cur paddr v s.mem.1 s'.mem.1 ↔ WideMapped s.proc.cur paddr v s.mem.1 := by
  obtain ⟨htmp, ws, hwalk⟩ := (run_mapState h₀ hrun).walkable
  obtain ⟨c', hdirect, rfl⟩ := onMem_ok (m := fun cur => pgMap cur paddr v)
    (pgMap_lifts (k := 4) s.proc.cur paddr v) htmp hmap
  exact hwalk.maps_iff hdirect

section Machine

/-- The image of `bootKern` when `pg_init` returns; `PreallocFrames` are the frames from 280. -/
def pgInitMem (n i : Nat) : Word := if n = 272 ∧ i = 0 then kernelLow4M else bootMem n i

def pgInitKern : Kern :=
  { bootKern with
    mem := (
      { bootKern.mem.1 with
        mem := pgInitMem
        frameAllocInitialized := false
        preallocFrames := 0x118000#32 }, fun _ => nilPgEnt) }

theorem pgInitKern_spares {n : Nat} (h : n ∈ spares pgInitKern.mem.1) : 280 ≤ n := by
  have hall : ∀ k < 8, 280 ≤ frameNo (0x118000#32 + BitVec.ofNat 32 (k * 4096)) := by decide
  obtain ⟨k, -, hk, rfl⟩ := (spares_prealloc rfl).mp h
  exact hall k hk

theorem pgInitKern_cr3 : frameNo pgInitKern.proc.cr3 = 272 ∧
    frameNo pgInitKern.proc.cur.pgd = 272 := by
  have hframe : frameNo 0x110000#32 = 272 := by decide
  obtain ⟨hpgd, hcr3⟩ := bootProc_cur 0xC03FF000#32 0x110000#32
  change frameNo (bootProc 0xC03FF000#32 0x110000#32).cr3 = 272 ∧
    frameNo (bootProc 0xC03FF000#32 0x110000#32).cur.pgd = 272
  rw [hpgd, hcr3]
  exact ⟨hframe, hframe⟩

theorem pgInitKern_init : PgInit pgInitKern := by
  have hd := pgInitKern_cr3.1
  have himage : ∀ n, 256 ≤ n → n < 280 → n ≠ 272 → ImageFrame pgInitKern n := by
    intro n hle hlt hne
    refine ⟨hle, by omega, by rw [hd]; exact hne, ?_⟩
    intro hs
    have := pgInitKern_spares hs
    omega
  constructor
  · exact ⟨_, _, rfl⟩
  · exact ready_nil (by decide)
  · rfl
  · decide
  · rfl
  · intro n hn
    rw [hd] at hn
    rcases hn with rfl | hs
    · decide
    · have := pgInitKern_spares hs
      omega
  · rw [hd]
    intro hs
    have := pgInitKern_spares hs
    omega
  · rw [hd]
    rfl
  · rw [hd]
    rfl
  · rw [hd]
    exact ⟨274, himage 274 (by decide) (by decide) (by decide), by decide⟩
  · rw [hd]
    exact ⟨273, himage 273 (by decide) (by decide) (by decide), by decide⟩
  · rw [hd]
    decide
  · intro i _ h0 h767 h768 h1023
    rw [hd]
    simp [pgInitKern, pgInitMem, bootMem, h0, h767, h768, h1023]

theorem pgInitKern_map (paddr v : Word) (hne : pgInitMem 272 (addrPde v) ≠ nilPgEnt) :
    ∃ s', onMem (fun cur => pgMap cur paddr v) pgInitKern = .ok ((), s') ∧
      Direct.pgMap pgInitKern.proc.cur paddr v pgInitKern.mem.1 = .ok ((), s'.mem.1) ∧
      Present (s'.mem.1.mem (frameNo (pgInitMem 272 (addrPde v))) (addrPte v)) := by
  have hslot : pgInitKern.mem.1.mem (frameNo pgInitKern.proc.cur.pgd) (addrPde (pgAddr v)) =
      pgInitMem 272 (addrPde v) := by
    rw [pgInitKern_cr3.2, addrPde_pgAddr]
    rfl
  have htable : pgInitKern.mem.1.mem (frameNo pgInitKern.proc.cur.pgd) (addrPde (pgAddr v)) ≠
      nilPgEnt := by
    rw [hslot]
    exact hne
  have hdirect := pgWriteEntry_run pgInitKern.proc.cur
    (pageEntry paddr (baseFlags pgInitKern.proc.cur)) htable
  refine ⟨_, onMem_run ((pgMap_lifts (k := 4) pgInitKern.proc.cur paddr v).run
    pgInitKern_init.tmp hdirect), hdirect, ?_⟩
  dsimp only
  rw [hslot, addrPte_pgAddr, setWord_mem_self]
  exact present_pageEntry_baseFlags pgInitKern.proc.cur paddr

/-- A page below the stack of the kernel, whose table `pg_init` made. -/
theorem pgMap_walks_iff_stack : ∃ s',
    onMem (fun cur => pgMap cur 0x200000#32 0xBFFFD000#32) pgInitKern = .ok ((), s') ∧
      MapsRight pgInitKern.proc.cur 0x200000#32 0xBFFFD000#32 pgInitKern.mem.1 s'.mem.1 := by
  obtain ⟨s', hmap, -⟩ := pgInitKern_map 0x200000#32 0xBFFFD000#32 (by decide)
  refine ⟨s', hmap, ?_⟩
  apply (pgMap_walks_iff pgInitKern_init .nil 0x200000#32 0xBFFFD000#32 (by decide) hmap).mpr
  unfold WideMapped
  rw [pgInitKern_cr3.2]
  intro hx
  exact absurd hx (by decide)

/-- The first page that `vmmap` maps is written to frame 0, which is neither the directory nor a
table: there the processor has a 4 MB page. -/
theorem pgMap_writes_low_frame : PgInit pgInitKern ∧ ∃ s',
    onMem (fun cur => pgMap cur 0x100000#32 0xC0100000#32) pgInitKern = .ok ((), s') ∧
      s'.mem.1.mem 0 256 ≠ pgInitKern.mem.1.mem 0 256 ∧
      ¬ MapsRight pgInitKern.proc.cur 0x100000#32 0xC0100000#32 pgInitKern.mem.1 s'.mem.1 := by
  obtain ⟨s', hmap, hdirect, hpresent⟩ := pgInitKern_map 0x100000#32 0xC0100000#32
    (by decide)
  have hframe : frameNo (pgInitMem 272 (addrPde 0xC0100000#32)) = 0 := by decide
  have hword : addrPte 0xC0100000#32 = 256 := by decide
  have hnil : pgInitKern.mem.1.mem 0 256 = nilPgEnt := by decide
  rw [hframe, hword] at hpresent
  refine ⟨pgInitKern_init, s', hmap, ?_, ?_⟩
  · rw [hnil]
    exact hpresent.ne_nil
  · intro hright
    have hwide := (pgInitKern_init.bootInv.walk.1.maps_iff hdirect).mp hright
    unfold WideMapped at hwide
    rw [pgInitKern_cr3.2] at hwide
    have hold := (hwide (by decide)).2
    have hentry := present_pageEntry_baseFlags pgInitKern.proc.cur 0x100000#32
    rw [← hold] at hentry
    exact absurd hentry (by decide)

end Machine

end AkKernel
