import AkKernel.Kernel.MmuReady
import AkKernel.Mem.Growth

/-!
# A heap and mapped memory that grow

`sys_brk` above the break and anonymous `sys_mmap_pgoff` of one task, in any order and with
lengths of any size. The calls are steps of `Areas`: the heap begins at the break of the first
call, and each mapping begins a page behind the one before.
-/

set_option autoImplicit false

namespace AkKernel

open Programs Runs Areas

inductive GrowRequest where
  | brk (addr : Word)
  | mmap (length flags : Word)
deriving DecidableEq, Repr

def GrowRequest.exec (fuel : Nat) : GrowRequest → KernM Word
  | .brk addr => sysBrk fuel addr
  | .mmap length flags => sysMmapPgoff fuel length flags

/-- The heap from the break of `s` up to `brk` and the mapped memory from there up to `mmapbrk`,
each with two pages more, lie below `KZERO` and do not meet. -/
structure AreasFit (s : Kern) (brk mmapbrk : Nat) : Prop where
  heap : brk + 8192 ≤ kZero.toNat
  mapped : mmapbrk + 8192 ≤ kZero.toNat
  apart : brk + 8192 ≤ s.proc.cur.mmapbrk.toNat ∨ mmapbrk + 8192 ≤ s.proc.cur.brk.toNat

instance decidableAreasFit (s : Kern) (brk mmapbrk : Nat) : Decidable (AreasFit s brk mmapbrk) :=
  decidable_of_iff (brk + 8192 ≤ kZero.toNat ∧ mmapbrk + 8192 ≤ kZero.toNat ∧
    (brk + 8192 ≤ s.proc.cur.mmapbrk.toNat ∨ mmapbrk + 8192 ≤ s.proc.cur.brk.toNat))
    ⟨fun ⟨h1, h2, h3⟩ => ⟨h1, h2, h3⟩, fun ⟨h1, h2, h3⟩ => ⟨h1, h2, h3⟩⟩

/-- The request makes one of the areas grow that began in `s₀`. Where it ends is computed
without wrapping. -/
def GrowRequest.Fits (s₀ s : Kern) : GrowRequest → Prop
  | .brk addr =>
    s.proc.cur.brk < addr ∧ AreasFit s₀ addr.toNat s.proc.cur.mmapbrk.toNat
  | .mmap length flags =>
    flags &&& mapAnonymous ≠ 0#32 ∧
      AreasFit s₀ s.proc.cur.brk.toNat (s.proc.cur.mmapbrk.toNat + length.toNat + 4096)

instance decidableFits (s₀ s : Kern) (req : GrowRequest) : Decidable (req.Fits s₀ s) :=
  match req with
  | .brk _ => inferInstanceAs (Decidable (_ ∧ _))
  | .mmap _ _ => inferInstanceAs (Decidable (_ ∧ _))

def GrowStep (s₀ s : Kern) (lbl : GrowRequest × Word) (s' : Kern) : Prop :=
  lbl.1.Fits s₀ s ∧ ∃ fuel, lbl.1.exec fuel s = .ok (lbl.2, s')

def regions (reqs : List (GrowRequest × Word)) : List (Nat × Nat) :=
  reqs.filterMap fun lbl =>
    match lbl.1 with
    | .brk _ => none
    | .mmap length _ => some (lbl.2.toNat, length.toNat)

/-- The address is in the heap, or in a region that was returned. -/
def Given (s₀ s : Kern) (reqs : List (GrowRequest × Word)) (v : Word) : Prop :=
  s₀.proc.cur.brk ≤ v ∧ v < s.proc.cur.brk ∨ ∃ r ∈ regions reqs, InRegion r v.toNat

/-- The areas and the pages of the running task. -/
def taskSpace (s₀ s : Kern) (reqs : List (GrowRequest × Word)) : Space (Nat × Word × Word) where
  layout :=
    { heap := s₀.proc.cur.brk.toNat
      brk := s.proc.cur.brk.toNat
      base := s₀.proc.cur.mmapbrk.toNat
      next := s.proc.cur.mmapbrk.toNat
      regions := regions reqs }
  frame := pageFrames s.mem.1 (frameNo s.proc.cur.pgd)

def GrowRequest.request : GrowRequest → Areas.Request
  | .brk addr => .heap addr.toNat
  | .mmap length _ => .region length.toNat

section Calls
variable {s s' s₀ : Kern} {fuel : Nat} {addr length flags r : Word}

/-- What the steps of one task keep. -/
structure GrowState (s : Kern) : Prop extends LowState s where
  ready : KernReady s

theorem GrowState.lowReady (h : GrowState s) : LowReady (dirs s.proc) s.mem.1 :=
  ⟨h.init, h.ready, h.low⟩

theorem GrowState.effect (h : GrowState s) {op : KOp} (he : KEffect s op s') : GrowState s' :=
  ⟨h.toLowState.effect he, h.ready_effect h.ready he⟩

theorem sysBrk_grows (h : GrowState s) (hlt : s.proc.cur.brk < addr)
    (hlimit : addr.toNat + 4096 ≤ kZero.toNat) (hrun : sysBrk fuel addr s = .ok (r, s')) :
    s'.proc.cur = { s.proc.cur with brk := addr } ∧
    (∀ p ∈ passed 4096 s.proc.cur.brk.toNat (addr.toNat + 4096),
      pageFrames s'.mem.1 (frameNo s.proc.cur.pgd) p ≠ none) ∧
    ∀ p, pageFrames s.mem.1 (frameNo s.proc.cur.pgd) p ≠ none →
      pageFrames s'.mem.1 (frameNo s.proc.cur.pgd) p =
        pageFrames s.mem.1 (frameNo s.proc.cur.pgd) p := by
  obtain ⟨b, s₁, hmem, hrest⟩ := bind_ok.mp hrun
  obtain ⟨⟨⟩, s₂, hcur, hret⟩ := bind_ok.mp hrest
  obtain ⟨-, rfl⟩ := pure_ok.mp hret
  obtain ⟨c', hdirect, rfl⟩ := onMem_ok (taskBrk_lifts (k := 4) _ fuel _ addr) h.tmp hmem
  cases hcur
  obtain ⟨rfl, hgrown⟩ := taskBrk_grows h.lowReady h.runner.cur_mem hlt hlimit hdirect
  exact ⟨setTask_cur _ _, hgrown⟩

theorem mmapEnd_toNat (s : Kern) (length : Word)
    (h : s.proc.cur.mmapbrk.toNat + length.toNat + 4096 ≤ kZero.toNat) :
    (s.proc.cur.mmapbrk + length + pageSize).toNat =
      s.proc.cur.mmapbrk.toNat + length.toNat + 4096 := by
  have hsz : pageSize.toNat = 4096 := rfl
  have hk : kZero.toNat = 0xC0000000 := rfl
  rw [BitVec.toNat_add, BitVec.toNat_add, hsz]
  omega

theorem sysMmapPgoff_grows (h : GrowState s) (hflags : flags &&& mapAnonymous ≠ 0#32)
    (hlimit : s.proc.cur.mmapbrk.toNat + length.toNat + 4096 + 4096 ≤ kZero.toNat)
    (hrun : sysMmapPgoff fuel length flags s = .ok (r, s')) :
    r = s.proc.cur.mmapbrk ∧
    s'.proc.cur = { s.proc.cur with mmapbrk := s.proc.cur.mmapbrk + length + pageSize } ∧
    (s.proc.cur.mmapbrk + length + pageSize).toNat =
      s.proc.cur.mmapbrk.toNat + length.toNat + 4096 ∧
    (∀ p ∈ passed 4096 s.proc.cur.mmapbrk.toNat
        (s.proc.cur.mmapbrk.toNat + length.toNat + 4096 + 4096),
      pageFrames s'.mem.1 (frameNo s.proc.cur.pgd) p ≠ none) ∧
    ∀ p, p ∉ passed 4096 s.proc.cur.mmapbrk.toNat
        (s.proc.cur.mmapbrk.toNat + length.toNat + 4096 + 4096) →
      pageFrames s'.mem.1 (frameNo s.proc.cur.pgd) p =
        pageFrames s.mem.1 (frameNo s.proc.cur.pgd) p := by
  have hend := mmapEnd_toNat s length (by omega)
  unfold sysMmapPgoff at hrun
  rw [if_pos hflags] at hrun
  obtain ⟨t, s₁, hget, hrest⟩ := bind_ok.mp hrun
  cases hget
  obtain ⟨⟨⟩, s₂, hmem, hrest⟩ := bind_ok.mp hrest
  obtain ⟨⟨⟩, s₃, hcur, hret⟩ := bind_ok.mp hrest
  obtain ⟨rfl, rfl⟩ := pure_ok.mp hret
  obtain ⟨c', hdirect, rfl⟩ := onMem_ok (pgAllocRange_lifts (k := 4) _ fuel _ _) h.tmp hmem
  cases hcur
  have hgrown := pgAllocRange_grows h.lowReady h.runner.cur_mem (by rw [hend]; exact hlimit) hdirect
  rw [hend] at hgrown
  exact ⟨rfl, setTask_cur _ _, hend, hgrown⟩

/-- The pages that the loop of a request comes to. -/
def GrowRequest.pages (s : Kern) : GrowRequest → Nat
  | .brk addr => (addr.toNat - s.proc.cur.brk.toNat) / 4096 + 2
  | .mmap length _ => length.toNat / 4096 + 3

/-- With two frames for each of its pages, a request returns. -/
theorem GrowState.returns (h : GrowState s) {req : GrowRequest} (hfits : req.Fits s₀ s)
    (hfree : 2 * req.pages s ≤ s.mem.1.free.card) :
    ∃ fuel r s', req.exec fuel s = .ok (r, s') := by
  have hstock : FramesFor (req.pages s) s.mem.1 := ⟨h.init, h.ready, hfree⟩
  refine ⟨req.pages s, ?_⟩
  cases req with
  | brk addr =>
    obtain ⟨hlt, hfit⟩ := hfits
    have hheap := hfit.heap
    obtain ⟨c', hdirect⟩ := taskBrk_ends s.proc.cur hlt (by omega)
      (by simp only [GrowRequest.pages]; omega) hstock
    have hmem := onMem_gives (m := fun cur => taskBrk cur _ cur.brk addr)
      (taskBrk_lifts (k := 4) _ _ _ addr) h.tmp hdirect
    exact ⟨addr, _, bind_run hmem⟩
  | mmap length flags =>
    obtain ⟨hflags, hfit⟩ := hfits
    have hmapped := hfit.mapped
    have hend := mmapEnd_toNat s length (by omega)
    obtain ⟨c', hdirect⟩ : ∃ c', Direct.pgAllocRange s.proc.cur _ s.proc.cur.mmapbrk
        (s.proc.cur.mmapbrk + length + pageSize) s.mem.1 = .ok ((), c') :=
      pgAllocRange_ends s.proc.cur (by omega) (by simp only [GrowRequest.pages]; omega) hstock
    have hmem := onMem_gives (m := fun cur => pgAllocRange cur _ s.proc.cur.mmapbrk
      (s.proc.cur.mmapbrk + length + pageSize)) (pgAllocRange_lifts (k := 4) _ _ _ _) h.tmp hdirect
    unfold GrowRequest.exec sysMmapPgoff
    dsimp only
    rw [if_pos hflags]
    have hget : (get : KernM Kern) s = .ok (s, s) := rfl
    rw [bind_run hget, bind_run hmem]
    exact ⟨_, _, rfl⟩

theorem GrowState.step (h : GrowState s) (reqs : List (GrowRequest × Word))
    {lbl : GrowRequest × Word} (hs : GrowStep s₀ s lbl s') :
    GrowState s' ∧ Areas.Step 4096 (taskSpace s₀ s reqs) lbl.1.request
      (taskSpace s₀ s' (reqs ++ [lbl])) := by
  obtain ⟨req, r⟩ := lbl
  obtain ⟨hfits, fuel, hex⟩ := hs
  cases req with
  | brk addr =>
    obtain ⟨hlt, hfit⟩ := hfits
    have hlimit : addr.toNat + 4096 ≤ kZero.toNat := by
      have := hfit.heap
      omega
    obtain ⟨hcur, hhit, hkept⟩ := sysBrk_grows h hlt hlimit hex
    refine ⟨h.effect (sysBrk_effect h.tmp hex), ?_⟩
    have hspace : taskSpace s₀ s' (reqs ++ [(.brk addr, r)]) =
        ⟨(taskSpace s₀ s reqs).layout.growHeap addr.toNat,
          pageFrames s'.mem.1 (frameNo s.proc.cur.pgd)⟩ := by
      simp [taskSpace, Layout.growHeap, regions, hcur]
    rw [hspace]
    exact .heap addr.toNat _ (Nat.le_of_lt (BitVec.lt_def.mp hlt)) hhit hkept
  | mmap length flags =>
    obtain ⟨hflags, hfit⟩ := hfits
    have hlimit : s.proc.cur.mmapbrk.toNat + length.toNat + 4096 + 4096 ≤ kZero.toNat := by
      have := hfit.mapped
      omega
    obtain ⟨rfl, hcur, hend, hhit, hkept⟩ := sysMmapPgoff_grows h hflags hlimit hex
    refine ⟨h.effect (sysMmapPgoff_effect h.tmp hex), ?_⟩
    have hspace : taskSpace s₀ s' (reqs ++ [(.mmap length flags, s.proc.cur.mmapbrk)]) =
        ⟨(taskSpace s₀ s reqs).layout.addRegion 4096 length.toNat,
          pageFrames s'.mem.1 (frameNo s.proc.cur.pgd)⟩ := by
      simp [taskSpace, Layout.addRegion, regions, hcur, hend]
    rw [hspace]
    exact .region length.toNat _ hfit.apart hhit hkept

/-- So a run of them is a run of the areas, on from any run before. -/
theorem GrowState.run (h : GrowState s) (before : List (GrowRequest × Word))
    {reqs : List (GrowRequest × Word)} (hrun : Run (GrowStep s₀) s reqs s') :
    GrowState s' ∧ Run (Areas.Step 4096) (taskSpace s₀ s before)
      (reqs.map fun lbl => lbl.1.request) (taskSpace s₀ s' (before ++ reqs)) := by
  induction hrun with
  | nil =>
    rw [List.append_nil]
    exact ⟨h, .nil⟩
  | snoc _ hstep ih =>
    obtain ⟨hstate, hareas⟩ := ih
    obtain ⟨hstate', harea⟩ := hstate.step (before ++ _) hstep
    rw [List.map_append, ← List.append_assoc]
    exact ⟨hstate', hareas.snoc harea⟩

theorem taskSpace_start (s : Kern) : (taskSpace s s []).Sound 4096 := by
  refine ⟨Nat.le_refl _, Nat.le_refl _, ?_, ?_, List.Pairwise.nil⟩
  · rintro a (⟨hlo, hhi⟩ | ⟨r, hr, -⟩)
    · exact absurd hhi (Nat.not_lt.mpr hlo)
    · cases hr
  · intro r hr
    cases hr

theorem given_iff {reqs : List (GrowRequest × Word)} {v : Word} :
    Given s₀ s reqs v ↔ (taskSpace s₀ s reqs).layout.Owns v.toNat := by
  unfold Given
  rw [BitVec.le_def, BitVec.lt_def]
  exact Iff.rfl

end Calls

/-- After the requests `reqs` of a task that began them in `s₀`: every page with a byte of the
heap or of a region is allocated, and no two regions have a byte in common. -/
structure Grown (s₀ s : Kern) (reqs : List (GrowRequest × Word)) : Prop where
  allocated : ∀ v, Given s₀ s reqs v → pgIsAllocated s.proc.cur v s.mem = .ok (true, s.mem)
  disjoint : (regions reqs).Pairwise fun r r' => ∀ a, ¬ (InRegion r a ∧ InRegion r' a)

section Tests

/-- A request, if it fits. -/
def GrowRequest.tryExec (fuel : Nat) (s₀ : Kern) (req : GrowRequest) (s : Kern) :
    Except Fault (Word × Kern) :=
  if req.Fits s₀ s then req.exec fuel s else .error .diverges

theorem growStep_of_tryExec (fuel : Nat) (s₀ : Kern) (req : GrowRequest) (s : Kern) (r : Word)
    (s' : Kern) (h : req.tryExec fuel s₀ s = .ok (r, s')) : GrowStep s₀ s (req, r) s' := by
  unfold GrowRequest.tryExec at h
  split at h
  · exact ⟨by assumption, fuel, h⟩
  · cases h

/-- `bootKern` with a break that is low enough to grow. -/
def lowBreakKern : Kern := { bootKern with proc := bootProc 0x9004#32 0x110000#32 }

theorem lowBreakKern_booted : Booted lowBreakKern :=
  ⟨⟨_, _, rfl⟩, bootKern_booted.tmp, bootKern_booted.init, bootKern_booted.dir⟩

end Tests

/-- In every run from boot, whatever a task of any directory and any two areas asks for: its heap
and its regions are mapped and apart after each request, and later requests leave the frames of
all their bytes alone. -/
theorem growth_stable (b : Kern) (hb : Booted b)
    (hstack : BootStack b.mem.1 (frameNo b.proc.cr3)) (hmmu : b.mem.1.mmuReady = true)
    (tr : List (SystemOp × Unit)) (s₀ : Kern) (hrun : Run SystemStep b tr s₀)
    (reqs : List (GrowRequest × Word)) (s : Kern) (hreqs : Run (GrowStep s₀) s₀ reqs s)
    (later : List (GrowRequest × Word)) (s' : Kern) (hlater : Run (GrowStep s₀) s later s') :
    Grown s₀ s reqs ∧
    (∀ v, Given s₀ s reqs v → translate s'.mem.1 (frameNo s'.proc.cur.pgd) v =
      translate s.mem.1 (frameNo s.proc.cur.pgd) v) ∧
    ∀ req : GrowRequest, req.Fits s₀ s → 2 * req.pages s ≤ s.mem.1.free.card →
      ∃ fuel r t, req.exec fuel s = .ok (r, t) := by
  obtain ⟨hlow, hready⟩ := run_ready (hb.lowState hstack) hmmu hrun
  have hstate : GrowState s₀ := ⟨hlow, hready⟩
  obtain ⟨hstate₁, hareas⟩ := hstate.run [] hreqs
  obtain ⟨-, hareas'⟩ := hstate₁.run reqs hlater
  obtain ⟨hsound, -⟩ := (taskSpace_start s₀).run (by decide) hareas
  obtain ⟨-, hkept⟩ := hsound.run (by decide) hareas'
  refine ⟨⟨?_, ?_⟩, ?_, fun _ => hstate₁.returns⟩
  · intro v hv
    rw [pgIsAllocated_gives (Ready.one ⟨hstate₁.tmp.maps, by
      have := hstate₁.tmp.free
      omega⟩), decide_eq_true]
    rw [allocated_iff_translate, ← pageFrames_page, Option.isSome_iff_ne_none]
    exact hsound.backed _ (given_iff.mp hv)
  · apply hsound.apart.imp
    rintro r r' hle a ⟨hin, hin'⟩
    have hlt := hin.2
    have hge := hin'.1
    omega
  · intro v hv
    have hframe := hkept.frame _ (given_iff.mp hv)
    rw [← pageFrames_page, ← pageFrames_page]
    exact hframe

/-- A child maps 5 bytes and 100 bytes, the second time in the page behind the first region, and
lets its heap grow from `0x9004` before that and after. -/
theorem growth_stable_of_child : ∃ (s₀ : Kern) (reqs : List (GrowRequest × Word)) (s s' : Kern),
    Grown s₀ s reqs ∧ regions reqs = [(0, 5), (0x1005, 100)] ∧
    translate s'.mem.1 (frameNo s'.proc.cur.pgd) 4#32 =
      translate s.mem.1 (frameNo s.proc.cur.pgd) 4#32 := by
  obtain ⟨tr, s₀, hrun, htest⟩ := exists_run (SystemOp.tryExec 4) (systemStep_of_tryExec 4)
    [.call .fork, .call (.enter 1)] lowBreakKern
    (fun _ s₀ => passes (exec (GrowRequest.tryExec 4 s₀)
      [.mmap 5#32 mapAnonymous, .brk 0x9500#32, .mmap 100#32 mapAnonymous] s₀) fun reqs s =>
        regions reqs == [(0, 5), (0x1005, 100)] &&
          passes (exec (GrowRequest.tryExec 4 s₀) [.brk 0xA001#32, .mmap 1#32 mapAnonymous] s)
            fun _ _ => true) (by decide +kernel)
  obtain ⟨reqs, s, hreqs, htest⟩ := passes_iff.mp htest
  rw [Bool.and_eq_true, beq_iff_eq] at htest
  obtain ⟨hregions, htest⟩ := htest
  obtain ⟨later, s', hlater, -⟩ := passes_iff.mp htest
  obtain ⟨hgrown, hsame, -⟩ := growth_stable lowBreakKern lowBreakKern_booted bootKern_stack rfl
    tr s₀ hrun reqs s (run_of_exec _ (growStep_of_tryExec 4 s₀) hreqs) later s'
    (run_of_exec _ (growStep_of_tryExec 4 s₀) hlater)
  refine ⟨s₀, reqs, s, s', hgrown, hregions, hsame _ (Or.inr ⟨(0, 5), ?_, ?_, ?_⟩)⟩
  · rw [hregions]
    exact List.mem_cons_self
  · decide
  · decide

end AkKernel
