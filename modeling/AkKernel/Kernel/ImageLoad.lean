import AkKernel.Kernel.ElfLoad

/-!
# The image in memory

`elf_load` allocates the pages of a segment again when they were allocated for the one before, a
page behind the segment among them. The image is in place, whatever was left in the frames, when
no page that is allocated holds what is in place already or is still to be copied.
-/

set_option autoImplicit false

namespace AkKernel

open Programs Runs

/-- The memory of the running task is the image that the file describes. -/
structure InPlace (elf : Elf) (s : Kern) : Prop where
  copied : ∀ v k, elf.Copied v k →
    byteAt s.mem.1 (frameNo s.proc.cur.pgd) v = some (elf.data (elf.fileOffset k v))
  zeros : ∀ v k, elf.InMemory v k → ¬ elf.Copied v k →
    byteAt s.mem.1 (frameNo s.proc.cur.pgd) v = some 0
  allocated : ∀ v k, elf.InMemory v k → Allocated (frameNo s.proc.cur.pgd) s.mem.1 v
  brk : s.proc.cur.brk.toNat = elf.maxEnd elf.numSegments

/-- The file is in the memory of the running task, from `elfData` on. -/
def HoldsFile (elf : Elf) (elfData : Word) (s : Kern) : Prop :=
  ∀ ofs, ofs.toNat < elf.length.toNat →
    byteAt s.mem.1 (frameNo s.proc.cur.pgd) (elfData + ofs) = some (elf.data ofs)

/-- `elf_load` of the image at `elfData`, in a state whose free frames hold `left`. -/
def loadFrom (elf : Elf) (elfData : Word) (left : Nat → Nat → Word) (fuel : Nat) (s : Kern) :
    Except Fault (Unit × Kern) :=
  elfLoad fuel elfData (elfData + elf.phdr) elf.numSegments (s.withPhys (s.mem.1.refill left))

/-- Whatever is left in the free frames (they may hold what they do in `s`), the load ends when
there are enough of them, and when it has ended the image is in place. -/
structure LoadsImage (elf : Elf) (elfData : Word) (s : Kern) : Prop where
  ends : FramesFor elf.allPages s.mem.1 → ∀ left fuel, 2 ^ 20 ≤ fuel →
    ∃ s', loadFrom elf elfData left fuel s = .ok ((), s')
  in_place : ∀ left fuel s', loadFrom elf elfData left fuel s = .ok ((), s') → InPlace elf s'

section Rounds
variable {Q : Word → UInt8 → Prop} {c c' : Phys} {d : Nat} {elf : Elf} {elfData v : Word}
  {b : UInt8} {i j k n : Nat}

/-- The first `n` segments are in place, and so is in the file what is copied for the others. -/
structure PlacedUpTo (elf : Elf) (elfData : Word) (d n : Nat) (c : Phys) : Prop where
  copied : ∀ v k, k < n → elf.Copied v k → byteAt c d v = some (elf.data (elf.fileOffset k v))
  zeros : ∀ v k, k < n → elf.InMemory v k → ¬ elf.Copied v k → byteAt c d v = some 0
  file : ∀ v k, n ≤ k → elf.Copied v k →
    byteAt c d (elfData + elf.fileOffset k v) = some (elf.data (elf.fileOffset k v))

theorem PlacedUpTo.skip (h : PlacedUpTo elf elfData d n c) (hno : ¬ elf.Load n) :
    PlacedUpTo elf elfData d (n + 1) c := by
  refine ⟨?_, ?_, fun v k hk => h.file v k (by omega)⟩
  · intro v k hk hv
    have hne : k ≠ n := fun heq => hno (heq ▸ hv.loads)
    exact h.copied v k (by omega) hv
  · intro v k hk hv
    have hne : k ≠ n := fun heq => hno (heq ▸ hv.loads)
    exact h.zeros v k (by omega) hv

/-- The pages of the next segment hold none of that. -/
theorem PlacedUpTo.step (himage : elf.Loadable elfData) (hfile : elf.FileKept elfData)
    (hsegments : elf.SegmentsKept) (hload : elf.Load n)
    (hplaced : Placed Q d elf elfData n c c') (h : PlacedUpTo elf elfData d n c) :
    PlacedUpTo elf elfData d (n + 1) c' := by
  have hsource : ∀ v k, n ≤ k → elf.Copied v k →
      byteAt c' d (elfData + elf.fileOffset k v) = some (elf.data (elf.fileOffset k v)) := by
    intro v k hk hv
    have hlt := himage.source_lt hv
    rw [hplaced.kept _ (himage.buffer_low hlt) (himage.buffer_outside hlt n)
      (hfile n k hk hload v hv)]
    exact h.file v k hk hv
  have hbefore : ∀ v k, k < n → elf.InMemory v k → byteAt c' d v = byteAt c d v := by
    intro v k hk hv
    refine hplaced.kept v (himage.low hv) ?_ (hsegments k n hk hload v hv)
    intro hin
    exact Nat.ne_of_lt hk (himage.apart v k n hv hin)
  refine ⟨?_, ?_, fun v k hk => hsource v k (by omega)⟩
  · intro v k hk hv
    rcases Nat.lt_succ_iff_lt_or_eq.mp hk with hlt | rfl
    · rw [hbefore v k hlt (himage.inMemory hv)]
      exact h.copied v k hlt hv
    · rw [hplaced.copied v hv]
      exact hsource v k (Nat.le_refl k) hv
  · intro v k hk hv hnot
    rcases Nat.lt_succ_iff_lt_or_eq.mp hk with hlt | rfl
    · rw [hbefore v k hlt hv]
      exact h.zeros v k hlt hv hnot
    · exact hplaced.zeros v hv hnot

/-- A byte of the new frames that is in no segment is the one they were left with. -/
theorem Placed.stays (hplaced : Placed Q d elf elfData k c c') (hQ : ∀ x, Q v x → x = b)
    (hv : v < kZero) (hnot : ¬ elf.InMemory v k) (h : byteAt c d v = some b) :
    byteAt c' d v = some b := by
  by_cases hpage : v.toNat / 4096 ∈ elf.pages k
  · obtain ⟨x, hx, hleft⟩ := hplaced.fresh v hv hnot hpage
    rw [hx, hQ x hleft]
  · rw [hplaced.kept v hv hnot hpage]
    exact h

/-- Segment `k` takes the page of a byte of segment `j` that was loaded before it. -/
theorem Placed.lost (himage : elf.Loadable elfData) (hj : elf.InMemory v j) (hjk : j < k)
    (hpage : v.toNat / 4096 ∈ elf.pages k)
    (hplaced : Placed Q d elf elfData n c c') (hQ : ∀ x, Q v x → x = b)
    (h : k < n → byteAt c d v = some b) : k < n + 1 → byteAt c' d v = some b := by
  intro hk
  have hv := himage.low hj
  have hnot : ¬ elf.InMemory v n := by
    intro hin
    have := himage.apart v j n hj hin
    omega
  rcases Nat.lt_succ_iff_lt_or_eq.mp hk with hlt | rfl
  · exact hplaced.stays hQ hv hnot (h hlt)
  · obtain ⟨x, hx, hleft⟩ := hplaced.fresh v hv hnot hpage
    rw [hx, hQ x hleft]

/-- Segment `k` takes the page of a byte of the file that is copied to `v`, for this segment or
for a later one. -/
theorem Placed.miscopied (himage : elf.Loadable elfData) (hi : elf.Copied v i) (hki : k ≤ i)
    (hpage : (elfData + elf.fileOffset i v).toNat / 4096 ∈ elf.pages k)
    (hplaced : Placed Q d elf elfData n c c') (hQ : ∀ a x, Q a x → x = b)
    (h : (k < n → byteAt c d (elfData + elf.fileOffset i v) = some b) ∧
      (i < n → byteAt c d v = some b)) :
    (k < n + 1 → byteAt c' d (elfData + elf.fileOffset i v) = some b) ∧
      (i < n + 1 → byteAt c' d v = some b) := by
  have hlt := himage.source_lt hi
  have hlow := himage.buffer_low hlt
  have hout := himage.buffer_outside hlt n
  have hsource : k < n + 1 → byteAt c' d (elfData + elf.fileOffset i v) = some b := by
    intro hk
    rcases Nat.lt_succ_iff_lt_or_eq.mp hk with hk' | rfl
    · exact hplaced.stays (hQ _) hlow hout (h.1 hk')
    · obtain ⟨x, hx, hleft⟩ := hplaced.fresh _ hlow hout hpage
      rw [hx, hQ _ x hleft]
  refine ⟨hsource, ?_⟩
  intro hin
  rcases Nat.lt_succ_iff_lt_or_eq.mp hin with hlt' | rfl
  · have hmem := himage.inMemory hi
    refine hplaced.stays (hQ _) (himage.low hmem) ?_ (h.2 hlt')
    intro hin'
    exact Nat.ne_of_lt hlt' (himage.apart v i n hmem hin')
  · rw [hplaced.copied v hi]
    exact hsource (by omega)

end Rounds

section Load
variable {Q : Word → UInt8 → Prop} {s s' : Kern} {elf : Elf} {elfData v : Word} {fuel : Nat}
  {left : Nat → Nat → Word} {J : Nat → Phys → Prop}

theorem Elf.Loadable.loading {ds : Set Nat} {d : Nat} {c : Phys} (himage : elf.Loadable elfData)
    (hpages : UserPages Q ds c) (hbyte : ∀ ofs, ofs.toNat < elf.length.toNat →
      byteAt c d (elfData + ofs) = some (elf.data ofs)) : Loading Q ds d elf elfData 0 c := by
  refine ⟨hpages, ?_, fun ofs ha => hbyte ofs (himage.ahead_lt ha)⟩
  intro ofs hofs
  rw [hbyte ofs hofs]
  exact nofun

/-- The start of the loop, with other contents of the free frames. -/
theorem PageState.loading (h : PageState s) (himage : elf.Loadable elfData)
    (hfile : HoldsFile elf elfData s)
    (hleft : ∀ n ∈ s.mem.1.free, ∀ v, Q v (byteOf (left n (wordIdx v)) v)) :
    Loading Q (dirs s.proc) (frameNo s.proc.cur.pgd) elf elfData 0 (s.mem.1.refill left) := by
  refine himage.loading (UserPages.refill h.init h.pages hleft) ?_
  intro ofs hofs
  rw [h.pages.refill_byteAt h.runner.cur_mem (himage.buffer_low hofs)]
  exact hfile ofs hofs

section Start
variable {c : Phys} (h : PageState s) (hl : Loaded s) (himage : elf.Loadable elfData)
  (hkept : elf.HeadersKept elfData)
  (hstart : Loading Q (dirs s.proc) (frameNo s.proc.cur.pgd) elf elfData 0 c)

include h hl himage hkept hstart

theorem elfLoad_keeps (h0 : J 0 c) (hskip : ∀ i c, ¬ elf.Load i → J i c → J (i + 1) c)
    (hstep : ∀ i c c', elf.Load i → Placed Q (frameNo s.proc.cur.pgd) elf elfData i c c' →
      J i c → J (i + 1) c')
    (hrun : elfLoad fuel elfData (elfData + elf.phdr) elf.numSegments (s.withPhys c) =
      .ok ((), s')) :
    s'.proc.cur.pgd = s.proc.cur.pgd ∧ J elf.numSegments s'.mem.1 ∧
      s'.proc.cur.brk.toNat = elf.maxEnd elf.numSegments := by
  obtain ⟨b, t, hloop, hset⟩ := bind_ok.mp hrun
  cases hset
  obtain ⟨c', rfl, -, hJ, hb⟩ := hstart.loop hl h.runner.cur_mem h.tmp himage hkept hskip hstep h0
    rfl (Nat.zero_add _) hloop
  rw [setTask_cur]
  exact ⟨rfl, hJ, hb⟩

theorem elfLoad_ends (hroom : FramesFor elf.allPages c) (hfuel : 2 ^ 20 ≤ fuel) :
    ∃ s', elfLoad fuel elfData (elfData + elf.phdr) elf.numSegments (s.withPhys c) =
      .ok ((), s') := by
  rw [Elf.allPages, Finset.range_eq_Ico] at hroom
  obtain ⟨⟨b, t⟩, hloop⟩ := hstart.loop_ends hl h.runner.cur_mem h.tmp himage hkept hfuel
    (Nat.zero_add _) hroom 0#32
  exact ⟨_, (bind_run hloop).trans rfl⟩

/-- A byte of a segment is lost when a later one takes its page. -/
theorem elfLoad_loses {b : UInt8} {j k : Nat} (hj : elf.InMemory v j) (hjk : j < k)
    (hload : elf.Load k) (hpage : v.toNat / 4096 ∈ elf.pages k) (hQ : ∀ x, Q v x → x = b)
    (hrun : elfLoad fuel elfData (elfData + elf.phdr) elf.numSegments (s.withPhys c) =
      .ok ((), s')) : byteAt s'.mem.1 (frameNo s'.proc.cur.pgd) v = some b := by
  obtain ⟨hpgd, hlast, -⟩ := elfLoad_keeps h hl himage hkept hstart
    (J := fun n c => k < n → byteAt c (frameNo s.proc.cur.pgd) v = some b)
    (fun h0 => absurd h0 (Nat.not_lt_zero k))
    (by
      intro n c hno hc hk
      have hne : k ≠ n := fun heq => hno (heq ▸ hload)
      exact hc (by omega))
    (fun n c c' _ hplaced hc => hplaced.lost himage hj hjk hpage hQ hc) hrun
  rw [hpgd]
  exact hlast hload.1

/-- A byte is copied from what was left in a frame when a segment takes the page of the file that
it is in. -/
theorem elfLoad_miscopies {b : UInt8} {i k : Nat} (hv : elf.Copied v i) (hki : k ≤ i)
    (hload : elf.Load k) (hpage : (elfData + elf.fileOffset i v).toNat / 4096 ∈ elf.pages k)
    (hQ : ∀ a x, Q a x → x = b)
    (hrun : elfLoad fuel elfData (elfData + elf.phdr) elf.numSegments (s.withPhys c) =
      .ok ((), s')) : byteAt s'.mem.1 (frameNo s'.proc.cur.pgd) v = some b := by
  obtain ⟨hpgd, ⟨-, hlast⟩, -⟩ := elfLoad_keeps h hl himage hkept hstart
    (J := fun n c =>
      (k < n → byteAt c (frameNo s.proc.cur.pgd) (elfData + elf.fileOffset i v) = some b) ∧
        (i < n → byteAt c (frameNo s.proc.cur.pgd) v = some b))
    ⟨fun h0 => absurd h0 (Nat.not_lt_zero k), fun h0 => absurd h0 (Nat.not_lt_zero i)⟩
    (by
      rintro n c hno ⟨hsource, hbyte⟩
      have hnk : k ≠ n := fun heq => hno (heq ▸ hload)
      have hni : i ≠ n := fun heq => hno (heq ▸ hv.loads)
      exact ⟨fun hk => hsource (by omega), fun hi => hbyte (by omega)⟩)
    (fun n c c' _ hplaced hc => hplaced.miscopied himage hv hki hpage hQ hc) hrun
  rw [hpgd]
  exact hlast hv.header

end Start

section Loaded
variable (h : PageState s) (hl : Loaded s) (himage : elf.Loadable elfData)
  (hfile : HoldsFile elf elfData s) (hkept : elf.HeadersKept elfData)

include h himage hfile

theorem not_loadsImage_of_left (hroom : FramesFor elf.allPages s.mem.1) {k : Nat}
    (hv : elf.InMemory v k)
    (hleft : ∀ b c fuel s', Loading (fun _ x => x = b) (dirs s.proc) (frameNo s.proc.cur.pgd) elf
      elfData 0 c → elfLoad fuel elfData (elfData + elf.phdr) elf.numSegments (s.withPhys c) =
        .ok ((), s') → byteAt s'.mem.1 (frameNo s'.proc.cur.pgd) v = some b) :
    ¬ LoadsImage elf elfData s := by
  intro himg
  -- a byte that should not be at `v`
  obtain ⟨b, hb⟩ : ∃ b : UInt8, ∀ s', InPlace elf s' →
      byteAt s'.mem.1 (frameNo s'.proc.cur.pgd) v ≠ some b := by
    by_cases hc : elf.Copied v k
    · refine ⟨elf.data (elf.fileOffset k v) + 1, fun s' hs' heq => ?_⟩
      rw [hs'.copied v k hc, Option.some.injEq] at heq
      exact absurd heq (by simp)
    · refine ⟨1, fun s' hs' heq => ?_⟩
      rw [hs'.zeros v k hv hc, Option.some.injEq] at heq
      exact absurd heq (by decide)
  obtain ⟨s', hrun⟩ := himg.ends hroom (fun _ _ => fillWord b) (2 ^ 20) (Nat.le_refl _)
  have hstart : Loading (fun _ x => x = b) (dirs s.proc) (frameNo s.proc.cur.pgd) elf elfData 0
      (s.mem.1.refill fun _ _ => fillWord b) :=
    h.loading himage hfile fun _ _ v => byteOf_fillWord b v
  exact hb s' (himg.in_place _ _ s' hrun) (hleft b _ _ s' hstart hrun)

include hl hkept

theorem loadsImage_of_kept (hcopied : elf.FileKept elfData) (hsegments : elf.SegmentsKept) :
    LoadsImage elf elfData s := by
  have hstart : ∀ left, Loading (fun _ _ => True) (dirs s.proc) (frameNo s.proc.cur.pgd) elf
      elfData 0 (s.mem.1.refill left) :=
    fun left => h.loading himage hfile fun _ _ _ => trivial
  constructor
  · intro hroom left fuel hfuel
    exact elfLoad_ends h hl himage hkept (hstart left) ⟨hroom.init, hroom.ready, hroom.room⟩ hfuel
  intro left fuel s' hrun
  obtain ⟨hpgd, hJ, hbrk⟩ := elfLoad_keeps h hl himage hkept (hstart left)
    (J := PlacedUpTo elf elfData (frameNo s.proc.cur.pgd))
    (by
      refine ⟨nofun, nofun, ?_⟩
      intro v k _ hv
      have hlt := himage.source_lt hv
      rw [h.pages.refill_byteAt h.runner.cur_mem (himage.buffer_low hlt)]
      exact hfile _ hlt)
    (fun i c hno hc => hc.skip hno)
    (fun i c c' hload hplaced hc => hc.step himage hcopied hsegments hload hplaced) hrun
  rw [← hpgd] at hJ
  have hsome : ∀ v k, elf.InMemory v k →
      byteAt s'.mem.1 (frameNo s'.proc.cur.pgd) v ≠ none := by
    intro v k hv
    by_cases hc : elf.Copied v k
    · rw [hJ.copied v k hv.header hc]
      exact nofun
    · rw [hJ.zeros v k hv.header hv hc]
      exact nofun
  refine ⟨fun v k hv => hJ.copied v k hv.header hv, fun v k hv => hJ.zeros v k hv.header hv, ?_,
    hbrk⟩
  intro v k hv
  rw [allocated_iff_translate, Option.isSome_iff_exists]
  exact byteAt_ne_none.mp (hsome v k hv)

theorem kept_of_loadsImage (hroom : FramesFor elf.allPages s.mem.1)
    (himg : LoadsImage elf elfData s) : elf.FileKept elfData ∧ elf.SegmentsKept := by
  constructor
  · intro k i hki hload v hv hpage
    refine not_loadsImage_of_left h himage hfile hroom (himage.inMemory hv) ?_ himg
    intro b c fuel s' hstart hrun
    exact elfLoad_miscopies h hl himage hkept hstart hv hki hload hpage (fun _ _ hx => hx) hrun
  · intro j k hjk hload v hv hpage
    refine not_loadsImage_of_left h himage hfile hroom hv ?_ himg
    intro b c fuel s' hstart hrun
    exact elfLoad_loses h hl himage hkept hstart hv hjk hload hpage (fun _ hx => hx) hrun

end Loaded

end Load

/-- In every run from boot, with a file in the memory of the running task: when no page that is
allocated for a segment holds what is in place or still to be read, the image is loaded; when the
program headers are kept, only then. -/
theorem loadsImage_iff (s₀ : Kern) (h₀ : Booted s₀)
    (hstack : BootStack s₀.mem.1 (frameNo s₀.proc.cr3))
    (hown : StackOwned s₀.mem.1 (frameNo s₀.proc.cr3)) (tr : List (SystemOp × Unit)) (s : Kern)
    (hrun : Run SystemStep s₀ tr s) (hl : Loaded s) (elf : Elf) (elfData : Word)
    (himage : elf.Loadable elfData) (hfile : HoldsFile elf elfData s) :
    (elf.HeadersKept elfData ∧ elf.FileKept elfData ∧ elf.SegmentsKept →
      LoadsImage elf elfData s) ∧
    (elf.HeadersKept elfData → FramesFor elf.allPages s.mem.1 → LoadsImage elf elfData s →
      elf.FileKept elfData ∧ elf.SegmentsKept) := by
  have h : PageState s := run_pageState (h₀.pageState hstack hown) hrun
  constructor
  · rintro ⟨hkept, hcopied, hsegments⟩
    exact loadsImage_of_kept h hl himage hfile hkept hcopied hsegments
  · intro hkept hroom himg
    exact kept_of_loadsImage h hl himage hfile hkept hroom himg

section Tests

/-- An executable of two segments, each with the first byte of the file. The first is loaded at
`0x5000`. -/
def twoSegmentsFile (vaddr : UInt8 × UInt8) : List UInt8 :=
  [0x7F, 0x45, 0x4C, 0x46, 1, 1, 1, 0, 0, 0, 0, 0, 0, 0, 0, 0,
    2, 0, 3, 0, 1, 0, 0, 0, 0, 0x50, 0, 0, 52, 0, 0, 0, 0, 0, 0, 0,
    0, 0, 0, 0, 52, 0, 32, 0, 2, 0, 40, 0, 0, 0, 0, 0,
    1, 0, 0, 0, 0, 0, 0, 0, 0, 0x50, 0, 0, 0, 0, 0, 0,
    1, 0, 0, 0, 1, 0, 0, 0, 0, 0, 0, 0, 0, 0, 0, 0,
    1, 0, 0, 0, 0, 0, 0, 0, vaddr.1, vaddr.2, 0, 0, 0, 0, 0, 0,
    1, 0, 0, 0, 1, 0, 0, 0, 0, 0, 0, 0, 0, 0, 0, 0]

/-- What `elf_read` makes of it. -/
def twoSegments (vaddr : UInt8 × UInt8) : Elf where
  data := fileData (twoSegmentsFile vaddr) fun _ => 0
  length := 116#32
  shdr := 0#32
  phdr := 52#32
  symtab := 0x30002#32
  numSegments := 2
  numSections := 0
  numSymbols := 0
  secStrtab := 0
  secShstrtab := 0

/-- The executable form of a step in which the running task's directory is loaded. -/
def SystemOp.tryLoaded (fuel : Nat) (op : SystemOp) (s : Kern) : Except Fault (Unit × Kern) :=
  match op with
  | .request r => if s.proc.cr3 = s.proc.cur.pgd then r.tryExec fuel s else .error .diverges
  | op => op.tryExec fuel s

theorem systemStep_of_tryLoaded (fuel : Nat) (op : SystemOp) (s : Kern) (u : Unit) (s' : Kern)
    (h : op.tryLoaded fuel s = .ok (u, s')) : SystemStep s (op, u) s' := by
  unfold SystemOp.tryLoaded at h
  split at h
  · split at h
    · rename_i hl
      exact ⟨hl, requestStep_of_tryExec fuel _ s u s' h⟩
    · cases h
  · exact systemStep_of_tryExec fuel _ s u s' h

section TwoSegments
variable {vaddr : UInt8 × UInt8} {k : Nat} {v ofs : Word}

theorem elfParse_twoSegments : elfParse (twoSegments vaddr) 0 = .ok (twoSegments vaddr) := by
  have hheader : elfReadHeader (twoSegments vaddr) = .ok () := by
    simp [elfReadHeader, kassert, elfHalf, Bytes.read16, twoSegments, fileData, twoSegmentsFile]
    rfl
  have hshdr : elfReadShdr (twoSegments vaddr) = .ok (twoSegments vaddr) := by
    simp [elfReadShdr, elfGetSectionByName, elfSectionLoop, elfWord, elfHalf, Bytes.read16,
      twoSegments, fileData, twoSegmentsFile]
    rfl
  -- there are no sections, and what is taken for the symbol table lies in the header
  have hoffset : (twoSegments vaddr).shOffset 0 = 0x30002#32 := by
    simp [Elf.shOffset, Elf.shdrAt, elfWord, Bytes.read16, twoSegments, fileData, twoSegmentsFile]
  have hsize : (twoSegments vaddr).shSize 0 = 1#32 := by
    simp [Elf.shSize, Elf.shdrAt, elfWord, Bytes.read16, twoSegments, fileData, twoSegmentsFile]
  have hsymtab : elfReadSymtab (twoSegments vaddr) 0 = .ok (twoSegments vaddr) := by
    change Except.ok { twoSegments vaddr with
      symtab := (twoSegments vaddr).shOffset 0
      numSymbols := ((twoSegments vaddr).shSize 0).toNat / 16 } = _
    rw [hoffset, hsize]
    rfl
  have hphdr : elfReadPhdr (twoSegments vaddr) = twoSegments vaddr := by
    simp [elfReadPhdr, elfWord, elfHalf, Bytes.read16, twoSegments, fileData, twoSegmentsFile]
  rw [elfParse_steps hheader hshdr hsymtab, hphdr]

theorem twoSegments_header (hk : k < 2) : (twoSegments vaddr).Load k ∧
    (twoSegments vaddr).phOffset k = 0#32 ∧ (twoSegments vaddr).phFilesz k = 1#32 ∧
      (twoSegments vaddr).phMemsz k = 1#32 := by
  have hall : (twoSegments vaddr).phType k = ptLoad ∧ (twoSegments vaddr).phOffset k = 0#32 ∧
      (twoSegments vaddr).phFilesz k = 1#32 ∧ (twoSegments vaddr).phMemsz k = 1#32 := by
    rcases Nat.lt_succ_iff_lt_or_eq.mp hk with h | rfl
    · obtain rfl : k = 0 := by omega
      simp [twoSegments, Elf.phType, Elf.phOffset, Elf.phFilesz, Elf.phMemsz, Elf.phdrAt, elfWord,
        Bytes.read16, ptLoad, fileData, twoSegmentsFile]
    · simp [twoSegments, Elf.phType, Elf.phOffset, Elf.phFilesz, Elf.phMemsz, Elf.phdrAt, elfWord,
        Bytes.read16, ptLoad, fileData, twoSegmentsFile]
  exact ⟨⟨hk, hall.1⟩, hall.2⟩

theorem twoSegments_vaddr : (twoSegments vaddr).phVaddr 0 = 0x5000#32 ∧
    (twoSegments vaddr).phVaddr 1 =
      BitVec.ofNat 32 (vaddr.1.toNat + 256 * vaddr.2.toNat) := by
  simp [twoSegments, Elf.phVaddr, Elf.phdrAt, elfWord, Bytes.read16, fileData, twoSegmentsFile]

theorem twoSegments_inMemory : (twoSegments vaddr).InMemory v k ↔
    k < 2 ∧ v = (twoSegments vaddr).phVaddr k := by
  constructor
  · intro hv
    have hk : k < 2 := hv.header
    have hle := BitVec.le_def.mp hv.from_start
    have hwithin := hv.within
    rw [(twoSegments_header hk).2.2.2] at hwithin
    have h1 : (1#32 : Word).toNat = 1 := rfl
    exact ⟨hk, BitVec.eq_of_toNat_eq (by omega)⟩
  · rintro ⟨hk, rfl⟩
    refine ⟨hk, (twoSegments_header hk).1.2, BitVec.le_refl _, ?_⟩
    rw [(twoSegments_header hk).2.2.2]
    exact Nat.lt_succ_self _

section Above
variable (habove : 0x5000 < ((twoSegments vaddr).phVaddr 1).toNat)

include habove

theorem twoSegments_above (hk : k < 2) : 0x5000 ≤ ((twoSegments vaddr).phVaddr k).toNat := by
  rcases Nat.lt_succ_iff_lt_or_eq.mp hk with h | rfl
  · obtain rfl : k = 0 := by omega
    rw [twoSegments_vaddr.1]
    decide
  · exact Nat.le_of_lt habove

theorem twoSegments_loadable (hlow : ((twoSegments vaddr).phVaddr 1).toNat < 0xBFFF0000) :
    (twoSegments vaddr).Loadable 0#32 := by
  have h1 : (1#32 : Word).toNat = 1 := rfl
  have h116 : (twoSegments vaddr).length.toNat = 116 := rfl
  have h0 : (0#32 : Word).toNat = 0 := rfl
  have hz : kZero.toNat = 3221225472 := rfl
  have hs : kStackPage.toNat = 3221221376 := rfl
  refine ⟨Nat.le_refl 116, by rw [h0, h116, hs]; decide, ?_, ?_, ?_, ?_, ?_, ?_⟩
  · rintro k hload ⟨-, hlt⟩
    have hk : k < 2 := hload.1
    have hstart : ((twoSegments vaddr).phVaddr k).toNat < 0xBFFF0000 := by
      rcases Nat.lt_succ_iff_lt_or_eq.mp hk with h | rfl
      · obtain rfl : k = 0 := by omega
        rw [twoSegments_vaddr.1]
        decide
      · exact hlow
    rw [Elf.limAddr, (twoSegments_header hk).2.2.2, BitVec.toNat_add, h1, hs] at hlt
    omega
  · intro k hload
    have hk : k < 2 := hload.1
    rw [(twoSegments_header hk).2.2.1, (twoSegments_header hk).2.2.2]
  · intro k hload
    have hk : k < 2 := hload.1
    rw [(twoSegments_header hk).2.1, (twoSegments_header hk).2.2.1, h0, h1, h116]
    decide
  · intro k hload
    have hk : k < 2 := hload.1
    rw [(twoSegments_header hk).2.2.2, h1]
    rcases Nat.lt_succ_iff_lt_or_eq.mp hk with h | rfl
    · obtain rfl : k = 0 := by omega
      rw [twoSegments_vaddr.1]
      decide
    · exact Nat.lt_trans hlow (by decide)
  · intro v j k hj hk
    obtain ⟨hj, rfl⟩ := twoSegments_inMemory.mp hj
    obtain ⟨hk, heq⟩ := twoSegments_inMemory.mp hk
    by_contra hne
    have hsame := congrArg BitVec.toNat heq
    have h5000 : ((twoSegments vaddr).phVaddr 0).toNat = 0x5000 := by
      rw [twoSegments_vaddr.1]
      rfl
    rcases Nat.lt_or_gt_of_ne hne with hlt | hlt
    · obtain ⟨rfl, rfl⟩ : j = 0 ∧ k = 1 := by omega
      omega
    · obtain ⟨rfl, rfl⟩ : k = 0 ∧ j = 1 := by omega
      omega
  · rintro v k hv ⟨-, hlt⟩
    obtain ⟨hk, rfl⟩ := twoSegments_inMemory.mp hv
    have := twoSegments_above habove hk
    rw [h0, h116] at hlt
    omega

theorem twoSegments_filePage (hload : (twoSegments vaddr).Load k) (hofs : ofs.toNat < 116) :
    (0#32 + ofs).toNat / 4096 ∉ (twoSegments vaddr).pages k := by
  rintro ⟨hle, -⟩
  have := twoSegments_above habove hload.1
  rw [BitVec.zero_add] at hle
  omega

theorem twoSegments_kept (hlow : ((twoSegments vaddr).phVaddr 1).toNat < 0xBFFF0000) :
    (twoSegments vaddr).HeadersKept 0#32 ∧ (twoSegments vaddr).FileKept 0#32 := by
  have himage := twoSegments_loadable habove hlow
  exact ⟨fun k hload ofs hofs => twoSegments_filePage habove hload (himage.ahead_lt
    (hofs.ahead hload)), fun k i _ hload v hv =>
      twoSegments_filePage habove hload (himage.source_lt hv)⟩

end Above

end TwoSegments

/-- The executable forms of what a task needs to load `twoSegments`: memory for the file at address
0, zeros at the start of the free frames, and frames for four pages with their tables. -/
def readyToLoad (s : Kern) : Bool :=
  s.proc.cur.pid != kernelPid && s.proc.cr3 == s.proc.cur.pgd &&
    (List.range 116).all (fun i =>
      (byteAt s.mem.1 (frameNo s.proc.cur.pgd) (0#32 + BitVec.ofNat 32 i)).isSome) &&
    decide (∀ n ∈ s.mem.1.free, s.mem.1.mem n 0 = 0#32) && s.mem.1.mmuReady &&
      decide (8 ≤ s.mem.1.free.card)

/-- A child maps memory at address 0 and puts the bytes of the file there. -/
theorem twoSegments_inFile (vaddr : UInt8 × UInt8) : ∃ tr s, Run SystemStep bootKern tr s ∧
    s.proc.cur.pid ≠ kernelPid ∧ Loaded s ∧ HoldsFile (twoSegments vaddr) 0#32 s ∧
      FramesFor 4 s.mem.1 ∧ Leftover (fun v x => v = 0x5000#32 → x = 0) s.mem.1 := by
  obtain ⟨tr, s, hrun, htest⟩ := exists_run (SystemOp.tryLoaded 8) (systemStep_of_tryLoaded 8)
    [.call .fork, .call (.enter 1), .request (.mmap 0x1000#32 mapAnonymous)] bootKern
    (fun _ s => readyToLoad s) (by decide +kernel)
  unfold readyToLoad at htest
  rw [Bool.and_eq_true, Bool.and_eq_true, Bool.and_eq_true, Bool.and_eq_true, Bool.and_eq_true,
    bne_iff_ne, beq_iff_eq, List.all_eq_true, decide_eq_true_iff, decide_eq_true_iff] at htest
  obtain ⟨⟨⟨⟨⟨hpid, hl⟩, hmapped⟩, hzero⟩, hready⟩, hroom⟩ := htest
  have h : PageState s :=
    run_pageState (bootKern_booted.pageState bootKern_stack bootKern_stackOwned) hrun
  have hleft : Leftover (fun v x => v = 0x5000#32 → x = 0) s.mem.1 := by
    rintro n hn v rfl
    have hidx : wordIdx 0x5000#32 = 0 := rfl
    rw [hidx, hzero n hn]
    rfl
  obtain ⟨tr', c', hrun', hpages, hw⟩ := stores_written (n := 116) hl h.runner.cur_mem hrun
    ⟨h.init, h.pages, hleft⟩ (by decide)
    (fun i hi => Option.ne_none_iff_isSome.mpr (hmapped i (List.mem_range.mpr hi)))
    fun i => (twoSegments vaddr).data (BitVec.ofNat 32 i)
  refine ⟨tr', s.withPhys c', hrun', hpid, hl, ?_, hw.frames 4 ⟨h.init, hready, hroom⟩,
    hpages.left⟩
  intro ofs hofs
  have hbyte := hw.inside ofs.toNat hofs
  rw [BitVec.ofNat_toNat, BitVec.setWidth_eq] at hbyte
  exact hbyte

end Tests

/-- A child loads two segments that begin in different pages. -/
theorem loadsImage_of_child : ∃ tr s, Run SystemStep bootKern tr s ∧ s.proc.cur.pid ≠ kernelPid ∧
    HoldsFile (twoSegments (0, 0x80)) 0#32 s ∧ LoadsImage (twoSegments (0, 0x80)) 0#32 s := by
  obtain ⟨tr, s, hrun, hpid, hl, hfile, -, -⟩ := twoSegments_inFile (0, 0x80)
  have habove : 0x5000 < ((twoSegments (0, 0x80)).phVaddr 1).toNat := by
    rw [twoSegments_vaddr.2]
    decide
  have hlow : ((twoSegments (0, 0x80)).phVaddr 1).toNat < 0xBFFF0000 := by
    rw [twoSegments_vaddr.2]
    decide
  obtain ⟨hheaders, hcopied⟩ := twoSegments_kept habove hlow
  have hsegments : (twoSegments (0, 0x80)).SegmentsKept := by
    rintro j k hjk hload v hv ⟨hle, -⟩
    obtain ⟨hj, rfl⟩ := twoSegments_inMemory.mp hv
    have hk : k < 2 := hload.1
    obtain ⟨rfl, rfl⟩ : j = 0 ∧ k = 1 := by omega
    rw [twoSegments_vaddr.1, twoSegments_vaddr.2] at hle
    exact absurd hle (by decide)
  refine ⟨tr, s, hrun, hpid, hfile, ?_⟩
  exact (loadsImage_iff bootKern bootKern_booted bootKern_stack bootKern_stackOwned tr s hrun hl
    (twoSegments (0, 0x80)) 0#32 (twoSegments_loadable habove hlow) hfile).1
      ⟨hheaders, hcopied, hsegments⟩

/-- A child loads a segment at `0x5000` and another at `0x5010`: the first one is lost. -/
theorem not_inPlace_shared : ∃ tr s s', Run SystemStep bootKern tr s ∧ Loaded s ∧
    elfParse (twoSegments (0x10, 0x50)) 0 = .ok (twoSegments (0x10, 0x50)) ∧
    (twoSegments (0x10, 0x50)).Ascending ∧ (twoSegments (0x10, 0x50)).Loadable 0#32 ∧
    HoldsFile (twoSegments (0x10, 0x50)) 0#32 s ∧
    elfLoad (2 ^ 20) 0#32 (0#32 + (twoSegments (0x10, 0x50)).phdr)
      (twoSegments (0x10, 0x50)).numSegments s = .ok ((), s') ∧
    ¬ InPlace (twoSegments (0x10, 0x50)) s' := by
  obtain ⟨tr, s, hrun, -, hl, hfile, hroom, hleft⟩ := twoSegments_inFile (0x10, 0x50)
  have h : PageState s :=
    run_pageState (bootKern_booted.pageState bootKern_stack bootKern_stackOwned) hrun
  have hvaddr : (twoSegments (0x10, 0x50)).phVaddr 1 = 0x5010#32 := by
    rw [twoSegments_vaddr.2]
    rfl
  have habove : 0x5000 < ((twoSegments (0x10, 0x50)).phVaddr 1).toNat := by
    rw [hvaddr]
    decide
  have hlow : ((twoSegments (0x10, 0x50)).phVaddr 1).toNat < 0xBFFF0000 := by
    rw [hvaddr]
    decide
  have himage := twoSegments_loadable habove hlow
  obtain ⟨hheaders, -⟩ := twoSegments_kept habove hlow
  have hfirst : (twoSegments (0x10, 0x50)).InMemory 0x5000#32 0 :=
    twoSegments_inMemory.mpr ⟨by decide, twoSegments_vaddr.1.symm⟩
  have hsecond : (twoSegments (0x10, 0x50)).Load 1 := (twoSegments_header (by decide)).1
  have hlim : ∀ k < 2, (twoSegments (0x10, 0x50)).limAddr k =
      (twoSegments (0x10, 0x50)).phVaddr k + 1#32 := by
    intro k hk
    rw [Elf.limAddr, (twoSegments_header hk).2.2.2]
  have hpage : (0x5000#32 : Word).toNat / 4096 ∈ (twoSegments (0x10, 0x50)).pages 1 := by
    unfold Elf.pages
    rw [hlim 1 (by decide), hvaddr]
    exact ⟨by decide, by decide⟩
  have hpages : (twoSegments (0x10, 0x50)).allPages = 4 := by
    change ∑ k ∈ Finset.range 2, (twoSegments (0x10, 0x50)).pageRounds k = 4
    rw [Finset.sum_range_succ, Finset.sum_range_one, Elf.pageRounds, Elf.pageRounds,
      if_pos hfirst.loads, if_pos hsecond, hlim 0 (by decide), hlim 1 (by decide),
      twoSegments_vaddr.1, hvaddr]
    rfl
  have hstart := himage.loading ⟨h.init, h.pages, hleft⟩ hfile
  obtain ⟨s', hload⟩ := elfLoad_ends h hl himage hheaders hstart
    (by rw [hpages]; exact hroom) (Nat.le_refl _)
  refine ⟨tr, s, s', hrun, hl, elfParse_twoSegments, ?_, himage, hfile, hload, ?_⟩
  · intro j k hjk hj hk
    have hk' : k < 2 := hk.1
    obtain ⟨rfl, rfl⟩ : j = 0 ∧ k = 1 := by omega
    rw [twoSegments_vaddr.1, hvaddr]
    decide
  · intro hin
    have hlost := elfLoad_loses h hl himage hheaders hstart hfirst (by decide) hsecond hpage
      (fun x hx => hx rfl) hload
    have hbyte := hin.copied 0x5000#32 0 ⟨hfirst.header, hfirst.load, hfirst.from_start, by
      rw [twoSegments_vaddr.1, (twoSegments_header (by decide)).2.2.1]
      decide⟩
    rw [hlost, Elf.fileOffset, (twoSegments_header (by decide)).2.1,
      twoSegments_vaddr.1] at hbyte
    exact absurd hbyte (by decide)

end AkKernel
