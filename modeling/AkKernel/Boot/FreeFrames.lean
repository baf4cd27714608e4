import AkKernel.Boot.MemoryMap

/-!
# The frames that boot leaves free

When the bitmap offers only memory that the memory map lists as available, and when the
initial ramdisk is safe whatever the order of the tags.
-/

set_option autoImplicit false

namespace AkKernel.Boot

/-- The frames that the bitmap has as free. -/
def free (s : Boot) : Finset Nat :=
  match s.frames with
  | some b => b.free
  | none => ∅

/-- The frames that the bitmap of `frame_alloc_init` has a bit for. -/
def initialCovered (tags : List Tag) : Nat :=
  match initialFrames tags with
  | some b => b.covered
  | none => 0

/-- A region that is listed as available has byte `x`. -/
def Listed (tags : List Tag) (x : Nat) : Prop :=
  ∃ r ∈ tags.flatMap Tag.entries,
    r.type = memoryAvailable ∧ r.addr.toNat ≤ x ∧ x < r.addr.toNat + r.len.toNat

/-- All bytes of frame `n` are listed. -/
def Usable (tags : List Tag) (n : Nat) : Prop := ∀ x, x / 4096 = n → Listed tags x

def Tag.Overlaps (n : Nat) : Tag → Prop
  | .module modStart modEnd _ _ =>
    modStart < modEnd ∧ n * 4096 < modEnd.toNat ∧ modStart.toNat < (n + 1) * 4096
  | _ => False

def InModule (tags : List Tag) (n : Nat) : Prop := ∃ t ∈ tags, t.Overlaps n

instance (n : Nat) (t : Tag) : Decidable (t.Overlaps n) :=
  match t with
  | .module .. => inferInstanceAs (Decidable (_ ∧ _))
  | .basicMeminfo .. => inferInstanceAs (Decidable False)
  | .mmap .. => inferInstanceAs (Decidable False)
  | .other .. => inferInstanceAs (Decidable False)

instance (tags : List Tag) (n : Nat) : Decidable (InModule tags n) :=
  inferInstanceAs (Decidable (∃ t ∈ tags, _))

/-- `frame_set_range(0, brk)`, `brk` being that of the kernel task. -/
def brkSweep (brk : Word) : Sweep := ⟨0#32, brk - kZero, true⟩

section Frames
variable {info info₁ info₂ : Info} {mbInfo brk : Word} {tags tags₁ tags₂ : List Tag}
  {ws : List Sweep} {w : Sweep} {s t : Boot} {x : Option Boot} {n : Nat}

theorem mem_free : n ∈ s.free ↔ n < s.covered ∧ s.used n = false := by
  unfold free covered used
  cases s.frames with
  | none => simp
  | some b => exact FrameBitmap.mem_free

theorem covered_le (h : s.covered ≤ n) : s.used n = true := by
  unfold covered at h
  unfold used
  cases hf : s.frames with
  | none => rfl
  | some b =>
    rw [hf] at h
    have hlen : b.words.length ≤ n / 32 := (Nat.le_div_iff_mul_le (by decide)).mpr h
    dsimp only
    rw [FrameBitmap.used, Bitmap.test, List.getElem?_eq_none hlen]

theorem frameAllocInit_used (memMax : Word) (n : Nat) : (frameAllocInit memMax).used n = true := by
  have hall : ∀ k < 32, (0xFFFFFFFF#32 : Word).getLsbD k = true := by decide
  rw [FrameBitmap.used, Bitmap.test, frameAllocInit]
  dsimp only
  rw [List.getElem?_replicate]
  by_cases h : n / 32 < frameNo memMax / 32
  · rw [if_pos h]
    exact hall _ (Nat.mod_lt n (by decide))
  · rw [if_neg h]

theorem initial_used (hs : s.frames = initialFrames tags) : s.used n = true := by
  unfold used
  rw [hs, initialFrames]
  cases tags.findSome? Tag.memUpper with
  | none => rfl
  | some memUpper => exact frameAllocInit_used _ n

theorem initial_covered (hs : s.frames = initialFrames tags) : s.covered = initialCovered tags := by
  have hcovered : s.covered = covered { s with frames := initialFrames tags } := by rw [← hs]
  exact hcovered

/-- A state of boot whose bitmap is what sweeps make of the first loop's. -/
def Swept (tags : List Tag) (ws : List Sweep) (x : Option Boot) : Prop :=
  ∃ s, s.frames = initialFrames tags ∧ x.map frames = (sweepAll ws s).map frames

theorem Swept.isSome (h : Swept tags ws x) : x.isSome ↔ ∀ w ∈ ws, w.Ends := by
  obtain ⟨s, -, hx⟩ := h
  rw [← sweepAll_isSome (s := s), ← Option.isSome_map (f := frames), hx, Option.isSome_map]

theorem Swept.count (h : Swept tags ws (some t)) :
    t.frames.map FrameBitmap.frameCount = (initialFrames tags).map FrameBitmap.frameCount := by
  obtain ⟨s, hs, hx⟩ := h
  obtain ⟨s', hs', hframes⟩ := Option.map_eq_some_iff.mp hx.symm
  have hcount := sweepAll_count hs'
  rw [Boot.count, Boot.count, hs, hframes] at hcount
  exact hcount

theorem Swept.covered (h : Swept tags ws (some t)) : t.covered = initialCovered tags := by
  have hcount : t.count = Boot.count { t with frames := initialFrames tags } := h.count
  rw [covered_of_count hcount]
  exact initial_covered rfl

theorem Swept.mem_free (h : Swept tags ws (some t)) :
    n ∈ t.free ↔ n < initialCovered tags ∧ Exposed ws n := by
  rw [Boot.mem_free, h.covered]
  obtain ⟨s, hs, hx⟩ := h
  obtain ⟨s', hs', hframes⟩ := Option.map_eq_some_iff.mp hx.symm
  have hused : t.used n = s'.used n := by
    rw [used, used, hframes]
  rw [hused]
  constructor
  · intro h
    have hn : n < s.covered := by
      rw [initial_covered hs]
      exact h.1
    refine ⟨h.1, ?_⟩
    have := (sweepAll_used hs' hn).mp h.2
    rw [initial_used hs] at this
    simpa using this
  · intro h
    have hn : n < s.covered := by
      rw [initial_covered hs]
      exact h.1
    exact ⟨h.1, (sweepAll_used hs' hn).mpr (Or.inl h.2)⟩

theorem Swept.used (h : Swept tags ws (some t)) :
    t.used n = true ↔ ¬ (n < initialCovered tags ∧ Exposed ws n) := by
  rw [← h.mem_free, Boot.mem_free]
  by_cases hn : n < t.covered
  · simp [hn]
  · simp [hn, covered_le (Nat.not_lt.mp hn)]

theorem multibootMmap_swept (h : Image info mbInfo tags) :
    Swept tags (sweeps info (mbInfo + 8#32) tags) (multibootMmap info mbInfo reset) :=
  multibootMmap_frames h

theorem archInit_swept (h : Image info mbInfo tags) :
    Swept tags (sweeps info (mbInfo + 8#32) tags ++ [brkSweep brk])
      (archInit info mbInfo brk reset) := by
  obtain ⟨s, hs, hx⟩ := multibootMmap_swept h
  refine ⟨s, hs, ?_⟩
  have hbrk : ∀ s, frameSetRange 0#32 (brk - kZero) s = sweepAll [brkSweep brk] s := by
    intro s
    rw [sweepAll_singleton, Sweep.run, brkSweep, if_pos rfl]
  rw [archInit, sweepAll_append]
  cases hm : multibootMmap info mbInfo reset with
  | none =>
    rw [hm] at hx
    rw [Option.map_eq_none_iff.mp hx.symm, Option.bind_none, Option.bind_none]
  | some t =>
    rw [hm] at hx
    obtain ⟨t', ht', hframes⟩ := Option.map_eq_some_iff.mp hx.symm
    rw [ht', Option.bind_some, Option.bind_some, hbrk]
    exact sweepAll_congr hframes.symm

theorem exposed_append_reserve (hw : w.reserve = true) :
    Exposed (ws ++ [w]) n ↔ Exposed ws n ∧ ¬ w.Reaches n := by
  induction ws with
  | nil => simp [Exposed, hw]
  | cons v ws ih =>
    rw [List.cons_append, Exposed, Exposed, ih, List.forall_mem_append, List.forall_mem_singleton]
    simp only [hw, true_imp_iff]
    rw [or_and_right, and_assoc, and_assoc]

theorem brkSweep_toNat (hlow : kZero ≤ brk) (htop : brk < kTmpMem) :
    (brk - kZero).toNat < 2 ^ 30 ∧ (brkSweep brk).limit = (brk - kZero).toNat + 4096 := by
  have hlt : (brk - kZero).toNat < 2 ^ 30 := by
    have hz : kZero.toNat = 0xC0000000 := by decide
    have ht : kTmpMem.toNat = 0xFFC00000 := by decide
    have hb : brk.toNat < kTmpMem.toNat := htop
    rw [BitVec.toNat_sub_of_le hlow]
    omega
  refine ⟨hlt, ?_⟩
  rw [Sweep.limit, brkSweep, BitVec.toNat_add]
  change ((brk - kZero).toNat + 4096) % 2 ^ 32 = _
  omega

theorem brkSweep_ends (hlow : kZero ≤ brk) (htop : brk < kTmpMem) : (brkSweep brk).Ends := by
  obtain ⟨hlt, hlimit⟩ := brkSweep_toNat hlow htop
  rw [Sweep.Ends, hlimit]
  omega

theorem brkSweep_reaches (hlow : kZero ≤ brk) (htop : brk < kTmpMem) :
    (brkSweep brk).Reaches n ↔ n * 4096 < (brk - kZero).toNat + 4096 := by
  obtain ⟨-, hlimit⟩ := brkSweep_toNat hlow htop
  rw [Sweep.Reaches, hlimit]
  change 0 / 4096 ≤ n ∧ n * 4096 + 0 % 4096 < _ ↔ _
  omega

/-- Whatever the memory map says, `arch_init` leaves no frame free that begins below `brk`. -/
theorem archInit_reserves {b : FrameBitmap} (h : archInit info mbInfo brk s = some t)
    (hb : t.frames = some b) (hlow : kZero ≤ brk) (htop : brk < kTmpMem)
    (hn : n * 4096 < (brk - kZero).toNat) : n ∉ b.free := by
  obtain ⟨u, -, hsweep⟩ := Option.bind_eq_some_iff.mp h
  have hrun : sweepAll [brkSweep brk] u = some t := by
    rw [sweepAll_singleton, Sweep.run, brkSweep, if_pos rfl]
    exact hsweep
  have hreach : (brkSweep brk).Reaches n := (brkSweep_reaches hlow htop).mpr (by omega)
  intro hfree
  have hfree' : n ∈ t.free := by
    unfold free
    rw [hb]
    exact hfree
  obtain ⟨hcovered, hunused⟩ := mem_free.mp hfree'
  rw [covered_of_count (sweepAll_count hrun)] at hcovered
  rcases (sweepAll_used hrun hcovered).mp hunused with hexposed | ⟨-, hnot⟩
  · rcases hexposed with ⟨hreserve, -⟩ | hnil
    · cases hreserve
    · exact hnil.elim
  · exact hnot _ (List.mem_singleton.mpr rfl) rfl hreach

/-- What has to hold of a memory map: every frame that stays exposed, behind those up to
`brk`, is listed in full. -/
def MapSafe (info : Info) (mbInfo brk : Word) (tags : List Tag) : Prop :=
  (∀ w ∈ sweeps info (mbInfo + 8#32) tags, w.Ends) ∧
    ∀ n < initialCovered tags, Exposed (sweeps info (mbInfo + 8#32) tags) n →
      (brk - kZero).toNat + 4096 ≤ n * 4096 → Usable tags n

/-- Boot leaves only frames free that the memory map lists in full, and that do not overlap
what lies below `brk`, exactly if the frames that its loops come by are. -/
theorem archInit_free_iff (h : Enclosed info mbInfo tags) (hlow : kZero ≤ brk)
    (htop : brk < kTmpMem) :
    (∃ s, archInit info mbInfo brk reset = some s ∧
      ∀ n ∈ s.free, Usable tags n ∧ (brk - kZero).toNat ≤ n * 4096) ↔
    MapSafe info mbInfo brk tags := by
  have hswept : Swept tags (sweeps info (mbInfo + 8#32) tags ++ [brkSweep brk])
      (archInit info mbInfo brk reset) := archInit_swept h.toImage
  have hends : (archInit info mbInfo brk reset).isSome ↔
      ∀ w ∈ sweeps info (mbInfo + 8#32) tags, w.Ends := by
    rw [hswept.isSome, List.forall_mem_append, List.forall_mem_singleton]
    exact and_iff_left (brkSweep_ends hlow htop)
  have hfree : ∀ s, archInit info mbInfo brk reset = some s → ∀ n, n ∈ s.free ↔
      n < initialCovered tags ∧ Exposed (sweeps info (mbInfo + 8#32) tags) n ∧
        (brk - kZero).toNat + 4096 ≤ n * 4096 := by
    intro s hs n
    rw [hs] at hswept
    rw [hswept.mem_free, exposed_append_reserve rfl, brkSweep_reaches hlow htop, Nat.not_lt]
  constructor
  · rintro ⟨s, hs, hsound⟩
    refine ⟨hends.mp (Option.isSome_of_eq_some hs), ?_⟩
    intro n hn hexposed hbrk
    exact (hsound n ((hfree s hs n).mpr ⟨hn, hexposed, hbrk⟩)).1
  · rintro ⟨hall, hsafe⟩
    obtain ⟨s, hs⟩ := Option.isSome_iff_exists.mp (hends.mpr hall)
    refine ⟨s, hs, ?_⟩
    intro n hn
    obtain ⟨hcovered, hexposed, hbrk⟩ := (hfree s hs n).mp hn
    exact ⟨hsafe n hcovered hexposed hbrk, by omega⟩

/-- A map with 4 MiB of memory up to the bitmap's end. -/
def wholeMap : List Tag :=
  [.mmap 0#32 0 [⟨0x400000#64, 0x400000#64, memoryAvailable, 0#32, []⟩], .basicMeminfo 640#32 7168#32]

theorem archInit_free_iff_whole :
    ∃ s, archInit (stored wholeMap 0xC0200000#32) 0xC0200000#32 0xC0300000#32 reset = some s ∧
      ∀ n ∈ s.free, Usable wholeMap n ∧ (0xC0300000#32 - kZero).toNat ≤ n * 4096 := by
  have himage : Enclosed (stored wholeMap 0xC0200000#32) 0xC0200000#32 wholeMap :=
    ⟨by constructor <;> decide, by decide⟩
  have hsweeps : sweeps (stored wholeMap 0xC0200000#32) (0xC0200000#32 + 8#32) wholeMap =
      [⟨0x400000#32, 0x800000#32, false⟩] := by decide
  have hcovered : initialCovered wholeMap = 2048 := by decide +kernel
  apply (archInit_free_iff himage (by decide) (by decide)).mpr
  rw [MapSafe, hsweeps, hcovered]
  refine ⟨by decide, ?_⟩
  intro n hn hexposed _ x hx
  have hreach : 1024 ≤ n := by
    rcases hexposed with ⟨-, hreach, -⟩ | hnil
    · exact hreach.1
    · exact hnil.elim
  refine ⟨_, List.mem_singleton.mpr rfl, rfl, ?_, ?_⟩
  · change 0x400000 ≤ x
    omega
  · change x < 0x400000 + 0x400000
    omega

/-- A map with one free page: the loop clears the bit of the page behind it, too. -/
def pageMap : List Tag :=
  [.mmap 0#32 0 [⟨0x400000#64, 0x1000#64, memoryAvailable, 0#32, []⟩], .basicMeminfo 640#32 7168#32]

theorem archInit_frees_unlisted : Enclosed (stored pageMap 0xC0200000#32) 0xC0200000#32 pageMap ∧
    ∃ s, archInit (stored pageMap 0xC0200000#32) 0xC0200000#32 0xC0300000#32 reset = some s ∧
      0x401 ∈ s.free ∧ ¬ Usable pageMap 0x401 := by
  have hrun : (archInit (stored pageMap 0xC0200000#32) 0xC0200000#32 0xC0300000#32 reset).any
      (fun s => decide (0x401 ∈ s.free)) = true := by decide +kernel
  refine ⟨⟨by constructor <;> decide, by decide⟩, ?_⟩
  obtain ⟨s, hs, hfree⟩ := (Option.any_eq_true _ _).mp hrun
  refine ⟨s, hs, of_decide_eq_true hfree, ?_⟩
  intro husable
  obtain ⟨r, hr, -, -, hlt⟩ := husable 0x401000 (by decide)
  cases List.mem_singleton.mp hr
  exact absurd hlt (by decide)

/-- What has to hold of two orders of the tags: the same frames stay exposed, and none of a
module's. -/
def OrderSafe (tags : List Tag) (ws₁ ws₂ : List Sweep) : Prop :=
  (∀ w ∈ ws₁ ++ ws₂, w.Ends) ∧
    ∀ n < initialCovered tags, (Exposed ws₁ n ↔ Exposed ws₂ n) ∧ (InModule tags n → ¬ Exposed ws₁ n)

instance (tags : List Tag) (ws₁ ws₂ : List Sweep) : Decidable (OrderSafe tags ws₁ ws₂) :=
  inferInstanceAs (Decidable (_ ∧ _))

theorem initialFrames_perm (hperm : tags₁.Perm tags₂)
    (hone : (tags₁.filterMap Tag.memUpper).length = 1) :
    initialFrames tags₁ = initialFrames tags₂ := by
  obtain ⟨memUpper, hu⟩ := List.length_eq_one_iff.mp hone
  have hperm' : (tags₂.filterMap Tag.memUpper).Perm [memUpper] := by
    rw [← hu]
    exact (hperm.filterMap _).symm
  rw [initialFrames, initialFrames, ← List.head?_filterMap, ← List.head?_filterMap, hu,
    List.perm_singleton.mp hperm']

theorem Swept.frames_eq (h₁ : Swept tags₁ ws (some s)) {vs : List Sweep}
    (h₂ : Swept tags₂ vs (some t)) (hinit : initialFrames tags₁ = initialFrames tags₂) :
    s.frames = t.frames ↔ ∀ n < initialCovered tags₁, (Exposed ws n ↔ Exposed vs n) := by
  have hcov : initialCovered tags₁ = initialCovered tags₂ := by
    rw [initialCovered, initialCovered, hinit]
  constructor
  · intro he n hn
    have hfree : s.free = t.free := by
      rw [free, free, he]
    have h1 := h₁.mem_free (n := n)
    rw [hfree, h₂.mem_free, ← hcov] at h1
    simpa [hn] using h1.symm
  · intro hexp
    have hcount := h₁.count.trans ((congrArg _ hinit).trans h₂.count.symm)
    have hused : ∀ n < s.covered, s.used n = t.used n := by
      intro n hn
      rw [h₁.covered] at hn
      have h1 : s.used n = true ↔ t.used n = true := by
        rw [h₁.used, h₂.used, ← hcov]
        simp only [hn, true_and, hexp n hn]
      exact Bool.eq_iff_iff.mpr h1
    cases hs : s.frames with
    | none =>
      rw [hs] at hcount
      exact (Option.map_eq_none_iff.mp hcount.symm).symm
    | some b =>
      rw [hs] at hcount
      obtain ⟨b', hb', hcount'⟩ := Option.map_eq_some_iff.mp hcount.symm
      rw [hb']
      have hbits : ∀ n < b.covered, b.used n = b'.used n := by
        intro n hn
        have h := hused n (by
          unfold Boot.covered
          rw [hs]
          exact hn)
        unfold Boot.used at h
        rwa [hs, hb'] at h
      exact congrArg some (FrameBitmap.eq_of_used hcount'.symm hbits)

/-- Two orders of the same tags give the same bitmap, with the modules reserved, exactly if
the same frames stay exposed and none of them is a module's. -/
theorem multibootMmap_perm_iff {mbInfo₁ mbInfo₂ : Word} (h₁ : Enclosed info₁ mbInfo₁ tags₁)
    (h₂ : Enclosed info₂ mbInfo₂ tags₂) (hperm : tags₁.Perm tags₂)
    (hone : (tags₁.filterMap Tag.memUpper).length = 1) :
    (∃ s₁ s₂, multibootMmap info₁ mbInfo₁ reset = some s₁ ∧
      multibootMmap info₂ mbInfo₂ reset = some s₂ ∧ s₁.frames = s₂.frames ∧
      ∀ n, InModule tags₁ n → s₁.used n = true) ↔
    OrderSafe tags₁ (sweeps info₁ (mbInfo₁ + 8#32) tags₁) (sweeps info₂ (mbInfo₂ + 8#32) tags₂) := by
  have hswept₁ := multibootMmap_swept h₁.toImage
  have hswept₂ := multibootMmap_swept h₂.toImage
  have hinit := initialFrames_perm hperm hone
  rw [OrderSafe, List.forall_mem_append, ← hswept₁.isSome, ← hswept₂.isSome]
  constructor
  · rintro ⟨s₁, s₂, hs₁, hs₂, hframes, hmod⟩
    rw [hs₁] at hswept₁
    rw [hs₂] at hswept₂
    refine ⟨⟨Option.isSome_of_eq_some hs₁, Option.isSome_of_eq_some hs₂⟩, ?_⟩
    intro n hn
    refine ⟨(hswept₁.frames_eq hswept₂ hinit).mp hframes n hn, ?_⟩
    intro hin hexposed
    exact hswept₁.used.mp (hmod n hin) ⟨hn, hexposed⟩
  · rintro ⟨⟨hsome₁, hsome₂⟩, hsafe⟩
    obtain ⟨s₁, hs₁⟩ := Option.isSome_iff_exists.mp hsome₁
    obtain ⟨s₂, hs₂⟩ := Option.isSome_iff_exists.mp hsome₂
    rw [hs₁] at hswept₁
    rw [hs₂] at hswept₂
    refine ⟨s₁, s₂, hs₁, hs₂, ?_, ?_⟩
    · exact (hswept₁.frames_eq hswept₂ hinit).mpr fun n hn => (hsafe n hn).1
    · intro n hin
      exact hswept₁.used.mpr fun hex => (hsafe n hex.1).2 hin hex.2

def meminfoTag : Tag := .basicMeminfo 640#32 0#32

def moduleAt (modStart modEnd : Word) : Tag := .module modStart modEnd [] 0

def mapOf (addr len : BitVec 64) : Tag := .mmap 0#32 0 [⟨addr, len, memoryAvailable, 0#32, []⟩]

theorem multibootMmap_perm_iff_apart :
    ∃ s₁ s₂,
      multibootMmap (stored [moduleAt 0x40000#32 0x41000#32, mapOf 0x60000#64 0x20000#64,
        meminfoTag] 0xC0200000#32) 0xC0200000#32 reset = some s₁ ∧
      multibootMmap (stored [mapOf 0x60000#64 0x20000#64, moduleAt 0x40000#32 0x41000#32,
        meminfoTag] 0xC0200000#32) 0xC0200000#32 reset = some s₂ ∧
      s₁.frames = s₂.frames ∧
      ∀ n, InModule [moduleAt 0x40000#32 0x41000#32, mapOf 0x60000#64 0x20000#64, meminfoTag] n →
        s₁.used n = true :=
  (multibootMmap_perm_iff ⟨by constructor <;> decide, by decide⟩
    ⟨by constructor <;> decide, by decide⟩ (List.Perm.swap _ _ _) (by decide)).mpr
    (by decide +kernel)

/-- The map lists the memory where the module is, and stands behind its tag. -/
theorem multibootMmap_frees_module :
    ∃ tags₁ tags₂ s₁ s₂, Enclosed (stored tags₁ 0xC0200000#32) 0xC0200000#32 tags₁ ∧
      Enclosed (stored tags₂ 0xC0200000#32) 0xC0200000#32 tags₂ ∧ tags₁.Perm tags₂ ∧
      (tags₁.filterMap Tag.memUpper).length = 1 ∧
      multibootMmap (stored tags₁ 0xC0200000#32) 0xC0200000#32 reset = some s₁ ∧
      multibootMmap (stored tags₂ 0xC0200000#32) 0xC0200000#32 reset = some s₂ ∧
      s₁.frames ≠ s₂.frames ∧ InModule tags₁ 0x40 ∧ s₁.used 0x40 = false := by
  have hrun₁ : (multibootMmap (stored [moduleAt 0x40000#32 0x41000#32,
      mapOf 0x10000#64 0x80000#64, meminfoTag] 0xC0200000#32) 0xC0200000#32 reset).any
      (fun s => !s.used 0x40) = true := by decide +kernel
  have hrun₂ : (multibootMmap (stored [mapOf 0x10000#64 0x80000#64,
      moduleAt 0x40000#32 0x41000#32, meminfoTag] 0xC0200000#32) 0xC0200000#32 reset).any
      (fun s => s.used 0x40) = true := by decide +kernel
  obtain ⟨s₁, hs₁, hfree⟩ := (Option.any_eq_true _ _).mp hrun₁
  obtain ⟨s₂, hs₂, hused⟩ := (Option.any_eq_true _ _).mp hrun₂
  rw [Bool.not_eq_true'] at hfree
  refine ⟨_, _, s₁, s₂, ⟨?_, by decide⟩, ⟨?_, by decide⟩, List.Perm.swap _ _ _, ?_, hs₁, hs₂, ?_,
    ?_, hfree⟩
  · constructor <;> decide
  · constructor <;> decide
  · decide
  · intro he
    have : s₁.used 0x40 = s₂.used 0x40 := by
      rw [used, used, he]
    rw [hfree, hused] at this
    cases this
  · decide

end Frames

end AkKernel.Boot
