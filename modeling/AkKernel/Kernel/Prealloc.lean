import AkKernel.Boot.FrameRuns
import AkKernel.Boot.MemoryMap
import AkKernel.Kernel.Malloc
import AkKernel.Kernel.MapCalls
import AkKernel.Mem.Prealloc

/-!
# The frames that `multiboot_mmap` takes before the bitmap is there

`vmmap` maps the boot loader's information, and `frame_alloc_init` gets the bitmap from
`early_malloc`. The pages behind the first 4 MB take frames of `PreallocFrames`, which are all
there is. The structure is read as words, as before.
-/

set_option autoImplicit false

namespace AkKernel

open Programs

def kText : Word := 0xC0100000#32

section Calls
variable (libc : Libc)

/-- `frame_alloc_init`, with the allocation of the bitmap. -/
def frameAllocInitHeap (fuel : Nat) (memMax : Word) : KernM Unit := do
  let _ ← wrapMalloc libc fuel (BitVec.ofNat 32 (frameNo memMax / 32 * 4))
  onMem fun _ => onFst fun c => .ok ((), frameAllocInit memMax c)

/-- The two calls of `vmmap` in `multiboot_mmap`. -/
def multibootMaps (info : Boot.Info) (fuel : Nat) (mbInfo : Word) : KernM Unit := do
  vmmap fuel kText (mbInfo + 4#32)
  vmmap fuel kText (mbInfo + info mbInfo)

/-- `multiboot_mmap` to the end of its first loop. -/
def multibootMeminfo (info : Boot.Info) (fuel : Nat) (mbInfoPhys : Word) : KernM Unit := do
  multibootMaps info fuel (mbInfoPhys + kZero)
  match Boot.meminfoLoop info (2 ^ 29 + 1) (mbInfoPhys + kZero + 8#32) Boot.reset with
  | none => throw .diverges
  | some t => if t.frames.isSome then frameAllocInitHeap libc fuel t.memMax else pure ()

/-- The same when the tags tell `mem_max`. -/
def multibootFrames (info : Boot.Info) (fuel : Nat) (mbInfoPhys memMax : Word) : KernM Unit := do
  multibootMaps info fuel (mbInfoPhys + kZero)
  frameAllocInitHeap libc fuel memMax

/-- Up to the moment when `FrameAllocInitialized` is set, `frame_alloc` finds a frame whenever it
is called. No loop over pages has more rounds than there are pages. -/
def PreallocSuffices (info : Boot.Info) (mbInfoPhys memMax : Word) (s : Kern) : Prop :=
  ∀ fuel, 2 ^ 20 ≤ fuel → ∃ s', multibootFrames libc info fuel mbInfoPhys memMax s = .ok ((), s') ∧
    s'.mem.1.preallocCount ≤ preallocMaxCount

end Calls

/-- The pages that the words of the bitmap take. -/
def bitmapPages (memMax : Word) : Nat := (frameNo memMax / 32 * 4 + 4095) / 4096

/-- The first word of the structure ends no more than a page below the text of the kernel, so
that `vmmap` has a length, and the pages that follow the end of the structure are few enough. The
first page behind the 4 MB is mapped with a structure that ends in their last page. -/
def PreallocFits (mbInfoPhys : Word) (size : Nat) (memMax : Word) : Prop :=
  0x100000 ≤ mbInfoPhys.toNat + 4 + 4096 ∧
    (mbInfoPhys.toNat + size) / 4096 + bitmapPages memMax ≤
      if 0x3FF000 < mbInfoPhys.toNat + size then 1031 else 1030

instance (mbInfoPhys : Word) (size : Nat) (memMax : Word) :
    Decidable (PreallocFits mbInfoPhys size memMax) := inferInstanceAs (Decidable (_ ∧ _))

/-- The kernel when `multiboot_mmap` is called. Its image ends in the 4 MB that are mapped. -/
structure Booting (s : Kern) : Prop where
  init : PgInit s
  ready : s.mem.1.mmuReady = true
  early : s.earlyMallocEnabled = true
  stack : s.allocSP = 0
  low : kZero ≤ s.proc.cur.brk
  high : s.proc.cur.brk.toNat ≤ kZero.toNat + 0x400000

/-- The break of `KernelTask` and what is taken of `PreallocFrames`. -/
structure AtBrk (n m : Nat) (brk : Word) (s : Kern) : Prop where
  tmp : Ready [] 6 s.mem.2
  behind : Behind (frameNo s.proc.cur.pgd) n m s.mem.1
  brk : s.proc.cur.brk = brk
  early : s.earlyMallocEnabled = true
  stack : s.allocSP = 0

section Steps
variable {libc : Libc} {s : Kern} {n m n' m' t o l fuel : Nat} {brk addr b limit size : Word}

theorem onMem_fails {α : Type} (prog : Task → MemM α) {a : PhysM α} {e : Fault}
    (hl : Lifts (Ready [] 6) (prog s.proc.cur) a) (htmp : Ready [] 6 s.mem.2)
    (h : a s.mem.1 = .error e) : onMem prog s = .error e := by
  have hrun := hl s.mem.1 s.mem.2 htmp
  unfold onFst at hrun
  rw [h] at hrun
  unfold onMem
  rw [hrun]

theorem AtBrk.moved {c' : Phys} (h : AtBrk n m brk s)
    (hrun : Direct.taskBrk s.proc.cur fuel brk addr s.mem.1 = .ok (b, c'))
    (hb : Behind (frameNo s.proc.cur.pgd) n' m' c') :
    ∃ s', sysBrk fuel addr s = .ok (b, s') ∧ AtBrk n' m' b s' := by
  rw [← h.brk] at hrun
  have hmem := onMem_gives (m := fun cur => taskBrk cur fuel cur.brk addr)
    (taskBrk_lifts (k := 4) s.proc.cur fuel s.proc.cur.brk addr) h.tmp hrun
  refine ⟨{ s with
    proc := s.proc.setTask s.proc.currentTask { s.proc.cur with brk := b }
    mem := (c', s.mem.2) }, bind_run hmem, h.tmp, ?_, ?_, h.early, h.stack⟩
  · simpa [Proc.setTask, Proc.cur] using hb
  · simp [Proc.setTask, Proc.cur]

theorem AtBrk.stuck {e : Fault} (h : AtBrk n m brk s)
    (hrun : Direct.taskBrk s.proc.cur fuel brk addr s.mem.1 = .error e) :
    sysBrk fuel addr s = .error e := by
  rw [← h.brk] at hrun
  exact bind_fails (onMem_fails (fun cur => taskBrk cur fuel cur.brk addr)
    (taskBrk_lifts (k := 4) s.proc.cur fuel s.proc.cur.brk addr) h.tmp hrun)

theorem pgMapSequence_lifts (cur : Task) (fuel : Nat) (paddr vaddr length : Word) :
    Lifts (Ready [] 6) (pgMapSequence cur fuel paddr vaddr length)
      (forPages (fun i => Direct.pgMap cur (paddr + i) (vaddr + i)) fuel 0#32 length) :=
  forPages_lifts (fun i => pgMap_lifts (k := 4) cur (paddr + i) (vaddr + i)) fuel 0#32 length

theorem vmmap_length (hlimit : limit.toNat = kZero.toNat + l) :
    (limit - kText + pageSize).toNat = (l + 4096 + 4293918720) % 2 ^ 32 := by
  have hz : kZero.toNat = 3221225472 := rfl
  have ht : kText.toNat = 3222274048 := rfl
  have hsz : pageSize.toNat = 4096 := rfl
  rw [BitVec.toNat_add, BitVec.toNat_sub, ht, hsz]
  omega

/-- `vmmap` up to an address of the 4 MB page, or its end. -/
theorem AtBrk.mapped (h : AtBrk t t brk s) (ht : t ≤ 1) (hbrk : brk.toNat = kZero.toNat + o)
    (ho : o ≤ 4194304) (hlimit : limit.toNat = kZero.toNat + l) (hl : l ≤ 4194304)
    (hlength : 1048576 ≤ l + 4096) (hfuel : 2 ^ 20 ≤ fuel) :
    ∃ s', vmmap fuel kText limit s = .ok ((), s') ∧
      AtBrk (max t ((l + 8191) / 4096 - 1024)) (max t ((l + 8191) / 4096 - 1024)) limit s' := by
  have hlen := vmmap_length hlimit
  have htext : kText.toNat = kZero.toNat + 1048576 := rfl
  have hrounds : 1025 ≤ fuel := by omega
  have hwithin : 1048576 + (limit - kText + pageSize).toNat ≤ 4198400 := by omega
  obtain ⟨c₁, hmap, hc₁⟩ := h.behind.mapSequence ht htext (by decide) hwithin (by decide) hrounds
    (kText - kZero)
  have hend : 1048576 + (limit - kText + pageSize).toNat + 4095 = l + 8191 := by omega
  rw [hend] at hc₁
  have hmem := onMem_gives
    (m := fun cur => pgMapSequence cur fuel (kText - kZero) kText (limit - kText + pageSize))
    (pgMapSequence_lifts s.proc.cur fuel _ _ _) h.tmp hmap
  have h₁ : AtBrk (max t ((l + 8191) / 4096 - 1024)) (max t ((l + 8191) / 4096 - 1024)) brk
      { s with mem := (c₁, s.mem.2) } := ⟨h.tmp, hc₁, h.brk, h.early, h.stack⟩
  obtain ⟨c₂, htask, hc₂⟩ := h₁.behind.taskBrk_mapped hbrk hlimit ho hl (by omega) (by omega)
    hfuel
  obtain ⟨s₂, hrun, hs₂⟩ := h₁.moved htask hc₂
  refine ⟨s₂, ?_, hs₂⟩
  unfold vmmap
  rw [bind_run hmem, bind_run hrun]
  rfl

theorem vmmap_out (htmp : Ready [] 6 s.mem.2) (h : Tables (frameNo s.proc.cur.pgd) 0 s.mem.1)
    (hlimit : limit.toNat = kZero.toNat + l) (hlength : l + 4096 < 1048576)
    (hfuel : 2 ^ 20 ≤ fuel) : vmmap fuel kText limit s = .error outOfPrealloc := by
  have hlen := vmmap_length hlimit
  have htext : kText.toNat = kZero.toNat + 1048576 := rfl
  have hlong : 36700160 < (limit - kText + pageSize).toNat := by omega
  have hmap := h.mapSequence_out htext hlong hfuel (kText - kZero)
  exact bind_fails (onMem_fails
    (fun cur => pgMapSequence cur fuel (kText - kZero) kText (limit - kText + pageSize))
    (pgMapSequence_lifts s.proc.cur fuel _ _ _) htmp hmap)

/-- `early_malloc` leaves the break to `task_brk`. -/
theorem earlyMalloc_eq (libc : Libc) (h : AtBrk n m brk s) (fuel : Nat) (size : Word) :
    ∃ s₁, AtBrk n m brk s₁ ∧ wrapMalloc libc fuel size s = (do
      let brk' ← sysBrk fuel (brk + size)
      let s ← get
      if s.allocSP + 1 < 4096 then
        set { s with
          allocSP := s.allocSP + 1
          allocStack := s.allocStack.set (s.allocSP + 1) brk' }
        pure (brk' - size)
      else throw .outOfBounds : KernM Word) s₁ := by
  have hkeep : Direct.taskBrk s.proc.cur fuel brk 0#32 s.mem.1 = .ok (brk, s.mem.1) := by
    unfold Direct.taskBrk
    rw [if_pos rfl]
    rfl
  obtain ⟨s₁, hrun, hs₁⟩ := h.moved hkeep h.behind
  refine ⟨s₁, hs₁, ?_⟩
  change (if s.earlyMallocEnabled = true then earlyMalloc fuel size else _ : KernM Word) s = _
  rw [if_pos h.early, earlyMalloc, bind_run hrun]

theorem brk_add (hbrk : brk.toNat = kZero.toNat + o) (hend : o + size.toNat < 2 ^ 29) :
    (brk + size).toNat = kZero.toNat + (o + size.toNat) := by
  have hz : kZero.toNat = 3221225472 := rfl
  rw [BitVec.toNat_add]
  omega

/-- The pages behind the 4 MB page that there are after the call. -/
theorem pagesAfter_bitmap (t o size : Nat) :
    pagesAfter t o ((o + size + 4096 - o + 4095) / 4096) =
      max t (o / 4096 + (size + 4095) / 4096 - 1023) := by
  unfold pagesAfter
  omega

theorem AtBrk.malloc (libc : Libc) (h : AtBrk t t brk s) (ht : t ≤ 1)
    (hbrk : brk.toNat = kZero.toNat + o) (ho : o ≤ 4194304)
    (hmapped : (o + 4095) / 4096 < 1024 + t) (hsize : size.toNat < 131072)
    (hfit : t + spent t (max t (o / 4096 + (size.toNat + 4095) / 4096 - 1023)) ≤ 8)
    (hfuel : 2 ^ 20 ≤ fuel) :
    ∃ a s', wrapMalloc libc fuel size s = .ok (a, s') ∧ s'.mem.1.preallocCount ≤ 8 := by
  obtain ⟨s₁, h₁, heq⟩ := earlyMalloc_eq libc h fuel size
  have hnew := brk_add hbrk (show o + size.toNat < 2 ^ 29 by omega)
  obtain ⟨s₂, n', m', b, hrun, hs₂, hn'⟩ : ∃ s₂ n' m' b,
      sysBrk fuel (brk + size) s₁ = .ok (b, s₂) ∧ AtBrk n' m' b s₂ ∧ n' ≤ 8 := by
    by_cases h0 : size.toNat = 0
    · have hsame : brk + size = brk := BitVec.eq_of_toNat_eq (by omega)
      obtain ⟨c', htask, hc'⟩ := h₁.behind.taskBrk_mapped hbrk hbrk ho ho (by omega)
        hmapped hfuel
      obtain ⟨s₂, hrun, hs₂⟩ := h₁.moved htask hc'
      rw [hsame]
      exact ⟨s₂, t, t, brk, hrun, hs₂, by omega⟩
    · have hpages := pagesAfter_bitmap t o size.toNat
      have htask := h₁.behind.taskBrk_up hbrk hnew (by omega) (by omega) (by omega)
      rw [hpages] at htask
      obtain ⟨c', htask, hc'⟩ := htask hfit hfuel
      obtain ⟨s₂, hrun, hs₂⟩ := h₁.moved htask hc'
      exact ⟨s₂, _, _, _, hrun, hs₂, hfit⟩
  have hroom : s₂.allocSP + 1 < 4096 := by
    rw [hs₂.stack]
    decide
  refine ⟨b - size, { s₂ with
    allocSP := s₂.allocSP + 1
    allocStack := s₂.allocStack.set (s₂.allocSP + 1) b }, ?_, ?_⟩
  · rw [heq, bind_run hrun]
    change (if s₂.allocSP + 1 < 4096 then _ else _ : KernM Word) s₂ = _
    rw [if_pos hroom]
    rfl
  · change s₂.mem.1.preallocCount ≤ 8
    rw [hs₂.behind.taken]
    exact hn'

theorem AtBrk.malloc_out (libc : Libc) (h : AtBrk t t brk s) (ht : t ≤ 1)
    (hbrk : brk.toNat = kZero.toNat + o) (ho : o ≤ 4194304)
    (hmapped : (o + 4095) / 4096 < 1024 + t) (hsize : size.toNat < 131072)
    (hout : 8 < t + spent t (max t (o / 4096 + (size.toNat + 4095) / 4096 - 1023)))
    (hfuel : 2 ^ 20 ≤ fuel) :
    wrapMalloc libc fuel size s = .error outOfPrealloc := by
  obtain ⟨s₁, h₁, heq⟩ := earlyMalloc_eq libc h fuel size
  have hnew := brk_add hbrk (show o + size.toNat < 2 ^ 29 by omega)
  have h0 : size.toNat ≠ 0 := by
    intro h0
    have hsame : max t (o / 4096 + (size.toNat + 4095) / 4096 - 1023) = t := by omega
    rw [hsame, spent_self] at hout
    omega
  have hpages := pagesAfter_bitmap t o size.toNat
  have htask := h₁.behind.taskBrk_out hbrk hnew (by omega) (by omega) (by omega)
    (by omega)
  rw [hpages] at htask
  rw [heq]
  exact bind_fails (h₁.stuck (htask hout hfuel))

end Steps

section Whole
variable {libc : Libc} {s : Kern} {info : Boot.Info} {tags : List Boot.Tag}
  {mbInfoPhys memMax : Word} {fuel : Nat}

theorem Booting.cur_pgd (h : Booting s) : frameNo s.proc.cr3 = frameNo s.proc.cur.pgd := by
  obtain ⟨kernEnd, pgd, hp⟩ := h.init.proc
  obtain ⟨hpgd, hcr3⟩ := bootProc_cur kernEnd pgd
  rw [hp, hpgd, hcr3]

theorem Booting.atBrk (h : Booting s) : AtBrk 0 0 s.proc.cur.brk s := by
  have hlow := h.init.kernelLow
  have hother := h.init.others 769 (by decide) (by decide) (by decide) (by decide) (by decide)
  rw [h.cur_pgd] at hlow hother
  refine ⟨h.init.tmp, ⟨h.init.bootInv.walk, h.ready, h.init.count, ?_, fun _ => hother, ?_, ?_⟩,
    rfl, h.early, h.stack⟩
  · rw [hlow]
    decide
  · exact fun h0 => absurd rfl h0
  · exact fun h0 => absurd rfl h0

theorem Booting.tables (h : Booting s) : Tables (frameNo s.proc.cur.pgd) 0 s.mem.1 := by
  refine ⟨h.init.bootInv.walk, h.init.count, ?_⟩
  intro i hle hlt
  rw [← h.cur_pgd]
  by_cases h768 : i = 768
  · rw [h768, h.init.kernelLow]
    exact iff_of_false (by decide) (by omega)
  · exact iff_of_true (h.init.others i (by omega) (by omega) (by omega) h768 (by omega))
      (by omega)

theorem preallocFits_iff {e : Nat} (he : e ≤ 4194304) (hle : bitmapPages memMax ≤ 32) :
    ((e + 8191) / 4096 - 1024 + spent ((e + 8191) / 4096 - 1024)
        (max ((e + 8191) / 4096 - 1024) (e / 4096 + bitmapPages memMax - 1023)) ≤ 8 ↔
      e / 4096 + bitmapPages memMax ≤ if 0x3FF000 < e then 1031 else 1030) := by
  unfold spent
  by_cases hlast : 0x3FF000 < e
  · rw [if_pos hlast, if_neg (by omega)]
    omega
  · rw [if_neg hlast]
    split
    · omega
    · omega

theorem bitmap_size (memMax : Word) :
    (BitVec.ofNat 32 (frameNo memMax / 32 * 4)).toNat = frameNo memMax / 32 * 4 ∧
      frameNo memMax / 32 * 4 < 131072 := by
  have hlt := frameNo_lt memMax
  rw [BitVec.toNat_ofNat]
  omega

theorem info_toNat {n : Nat} (hn : mbInfoPhys.toNat + n ≤ 4194304) :
    (mbInfoPhys + kZero + BitVec.ofNat 32 n).toNat = kZero.toNat + (mbInfoPhys.toNat + n) := by
  have hz : kZero.toNat = 3221225472 := rfl
  rw [BitVec.toNat_add, BitVec.toNat_add, BitVec.toNat_ofNat, hz]
  omega

section Placed
variable {size : Nat} (h : Booting s) (hinfo : info (mbInfoPhys + kZero) = BitVec.ofNat 32 size)
  (hsize : 16 ≤ size) (hwithin : mbInfoPhys.toNat + size ≤ 4194304) (hfuel : 2 ^ 20 ≤ fuel)

include h hinfo hsize hwithin hfuel

theorem multibootMaps_run (hlow : 1048576 ≤ mbInfoPhys.toNat + 4 + 4096) :
    ∃ s' brk, multibootMaps info fuel (mbInfoPhys + kZero) s = .ok ((), s') ∧
      brk.toNat = kZero.toNat + (mbInfoPhys.toNat + size) ∧
      AtBrk ((mbInfoPhys.toNat + size + 8191) / 4096 - 1024)
        ((mbInfoPhys.toNat + size + 8191) / 4096 - 1024) brk s' := by
  have hz : kZero.toNat = 3221225472 := rfl
  have hbrk := BitVec.le_def.mp h.low
  have hhigh := h.high
  have hword : (mbInfoPhys + kZero + 4#32).toNat = kZero.toNat + (mbInfoPhys.toNat + 4) :=
    info_toNat (show mbInfoPhys.toNat + 4 ≤ 4194304 by omega)
  have hend := info_toNat hwithin
  obtain ⟨s₁, hrun₁, h₁⟩ := h.atBrk.mapped (Nat.zero_le 1)
    (o := s.proc.cur.brk.toNat - kZero.toNat) (by omega) (by omega) hword (by omega) (by omega)
    hfuel
  obtain ⟨s₂, hrun₂, h₂⟩ := h₁.mapped (by omega) hword (by omega) hend hwithin (by omega)
    hfuel
  have hmax : max (max 0 ((mbInfoPhys.toNat + 4 + 8191) / 4096 - 1024))
      ((mbInfoPhys.toNat + size + 8191) / 4096 - 1024) =
        (mbInfoPhys.toNat + size + 8191) / 4096 - 1024 := by omega
  rw [hmax] at h₂
  refine ⟨s₂, _, ?_, hend, h₂⟩
  unfold multibootMaps
  rw [bind_run hrun₁, hinfo]
  exact hrun₂

theorem multibootFrames_run (hfits : PreallocFits mbInfoPhys size memMax) :
    ∃ s', multibootFrames libc info fuel mbInfoPhys memMax s = .ok ((), s') ∧
      s'.mem.1.preallocCount ≤ preallocMaxCount := by
  obtain ⟨hlow, hpages⟩ := hfits
  obtain ⟨s₁, brk, hmaps, hbrk, h₁⟩ := multibootMaps_run h hinfo hsize hwithin hfuel hlow
  obtain ⟨hbytes, hbound⟩ := bitmap_size memMax
  have hle : bitmapPages memMax ≤ 32 := by
    unfold bitmapPages
    omega
  rw [← preallocFits_iff hwithin hle, bitmapPages, ← hbytes] at hpages
  obtain ⟨a, s₂, hmalloc, hcount⟩ := h₁.malloc libc (by omega) hbrk hwithin (by omega) (by omega)
    hpages hfuel
  refine ⟨{ s₂ with mem := (frameAllocInit memMax s₂.mem.1, s₂.mem.2) }, ?_, hcount⟩
  unfold multibootFrames
  rw [bind_run hmaps]
  unfold frameAllocInitHeap
  rw [bind_run hmalloc]
  rfl

theorem multibootFrames_out (hfits : ¬ PreallocFits mbInfoPhys size memMax) :
    multibootFrames libc info fuel mbInfoPhys memMax s = .error outOfPrealloc := by
  by_cases hlow : 1048576 ≤ mbInfoPhys.toNat + 4 + 4096
  · obtain ⟨s₁, brk, hmaps, hbrk, h₁⟩ := multibootMaps_run h hinfo hsize hwithin hfuel hlow
    obtain ⟨hbytes, hbound⟩ := bitmap_size memMax
    have hle : bitmapPages memMax ≤ 32 := by
      unfold bitmapPages
      omega
    have hpages := fun hp => hfits ⟨hlow, hp⟩
    rw [← preallocFits_iff hwithin hle, bitmapPages, ← hbytes] at hpages
    have hmalloc := h₁.malloc_out libc (by omega) hbrk hwithin (by omega)
      (by omega) (Nat.not_le.mp hpages) hfuel
    unfold multibootFrames
    rw [bind_run hmaps]
    exact bind_fails hmalloc
  · have hword : (mbInfoPhys + kZero + 4#32).toNat = kZero.toNat + (mbInfoPhys.toNat + 4) :=
      info_toNat (show mbInfoPhys.toNat + 4 ≤ 4194304 by omega)
    exact bind_fails (bind_fails (vmmap_out h.init.tmp h.tables hword (by omega) hfuel))

end Placed

theorem tagBytes_ge (tags : List Boot.Tag) : 8 ≤ Boot.tagBytes tags := by
  cases tags with
  | nil => exact Nat.le_refl 8
  | cons t ts =>
    rw [Boot.tagBytes, Boot.Tag.stride]
    omega

/-- The bitmap that the first loop leaves is the one for the `mem_max` that it leaves. -/
theorem meminfoLoop_memMax {t b : Boot} {a : Word}
    (h : Boot.meminfoLoop info fuel a b = some t) (hb : b.frames = none) :
    t.frames = none ∨ t.frames = some (Boot.frameAllocInit t.memMax) := by
  induction fuel generalizing a with
  | zero => cases h
  | succ fuel ih =>
    rw [Boot.meminfoLoop] at h
    split at h
    · cases h
      exact Or.inl hb
    · split at h
      · exact ih h
      · dsimp only at h
        rw [← Option.some.inj h]
        exact Or.inr rfl

/-- With the first tag that tells the size of the memory. -/
theorem multibootMeminfo_eq {memUpper : Word}
    (himage : Boot.Image info (mbInfoPhys + kZero) tags)
    (hmem : tags.findSome? Boot.Tag.memUpper = some memUpper) :
    multibootMeminfo libc info fuel mbInfoPhys =
      multibootFrames libc info fuel mbInfoPhys ((memUpper + 1024#32) * 1024#32) := by
  obtain ⟨t, ht, hframes⟩ := himage.meminfo
  rw [Boot.initialFrames, hmem, Option.map_some] at hframes
  have hsame : Boot.frameAllocInit t.memMax =
      Boot.frameAllocInit ((memUpper + 1024#32) * 1024#32) := by
    rcases meminfoLoop_memMax ht rfl with hnone | hsome
    · rw [hnone] at hframes
      cases hframes
    · rw [hsome] at hframes
      exact Option.some.inj hframes
  have hframe : frameNo t.memMax = frameNo ((memUpper + 1024#32) * 1024#32) :=
    congrArg FrameBitmap.frameCount hsame
  have hheap : frameAllocInitHeap libc fuel t.memMax =
      frameAllocInitHeap libc fuel ((memUpper + 1024#32) * 1024#32) := by
    unfold frameAllocInitHeap frameAllocInit
    rw [hframe, hsame]
  unfold multibootMeminfo multibootFrames
  rw [ht]
  dsimp only
  rw [hframes, Option.isSome_some, if_pos rfl, hheap]

/-- The frames suffice unless the structure lies in the first megabyte, or near the end of the
4 MB, behind which the bitmap then comes to lie. -/
theorem preallocSuffices_iff (h : Booting s)
    (himage : Boot.Image info (mbInfoPhys + kZero) tags)
    (hwithin : mbInfoPhys.toNat + (8 + Boot.tagBytes tags) ≤ 0x400000) :
    PreallocSuffices libc info mbInfoPhys memMax s ↔
      PreallocFits mbInfoPhys (8 + Boot.tagBytes tags) memMax := by
  have hsize : 16 ≤ 8 + Boot.tagBytes tags := Nat.add_le_add_left (tagBytes_ge tags) 8
  constructor
  · intro hs
    by_contra hfits
    obtain ⟨s', hrun, -⟩ := hs (2 ^ 20) (Nat.le_refl _)
    rw [multibootFrames_out h himage.totalSize hsize hwithin (Nat.le_refl _) hfits] at hrun
    cases hrun
  · intro hfits fuel hfuel
    exact multibootFrames_run h himage.totalSize hsize hwithin hfuel hfits

end Whole

section Machine

/-- `pgInitKern` when `multiboot_mmap` is called. -/
def bootingKern : Kern := { pgInitKern with earlyMallocEnabled := true }

theorem bootingKern_booting : Booting bootingKern := by
  have hinit := pgInitKern_init
  refine ⟨⟨hinit.proc, hinit.tmp, hinit.init, hinit.aligned, hinit.count, hinit.image, hinit.dir,
    hinit.low, hinit.kernelLow, hinit.stack, hinit.tmpTbl, hinit.apart, hinit.others⟩,
    rfl, rfl, rfl, ?_, ?_⟩
  · decide
  · decide

def basicInfo : List Boot.Tag := [.basicMeminfo 640#32 0xFFC00#32]

/-- 1 GB of memory, and the structure in the middle of the 4 MB. -/
theorem preallocSuffices_middle :
    PreallocSuffices quietLibc (Boot.stored basicInfo 0xC0200000#32) 0x200000#32 0x40000000#32
      bootingKern := by
  have himage : Boot.Image (Boot.stored basicInfo 0xC0200000#32) (0x200000#32 + kZero)
      basicInfo := by
    constructor <;> decide
  exact (preallocSuffices_iff bootingKern_booting himage (by decide)).mpr (by decide)

/-- The same memory, and the structure at the end of the 4 MB. -/
theorem not_preallocSuffices_end : Booting bootingKern ∧
    Boot.Image (Boot.stored basicInfo 0xC03FFFE0#32) (0x3FFFE0#32 + kZero) basicInfo ∧
    (0x3FFFE0#32 : Word).toNat + (8 + Boot.tagBytes basicInfo) = 0x400000 ∧
    multibootFrames quietLibc (Boot.stored basicInfo 0xC03FFFE0#32) (2 ^ 20) 0x3FFFE0#32
        0x40000000#32 bootingKern = .error (.panic "Out of preallocated frames\n" []) ∧
    ¬ PreallocSuffices quietLibc (Boot.stored basicInfo 0xC03FFFE0#32) 0x3FFFE0#32 0x40000000#32
      bootingKern := by
  have himage : Boot.Image (Boot.stored basicInfo 0xC03FFFE0#32) (0x3FFFE0#32 + kZero)
      basicInfo := by
    constructor <;> decide
  have hout : multibootFrames quietLibc (Boot.stored basicInfo 0xC03FFFE0#32) (2 ^ 20)
      0x3FFFE0#32 0x40000000#32 bootingKern = .error outOfPrealloc :=
    multibootFrames_out bootingKern_booting himage.totalSize (by decide) (by decide)
      (Nat.le_refl (2 ^ 20)) (by decide)
  refine ⟨bootingKern_booting, himage, by decide, hout, ?_⟩
  intro hs
  obtain ⟨s', hrun, -⟩ := hs (2 ^ 20) (Nat.le_refl _)
  rw [hout] at hrun
  cases hrun

end Machine

end AkKernel
