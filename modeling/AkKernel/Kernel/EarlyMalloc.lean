import AkKernel.Kernel.Malloc
import AkKernel.Kernel.Replies

/-!
# The allocator of the boot

Nested runs of `__wrap_malloc` and `__wrap_free` before `early_malloc_disable`. What
`early_malloc` pushes is the break after the block, and `early_free` looks for the address of
the block, so it never pops; and `__wrap_free` goes on to `__real_free` after it.
-/

set_option autoImplicit false

namespace AkKernel

open Programs Runs

/-- A block of `early_malloc`, and the state in which it was asked for. -/
structure EarlyBlock where
  start : Word
  size : Word
  before : Kern

def EarlyBlock.stop (b : EarlyBlock) : Nat := b.start.toNat + b.size.toNat

/-- The live blocks, the last one first. -/
structure Early where
  kern : Kern
  live : List EarlyBlock

variable (libc : Libc)

/-- Calls that free the last block first. There are at most 0xFFF blocks, and the break does
not wrap around. -/
inductive EarlyStep (e : Early) : AllocOp × Word → Early → Prop where
  | malloc {size a : Word} {s : Kern} : 0#32 < size → e.live.length < 0xFFF →
      e.kern.proc.cur.brk.toNat + size.toNat < 2 ^ 32 →
      AllocStep libc e.kern (.malloc size, a) s →
      EarlyStep e (.malloc size, a) ⟨s, ⟨a, size, e.kern⟩ :: e.live⟩
  | free {b : EarlyBlock} {live : List EarlyBlock} {r : Word} {s : Kern} : e.live = b :: live →
      AllocStep libc e.kern (.free b.start, r) s → EarlyStep e (.free b.start, r) ⟨s, live⟩

/-- Live blocks share no byte, and lie between the first break and the current one. -/
structure LiveApart (brk : Word) (e : Early) : Prop where
  apart : e.live.Pairwise fun b c => b.stop ≤ c.start.toNat ∨ c.stop ≤ b.start.toNat
  within : ∀ b ∈ e.live, brk.toNat ≤ b.start.toNat ∧ b.stop ≤ e.kern.proc.cur.brk.toNat

/-- The break and the stack are those of `t`; slots above the top of the stack do not count. -/
structure Restores (t s : Kern) : Prop where
  brk : s.proc.cur.brk = t.proc.cur.brk
  allocSP : s.allocSP = t.allocSP
  allocStack : s.allocStack.take (s.allocSP + 1) = t.allocStack.take (t.allocSP + 1)

/-- Freeing the block is the same with any allocator behind `__real_free`. -/
def SkipsReal (addr : Word) (s : Kern) : Prop :=
  ∀ (fuel : Nat) (libc libc' : Libc), wrapFree libc fuel addr s = wrapFree libc' fuel addr s

/-- A step after which the live blocks are apart, and which gives a freed block back. -/
structure NestedStep (brk : Word) (e : Early) (lbl : AllocOp × Word) (e' : Early) : Prop where
  step : EarlyStep libc e lbl e'
  live : LiveApart brk e'
  freed : ∀ b, lbl.1 = .free b.start → e.live = b :: e'.live →
    Restores b.before e'.kern ∧ SkipsReal b.start e.kern

def AllocOp.isFree : AllocOp → Bool
  | .free _ => true
  | _ => false

section Calls
variable {libc} {s s' : Kern} {fuel : Nat}

theorem sysBrk_ok {brk b : Word} (h : sysBrk fuel brk s = .ok (b, s')) :
    b = (if brk = 0#32 then s.proc.cur.brk else brk) ∧ ∃ mem, s' =
      { s with mem := mem,
               proc := s.proc.setTask s.proc.currentTask { s.proc.cur with brk := b } } := by
  refine ⟨sysBrk_ret h, ?_⟩
  obtain ⟨r, s₁, hmem, hrest⟩ := bind_ok.mp h
  obtain ⟨⟨⟩, s₂, hset, hret⟩ := bind_ok.mp hrest
  obtain ⟨mem, -, rfl⟩ := onMem_eq_ok.mp hmem
  obtain ⟨rfl, rfl⟩ := pure_ok.mp hret
  cases hset
  exact ⟨mem, rfl⟩

/-- The state after `early_malloc(size)` returned `a`. -/
structure EarlyGrown (size a : Word) (s s' : Kern) : Prop where
  start : a = s.proc.cur.brk
  brk : s'.proc.cur.brk = a + size
  room : s.allocSP + 1 < 4096
  allocSP : s'.allocSP = s.allocSP + 1
  allocStack : s'.allocStack = s.allocStack.set (s.allocSP + 1) (a + size)
  early : s'.earlyMallocEnabled = s.earlyMallocEnabled

theorem earlyMalloc_ok {size a : Word} (hsize : 0#32 < size)
    (hwrap : s.proc.cur.brk.toNat + size.toNat < 2 ^ 32)
    (h : earlyMalloc fuel size s = .ok (a, s')) : EarlyGrown size a s s' := by
  obtain ⟨brk, s₁, h1, hrest⟩ := bind_ok.mp h
  obtain ⟨new, s₂, h2, hrest⟩ := bind_ok.mp hrest
  obtain ⟨s₂', s₃, hget, hrest⟩ := bind_ok.mp hrest
  cases hget
  obtain ⟨hbrk, mem₁, rfl⟩ := sysBrk_ok h1
  obtain ⟨hnew, mem₂, rfl⟩ := sysBrk_ok h2
  rw [if_pos rfl] at hbrk
  subst hbrk
  have hne : s.proc.cur.brk + size ≠ 0#32 := by
    intro hz
    have hsum := congrArg BitVec.toNat hz
    rw [BitVec.toNat_add, Nat.mod_eq_of_lt hwrap] at hsum
    have := BitVec.lt_def.mp hsize
    change s.proc.cur.brk.toNat + size.toNat = 0 at hsum
    omega
  rw [if_neg hne] at hnew
  subst hnew
  split at hrest
  · rename_i hroom
    obtain ⟨⟨⟩, s₄, hset, hret⟩ := bind_ok.mp hrest
    cases hset
    obtain ⟨ha, rfl⟩ := pure_ok.mp hret
    have hstart : a = s.proc.cur.brk := by
      rw [ha, BitVec.add_sub_cancel]
    refine ⟨hstart, ?_, hroom, rfl, ?_, rfl⟩
    · rw [hstart]
      exact congrArg Task.brk (setTask_cur _ _)
    · rw [hstart]
  · cases hrest

theorem wrapMalloc_early {size a : Word} (henabled : s.earlyMallocEnabled = true)
    (h : wrapMalloc libc fuel size s = .ok (a, s')) : earlyMalloc fuel size s = .ok (a, s') := by
  unfold wrapMalloc at h
  obtain ⟨s₀, t, hget, hrest⟩ := bind_ok.mp h
  cases hget
  rw [henabled] at hrest
  exact hrest

theorem earlyFree_kept {addr : Word} (h : (s.allocStack[s.allocSP]?).getD 0#32 ≠ addr) :
    earlyFree fuel addr s = .ok ((), s) := by
  change (if (s.allocStack[s.allocSP]?).getD 0#32 = addr then _ else pure () : KernM Unit) s = _
  rw [if_neg h]
  rfl

/-- A C library whose `free` fails. -/
def failingLibc : Libc where
  malloc := fun _ => pure 0#32
  free := fun _ => throw .badPointer
  malloc_keeps := by
    intro size s a s' h
    obtain ⟨-, hs⟩ := pure_ok.mp h
    rw [hs]
    exact ⟨rfl, rfl, rfl⟩
  free_keeps := by
    intro addr s s' h
    cases h

/-- The half of `__wrap_free` that runs in either case. -/
theorem failingLibc_fails {addr : Word} {t : Kern} :
    (do
      onProc enterKernel
      failingLibc.free addr
      onProc leaveKernel : KernM Unit) s ≠ .ok ((), t) := by
  intro h
  obtain ⟨⟨⟩, s₁, -, hrest⟩ := bind_ok.mp h
  obtain ⟨⟨⟩, s₂, hreal, -⟩ := bind_ok.mp hrest
  cases hreal

/-- Early or not, a call of `__wrap_free` that returns has called `__real_free`. -/
theorem not_skipsReal {addr r : Word} (h : AllocStep libc s (.free addr, r) s') :
    ¬ SkipsReal addr s := by
  intro hskip
  obtain ⟨fuel, hex⟩ := h
  obtain ⟨⟨⟩, t, hfree, -⟩ := bind_ok.mp hex
  rw [hskip fuel libc failingLibc] at hfree
  unfold wrapFree at hfree
  obtain ⟨s₀, s₁, -, hrest⟩ := bind_ok.mp hfree
  split at hrest
  · obtain ⟨⟨⟩, s₂, -, hrest⟩ := bind_ok.mp hrest
    exact failingLibc_fails hrest
  · exact failingLibc_fails hrest

end Calls

/-- What holds until the first call of `__wrap_free`. -/
structure EarlyInv (brk : Word) (e : Early) : Prop where
  early : e.kern.earlyMallocEnabled = true
  length : e.kern.allocStack.length = 4096
  le : brk.toNat ≤ e.kern.proc.cur.brk.toNat
  stacked : e.live.Pairwise fun b c => c.stop ≤ b.start.toNat
  within : ∀ b ∈ e.live, brk.toNat ≤ b.start.toNat ∧ b.stop ≤ e.kern.proc.cur.brk.toNat
  top : ∀ b ∈ e.live.head?, 0#32 < b.size ∧
    e.kern.allocStack[e.kern.allocSP]? = some (b.start + b.size)

section Runs
variable {libc} {brk : Word} {e e' : Early} {lbl : AllocOp × Word} {tr : List (AllocOp × Word)}

theorem EarlyInv.liveApart (h : EarlyInv brk e) : LiveApart brk e :=
  ⟨h.stacked.imp fun hbc => Or.inr hbc, h.within⟩

theorem EarlyInv.malloc (h : EarlyInv brk e) (hs : EarlyStep libc e lbl e')
    (hfree : lbl.1.isFree = false) : EarlyInv brk e' := by
  cases hs with
  | free => cases hfree
  | @malloc size a s hsize _ hwrap hstep =>
    obtain ⟨fuel, hex⟩ := hstep
    have hgrown : EarlyGrown size a e.kern s :=
      earlyMalloc_ok hsize hwrap (wrapMalloc_early h.early hex)
    have hstart : a.toNat = e.kern.proc.cur.brk.toNat := congrArg BitVec.toNat hgrown.start
    have hbrk : s.proc.cur.brk.toNat = a.toNat + size.toNat := by
      rw [hgrown.brk, BitVec.toNat_add, Nat.mod_eq_of_lt (by omega)]
    have hle := h.le
    refine ⟨hgrown.early.trans h.early, ?_, ?_, ?_, ?_, ?_⟩
    · rw [hgrown.allocStack, List.length_set, h.length]
    · change brk.toNat ≤ s.proc.cur.brk.toNat
      omega
    · refine List.pairwise_cons.mpr ⟨?_, h.stacked⟩
      intro c hc
      have := (h.within c hc).2
      change c.stop ≤ a.toNat
      omega
    · intro b hb
      change _ ∧ b.stop ≤ s.proc.cur.brk.toNat
      rcases List.mem_cons.mp hb with rfl | hb
      · exact ⟨by change brk.toNat ≤ a.toNat; omega, Nat.le_of_eq hbrk.symm⟩
      · have := h.within b hb
        exact ⟨this.1, by omega⟩
    · intro b hb
      cases hb
      refine ⟨hsize, ?_⟩
      change s.allocStack[s.allocSP]? = _
      rw [hgrown.allocStack, hgrown.allocSP]
      exact List.getElem?_set_self (by rw [h.length]; exact hgrown.room)

/-- `early_free` of the last block does nothing: the stack has its end, not its start. -/
theorem EarlyInv.free_kept (h : EarlyInv brk e) {b : EarlyBlock} (hb : e.live.head? = some b)
    (fuel : Nat) : earlyFree fuel b.start e.kern = .ok ((), e.kern) := by
  obtain ⟨hsize, htop⟩ := h.top b hb
  apply earlyFree_kept
  rw [htop, Option.getD_some]
  intro heq
  have hzero : b.size = 0#32 := by bv_omega
  rw [hzero] at hsize
  exact absurd hsize (by decide)

theorem earlyInv_start {s₀ : Kern} (hearly : s₀.earlyMallocEnabled = true)
    (hlen : s₀.allocStack.length = 4096) : EarlyInv s₀.proc.cur.brk ⟨s₀, []⟩ := by
  refine ⟨hearly, hlen, Nat.le_refl _, List.Pairwise.nil, ?_, ?_⟩
  · intro b hb
    cases hb
  · intro b hb
    cases hb

theorem NestedStep.not_free (h : NestedStep libc brk e lbl e') : lbl.1.isFree = false := by
  obtain ⟨hstep, -, hfreed⟩ := h
  cases hstep with
  | malloc => rfl
  | free hlive hstep => exact absurd (hfreed _ rfl hlive).2 (not_skipsReal hstep)

theorem EarlyInv.run {e₀ : Early} (h : EarlyInv brk e₀) (hrun : Run (EarlyStep libc) e₀ tr e)
    (hall : ∀ lbl ∈ tr, lbl.1.isFree = false) :
    EarlyInv brk e ∧ Run (NestedStep libc brk) e₀ tr e := by
  induction hrun with
  | nil => exact ⟨h, .nil⟩
  | @snoc tr t u l _ hstep ih =>
    obtain ⟨hi, hr⟩ := ih fun lbl hl => hall lbl (List.mem_append_left _ hl)
    have hl : l.1.isFree = false := hall l (by simp)
    have hu := hi.malloc hstep hl
    refine ⟨hu, hr.snoc ⟨hstep, hu.liveApart, ?_⟩⟩
    intro b hb
    rw [hb] at hl
    cases hl

/-- A run that gives every freed block back frees nothing. -/
theorem NestedStep.run_not_free {e₀ : Early} (h : Run (NestedStep libc brk) e₀ tr e) :
    ∀ lbl ∈ tr, lbl.1.isFree = false := by
  refine Run.invariant (I := fun tr _ => ∀ lbl ∈ tr, lbl.1.isFree = false) ?_ ?_ h
  · intro lbl hl
    cases hl
  · intro tr t l u ih hstep lbl hl
    rcases List.mem_append.mp hl with hl | hl
    · exact ih lbl hl
    · rw [List.mem_singleton.mp hl]
      exact hstep.not_free

end Runs

/-- A run gives every freed block back just if it frees nothing: live blocks are apart as long
as that lasts, but `early_free` of the last one does nothing and `__real_free` is called. -/
theorem early_gives_back_iff (s₀ : Kern) (hearly : s₀.earlyMallocEnabled = true)
    (hlen : s₀.allocStack.length = 4096) (tr : List (AllocOp × Word)) (e : Early)
    (hrun : Run (EarlyStep libc) ⟨s₀, []⟩ tr e) :
    (Run (NestedStep libc s₀.proc.cur.brk) ⟨s₀, []⟩ tr e ↔ ∀ lbl ∈ tr, lbl.1.isFree = false) ∧
      ((∀ lbl ∈ tr, lbl.1.isFree = false) → ∀ b ∈ e.live.head?, ∀ fuel,
        earlyFree fuel b.start e.kern = .ok ((), e.kern)) := by
  have hstart := earlyInv_start hearly hlen
  refine ⟨⟨NestedStep.run_not_free, fun hall => (hstart.run hrun hall).2⟩, ?_⟩
  intro hall b hb fuel
  exact (hstart.run hrun hall).1.free_kept hb fuel

/-- `KernelTask` before `pg_init`, with a break of 0x200000. -/
def earlyBoot : Kern where
  proc := bootProc 0x200000#32 0x1000#32
  mem := (⟨fun _ _ => 0#32, firstFourMb, true, 0#32, 0, false⟩, fun _ => 0#32)
  earlyMallocEnabled := true
  allocStack := List.replicate 4096 0#32
  allocSP := 0

/-- Two blocks of the boot, one after the other. -/
theorem early_gives_back_two : ∃ tr e, Run (EarlyStep quietLibc) ⟨earlyBoot, []⟩ tr e ∧
    e.live.map EarlyBlock.start = [0x200008#32, 0x200000#32] ∧
    Run (NestedStep quietLibc 0x200000#32) ⟨earlyBoot, []⟩ tr e := by
  have htest : passes (AllocOp.exec quietLibc 3 (.malloc 8) earlyBoot) (fun a s =>
      a == 0x200000#32 && (s.proc.cur.brk == 0x200008#32 &&
        passes (AllocOp.exec quietLibc 3 (.malloc 4) s) fun b _ => b == 0x200008#32)) = true := by
    decide +kernel
  rw [passes_iff] at htest
  obtain ⟨a, s, h1, htest⟩ := htest
  simp only [Bool.and_eq_true, beq_iff_eq] at htest
  obtain ⟨rfl, hbrk, htest⟩ := htest
  rw [passes_iff] at htest
  obtain ⟨b, t, h2, hb⟩ := htest
  rw [beq_iff_eq] at hb
  subst hb
  have hfirst : EarlyStep quietLibc ⟨earlyBoot, []⟩ (.malloc 8, 0x200000#32)
      ⟨s, [⟨0x200000#32, 8, earlyBoot⟩]⟩ :=
    .malloc (by decide) (by decide) (by decide +kernel) ⟨3, h1⟩
  have hsecond : EarlyStep quietLibc ⟨s, [⟨0x200000#32, 8, earlyBoot⟩]⟩ (.malloc 4, 0x200008#32)
      ⟨t, [⟨0x200008#32, 4, s⟩, ⟨0x200000#32, 8, earlyBoot⟩]⟩ := by
    refine .malloc (by decide) (by simp) ?_ ⟨3, h2⟩
    change s.proc.cur.brk.toNat + _ < _
    rw [hbrk]
    decide
  have hrun := (Run.single hfirst).trans (Run.single hsecond)
  refine ⟨_, _, hrun, rfl, ?_⟩
  refine (early_gives_back_iff quietLibc earlyBoot rfl List.length_replicate _ _ hrun).1.mpr ?_
  intro lbl hl
  rcases List.mem_append.mp hl with hl | hl
  · rw [List.mem_singleton.mp hl]
    rfl
  · rw [List.mem_singleton.mp hl]
    rfl

/-- A block of eight bytes is freed; the break stays above it. -/
theorem not_nested_eight : ∃ tr e, Run (EarlyStep quietLibc) ⟨earlyBoot, []⟩ tr e ∧
    e.live = [] ∧ e.kern.proc.cur.brk = 0x200008#32 ∧ e.kern.allocSP = 1 ∧
    ¬ Run (NestedStep quietLibc 0x200000#32) ⟨earlyBoot, []⟩ tr e := by
  have htest : passes (AllocOp.exec quietLibc 3 (.malloc 8) earlyBoot) (fun a s =>
      a == 0x200000#32 && passes (AllocOp.exec quietLibc 3 (.free 0x200000#32) s) fun _ t =>
        t.proc.cur.brk == 0x200008#32 && t.allocSP == 1) = true := by
    decide +kernel
  rw [passes_iff] at htest
  obtain ⟨a, s, h1, htest⟩ := htest
  simp only [Bool.and_eq_true, beq_iff_eq] at htest
  obtain ⟨rfl, htest⟩ := htest
  rw [passes_iff] at htest
  obtain ⟨r, t, h2, htest⟩ := htest
  simp only [Bool.and_eq_true, beq_iff_eq] at htest
  obtain ⟨hbrk, hsp⟩ := htest
  have hfirst : EarlyStep quietLibc ⟨earlyBoot, []⟩ (.malloc 8, 0x200000#32)
      ⟨s, [⟨0x200000#32, 8, earlyBoot⟩]⟩ :=
    .malloc (by decide) (by decide) (by decide +kernel) ⟨3, h1⟩
  have hsecond : EarlyStep quietLibc ⟨s, [⟨0x200000#32, 8, earlyBoot⟩]⟩ (.free 0x200000#32, r)
      ⟨t, []⟩ := .free (b := ⟨0x200000#32, 8, earlyBoot⟩) rfl ⟨3, h2⟩
  refine ⟨_, _, (Run.single hfirst).trans (Run.single hsecond), rfl, hbrk, hsp, ?_⟩
  intro hnested
  have hfree := NestedStep.run_not_free hnested (.free 0x200000#32, r) (by simp)
  cases hfree

end AkKernel
