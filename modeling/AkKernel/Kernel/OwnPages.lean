import AkKernel.Kernel.UserRequests
import AkKernel.Mem.OwnPages

/-!
# The pages of the programs

In every run from boot no two addresses below `KZERO` have one frame, whatever the tasks ask for,
and whichever programs are loaded.
-/

set_option autoImplicit false

namespace AkKernel

open Programs Runs

structure PageState (s : Kern) : Prop extends LowState s where
  own : OwnPages s.mem.1 (dirs s.proc)

section Steps
variable {s s' s₀ : Kern} {op : KOp} {addr : Word}

theorem PageState.pages (h : PageState s) : PagesOwned s.mem.1 (dirs s.proc) := ⟨h.low, h.own⟩

theorem PageState.effect (h : PageState s) (he : KEffect s op s') : PageState s' := by
  have hlow := h.toLowState.effect he
  cases he with
  | enter task _ => exact ⟨hlow, (sameDirs_taskEnter s.proc task).dirs_eq ▸ h.own⟩
  | enterKernel => exact ⟨hlow, (sameDirs_enterKernel s.proc).dirs_eq ▸ h.own⟩
  | leaveKernel => exact ⟨hlow, (sameDirs_leaveKernel s.proc).dirs_eq ▸ h.own⟩
  | fork pgd c' clone p' hclone hfork =>
    have hd := h.runner.cr3_mem
    refine ⟨hlow, ?_⟩
    rw [taskFork_dirs hfork]
    exact (h.pages.clone hd (pgCloneDir_effect h.init (h.mapped.used hd) hclone)).own
  | call _ m fuel r c' p' hop hrun hsame =>
    refine ⟨hlow, ?_⟩
    rw [hsame.dirs_eq]
    exact ((LowPages.keeper_own h.runner.cur_mem).run (fun _ _ => trivial) ⟨h.init, h.pages⟩
      hrun).2.own
  | copy _ dest a c' hop hrun =>
    have hk := h.runner.kernel_mem
    obtain ⟨hne, -, hed⟩ := pgCopyMapping_ok h.init (h.mapped.dirUsed _ hk) hrun
    exact ⟨hlow, (h.pages.copied hk (h.runner.copies_mem hop) (addrPde_lt a) (addrPte_lt a) hne
      hed).own⟩

/-- The requests of the task that runs in `s₀`, and the frames behind the pages. -/
structure OwnHeld (s₀ s : Kern) : Prop extends Held s₀ s where
  own : OwnPages s.mem.1 (dirs s₀.proc)

theorem OwnHeld.state (h : OwnHeld s₀ s) (h₀ : LowState s₀) : PageState s := by
  refine ⟨h.toHeld.lowState h₀, ?_⟩
  rw [h.tasks.dirs_eq]
  exact h.own

theorem OwnHeld.effect (h : OwnHeld s₀ s) (h₀ : LowState s₀) (hheld : Held s₀ s')
    (he : KEffect s op s') : OwnHeld s₀ s' := by
  refine ⟨hheld, ?_⟩
  rw [← hheld.tasks.dirs_eq]
  exact ((h.state h₀).effect he).own

theorem ownHeld_fault (h₀ : LowState s₀) (ha : addr < kZero) :
    Preserves (OwnHeld s₀) (pgFault addr) := by
  intro s u s' h hrun
  exact h.effect h₀ (h.toHeld.fault h₀ ha hrun) (pgFault_effect (h.ready h₀) hrun)

theorem ownHeld_storeByte (h₀ : LowState s₀) (hl : Loaded s₀) (ha : addr < kZero) (b : UInt8) :
    Preserves (OwnHeld s₀) (storeByte addr b) := by
  intro s u s' h hrun
  have hheld := held_storeByte h₀ hl ha b s u s' h.toHeld hrun
  obtain ⟨n, s₁, hacc, hrun⟩ := bind_ok.mp hrun
  obtain ⟨s₂, s₃, hget, hrun⟩ := bind_ok.mp hrun
  cases hget
  cases hrun
  have h₁ := preserves_access (ownHeld_fault h₀ ha) s n s₁ h hacc
  obtain ⟨t, ht, hn⟩ := h₁.toHeld.walk_own hl ha (h.toHeld.access h₀ ha hacc).2
  obtain ⟨-, hplain⟩ := h₁.confine.page_plain h₀.runner.cur_mem ha ht
  rw [hn] at hplain
  exact ⟨hheld, h₁.own.store hplain _ _⟩

theorem ownHeld_lowKept (h₀ : LowState s₀) (hl : Loaded s₀) : LowKept (OwnHeld s₀) := by
  have hheld := held_lowKept h₀ hl
  refine ⟨fun addr ha => ownHeld_fault h₀ ha, fun addr b ha => ownHeld_storeByte h₀ hl ha b, ?_, ?_⟩
  · intro addr ha s u s' h hrun
    have hexec : (KOp.alloc addr).exec 0 s = .ok ((), s') := hrun
    have heffect := KOp.exec_effect (h.ready h₀) hexec
    exact h.effect h₀ (hheld.alloc addr ha s u s' h.toHeld hrun) heffect
  · intro brk s u s' h hrun
    have hbrk := hheld.brk brk s u s' h.toHeld hrun
    cases hrun
    exact ⟨hbrk, h.own⟩

theorem PageState.request (h : PageState s) (hl : Loaded s) {lbl : MemRequest × Unit}
    (hs : RequestStep s lbl s') : PageState s' := by
  have hself : OwnHeld s s := ⟨h.toLowState.held, h.own⟩
  obtain ⟨fuel, hlow, hex⟩ := hs
  cases hr : lbl.1 with
  | load elfData phdr numSegments =>
    rw [hr] at hlow hex
    obtain ⟨⟨u, t⟩, hload⟩ := hlow
    have hsame := elfLoadLow_agrees fuel elfData phdr numSegments s _ hload
    rw [MemRequest.exec, hsame] at hex
    cases hex
    exact ((ownHeld_lowKept h.toLowState hl).elfLoadLow fuel elfData phdr numSegments s _ s' hself
      hload).state h.toLowState
  | brk addr =>
    rw [hr] at hex
    obtain ⟨b, s₁, h1, h2⟩ := bind_ok.mp hex
    cases h2
    exact h.effect (sysBrk_effect h.tmp h1)
  | mmap length flags =>
    rw [hr] at hex
    obtain ⟨b, s₁, h1, h2⟩ := bind_ok.mp hex
    cases h2
    exact h.effect (sysMmapPgoff_effect h.tmp h1)
  | store addr b =>
    rw [hr] at hlow hex
    exact (ownHeld_storeByte h.toLowState hl (lt_kZero_of_below hlow) b s () s' hself hex).state
      h.toLowState

theorem PageState.step (h : PageState s) {lbl : SystemOp × Unit} (hs : SystemStep s lbl s') :
    PageState s' := by
  have hlow := h.toLowState.step hs
  unfold SystemStep at hs
  split at hs
  · obtain ⟨-, fuel, hex⟩ := hs
    exact h.effect (KOp.exec_effect h.tmp hex)
  · exact h.request hs.1 hs.2
  · obtain ⟨hn, rfl⟩ := hs
    exact ⟨hlow, h.own.store hn _ _⟩

end Steps

/-- The pages of the kernel's stack have different frames. -/
def StackOwned (c : Phys) (d : Nat) : Prop :=
  ∀ j k, j < 1024 → k < 1024 → Present (tableWord c d 767 j) → Present (tableWord c d 767 k) →
    frameNo (tableWord c d 767 j) = frameNo (tableWord c d 767 k) → j = k

section Boot
variable {s s₀ : Kern}

theorem Booted.pageState (h : Booted s) (hstack : BootStack s.mem.1 (frameNo s.proc.cr3))
    (hown : StackOwned s.mem.1 (frameNo s.proc.cr3)) : PageState s := by
  refine ⟨h.lowState hstack, ?_⟩
  rw [h.dirs_eq]
  have hstackPage : ∀ i j n, LowPage s.mem.1 {frameNo s.proc.cr3} i j n → i = 767 ∧ j < 1024 ∧
      Present (tableWord s.mem.1 (frameNo s.proc.cr3) 767 j) ∧
      frameNo (tableWord s.mem.1 (frameNo s.proc.cr3) 767 j) = n := by
    rintro i j n ⟨x, rfl, hi, hne, hj, hp, hn⟩
    have h767 : i = 767 := by
      by_contra hne'
      exact hne (h.dir.low i (by omega))
    rw [h767] at hp hn
    exact ⟨h767, hj, hp, hn⟩
  intro n i j k l hp hp'
  obtain ⟨hi, hj, hpj, hnj⟩ := hstackPage i j n hp
  obtain ⟨hk, hl, hpl, hnl⟩ := hstackPage k l n hp'
  exact ⟨hi.trans hk.symm, hown j l hj hl hpj hpl (hnj.trans hnl.symm)⟩

theorem run_pageState {tr : List (SystemOp × Unit)} (h₀ : PageState s₀)
    (hrun : Run SystemStep s₀ tr s) : PageState s :=
  Run.invariant (I := fun _ s => PageState s) h₀ (fun _ _ _ _ h hs => h.step hs) hrun

theorem bootKern_stackOwned : StackOwned bootKern.mem.1 (frameNo bootKern.proc.cr3) := by
  have hd : frameNo bootKern.proc.cr3 = 272 := by decide
  have hslot : frameNo (bootKern.mem.1.mem 272 767) = 274 := by decide
  rw [hd]
  intro j k _ _ hj hk _
  unfold tableWord at hj hk
  rw [hslot] at hj hk
  exact (bootKern_page (by decide) hj).2.trans (bootKern_page (by decide) hk).2.symm

end Boot

end AkKernel
