import AkKernel.Intr.Entry
import AkKernel.Kernel.TaskSwitch

/-!
# Interrupts that switch tasks

`sched_preempt` and the system calls switch and fork in the middle of `idt_handler`, on the stack of
the program that was interrupted. The arguments of the interrupt wait there with the task.
-/

set_option autoImplicit false

namespace AkKernel

open Ia32 Programs Runs

/-- Code of the handler, which keeps the words from `p` on apart from `out`. -/
structure OnTop (p : Word) (out : Set Word) (c c' : Cpu Phys) : Prop where
  cr3 : c'.cr3 = c.cr3
  kept : ∀ a ∈ stackWords, p.toNat ≤ a.toNat → a ∉ out →
    peek c'.mem c.cr3 a = peek c.mem c.cr3 a

section Handling
variable (K : KernelWords) (f : ContextExtern → Cpu Phys → Option (Cpu Phys)) (p : Word)
  (out : Set Word)

/-- The handler of an interrupt of `m` has come to `m'`: it works, switches to another task and is
switched back to, or forks. A task that was forked is in the same handler. -/
inductive Handling (m : TaskMachine Phys) : TaskMachine Phys → Prop where
  | enters : Handling m m
  | work {m' : TaskMachine Phys} (c : Cpu Phys) : Handling m m' → Works (taskSpaces K) m' c →
      OnTop p out m'.cpu c → Handling m { m' with cpu := c }
  | away {m' m₁ m₂ m₃ : TaskMachine Phys} (other : Word) (k k' : Cpu Phys)
      (tr : List (SwitchOp Phys)) : Handling m m' → other ≠ m'.current →
      SwitchStep (taskSpaces K) f m' (.enter other k) m₁ → OnTop p out m'.cpu k →
      (k.reg .esp).toNat ≤ p.toNat → Run (SwitchStep (taskSpaces K) f) m₁ tr m₂ →
      (∀ k, SwitchOp.enter m'.current k ∉ tr) →
      SwitchStep (taskSpaces K) f m₂ (.enter m'.current k') m₃ → Handling m m₃
  | fork {m' m₁ : TaskMachine Phys} (clone : Word) (k : Cpu Phys) : Handling m m' →
      (m'.cpu.reg .esp).toNat ≤ p.toNat → SwitchStep (taskSpaces K) f m' (.fork clone k) m₁ →
      Handling m m₁
  | child {m' m₁ m₂ m₃ : TaskMachine Phys} (clone : Word) (k k' : Cpu Phys)
      (tr : List (SwitchOp Phys)) : Handling m m' → (m'.cpu.reg .esp).toNat ≤ p.toNat →
      SwitchStep (taskSpaces K) f m' (.fork clone k) m₁ →
      Run (SwitchStep (taskSpaces K) f) m₁ tr m₂ → (∀ k, SwitchOp.enter clone k ∉ tr) →
      SwitchStep (taskSpaces K) f m₂ (.enter clone k') m₃ → Handling m m₃

/-- What the handler keeps of the machine `m` that it was entered with. -/
structure Handled (m m' : TaskMachine Phys) : Prop where
  switching : Switching (taskSpaces K) m'
  words : ∀ a ∈ stackWords, p.toNat ≤ a.toNat → a ∉ out →
    peek m'.cpu.mem m'.cpu.cr3 a = peek m.cpu.mem m.cpu.cr3 a
  known : m.current ∈ m'.tasks
  pgd : m'.pgd m.current = m.pgd m.current

end Handling

section Invariant
variable {K : KernelWords} {f : ContextExtern → Cpu Phys → Option (Cpu Phys)} {p : Word}
  {out : Set Word} {m m' m₁ m₂ m₃ : TaskMachine Phys} {k k' : Cpu Phys}

theorem Handled.step (h : Handled K p out m m') (hext : PgCloneDirCode f) {op : SwitchOp Phys}
    (hs : SwitchStep (taskSpaces K) f m' op m₁)
    (hwords : ∀ a ∈ stackWords, p.toNat ≤ a.toNat → a ∉ out →
      peek m₁.cpu.mem m₁.cpu.cr3 a = peek m'.cpu.mem m'.cpu.cr3 a) : Handled K p out m m₁ := by
  obtain ⟨hknown, hpgd⟩ := hs.pgd_eq h.switching hext.cloneCode h.known
  refine ⟨h.switching.step hext.cloneCode hs, ?_, hknown, hpgd.trans h.pgd⟩
  intro a ha hp ho
  rw [hwords a ha hp ho, h.words a ha hp ho]

theorem Handled.resumes (h : Handled K p out m m') (hext : PgCloneDirCode f) {task : Word}
    {tr : List (SwitchOp Phys)} {op : SwitchOp Phys}
    (hs : SwitchStep (taskSpaces K) f m' op m₁) (hleft : LeftAt m₁ task k)
    (hk : ∀ a ∈ stackWords, p.toNat ≤ a.toNat → a ∉ out →
      peek k.mem k.cr3 a = peek m'.cpu.mem m'.cpu.cr3 a)
    (hesp : (k.reg .esp).toNat ≤ p.toNat) (hr : Run (SwitchStep (taskSpaces K) f) m₁ tr m₂)
    (hn : ∀ k, SwitchOp.enter task k ∉ tr)
    (hback : SwitchStep (taskSpaces K) f m₂ (.enter task k') m₃) : Handled K p out m m₃ := by
  have h₁ := h.switching.step hext.cloneCode hs
  obtain ⟨hknown₁, hpgd₁⟩ := hs.pgd_eq h.switching hext.cloneCode h.known
  have h₂ := h₁.run hext.cloneCode hr
  obtain ⟨hknown₂, hpgd₂⟩ := pgd_run h₁ hext.cloneCode hr hknown₁
  obtain ⟨hknown₃, hpgd₃⟩ := hback.pgd_eq h₂ hext.cloneCode hknown₂
  obtain ⟨-, hres⟩ := (hleft.run hr hn).entered h₂ hback
  refine ⟨h₂.step hext.cloneCode hback, ?_, hknown₃, ?_⟩
  · intro a ha hp ho
    rw [hres.stack a ⟨ha, hesp.trans hp⟩, hk a ha hp ho, h.words a ha hp ho]
  · exact ((hpgd₃.trans hpgd₂).trans hpgd₁).trans h.pgd

theorem Switching.fork_words (h : Switching (taskSpaces K) m') (hext : PgCloneDirCode f)
    {clone : Word} (hs : SwitchStep (taskSpaces K) f m' (.fork clone k) m₁) :
    Resumes (taskSpaces K) 0#32 k m₁.cpu ∧ k.reg = m'.cpu.reg ∧ k.mem = m'.cpu.mem ∧
      k.cr3 = m'.cpu.cr3 := by
  cases hs with
  | fork _ back back' c hn hroom hcall =>
    obtain ⟨c₁, -, -, -, hsome, hforks⟩ := h.forks hext.cloneCode hroom hn back back'
    obtain ⟨c₂, hclone⟩ := hsome c hcall
    obtain ⟨_, new, hcall', hf⟩ := hforks c₂ hclone
    obtain rfl := Option.some.inj (hcall.symm.trans hcall')
    exact ⟨hf.returns, rfl, rfl, rfl⟩

theorem Handling.handled (h₀ : Switching (taskSpaces K) m) (hext : PgCloneDirCode f)
    (hh : Handling K f p out m m') : Handled K p out m m' := by
  induction hh with
  | enters => exact ⟨h₀, fun _ _ _ _ => rfl, h₀.current, rfl⟩
  | work c _ hworks htop ih =>
    refine ih.step hext (.work c hworks) ?_
    intro a ha hp ho
    dsimp only
    rw [htop.cr3]
    exact htop.kept a ha hp ho
  | away other k k' tr _ hne hs htop hesp hr hn hback ih =>
    refine ih.resumes hext hs (hs.leftAt_enter ih.switching hne) ?_ hesp hr hn hback
    intro a ha hp ho
    rw [htop.cr3]
    exact htop.kept a ha hp ho
  | fork clone k _ hesp hs ih =>
    obtain ⟨hres, hreg, hmem, hcr3⟩ := ih.switching.fork_words hext hs
    refine ih.step hext hs ?_
    intro a ha hp _
    rw [hres.stack a ⟨ha, by rw [hreg]; exact hesp.trans hp⟩, hmem, hcr3]
  | child clone k k' tr _ hesp hs hr hn hback ih =>
    obtain ⟨-, hreg, hmem, hcr3⟩ := ih.switching.fork_words hext hs
    refine ih.resumes hext hs (hs.leftAt_fork ih.switching) ?_ (by rw [hreg]; exact hesp) hr hn
      hback
    intro a _ _ _
    rw [hmem, hcr3]

end Invariant

section Program
variable {K : KernelWords} {f : ContextExtern → Cpu Phys → Option (Cpu Phys)} {sp a : Word}
  {out : Set Word} {m m' : TaskMachine Phys} {c c₁ : Cpu Phys} {int : Nat} {err : Option Word}

/-- The stack pointer of a program, with room for an interrupt below. -/
structure IntrRoom (sp : Word) : Prop where
  low : 0xBFFFF040 ≤ sp.toNat
  high : sp.toNat ≤ 0xC0000000
  word : sp.toNat % 4 = 0

theorem IntrRoom.slots (h : IntrRoom sp) : slots sp 1 16 ⊆ stackWords := by
  obtain ⟨hlow, hhigh, hword⟩ := h
  rintro a ⟨k, h1, h16, rfl⟩
  have hslot := slot_toNat (by omega : 4 * k ≤ sp.toNat)
  refine ⟨?_, ?_, ?_⟩
  · rw [addrPde_eq, hslot]
    omega
  · rw [addrPte_eq, hslot]
    omega
  · rw [hslot]
    omega

theorem IntrRoom.above (h : IntrRoom sp) (ha : sp.toNat ≤ a.toNat) : a ∉ Ia32.slots sp 1 16 := by
  have hlow := h.low
  rintro ⟨k, h1, h16, rfl⟩
  rw [slot_toNat (by omega)] at ha
  omega

/-- The arguments are written below the stack of the program. -/
theorem Switching.interrupted (h : Switching (taskSpaces K) m) (hroom : IntrRoom sp)
    (hin : EntersHandler (TaskPages K m.spaces) m.cpu sp int err c₁) :
    Switching (taskSpaces K) { m with cpu := c₁ } := by
  have hW : slots sp 1 16 ⊆ (taskSpaces K).stack ∪ (taskSpaces K).common :=
    hroom.slots.trans Set.subset_union_left
  have hword : ∀ t ∈ m.tasks, ∀ a ∈ archTask t,
      peek c₁.mem m.cpu.cr3 a = peek m.cpu.mem m.cpu.cr3 a := by
    intro t ht a ha
    refine (taskSpaces K).kept_common h.good h.space h.space hin.wrote hW (h.common t ht ha) ?_
    exact fun hs => stackWords_not_kernel (hroom.slots hs) (h.common t ht ha)
  apply h.leaves
  refine ⟨hin.good, hin.cr3, fun t ht => hword t ht _ (pgd_mem t), fun t ht _ => hword t ht, ?_⟩
  intro d hd hne a ha
  exact (taskSpaces K).other_stack h.good h.space hd hne hin.wrote hW ha

/-- The program goes on as it was, apart from `eax` where that is in `out`. The segment registers
`ds`, `es`, `fs` and `gs` are not loaded again. -/
structure GoesOnFrom (sp : Word) (out : Set Word) (c c' : Cpu Phys) : Prop where
  reg : ∀ r, (r = .eax → slot sp 6 ∉ out) → c'.reg r = c.reg r
  eip : c'.eip = c.eip
  cs : c'.cs = c.cs
  eflags : c'.eflags = c.eflags
  stack : ∀ a ∈ stackWords, sp.toNat ≤ a.toNat → peek c'.mem c'.cr3 a = peek c.mem c.cr3 a

theorem slot_kept (hroom : IntrRoom sp) (hout : out ⊆ {slot sp 6})
    (h : Handled K (slot sp 14) out { m with cpu := c₁ } m') {k : Nat} (h1 : 1 ≤ k) (h14 : k ≤ 14)
    (hk : k = 6 → slot sp 6 ∉ out) :
    peek m'.cpu.mem m'.cpu.cr3 (slot sp k) = peek c₁.mem c₁.cr3 (slot sp k) := by
  have hlow := hroom.low
  apply h.words _ (hroom.slots (slot_mem h1 (by omega)))
  · rw [slot_toNat (by omega), slot_toNat (by omega)]
    omega
  · intro ho
    have h6 : k = 6 := (slot_inj (by omega) (by decide)).mp (hout ho)
    subst h6
    exact hk rfl ho

/-- Behind the handler, the registers are those of the program. -/
theorem Handled.leaves (hroom : IntrRoom sp) (hout : out ⊆ {slot sp 6})
    (hsp : m.cpu.reg .esp = sp) (hsw : Switching (taskSpaces K) m)
    (hin : EntersHandler (TaskPages K m.spaces) m.cpu sp int err c₁)
    (h : Handled K (slot sp 14) out { m with cpu := c₁ } m') :
    GoesOnFrom sp out m.cpu
      ((isrArgs m'.cpu.mem m'.cpu.cr3 (slot sp 14)).restore sp m'.cpu) := by
  have hargs := hin.args
  rw [isrArgs_slots, argsOf, IsrargsT.mk.injEq] at hargs
  obtain ⟨-, hedi, hesi, hebp, -, hebx, hedx, hecx, heax, -, -, heip, hcs, heflags⟩ := hargs
  rw [← hin.cr3] at hedi hesi hebp hebx hedx hecx heax heip hcs heflags
  have hword : ∀ k, 1 ≤ k → k ≤ 14 → (k = 6 → slot sp 6 ∉ out) →
      peek m'.cpu.mem m'.cpu.cr3 (slot sp k) = peek c₁.mem c₁.cr3 (slot sp k) :=
    fun k h1 h14 hk => slot_kept hroom hout h h1 h14 hk
  have hne : ∀ k, k ≠ 6 → k = 6 → slot sp 6 ∉ out := fun k hk he => absurd he hk
  rw [isrArgs_slots]
  refine ⟨?_, ?_, ?_, ?_, ?_⟩
  · intro r hr
    cases r with
    | eax => exact (hword 6 (by decide) (by decide) fun _ => hr rfl).trans heax
    | ecx => exact (hword 7 (by decide) (by decide) (hne 7 (by decide))).trans hecx
    | edx => exact (hword 8 (by decide) (by decide) (hne 8 (by decide))).trans hedx
    | ebx => exact (hword 9 (by decide) (by decide) (hne 9 (by decide))).trans hebx
    | esp => exact hsp.symm
    | ebp => exact (hword 11 (by decide) (by decide) (hne 11 (by decide))).trans hebp
    | esi => exact (hword 12 (by decide) (by decide) (hne 12 (by decide))).trans hesi
    | edi => exact (hword 13 (by decide) (by decide) (hne 13 (by decide))).trans hedi
  · exact (hword 3 (by decide) (by decide) (hne 3 (by decide))).trans heip
  · exact (hword 2 (by decide) (by decide) (hne 2 (by decide))).trans hcs
  · exact (hword 1 (by decide) (by decide) (hne 1 (by decide))).trans heflags
  · intro a ha hle
    have hlow := hroom.low
    have hp : (slot sp 14).toNat ≤ a.toNat := by
      rw [slot_toNat (by omega)]
      omega
    have ho : a ∉ out := fun h => hroom.above hle (hout h ▸ slot_mem (by decide) (by decide))
    rw [IsrargsT.restore, h.words a ha hp ho]
    dsimp only
    rw [hin.cr3]
    exact (taskSpaces K).own_stack hsw.good hsw.space hin.wrote
      (hroom.slots.trans Set.subset_union_left) ha (hroom.above hle)

/-- An interrupt of a program whose handler works on top of it, switches to other tasks and back
again, or forks, and both tasks come out of a fork. Then the program goes on where it was
interrupted, with its general registers and its stack; a handler may give it `eax`. -/
theorem interrupted_program_goes_on (K : KernelWords)
    (f : ContextExtern → Cpu Phys → Option (Cpu Phys)) (hext : PgCloneDirCode f)
    (g : IsrExtern → Cpu Phys → Option (Cpu Phys)) (m₀ m : TaskMachine Phys) (h₀ : OneTask K m₀)
    (tr : List (SwitchOp Phys)) (hrun : Run (SwitchStep (taskSpaces K) f) m₀ tr m) (sp : Word)
    (hsp : m.cpu.reg .esp = sp) (hroom : IntrRoom sp) (int : Nat) (err : Option Word)
    (herr : err.isSome ↔ HasErr int) (back : Word) (out : Set Word) (hout : out ⊆ {slot sp 6}) :
    ∃ c₁, takeInterrupt g int err back m.cpu = (g .idtHandler c₁).bind (Cpu.run g idtCbLeave) ∧
      EntersHandler (TaskPages K m.spaces) m.cpu sp int err c₁ ∧
      ∀ m', Handling K f (slot sp 14) out { m with cpu := c₁ } m' →
        m'.cpu.reg .esp = slot sp 15 → ∃ c', m'.cpu.run g idtCbLeave = some c' ∧
          GoesOnFrom sp out m.cpu c' ∧ (m'.current = m.current → c'.cr3 = m.cpu.cr3) := by
  have h := h₀.switching.run hext.cloneCode hrun
  have hA : slots sp 1 16 ⊆ stackWords ∪ K.words := hroom.slots.trans Set.subset_union_left
  obtain ⟨c₁, htake, hin⟩ := takeInterrupt_run (f := g) (TaskPages.words K m.spaces h.space) h.good
    hsp hA herr back
  refine ⟨c₁, htake, hin, ?_⟩
  intro m' hh hesp
  have h₁ := h.interrupted hroom hin
  have hhandled := hh.handled h₁ hext
  have hspace := hhandled.switching.space
  refine ⟨_, leave_run (TaskPages.words K m'.spaces hspace) hhandled.switching.good hesp
    ((slots_mono (by decide) (by decide)).trans hA), hhandled.leaves hroom hout hsp h hin, ?_⟩
  intro hcur
  have hpgd : m'.pgd m'.current = m'.cpu.cr3 := hhandled.switching.cr3
  have hpgd₁ : TaskMachine.pgd { m with cpu := c₁ } m.current = c₁.cr3 := h₁.cr3
  rw [IsrargsT.restore, ← hin.cr3, ← hpgd₁, ← hpgd, hcur]
  exact hhandled.pgd

/-- At boot, a task that has forked is interrupted by the timer, and the other one is switched to. -/
theorem interrupted_program_goes_on_boot : ∃ (m m' : TaskMachine Phys) (c' : Cpu Phys),
    m.current = 0xC0003000#32 ∧ m.cpu.reg .esp = 0xBFFFFEFC#32 ∧
    m'.cpu.run (fun _ _ => none) idtCbLeave = some c' ∧
    GoesOnFrom 0xBFFFFEFC#32 ∅ m.cpu c' := by
  obtain ⟨m, hrun, hcur, hmem, hleft, hsp⟩ := boot_fork
  have hroom : IntrRoom 0xBFFFFEFC#32 := ⟨by decide, by decide, by decide⟩
  obtain ⟨c₁, -, hin, hgoes⟩ := interrupted_program_goes_on pairWords directCode directCode_code
    (fun _ _ => none) switchMachine m switchMachine_one _ hrun 0xBFFFFEFC#32 hsp hroom 32 none
    (by decide) 0xC0103000#32 ∅ (Set.empty_subset _)
  have h := switchMachine_one.switching.run directCode_code.cloneCode hrun
  have h₁ := h.interrupted hroom hin
  have hne : (0xC0003010#32 : Word) ≠ m.current := by
    rw [hcur]
    decide
  have hroom₁ : (taskSpaces pairWords).Room (c₁.reg .esp) := by
    rw [hin.esp]
    exact room_of_page (by decide) (by decide) (by decide)
  -- the handler switches to the task that was forked, and is switched back to
  obtain ⟨k, m₂, haway, hres, hcr3, hk, hkept⟩ := h₁.exists_enter (f := directCode) hroom₁ hmem hne
    0xC0102000#32 0xC0102008#32
  have hroom₂ : (taskSpaces pairWords).Room (m₂.cpu.reg .esp) := by
    rw [hres.esp, hleft]
    exact room_of_page (by decide) (by decide) (by decide)
  have h₂ := h₁.step directCode_code.cloneCode haway
  have hwait := haway.leftAt_enter h₁ hne
  obtain ⟨k', m₃, hback, hres₃, -⟩ := h₂.exists_enter (f := directCode) hroom₂ hwait.known
    hwait.away 0xC0104000#32 0xC0104008#32
  have h₃ := h₂.step directCode_code.cloneCode hback
  have hle : (k.reg .esp).toNat ≤ (slot 0xBFFFFEFC#32 14).toNat := by
    rw [hk, hin.esp]
    decide
  have htop : OnTop (slot 0xBFFFFEFC#32 14) ∅ c₁ k :=
    ⟨hcr3, fun a ha hp _ => hkept a ⟨ha, (congrArg (·.toNat) hk).symm.trans_le (hle.trans hp)⟩⟩
  have hworks : Works (taskSpaces pairWords) m₃ (m₃.cpu.setReg .esp (slot 0xBFFFFEFC#32 15)) :=
    ⟨h₃.good, rfl, fun _ _ _ _ => rfl, fun _ _ _ _ _ => rfl⟩
  have hstart : Handling pairWords directCode (slot 0xBFFFFEFC#32 14) ∅ { m with cpu := c₁ }
      { m with cpu := c₁ } := .enters
  have hhandling := (hstart.away _ k k' [] hne haway htop hle .nil (by simp) hback).work _ hworks
    ⟨rfl, fun _ _ _ _ => rfl⟩
  obtain ⟨c', hleave, hon, -⟩ := hgoes _ hhandling (by simp)
  exact ⟨m, _, c', hcur, hsp, hleave, hon⟩

end Program

end AkKernel
