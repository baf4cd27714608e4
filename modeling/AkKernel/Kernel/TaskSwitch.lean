import AkKernel.Kernel.UserRequests
import AkKernel.Mem.TaskSpaces
import AkKernel.Proc.Switch

/-!
# Tasks go on where they left

The code of `context.S` on the memory of the kernel, where a fork runs `pg_clone_dir`. The stack
pointers of a task are in the kernel's heap, and what they point to is in the task's
own page of the stack.
-/

set_option autoImplicit false

namespace AkKernel

open Ia32 Programs Runs

/-- The words that a function may write which is entered with the stack at `sp`: those below, its
return address and its argument. -/
def calleeWords (sp : Word) : Set Word := { a | a ∈ stackWords ∧ a.toNat < sp.toNat + 8 }

/-- A call of `pg_clone_dir`, which keeps the registers that a C function keeps. It has its frame on
the stack, and in the copy of the stack. -/
structure PgCloneDirCall (c c' : Cpu Phys) (pgd : Word) : Prop where
  mem : ∃ x y, Direct.pgCloneDir pgd c.mem = .ok (c'.reg .eax, x) ∧
    Wrote c.cr3 (calleeWords (c.reg .esp)) x y ∧
    Wrote (c'.reg .eax) (calleeWords (c.reg .esp)) y c'.mem
  esp : c'.reg .esp = c.reg .esp + 4#32
  cr3 : c'.cr3 = c.cr3
  saved : ∀ r, r = .ebp ∨ r = .esi ∨ r = .edi → c'.reg r = c.reg r

/-- The directory that `pg_clone_dir` is called for. -/
def pgdArg (c : Cpu Phys) : Word := peek c.mem c.cr3 (c.reg .esp + 4#32)

structure PgCloneDirCode (ext : ContextExtern → Cpu Phys → Option (Cpu Phys)) : Prop where
  returns : ∀ c c', ext .pgCloneDir c = some c' → PgCloneDirCall c c' (pgdArg c)
  ends : ∀ c r, Direct.pgCloneDir (pgdArg c) c.mem = .ok r → ∃ c', ext .pgCloneDir c = some c'

section Clone
variable {K : KernelWords} {ds : Set Word} {c c' : Cpu Phys} {sp a : Word} {k : Nat}
  {ext : ContextExtern → Cpu Phys → Option (Cpu Phys)}

theorem room_of_page (hlow : 0xBFFFF020 ≤ sp.toNat) (hhigh : sp.toNat ≤ 0xC0000000)
    (hword : sp.toNat % 4 = 0) : (taskSpaces K).Room sp := by
  refine ⟨?_, by omega⟩
  rintro a ⟨k, h1, h8, rfl⟩
  have hslot := slot_toNat (by omega : 4 * k ≤ sp.toNat)
  refine ⟨?_, ?_, ?_⟩
  · rw [addrPde_eq, hslot]
    omega
  · rw [addrPte_eq, hslot]
    omega
  · rw [hslot]
    omega

theorem above_not_callee (h : (taskSpaces K).Room sp) (ha : a ∈ (taskSpaces K).above sp) :
    a ∉ calleeWords (slot sp 8) := by
  intro hc
  have hlt := hc.2
  have hle := ha.2
  have hhigh := h.high
  rw [slot_toNat (by omega)] at hlt
  omega

theorem slot_not_callee (h : (taskSpaces K).Room sp) (hk : k ≤ 6) :
    slot sp k ∉ calleeWords (slot sp 8) := by
  intro hc
  have hlt := hc.2
  have hhigh := h.high
  rw [slot_toNat (by omega), slot_toNat (by omega)] at hlt
  omega

theorem peek_of_frame {x : Phys} {d e : Word} {n m : Nat} (hx : TaskPages K ds x) (hd : d ∈ ds)
    (hn : Home K x d a n) {es : Set Word} {y : Phys} (hy : TaskPages K es y) (he : e ∈ es)
    (hm : Home K y e a m) (heq : y.mem m = x.mem n) : peek y e a = peek x d a := by
  rw [(hy.peek_eq he hm).2, (hx.peek_eq hd hn).2, heq]

theorem PgCloneDirCode.cloneCode (h : PgCloneDirCode ext) : CloneCode (taskSpaces K) ext := by
  intro ds c sp c' hfor hcall
  obtain ⟨hgood, hspace, hroom, hesp, harg⟩ := hfor
  obtain ⟨⟨x, y, hclone, hown, hcopy⟩, hesp', hcr3, hsaved⟩ := h.returns c c' hcall
  unfold pgdArg at hclone
  rw [hesp] at hown hcopy hesp' hclone
  rw [show slot sp 8 + 4#32 = slot sp 7 from slot_pop sp 7] at hesp' hclone
  rw [harg] at hclone
  change TaskPages K ds c.mem at hgood
  obtain ⟨nd, hf, hinv⟩ := pgCloneDir_ok hgood.init
    (hgood.low.mapped.used (TaskPages.dir_mem hspace)) hclone
  obtain ⟨hx, hfresh, hframes, hkept, hstack⟩ := hgood.clone hspace hinv
  rw [← hf] at hx hfresh hstack
  have hds : c.cr3 ∈ insert (c'.reg .eax) ds := Set.mem_insert_of_mem _ hspace
  have hnew : c'.reg .eax ∈ insert (c'.reg .eax) ds := Set.mem_insert _ _
  have hW : calleeWords (slot sp 8) ⊆ (taskSpaces K).stack ∪ (taskSpaces K).common :=
    fun a ha => Or.inl ha.1
  have hy : (taskSpaces K).Good (insert (c'.reg .eax) ds) y :=
    (taskSpaces K).good hx hds hown hW
  -- behind the clone, only words of the callee change
  have hwords : ∀ e ∈ insert (c'.reg .eax) ds, ∀ a ∈ stackWords,
      (e = c.cr3 ∨ e = c'.reg .eax → a ∉ calleeWords (slot sp 8)) →
        peek c'.mem e a = peek x e a := by
    intro e he a ha hn
    rw [(taskSpaces K).kept_stack hy hnew he hcopy hW ha fun h => hn (Or.inr h),
      (taskSpaces K).kept_stack hx hds he hown hW ha fun h => hn (Or.inl h)]
  have hold : ∀ e ∈ ds, ∀ a ∈ stackWords, peek x e a = peek c.mem e a := by
    intro e he a ha
    have hhome : Home K c.mem e a (stackFrame c.mem e) := .stack ha
    exact peek_of_frame hgood he hhome hx (Set.mem_insert_of_mem _ he) (.stack ha) (by
      rw [hframes e he, hkept _ (hgood.plain he hhome).2])
  have hcopied : ∀ a ∈ stackWords, peek x (c'.reg .eax) a = peek c.mem c.cr3 a := by
    intro a ha
    exact peek_of_frame hgood hspace (.stack ha) hx hnew (.stack ha) hstack
  refine ⟨⟨hesp', hcr3, hsaved, ?_⟩, hfresh, (taskSpaces K).good hy hnew hcopy hW, ?_, ?_, ?_, ?_,
    ?_⟩
  · intro k h1 h6
    have hk : slot sp k ∈ stackWords := hroom.slots (slot_mem h1 (by omega))
    rw [hwords _ hds _ hk fun _ => slot_not_callee hroom h6, hold _ hspace _ hk]
  · intro a ha
    have hcallee : a ∉ calleeWords (slot sp 8) := fun h => stackWords_not_kernel h.1 ha
    have hhome : Home K c.mem c.cr3 a (K.home a) := .kernel ha
    rw [(taskSpaces K).kept_common hy hnew hds hcopy hW ha hcallee,
      (taskSpaces K).kept_common hx hds hds hown hW ha hcallee]
    exact peek_of_frame hgood hspace hhome hx hds (.kernel ha)
      (by rw [hkept _ (hgood.plain hspace hhome).2])
  · intro e he hne a ha
    have hee : e ≠ c'.reg .eax := fun h => hfresh (h ▸ he)
    rw [hwords e (Set.mem_insert_of_mem _ he) a ha fun h => absurd h (not_or.mpr ⟨hne, hee⟩),
      hold e he a ha]
  · intro a ha
    rw [hwords _ hds a ha.1 fun _ => above_not_callee hroom ha, hold _ hspace a ha.1]
  · intro a ha
    rw [hwords _ hnew a ha.1 fun _ => above_not_callee hroom ha, hcopied a ha.1]
  · intro k h1 h6
    have hk : slot sp k ∈ stackWords := hroom.slots (slot_mem h1 (by omega))
    rw [hwords _ hnew _ hk fun _ => slot_not_callee hroom h6, hcopied _ hk]

/-- The entries that a clone counts are not among the words of the tasks. -/
theorem TaskPages.demand_poke {x : Phys} {d v : Word} (h : TaskPages K ds x) (hd : d ∈ ds)
    (ha : a ∈ stackWords ∪ K.words) :
    cloneDemand (poke x d a v) (frameNo d) = cloneDemand x (frameNo d) ∧
      (poke x d a v).free = x.free := by
  obtain ⟨n, hn⟩ := exists_home K x d ha
  obtain ⟨hplain, -⟩ := h.plain hd hn
  rw [(h.poke_eq hd hn v).2]
  refine ⟨?_, setWord_free⟩
  have hdir := hplain.setWord_dir (wordIdx a) v (TaskPages.dir_mem hd)
  have hslot : ∀ i ∈ Finset.range 1024,
      slotDemand (x.setWord n (wordIdx a) v) (x.mem (frameNo d) i) =
        slotDemand x (x.mem (frameNo d) i) := by
    intro i hi
    unfold slotDemand
    by_cases hp : PrivateTable (x.mem (frameNo d) i)
    · have htable := hplain.setWord_table (wordIdx a) v (TaskPages.dir_mem hd)
        (Finset.mem_range.mp hi) hp.1.1.ne_nil
      rw [if_pos hp, if_pos hp, privates, htable, ← privates]
    · rw [if_neg hp, if_neg hp]
  rw [cloneDemand, hdir, Finset.sum_congr rfl hslot, ← cloneDemand]

theorem TaskPages.demand_wrote {x y : Phys} {d : Word} {W : Set Word} (h : TaskPages K ds x)
    (hd : d ∈ ds) (hw : Wrote d W x y) (hW : W ⊆ stackWords ∪ K.words) :
    cloneDemand y (frameNo d) = cloneDemand x (frameNo d) ∧ y.free = x.free := by
  have hall : TaskPages K ds y ∧ cloneDemand y (frameNo d) = cloneDemand x (frameNo d) ∧
      y.free = x.free := by
    refine hw.keeps (P := fun y => TaskPages K ds y ∧
      cloneDemand y (frameNo d) = cloneDemand x (frameNo d) ∧ y.free = x.free) ⟨h, rfl, rfl⟩ ?_
    intro t a v ht ha
    obtain ⟨hdemand, hfree⟩ := ht.1.demand_poke hd (hW ha) (v := v)
    exact ⟨(TaskPages.words K ds hd).keeps ht.1 (hW ha), hdemand.trans ht.2.1,
      hfree.trans ht.2.2⟩
  exact hall.2

theorem fork_ends {m : TaskMachine Phys} (h : Switching (taskSpaces K) m)
    (hext : PgCloneDirCode ext) (hroom : (taskSpaces K).Room (m.cpu.reg .esp)) {clone : Word}
    (hn : NewTask (taskSpaces K) m clone)
    (hfree : cloneDemand m.cpu.mem (frameNo m.cpu.cr3) ≤ m.cpu.mem.free.card)
    (back back' : Word) : ∃ c new,
      m.cpu.callWith ext (taskForkContext back') clone back = some c ∧
        Forks (taskSpaces K) m clone new back c := by
  obtain ⟨c₁, hfor, hcr3, ⟨W, hW, hwrote⟩, -, hforks⟩ := h.forks hext.cloneCode hroom hn back back'
  have hgood : TaskPages K m.spaces c₁.mem := hfor.good
  obtain ⟨hdemand, hfree'⟩ := TaskPages.demand_wrote (K := K) h.good h.space hwrote hW
  have harg : pgdArg c₁ = m.cpu.cr3 := by
    have hesp : c₁.reg .esp + 4#32 = slot (m.cpu.reg .esp) 7 := by
      rw [hfor.esp]
      exact slot_pop _ 7
    rw [pgdArg, hesp, hfor.arg, hcr3]
  have hends : ∃ r, Direct.pgCloneDir (pgdArg c₁) c₁.mem = .ok r := by
    rw [harg]
    apply pgCloneDir_ends hgood.init (hgood.low.mapped.used (TaskPages.dir_mem h.space))
    rw [hdemand, hfree']
    exact hfree
  obtain ⟨r, hr⟩ := hends
  obtain ⟨c₂, hclone⟩ := hext.ends c₁ r hr
  exact hforks c₂ hclone

end Clone

/-- One task runs, in the kernel's memory `K`. -/
structure OneTask (K : KernelWords) (m : TaskMachine Phys) : Prop where
  pages : TaskPages K m.spaces m.cpu.mem
  only : m.tasks = {m.current}
  space : m.cpu.cr3 ∈ m.spaces
  words : archTask m.current ⊆ K.words
  pgd : peek m.cpu.mem m.cpu.cr3 (m.current + 0x08#32) = m.cpu.cr3

section Runs
variable (K : KernelWords) (ext : ContextExtern → Cpu Phys → Option (Cpu Phys))

theorem OneTask.switching {K : KernelWords} {m : TaskMachine Phys} (h : OneTask K m) :
    Switching (taskSpaces K) m := .single h.pages h.only h.space h.words h.pgd

/-- From whatever task it is entered, `task` goes on where `k` was. -/
def GoesOn (m : TaskMachine Phys) (task : Word) (k : Cpu Phys) : Prop :=
  ∀ back back', ∃ c₁, m.cpu.callWith ext taskStoreContext m.current back = some c₁ ∧
    ∀ c₂, Works (taskSpaces K) { m with cpu := c₁ } c₂ → c₂.reg .esp = m.cpu.reg .esp →
      ∃ c₃, c₂.callWith ext taskLoadContext task back' = some c₃ ∧
        Resumes (taskSpaces K) 1#32 k c₃

/-- A task that is left goes on behind its call of `task_load_context` when it is entered again,
after any work of the kind `Works` and however often the tasks have switched and forked. -/
theorem task_enter_goes_on (hext : PgCloneDirCode ext) (m₀ m₁ m₂ m₃ : TaskMachine Phys)
    (h₀ : OneTask K m₀) (tr₁ tr₂ : List (SwitchOp Phys))
    (hrun₁ : Run (SwitchStep (taskSpaces K) ext) m₀ tr₁ m₁) (other : Word) (k : Cpu Phys)
    (hother : other ≠ m₁.current)
    (hleave : SwitchStep (taskSpaces K) ext m₁ (.enter other k) m₂)
    (hrun₂ : Run (SwitchStep (taskSpaces K) ext) m₂ tr₂ m₃)
    (haway : ∀ k', SwitchOp.enter m₁.current k' ∉ tr₂)
    (hroom : (taskSpaces K).Room (m₃.cpu.reg .esp)) : GoesOn K ext m₃ m₁.current k := by
  have h₁ := h₀.switching.run hext.cloneCode hrun₁
  have h₂ := h₁.step hext.cloneCode hleave
  have h₃ := h₂.run hext.cloneCode hrun₂
  intro back back'
  exact ((hleave.leftAt_enter h₁ hother).run hrun₂ haway).enter h₃ hroom back back'

/-- A fork returns twice to where it was called: to the task that forks with 0, and with 1 when the
new task is entered, on a copy of the stack. -/
theorem task_fork_returns_twice (hext : PgCloneDirCode ext) (m₀ m : TaskMachine Phys)
    (h₀ : OneTask K m₀) (tr : List (SwitchOp Phys))
    (hrun : Run (SwitchStep (taskSpaces K) ext) m₀ tr m)
    (hroom : (taskSpaces K).Room (m.cpu.reg .esp)) (clone : Word)
    (hn : NewTask (taskSpaces K) m clone)
    (hfree : cloneDemand m.cpu.mem (frameNo m.cpu.cr3) ≤ m.cpu.mem.free.card)
    (back back' : Word) : ∃ m',
      SwitchStep (taskSpaces K) ext m (.fork clone { m.cpu with eip := back }) m' ∧
      m.cpu.callWith ext (taskForkContext back') clone back = some m'.cpu ∧
      Resumes (taskSpaces K) 0#32 { m.cpu with eip := back } m'.cpu ∧
      ∀ tr' m'', Run (SwitchStep (taskSpaces K) ext) m' tr' m'' →
        (∀ k, SwitchOp.enter clone k ∉ tr') → (taskSpaces K).Room (m''.cpu.reg .esp) →
        GoesOn K ext m'' clone { m.cpu with eip := back } := by
  have h := h₀.switching.run hext.cloneCode hrun
  obtain ⟨c, new, hcall, hf⟩ := fork_ends h hext hroom hn hfree back back'
  have hstep := SwitchStep.fork clone back back' c hn hroom hcall
  refine ⟨_, hstep, hcall, hf.returns, ?_⟩
  intro tr' m'' hrun' haway hroom' back₁ back₂
  have h'' := (h.step hext.cloneCode hstep).run hext.cloneCode hrun'
  exact ((hstep.leftAt_fork h).run hrun' haway).enter h'' hroom' back₁ back₂

end Runs

section Boot

/-- The words of two tasks in frame 3, behind the linked 4 MB of the kernel. -/
def pairWords : KernelWords where
  words := archTask 0xC0003000#32 ∪ archTask 0xC0003010#32
  home _ := 3
  high := by
    rintro a ((rfl | rfl | rfl) | (rfl | rfl | rfl)) <;> decide
  inj := by
    rintro a ((rfl | rfl | rfl) | (rfl | rfl | rfl)) b ((rfl | rfl | rfl) | (rfl | rfl | rfl)) -
      <;> decide

/-- `bootKern` with its directory in the first of the tasks. -/
def switchCpu : Cpu Phys where
  reg r := if r = .esp then 0xBFFFFF00#32 else 0#32
  seg _ := 0x10#16
  eip := 0xC0100000#32
  cs := 0x08#32
  eflags := 0x202#32
  cr3 := 0x110000#32
  mem := bootKern.mem.1.setWord 3 2 0x110000#32

def switchMachine : TaskMachine Phys where
  cpu := switchCpu
  current := 0xC0003000#32
  tasks := {0xC0003000#32}
  spaces := {0x110000#32}
  left _ := switchCpu

def directCode (_ : ContextExtern) (c : Cpu Phys) : Option (Cpu Phys) :=
  match Direct.pgCloneDir (pgdArg c) c.mem with
  | .ok (f, x) =>
    some { c with
      reg := Function.update (Function.update c.reg .eax f) .esp (c.reg .esp + 4#32)
      mem := x }
  | .error _ => none

theorem directCode_code : PgCloneDirCode directCode := by
  refine ⟨?_, ?_⟩
  · intro c c' h
    unfold directCode at h
    split at h
    · rename_i f x hx
      cases h
      refine ⟨⟨x, x, hx, .refl, .refl⟩, rfl, rfl, ?_⟩
      rintro r (rfl | rfl | rfl) <;> rfl
    · cases h
  · intro c r hr
    unfold directCode
    rw [hr]
    exact ⟨_, rfl⟩

theorem bootKern_plain : PlainFrame bootKern.mem.1 {272} 3 := by
  refine ⟨by decide, ?_⟩
  rintro y rfl l _ hne
  rcases bootKern_slot hne with h | h | h <;> subst h <;> decide

theorem switchCpu_dir : frameNo '' {0x110000#32} = ({272} : Set Nat) := by
  rw [Set.image_singleton]
  rfl

theorem switchCpu_free {n : Nat} : n ∈ switchCpu.mem.free ↔
    n < firstFourMb.words.length * 32 ∧ Bitmap.test firstFourMb.words n = false :=
  Bitmap.mem_clear

theorem switchMachine_pages : TaskPages pairWords {0x110000#32} switchCpu.mem := by
  have hd : frameNo 0x110000#32 = 272 := rfl
  have hlow := (bootKern_booted.lowState bootKern_stack).low
  rw [bootKern_booted.dirs_eq] at hlow
  have hdir : switchCpu.mem.mem 272 = bootMem 272 := rfl
  have htable : switchCpu.mem.mem 274 = bootMem 274 := rfl
  have hframe : stackFrame switchCpu.mem 0x110000#32 = 275 := by
    rw [stackFrame, hd, tableWord, hdir, show frameNo (bootMem 272 767) = 274 from rfl, htable]
    rfl
  refine ⟨rfl, ?_, ?_, ?_, ?_, ?_, ?_⟩
  · rintro d rfl
    rfl
  · rw [switchCpu_dir]
    exact hlow.store bootKern_plain 2 0x110000#32
  · rintro d rfl
    rw [hd, hdir]
    decide
  · rintro d rfl
    rw [hd, tableWord, hdir, show frameNo (bootMem 272 767) = 274 from rfl, htable]
    decide
  · rintro d rfl e rfl _
    rfl
  · intro a ha
    have haddr : addrPde a = 768 ∧ addrPte a = 3 := by
      rcases ha with (rfl | rfl | rfl) | (rfl | rfl | rfl) <;> decide
    refine ⟨?_, ?_, ?_, ?_, ?_⟩
    · rw [switchCpu_dir]
      refine ⟨bootKern_plain.1, ?_⟩
      rintro y rfl l hl hne
      exact bootKern_plain.2 272 rfl l hl hne
    · intro hm
      have htest : Bitmap.test firstFourMb.words 3 = false := (switchCpu_free.mp hm).2
      exact absurd htest (by decide)
    · rintro d rfl
      rw [hframe]
      exact (by decide : 275 ≠ 3)
    · rintro d rfl
      rw [hd, hdir, haddr.1]
      decide
    · rintro d rfl
      refine ⟨pdeFlags kernelLow4M, pdeFlags kernelLow4M, ?_⟩
      rw [translate, hd, hdir, haddr.1, haddr.2]
      rfl

theorem switchMachine_one : OneTask pairWords switchMachine := by
  refine ⟨switchMachine_pages, rfl, rfl, Set.subset_union_left, ?_⟩
  exact (switchMachine_pages.peek_eq rfl (.kernel (Or.inl (pgd_mem _)))).2

theorem switchCpu_demand :
    cloneDemand switchCpu.mem (frameNo switchCpu.cr3) ≤ switchCpu.mem.free.card := by
  have hslots : ∀ i ∈ Finset.range 1024, i ≠ 767 →
      slotDemand switchCpu.mem (bootMem 272 i) = 0 := by
    intro i _ hi
    apply if_neg
    intro hp
    rcases bootKern_slot hp.1.1.ne_nil with h | h | h
    · exact hi h
    · rw [h] at hp
      exact absurd hp (by decide)
    · rw [h] at hp
      exact absurd hp (by decide)
  have hpages : (privates switchCpu.mem 274 1024).card ≤ 1 := by
    apply Finset.card_le_one.mpr
    intro j hj k hk
    have hpage : ∀ j ∈ privates switchCpu.mem 274 1024, j = 1023 := by
      intro j hj
      have hp : Present (bootMem 274 j) := (Finset.mem_filter.mp hj).2.1
      exact (bootKern_page (by decide) hp).2
    rw [hpage j hj, hpage k hk]
  have hslot : slotDemand switchCpu.mem (bootMem 272 767) ≤ 2 := by
    have htable : frameNo (bootMem 272 767) = 274 := rfl
    rw [slotDemand, if_pos (by decide), htable]
    omega
  have hfree : ({1024, 1025, 1026} : Finset Nat) ⊆ switchCpu.mem.free := by
    intro n hn
    rw [switchCpu_free]
    revert n
    decide
  have hcard := Finset.card_le_card hfree
  have hdir : switchCpu.mem.mem (frameNo switchCpu.cr3) = bootMem 272 := rfl
  rw [cloneDemand, hdir, Finset.sum_eq_single_of_mem 767 (Finset.mem_range.mpr (by decide)) hslots]
  have hthree : ({1024, 1025, 1026} : Finset Nat).card = 3 := rfl
  omega

theorem switchMachine_new : NewTask (taskSpaces pairWords) switchMachine 0xC0003010#32 := by
  refine ⟨?_, Set.subset_union_right, ?_⟩
  · intro h
    have heq : (0xC0003010#32 : Word) = 0xC0003000#32 := h
    exact absurd heq (by decide)
  · rintro t rfl a (rfl | rfl | rfl) (h | h | h) <;> exact absurd h (by decide)

/-- The task forks at boot. -/
theorem task_fork_returns_twice_boot : ∃ m',
    Resumes (taskSpaces pairWords) 0#32 { switchCpu with eip := 0xC0101000#32 } m'.cpu ∧
    GoesOn pairWords directCode m' 0xC0003010#32 { switchCpu with eip := 0xC0101000#32 } := by
  have hroom : (taskSpaces pairWords).Room (switchMachine.cpu.reg .esp) :=
    room_of_page (by decide) (by decide) (by decide)
  obtain ⟨m', hstep, -, hres, hgoes⟩ := task_fork_returns_twice pairWords directCode directCode_code
    switchMachine switchMachine switchMachine_one [] .nil hroom 0xC0003010#32 switchMachine_new
    switchCpu_demand 0xC0101000#32 0xC0101008#32
  have hsp : m'.cpu.reg .esp = 0xBFFFFEFC#32 := hres.esp
  refine ⟨m', hres, hgoes [] m' .nil ?_ ?_⟩
  · intro k hk
    cases hk
  · rw [hsp]
    exact room_of_page (by decide) (by decide) (by decide)

theorem boot_fork : ∃ m, Run (SwitchStep (taskSpaces pairWords) directCode) switchMachine
      [.fork 0xC0003010#32 { switchCpu with eip := 0xC0101000#32 }] m ∧
    m.current = 0xC0003000#32 ∧ 0xC0003010#32 ∈ m.tasks ∧
    m.left 0xC0003010#32 = { switchCpu with eip := 0xC0101000#32 } ∧
    m.cpu.reg .esp = 0xBFFFFEFC#32 := by
  have hroom : (taskSpaces pairWords).Room (switchMachine.cpu.reg .esp) :=
    room_of_page (by decide) (by decide) (by decide)
  obtain ⟨c, new, hcall, hf⟩ := fork_ends switchMachine_one.switching directCode_code hroom
    switchMachine_new switchCpu_demand 0xC0101000#32 0xC0101008#32
  have hleft : Function.update switchMachine.left 0xC0003010#32
      { switchCpu with eip := 0xC0101000#32 } 0xC0003010#32 =
        { switchCpu with eip := 0xC0101000#32 } := Function.update_self ..
  exact ⟨_, .single (.fork _ _ _ c switchMachine_new hroom hcall), rfl, Set.mem_insert _ _, hleft,
    hf.returns.esp⟩

theorem task_enter_goes_on_boot : ∃ m k, GoesOn pairWords directCode m 0xC0003000#32 k := by
  obtain ⟨m₁, hrun, hcur, hmem, hleft, hsp⟩ := boot_fork
  have hne : (0xC0003010#32 : Word) ≠ m₁.current := by
    rw [hcur]
    decide
  have hroom : (taskSpaces pairWords).Room (m₁.cpu.reg .esp) := by
    rw [hsp]
    exact room_of_page (by decide) (by decide) (by decide)
  obtain ⟨k, m₂, hstep, hres, -⟩ := Switching.exists_enter (f := directCode)
    (switchMachine_one.switching.run directCode_code.cloneCode hrun) hroom hmem hne 0xC0102000#32
    0xC0102008#32
  refine ⟨m₂, k, hcur ▸ task_enter_goes_on pairWords directCode directCode_code switchMachine m₁
    m₂ m₂ switchMachine_one _ [] hrun 0xC0003010#32 k hne hstep .nil ?_ ?_⟩
  · intro k' hk
    cases hk
  · rw [hres.esp, hleft]
    exact room_of_page (by decide) (by decide) (by decide)

end Boot

end AkKernel
