import AkKernel.Foundation.Runs
import AkKernel.Foundation.Stacks
import AkKernel.Proc.Context

/-!
# Switching between tasks

`task_enter` and `task_fork` of `arch/x86/proc/task.c`, on the code of `context.S`. A task is the
address of its `arch_task_t`. What the tasks do between these calls is any C code that
leaves `CurrentTask`, the contexts and the stacks of the others alone. `__wrap_malloc` and its
siblings are such code unless they leave `CurrentTask` at another task.
-/

set_option autoImplicit false

namespace AkKernel

open Ia32 Runs

def archTask (task : Word) : Set Word := {task, task + 0x04#32, task + 0x08#32}

/-- `left t` is the processor as task `t` left it, with the address where it goes on. -/
structure TaskMachine (M : Type) where
  cpu : Cpu M
  current : Word
  tasks : Set Word
  spaces : Set Word
  left : Word → Cpu M

/-- Where task `t` goes on when the one that runs leaves for it with the address `back`. -/
def TaskMachine.resumed {M : Type} (m : TaskMachine M) (back t : Word) : Cpu M :=
  Function.update m.left m.current { m.cpu with eip := back } t

theorem resumed_current {M : Type} (m : TaskMachine M) (back : Word) :
    m.resumed back m.current = { m.cpu with eip := back } := Function.update_self ..

theorem resumed_other {M : Type} (m : TaskMachine M) (back : Word) {task : Word}
    (h : task ≠ m.current) :
    m.resumed back task = m.left task :=
  Function.update_of_ne h ..

section Machine
variable {M : Type} [Memory M]

/-- The task at `task` waits in space `d`: its context is that of a call of `task_store_context`
where `k` was, and its stack is that of `k`. -/
structure Waits (S : Spaces M) (m : M) (d task : Word) (k : Cpu M) : Prop where
  room : S.Room (k.reg .esp)
  esp : peek m d task = slot (k.reg .esp) 5
  ebp : peek m d (task + 0x04#32) = slot (k.reg .esp) 3
  caller : peek m d (slot (k.reg .esp) 3) = k.reg .ebp
  ret : peek m d (slot (k.reg .esp) 2) = k.eip
  stack : ∀ a ∈ S.above (k.reg .esp), peek m d a = peek k.mem k.cr3 a

/-- The running task has done something from which the others are safe: the contexts of all tasks,
the stacks of the others and the directory that is loaded are as they were. -/
structure Works (S : Spaces M) (m : TaskMachine M) (c : Cpu M) : Prop where
  good : S.Good m.spaces c.mem
  cr3 : c.cr3 = m.cpu.cr3
  tasks : ∀ t ∈ m.tasks, ∀ a ∈ archTask t, peek c.mem m.cpu.cr3 a = peek m.cpu.mem m.cpu.cr3 a
  others : ∀ d ∈ m.spaces, d ≠ m.cpu.cr3 → ∀ a ∈ S.stack,
    peek c.mem d a = peek m.cpu.mem d a

/-- A call of `pg_clone_dir` for the space in use has returned. -/
structure ClonesSpace (S : Spaces M) (ds : Set Word) (c : Cpu M) (sp : Word) (c' : Cpu M) :
    Prop where
  returns : Returns c c' c.cr3 sp
  fresh : c'.reg .eax ∉ ds
  good : S.Good (insert (c'.reg .eax) ds) c'.mem
  common : ∀ a ∈ S.common, peek c'.mem c.cr3 a = peek c.mem c.cr3 a
  others : ∀ d ∈ ds, d ≠ c.cr3 → ∀ a ∈ S.stack, peek c'.mem d a = peek c.mem d a
  own : ∀ a ∈ S.above sp, peek c'.mem c.cr3 a = peek c.mem c.cr3 a
  copy : ∀ a ∈ S.above sp, peek c'.mem (c'.reg .eax) a = peek c.mem c.cr3 a
  copyCall : ∀ k, 1 ≤ k → k ≤ 6 →
    peek c'.mem (c'.reg .eax) (slot sp k) = peek c.mem c.cr3 (slot sp k)

/-- It is called with this space, on the stack of a caller whose stack was at `sp`. -/
structure CallsFor (S : Spaces M) (ds : Set Word) (c : Cpu M) (sp : Word) : Prop where
  good : S.Good ds c.mem
  space : c.cr3 ∈ ds
  room : S.Room sp
  esp : c.reg .esp = slot sp 8
  arg : peek c.mem c.cr3 (slot sp 7) = c.cr3

def CloneCode (S : Spaces M) (f : ContextExtern → Cpu M → Option (Cpu M)) : Prop :=
  ∀ ds c sp c', CallsFor S ds c sp → f .pgCloneDir c = some c' → ClonesSpace S ds c sp c'

/-- With a switch or a fork goes the processor where a task goes on afterwards: the one that is
left, or the new one. -/
inductive SwitchOp (M : Type) where
  | work
  | enter (task : Word) (k : Cpu M)
  | fork (clone : Word) (k : Cpu M)

/-- What a fork needs of the new task. -/
structure NewTask (S : Spaces M) (m : TaskMachine M) (clone : Word) : Prop where
  new : clone ∉ m.tasks
  common : archTask clone ⊆ S.common
  apart : ∀ t ∈ m.tasks, ∀ a ∈ archTask clone, a ∉ archTask t

/-- `enter` is `task_enter`: between its two calls it sets `CurrentTask`, and nothing else does. The
addresses `back` and `back'` are behind the calls. `fork` is the call of `task_fork_context` in
`task_fork`. -/
inductive SwitchStep (S : Spaces M) (f : ContextExtern → Cpu M → Option (Cpu M))
    (m : TaskMachine M) : SwitchOp M → TaskMachine M → Prop where
  | work (c : Cpu M) : Works S m c → SwitchStep S f m .work { m with cpu := c }
  | enter (task back back' : Word) (c₁ c₂ c₃ : Cpu M) : task ∈ m.tasks →
      S.Room (m.cpu.reg .esp) →
      m.cpu.callWith f taskStoreContext m.current back = some c₁ →
      Works S { m with cpu := c₁ } c₂ → c₂.reg .esp = m.cpu.reg .esp →
      c₂.callWith f taskLoadContext task back' = some c₃ →
      SwitchStep S f m (.enter task { c₂ with eip := back' }) { m with
        cpu := c₃, current := task, left := TaskMachine.resumed { m with cpu := c₂ } back' }
  | fork (clone back back' : Word) (c : Cpu M) : NewTask S m clone → S.Room (m.cpu.reg .esp) →
      m.cpu.callWith f (taskForkContext back') clone back = some c →
      SwitchStep S f m (.fork clone { m.cpu with eip := back }) { m with
        cpu := c, tasks := insert clone m.tasks,
        spaces := insert (peek c.mem c.cr3 (clone + 0x08#32)) m.spaces,
        left := Function.update m.left clone { m.cpu with eip := back } }

/-- The call where `k` was has returned `v` to `c`: to the same place, on the same stack, with the
argument of the call still there. -/
structure Resumes (S : Spaces M) (v : Word) (k c : Cpu M) : Prop where
  eax : c.reg .eax = v
  esp : c.reg .esp = slot (k.reg .esp) 1
  ebp : c.reg .ebp = k.reg .ebp
  eip : c.eip = k.eip
  stack : ∀ a ∈ S.above (k.reg .esp), peek c.mem c.cr3 a = peek k.mem k.cr3 a

structure Switching (S : Spaces M) (m : TaskMachine M) : Prop where
  good : S.Good m.spaces m.cpu.mem
  current : m.current ∈ m.tasks
  space : m.cpu.cr3 ∈ m.spaces
  cr3 : peek m.cpu.mem m.cpu.cr3 (m.current + 0x08#32) = m.cpu.cr3
  spaces : ∀ t ∈ m.tasks, peek m.cpu.mem m.cpu.cr3 (t + 0x08#32) ∈ m.spaces
  own : ∀ t ∈ m.tasks, ∀ u ∈ m.tasks, peek m.cpu.mem m.cpu.cr3 (t + 0x08#32) =
    peek m.cpu.mem m.cpu.cr3 (u + 0x08#32) → t = u
  common : ∀ t ∈ m.tasks, archTask t ⊆ S.common
  apart : ∀ t ∈ m.tasks, ∀ u ∈ m.tasks, t ≠ u → ∀ a ∈ archTask t,
    a ∉ archTask u
  waits : ∀ t ∈ m.tasks, t ≠ m.current →
    Waits S m.cpu.mem (peek m.cpu.mem m.cpu.cr3 (t + 0x08#32)) t (m.left t)

end Machine

section Steps
variable {M : Type} [Memory M] {S : Spaces M} {m m' : TaskMachine M} {c k : Cpu M} {x y : M}
  {d task a : Word} {ds W : Set Word}

theorem esp_mem (task : Word) : task ∈ archTask task := Or.inl rfl

theorem ebp_mem (task : Word) : task + 0x04#32 ∈ archTask task := Or.inr (Or.inl rfl)

theorem pgd_mem (task : Word) : task + 0x08#32 ∈ archTask task := Or.inr (Or.inr rfl)

theorem room_taskWords {sp : Word} (h : S.Room sp) (ht : archTask task ⊆ S.common) :
    TaskWords (S.stack ∪ S.common) sp task := by
  have hout : ∀ a ∈ archTask task, a ∉ slots sp 1 8 :=
    fun a ha hs => S.disjoint a (h.slots hs) (ht ha)
  exact ⟨Or.inr (ht (esp_mem task)), Or.inr (ht (ebp_mem task)), Or.inr (ht (pgd_mem task)),
    hout _ (esp_mem task), hout _ (ebp_mem task), hout _ (pgd_mem task)⟩

theorem Waits.congr (h : Waits S x d task k) (hs : ∀ a ∈ S.stack, peek y d a = peek x d a)
    (ht : ∀ a ∈ archTask task, peek y d a = peek x d a) : Waits S y d task k := by
  refine ⟨h.room, ?_, ?_, ?_, ?_, ?_⟩
  · exact (ht _ (esp_mem task)).trans h.esp
  · exact (ht _ (ebp_mem task)).trans h.ebp
  · exact (hs _ (h.room.slots (slot_mem (by decide) (by decide)))).trans h.caller
  · exact (hs _ (h.room.slots (slot_mem (by decide) (by decide)))).trans h.ret
  · intro a ha
    exact (hs a ha.1).trans (h.stack a ha)

theorem Switching.ne_cr3 (h : Switching S m) (ht : task ∈ m.tasks) (hne : task ≠ m.current) :
    peek m.cpu.mem m.cpu.cr3 (task + 0x08#32) ≠ m.cpu.cr3 := by
  intro he
  apply hne
  apply h.own task ht m.current h.current
  rw [he, h.cr3]

theorem Switching.task_word (h : Switching S m) (hd : d ∈ m.spaces) (ht : task ∈ m.tasks)
    (ha : a ∈ archTask task) : peek m.cpu.mem d a = peek m.cpu.mem m.cpu.cr3 a :=
  S.same m.spaces _ h.good _ h.space _ hd a (h.common task ht ha)

/-- The tasks that do not run are as they were. -/
structure Leaves (S : Spaces M) (m : TaskMachine M) (c : Cpu M) : Prop where
  good : S.Good m.spaces c.mem
  cr3 : c.cr3 = m.cpu.cr3
  pgds : ∀ t ∈ m.tasks, peek c.mem m.cpu.cr3 (t + 0x08#32) =
    peek m.cpu.mem m.cpu.cr3 (t + 0x08#32)
  tasks : ∀ t ∈ m.tasks, t ≠ m.current → ∀ a ∈ archTask t,
    peek c.mem m.cpu.cr3 a = peek m.cpu.mem m.cpu.cr3 a
  others : ∀ d ∈ m.spaces, d ≠ m.cpu.cr3 → ∀ a ∈ S.stack,
    peek c.mem d a = peek m.cpu.mem d a

theorem Works.leaves (hw : Works S m c) : Leaves S m c :=
  ⟨hw.good, hw.cr3, fun t ht => hw.tasks t ht _ (pgd_mem t), fun t ht _ => hw.tasks t ht,
    hw.others⟩

theorem Switching.leaves (h : Switching S m) (hw : Leaves S m c) :
    Switching S { m with cpu := c } := by
  have hpgd : ∀ t ∈ m.tasks, peek c.mem c.cr3 (t + 0x08#32) =
      peek m.cpu.mem m.cpu.cr3 (t + 0x08#32) := by
    intro t ht
    rw [hw.cr3]
    exact hw.pgds t ht
  have hspace : c.cr3 ∈ m.spaces := by
    rw [hw.cr3]
    exact h.space
  refine ⟨hw.good, h.current, hspace, ?_, ?_, ?_, h.common, h.apart, ?_⟩
  · exact ((hpgd _ h.current).trans h.cr3).trans hw.cr3.symm
  · intro t ht
    have heq := hpgd t ht
    dsimp only at heq ⊢
    rw [heq]
    exact h.spaces t ht
  · intro t ht u hu he
    refine h.own t ht u hu ?_
    rw [← hpgd t ht, ← hpgd u hu]
    exact he
  · intro t ht hne
    have hd := h.spaces t ht
    have hwait := h.waits t ht hne
    dsimp only at hne ⊢
    rw [hpgd t ht]
    refine hwait.congr (hw.others _ hd (h.ne_cr3 ht hne)) ?_
    intro a ha
    rw [S.same m.spaces _ hw.good _ h.space _ hd a (h.common t ht ha), hw.tasks t ht hne a ha,
      h.task_word hd ht ha]

variable {f : ContextExtern → Cpu M → Option (Cpu M)} {back : Word}

theorem room_not_task {sp : Word} (h : S.Room sp) (ht : archTask task ⊆ S.common)
    (ha : a ∈ archTask task) : a ∉ slots sp 1 8 := fun hs => S.disjoint a (h.slots hs) (ht ha)

theorem room_words {sp : Word} (h : S.Room sp) : slots sp 1 5 ⊆ S.stack ∪ S.common :=
  (h.sub (Nat.le_refl 1) (by decide)).trans Set.subset_union_left

theorem not_saved_pgd : task + 0x08#32 ∉ ({task, task + 0x04#32} : Set Word) := by
  rintro (he | he)
  · exact add_ne_self (by decide) he
  · exact absurd ((BitVec.add_right_inj task).mp he) (by decide)

theorem saved_subset : ({task, task + 0x04#32} : Set Word) ⊆ archTask task := by
  rintro a (rfl | rfl)
  · exact esp_mem _
  · exact ebp_mem _

/-- `task_store_context` returns 0, and writes the context of the current task only. -/
theorem Switching.store (h : Switching S m) (hroom : S.Room (m.cpu.reg .esp)) (back : Word) :
    ∃ c, m.cpu.callWith f taskStoreContext m.current back = some c ∧
      Resumes S 0#32 { m.cpu with eip := back } c ∧ Leaves S m c ∧
      peek c.mem m.cpu.cr3 m.current = slot (m.cpu.reg .esp) 5 ∧
      peek c.mem m.cpu.cr3 (m.current + 0x04#32) = slot (m.cpu.reg .esp) 3 := by
  have hcur := h.common _ h.current
  have hA := room_words hroom
  obtain ⟨c, hcall, hst⟩ := taskStoreContext_run (f := f) (S.words _ _ h.space) h.good rfl hA
    (room_taskWords hroom hcur) back
  have hW : slots (m.cpu.reg .esp) 1 5 ∪ {m.current, m.current + 0x04#32} ⊆
      S.stack ∪ S.common :=
    Set.union_subset hA ((saved_subset.trans hcur).trans Set.subset_union_right)
  have hslots : ∀ a, a ∉ slots (m.cpu.reg .esp) 1 8 → a ∉ slots (m.cpu.reg .esp) 1 5 :=
    fun a ha h5 => ha (slots_mono (by decide) (by decide) h5)
  have hout : ∀ t ∈ m.tasks, ∀ a ∈ archTask t, a ∉ ({m.current, m.current + 0x04#32} : Set Word) →
      peek c.mem m.cpu.cr3 a = peek m.cpu.mem m.cpu.cr3 a := by
    intro t ht a ha hn
    refine S.kept_common h.good h.space h.space hst.wrote hW (h.common t ht ha) ?_
    rintro (hs | hs)
    · exact hslots a (room_not_task hroom (h.common t ht) ha) hs
    · exact hn hs
  refine ⟨c, hcall, ?_, ⟨S.good h.good h.space hst.wrote hW, hst.cr3, ?_, ?_, ?_⟩, hst.savedEsp,
    hst.savedEbp⟩
  · refine ⟨hst.eax, hst.esp, hst.ebp, hst.eip, ?_⟩
    intro a ha
    rw [hst.cr3]
    refine S.own_stack h.good h.space hst.wrote hW ha.1 ?_
    rintro (hs | hs)
    · exact hslots a (hroom.above_slots ha) hs
    · exact S.disjoint a ha.1 (hcur (saved_subset hs))
  · intro t ht
    refine hout t ht _ (pgd_mem t) ?_
    by_cases he : t = m.current
    · rw [he]
      exact not_saved_pgd
    · intro hs
      exact h.apart t ht _ h.current he _ (pgd_mem t) (saved_subset hs)
  · intro t ht hne a ha
    refine hout t ht a ha ?_
    intro hs
    exact h.apart t ht _ h.current hne a ha (saved_subset hs)
  · intro d hd hne a ha
    exact S.other_stack h.good h.space hd hne hst.wrote hW ha

/-- The task that runs has stored its context where it is now. -/
structure Parked (S : Spaces M) (m : TaskMachine M) : Prop where
  room : S.Room (m.cpu.reg .esp)
  esp : peek m.cpu.mem m.cpu.cr3 m.current = slot (m.cpu.reg .esp) 5
  ebp : peek m.cpu.mem m.cpu.cr3 (m.current + 0x04#32) = slot (m.cpu.reg .esp) 3

theorem Switching.context (h : Switching S m) (hr : Parked S m) (ht : task ∈ m.tasks)
    (back : Word) :
    S.Room ((m.resumed back task).reg .esp) ∧
      peek m.cpu.mem m.cpu.cr3 task = slot ((m.resumed back task).reg .esp) 5 ∧
      peek m.cpu.mem m.cpu.cr3 (task + 0x04#32) =
        slot ((m.resumed back task).reg .esp) 3 := by
  by_cases he : task = m.current
  · rw [he, resumed_current]
    exact ⟨hr.room, hr.esp, hr.ebp⟩
  · rw [resumed_other m back he]
    have hw := h.waits task ht he
    have hd := h.spaces task ht
    exact ⟨hw.room, (h.task_word hd ht (esp_mem task)).symm.trans hw.esp,
      (h.task_word hd ht (ebp_mem task)).symm.trans hw.ebp⟩

theorem Switching.all_wait (h : Switching S m) (hr : Parked S m) {x : M} {u : Word}
    (hwrote : Wrote m.cpu.cr3 (slots (m.cpu.reg .esp) 1 5) m.cpu.mem x)
    (hframe : Frame x m.cpu.cr3 (m.cpu.reg .esp) u back (m.cpu.reg .ebp) 0#32)
    (ht : task ∈ m.tasks) :
    Waits S x (peek m.cpu.mem m.cpu.cr3 (task + 0x08#32)) task (m.resumed back task) := by
  have hstack : slots (m.cpu.reg .esp) 1 5 ⊆ S.stack :=
    hr.room.sub (Nat.le_refl 1) (by decide)
  have hA := room_words hr.room
  have hkept : ∀ e ∈ m.spaces, ∀ a ∈ archTask task, peek x e a = peek m.cpu.mem e a := by
    intro e he a ha
    exact S.kept_common h.good h.space he hwrote hA (h.common task ht ha)
      fun hs => S.disjoint a (hstack hs) (h.common task ht ha)
  by_cases he : task = m.current
  · rw [he] at hkept ⊢
    rw [resumed_current, h.cr3]
    refine ⟨hr.room, ?_, ?_, hframe.caller, hframe.ret, ?_⟩
    · exact (hkept _ h.space _ (esp_mem _)).trans hr.esp
    · exact (hkept _ h.space _ (ebp_mem _)).trans hr.ebp
    · intro a ha
      refine S.own_stack h.good h.space hwrote hA ha.1 ?_
      exact fun hs => hr.room.above_slots ha (slots_mono (by decide) (by decide) hs)
  · rw [resumed_other m back he]
    refine (h.waits task ht he).congr ?_ (hkept _ (h.spaces task ht))
    intro a ha
    exact S.other_stack h.good h.space (h.spaces task ht) (h.ne_cr3 ht he) hwrote hA ha

theorem Switching.load (h : Switching S m) (hr : Parked S m) (ht : task ∈ m.tasks) (back : Word) :
    ∃ c, m.cpu.callWith f taskLoadContext task back = some c ∧
      Resumes S 1#32 (m.resumed back task) c ∧
      Switching S { m with cpu := c, current := task, left := m.resumed back } ∧
      ∀ t ∈ m.tasks, peek c.mem c.cr3 (t + 0x08#32) =
        peek m.cpu.mem m.cpu.cr3 (t + 0x08#32) := by
  obtain ⟨hroom, hesp, hebp⟩ := h.context hr ht back
  have hd := h.spaces task ht
  have hA := room_words hr.room
  have hAq := room_words hroom
  obtain ⟨x, c, hcall, hwrote, hframe, hres⟩ := taskLoadContext_run (f := f)
    (S.words _ _ h.space) h.good rfl hA (room_taskWords hr.room (h.common task ht)) back hesp hebp
    rfl (S.words _ _ hd) hAq
  have hx : S.Good m.spaces x := S.good h.good h.space hwrote hA
  have hwait : ∀ t ∈ m.tasks, Waits S x (peek m.cpu.mem m.cpu.cr3 (t + 0x08#32)) t
      (m.resumed back t) := fun t ht' => h.all_wait hr hwrote hframe ht'
  -- in the space of the task, one word of its frame is written
  have hpoke : Wrote (peek m.cpu.mem m.cpu.cr3 (task + 0x08#32))
      {slot ((m.resumed back task).reg .esp) 5} x c.mem := by
    rw [hres.mem]
    exact .poke _ .refl rfl
  have hs5 : slot ((m.resumed back task).reg .esp) 5 ∈ S.stack :=
    hroom.slots (slot_mem (by decide) (by decide))
  have hW : ({slot ((m.resumed back task).reg .esp) 5} : Set Word) ⊆ S.stack ∪ S.common :=
    Set.singleton_subset_iff.mpr (Or.inl hs5)
  have hkept : ∀ e ∈ m.spaces, ∀ t ∈ m.tasks, ∀ a ∈ archTask t, peek c.mem e a = peek x e a := by
    intro e he t ht' a ha
    refine S.kept_common hx hd he hpoke hW (h.common t ht' ha) ?_
    rintro rfl
    exact S.disjoint _ hs5 (h.common t ht' ha)
  have hword : ∀ e ∈ m.spaces, ∀ t ∈ m.tasks, ∀ a ∈ archTask t,
      peek c.mem e a = peek m.cpu.mem m.cpu.cr3 a := by
    intro e he t ht' a ha
    rw [hkept e he t ht' a ha, S.kept_common h.good h.space he hwrote hA (h.common t ht' ha)
      (fun hs => room_not_task hr.room (h.common t ht') ha
        (slots_mono (by decide) (by decide) hs)), h.task_word he ht' ha]
  have hcr3 : c.cr3 = peek m.cpu.mem m.cpu.cr3 (task + 0x08#32) := hres.cr3
  have hspace : c.cr3 ∈ m.spaces := hcr3 ▸ hd
  have hpgd : ∀ t ∈ m.tasks, peek c.mem c.cr3 (t + 0x08#32) =
      peek m.cpu.mem m.cpu.cr3 (t + 0x08#32) := fun t ht' => hword _ hspace t ht' _ (pgd_mem t)
  refine ⟨c, hcall, ⟨hres.eax, hres.esp, ?_, ?_, ?_⟩, ?_, hpgd⟩
  · exact hres.ebp.trans (hwait task ht).caller
  · exact hres.eip.trans (hwait task ht).ret
  · intro a ha
    rw [hres.cr3, S.own_stack hx hd hpoke hW ha.1]
    · exact (hwait task ht).stack a ha
    · rintro rfl
      exact hroom.above_slots ha (slot_mem (by decide) (by decide))
  · refine ⟨S.good hx hd hpoke hW, ht, hspace, (hpgd task ht).trans hcr3.symm, ?_, ?_, h.common,
      h.apart, ?_⟩
    · intro t ht'
      have heq := hpgd t ht'
      dsimp only at heq ⊢
      rw [heq]
      exact h.spaces t ht'
    · intro t ht' u hu he
      refine h.own t ht' u hu ?_
      rw [← hpgd t ht', ← hpgd u hu]
      exact he
    · intro t ht' hne
      have hdt := h.spaces t ht'
      have hned : peek m.cpu.mem m.cpu.cr3 (t + 0x08#32) ≠
          peek m.cpu.mem m.cpu.cr3 (task + 0x08#32) := fun he => hne (h.own t ht' task ht he)
      dsimp only
      rw [hpgd t ht']
      refine (hwait t ht').congr ?_ (hkept _ hdt t ht')
      intro a ha
      exact S.other_stack hx hd hdt hned hpoke hW ha

/-- A task that is entered goes on where it left, and the one that enters it with 0. -/
theorem Switching.enter (h : Switching S m) (hroom : S.Room (m.cpu.reg .esp))
    (ht : task ∈ m.tasks) (back back' : Word) :
    ∃ c₁, m.cpu.callWith f taskStoreContext m.current back = some c₁ ∧
      Resumes S 0#32 { m.cpu with eip := back } c₁ ∧
      ∀ c₂, Works S { m with cpu := c₁ } c₂ → c₂.reg .esp = m.cpu.reg .esp →
        ∃ c₃, c₂.callWith f taskLoadContext task back' = some c₃ ∧
          Resumes S 1#32 (TaskMachine.resumed { m with cpu := c₂ } back' task) c₃ ∧
          Switching S { m with
            cpu := c₃, current := task,
            left := TaskMachine.resumed { m with cpu := c₂ } back' } ∧
          ∀ t ∈ m.tasks, peek c₃.mem c₃.cr3 (t + 0x08#32) =
            peek m.cpu.mem m.cpu.cr3 (t + 0x08#32) := by
  obtain ⟨c₁, hcall, hres, hleaves, hesp, hebp⟩ := h.store (f := f) hroom back
  refine ⟨c₁, hcall, hres, ?_⟩
  intro c₂ hworks hsp
  have h₁ := h.leaves hleaves
  have h₂ := h₁.leaves hworks.leaves
  have hcr3 : c₂.cr3 = m.cpu.cr3 := hworks.cr3.trans hleaves.cr3
  have hword : ∀ a ∈ archTask m.current, peek c₂.mem c₂.cr3 a = peek c₁.mem m.cpu.cr3 a := by
    intro a ha
    have heq := hworks.tasks m.current h.current a ha
    dsimp only at heq
    rw [hcr3, ← hleaves.cr3]
    exact heq
  have hr : Parked S { m with cpu := c₂ } := by
    refine ⟨?_, ?_, ?_⟩
    · dsimp only
      rw [hsp]
      exact hroom
    · dsimp only
      rw [hsp, hword _ (esp_mem _)]
      exact hesp
    · dsimp only
      rw [hsp, hword _ (ebp_mem _)]
      exact hebp
  obtain ⟨c₃, hload, hres₃, hnext, hpgd⟩ := h₂.load (f := f) hr ht back'
  refine ⟨c₃, hload, hres₃, hnext, ?_⟩
  intro t ht'
  have hword₂ := hworks.tasks t ht' _ (pgd_mem t)
  dsimp only at hword₂
  rw [hpgd t ht']
  dsimp only
  rw [hcr3, ← hleaves.cr3, hword₂, hleaves.cr3]
  exact hleaves.pgds t ht'

/-- The fork has copied the words of the stack and has left those of the tasks. -/
structure Forks (S : Spaces M) (m : TaskMachine M) (clone new back : Word) (c : Cpu M) : Prop where
  fresh : new ∉ m.spaces
  good : S.Good (insert new m.spaces) c.mem
  cr3 : c.cr3 = m.cpu.cr3
  returns : Resumes S 0#32 { m.cpu with eip := back } c
  pgd : peek c.mem m.cpu.cr3 (clone + 0x08#32) = new
  waits : Waits S c.mem new clone { m.cpu with eip := back }
  tasks : ∀ t ∈ m.tasks, ∀ a ∈ archTask t, peek c.mem m.cpu.cr3 a = peek m.cpu.mem m.cpu.cr3 a
  others : ∀ d ∈ m.spaces, d ≠ m.cpu.cr3 → ∀ a ∈ S.stack, peek c.mem d a = peek m.cpu.mem d a

theorem pgd_ne_esp : task ≠ task + 0x08#32 := (add_ne_self (by decide)).symm

theorem pgd_ne_ebp : task + 0x04#32 ≠ task + 0x08#32 := by
  intro he
  exact absurd ((BitVec.add_right_inj task).mp he) (by decide)

theorem Switching.forks (h : Switching S m) (hext : CloneCode S f)
    (hroom : S.Room (m.cpu.reg .esp)) {clone : Word} (hn : NewTask S m clone)
    (back back' : Word) :
    ∃ c₁, CallsFor S m.spaces c₁ (m.cpu.reg .esp) ∧ c₁.cr3 = m.cpu.cr3 ∧
      (∃ W ⊆ S.stack ∪ S.common, Wrote m.cpu.cr3 W m.cpu.mem c₁.mem) ∧
      (∀ c, m.cpu.callWith f (taskForkContext back') clone back = some c →
        ∃ c₂, f .pgCloneDir c₁ = some c₂) ∧
      ∀ c₂, f .pgCloneDir c₁ = some c₂ →
        ∃ c new, m.cpu.callWith f (taskForkContext back') clone back = some c ∧
          Forks S m clone new back c := by
  have hA : slots (m.cpu.reg .esp) 1 8 ⊆ S.stack ∪ S.common :=
    hroom.slots.trans Set.subset_union_left
  have ht := room_taskWords hroom hn.common
  obtain ⟨c₁, hcalls, hsome, hfork⟩ := taskForkContext_run (f := f) (S.words _ _ h.space)
    h.good rfl hA ht back back'
  have hfor : CallsFor S m.spaces c₁ (m.cpu.reg .esp) := by
    refine ⟨hcalls.good, hcalls.cr3 ▸ h.space, hroom, hcalls.esp, ?_⟩
    rw [hcalls.cr3]
    exact hcalls.arg
  have hW₁ : slots (m.cpu.reg .esp) 1 8 ∪ {clone, clone + 0x04#32} ⊆ S.stack ∪ S.common :=
    Set.union_subset hA ((saved_subset.trans hn.common).trans Set.subset_union_right)
  refine ⟨c₁, hfor, hcalls.cr3, ⟨_, hW₁, hcalls.wrote⟩, hsome, ?_⟩
  intro c₂ hclone
  have hcs := hext m.spaces c₁ (m.cpu.reg .esp) c₂ hfor hclone
  obtain ⟨hret, hfresh, hgood, hcommon, hothers, hown, hcopy, hcopyCall⟩ := hcs
  rw [hcalls.cr3] at hret hcommon hothers hown hcopy hcopyCall
  have hdn : m.cpu.cr3 ∈ insert (c₂.reg .eax) m.spaces := Set.mem_insert_of_mem _ h.space
  have hw₂ := S.words _ _ hdn
  obtain ⟨c, hcall, hf⟩ := hfork c₂ hclone _ hw₂ hgood hret
  have hpgd : clone + 0x08#32 ∈ S.common := hn.common (pgd_mem _)
  -- the last write is the directory of the new task
  have hpoke : Wrote m.cpu.cr3 {clone + 0x08#32} c₂.mem c.mem := by
    rw [hf.mem]
    exact .poke _ .refl rfl
  have hW : ({clone + 0x08#32} : Set Word) ⊆ S.stack ∪ S.common :=
    Set.singleton_subset_iff.mpr (Or.inr hpgd)
  have hnot : ∀ a ∈ S.stack, a ∉ ({clone + 0x08#32} : Set Word) := by
    rintro a ha rfl
    exact S.disjoint _ ha hpgd
  have hnew : c₂.reg .eax ≠ m.cpu.cr3 := fun he => hfresh (he ▸ h.space)
  have hstack : ∀ e ∈ insert (c₂.reg .eax) m.spaces, ∀ a ∈ S.stack,
      peek c.mem e a = peek c₂.mem e a := by
    intro e he a ha
    by_cases hed : e = m.cpu.cr3
    · rw [hed]
      exact S.own_stack hgood hdn hpoke hW ha (hnot a ha)
    · exact S.other_stack hgood hdn he hed hpoke hW ha
  have habove : ∀ a ∈ S.above (m.cpu.reg .esp),
      peek c₁.mem m.cpu.cr3 a = peek m.cpu.mem m.cpu.cr3 a := by
    intro a ha
    refine S.own_stack h.good h.space hcalls.wrote hW₁ ha.1 ?_
    rintro (hs | hs)
    · exact hroom.above_slots ha hs
    · exact S.disjoint a ha.1 (hn.common (saved_subset hs))
  have hword : ∀ a ∈ S.common, a ≠ clone + 0x08#32 →
      peek c.mem m.cpu.cr3 a = peek c₁.mem m.cpu.cr3 a := by
    intro a ha hne
    rw [S.kept_common hgood hdn hdn hpoke hW ha hne, hcommon a ha]
  have hclonePgd : peek c.mem m.cpu.cr3 (clone + 0x08#32) = c₂.reg .eax := by
    rw [hf.mem]
    exact hw₂.peek_self hgood (Or.inr hpgd)
  have hgood' : S.Good (insert (c₂.reg .eax) m.spaces) c.mem := S.good hgood hdn hpoke hW
  have hcall₁ : ∀ k, 1 ≤ k → k ≤ 6 → peek c.mem (c₂.reg .eax) (slot (m.cpu.reg .esp) k) =
      peek c₁.mem m.cpu.cr3 (slot (m.cpu.reg .esp) k) := by
    intro k h1 h6
    rw [hstack _ (Set.mem_insert _ _) _ (hroom.slots (slot_mem h1 (by omega))),
      hcopyCall k h1 h6]
  have hcloneWord : ∀ a ∈ archTask clone, peek c.mem (c₂.reg .eax) a = peek c.mem m.cpu.cr3 a :=
    fun a ha => S.same _ _ hgood' _ hdn _ (Set.mem_insert _ _) a (hn.common ha)
  refine ⟨c, c₂.reg .eax, hcall, hfresh, hgood', hf.cr3, ?_, hclonePgd, ?_, ?_, ?_⟩
  · refine ⟨hf.eax, hf.esp, hf.ebp, hf.eip, ?_⟩
    intro a ha
    rw [hf.cr3, hstack _ hdn a ha.1, hown a ha]
    exact habove a ha
  · refine ⟨hroom, ?_, ?_, ?_, ?_, ?_⟩
    · rw [hcloneWord _ (esp_mem _), hword _ (hn.common (esp_mem _)) pgd_ne_esp]
      exact hcalls.savedEsp
    · rw [hcloneWord _ (ebp_mem _), hword _ (hn.common (ebp_mem _)) pgd_ne_ebp]
      exact hcalls.savedEbp
    · exact (hcall₁ 3 (by decide) (by decide)).trans hcalls.frame.caller
    · exact (hcall₁ 2 (by decide) (by decide)).trans hcalls.frame.ret
    · intro a ha
      rw [hstack _ (Set.mem_insert _ _) a ha.1, hcopy a ha]
      exact habove a ha
  · intro t ht' a ha
    have hdisj : a ∉ archTask clone := fun hc => hn.apart t ht' a hc ha
    rw [hword a (h.common t ht' ha) fun he => hdisj (he ▸ pgd_mem _)]
    refine S.kept_common h.good h.space h.space hcalls.wrote hW₁ (h.common t ht' ha) ?_
    rintro (hs | hs)
    · exact room_not_task hroom (h.common t ht') ha hs
    · exact hdisj (saved_subset hs)
  · intro e he hne a ha
    rw [hstack e (Set.mem_insert_of_mem _ he) a ha, hothers e he hne a ha]
    exact S.other_stack h.good h.space he hne hcalls.wrote hW₁ ha

theorem Switching.fork (h : Switching S m) {clone new : Word} (hn : NewTask S m clone)
    (hf : Forks S m clone new back c) :
    Switching S { m with
      cpu := c, tasks := insert clone m.tasks, spaces := insert new m.spaces,
      left := Function.update m.left clone { m.cpu with eip := back } } := by
  have hcur : m.current ≠ clone := fun he => hn.new (he ▸ h.current)
  have hpgd : ∀ t ∈ m.tasks, peek c.mem c.cr3 (t + 0x08#32) =
      peek m.cpu.mem m.cpu.cr3 (t + 0x08#32) := by
    intro t ht
    rw [hf.cr3]
    exact hf.tasks t ht _ (pgd_mem t)
  have hcpgd : peek c.mem c.cr3 (clone + 0x08#32) = new := by
    rw [hf.cr3]
    exact hf.pgd
  have hspace : c.cr3 ∈ m.spaces := by
    rw [hf.cr3]
    exact h.space
  have hnever : ∀ t ∈ m.tasks, peek m.cpu.mem m.cpu.cr3 (t + 0x08#32) ≠ new :=
    fun t ht he => hf.fresh (he ▸ h.spaces t ht)
  refine ⟨hf.good, Set.mem_insert_of_mem _ h.current, Set.mem_insert_of_mem _ hspace, ?_, ?_, ?_,
    ?_, ?_, ?_⟩
  · exact ((hpgd _ h.current).trans h.cr3).trans hf.cr3.symm
  · rintro t (rfl | ht)
    · exact Or.inl hcpgd
    · exact Or.inr ((hpgd t ht).symm ▸ h.spaces t ht)
  · rintro t (rfl | ht) u (rfl | hu) he
    · rfl
    · exact absurd ((hpgd u hu).symm.trans (he.symm.trans hcpgd)) (hnever u hu)
    · exact absurd ((hpgd t ht).symm.trans (he.trans hcpgd)) (hnever t ht)
    · exact h.own t ht u hu ((hpgd t ht).symm.trans (he.trans (hpgd u hu)))
  · rintro t (rfl | ht)
    · exact hn.common
    · exact h.common t ht
  · rintro t (rfl | ht) u (rfl | hu) hne
    · exact absurd rfl hne
    · exact hn.apart u hu
    · exact fun a ha hc => hn.apart t ht a hc ha
    · exact h.apart t ht u hu hne
  · rintro t (rfl | ht) hne
    · dsimp only
      rw [hcpgd, Function.update_self]
      exact hf.waits
    · have htc : t ≠ clone := fun he => hn.new (he ▸ ht)
      have hd := h.spaces t ht
      dsimp only at hne ⊢
      rw [hpgd t ht, Function.update_of_ne htc]
      refine (h.waits t ht hne).congr (hf.others _ hd (h.ne_cr3 ht hne)) ?_
      intro a ha
      rw [S.same _ _ hf.good _ (Set.mem_insert_of_mem _ h.space) _ (Set.mem_insert_of_mem _ hd) a
        (h.common t ht ha), hf.tasks t ht a ha, h.task_word hd ht ha]

theorem Switching.step (h : Switching S m) (hext : CloneCode S f) {op : SwitchOp M}
    (hs : SwitchStep S f m op m') : Switching S m' := by
  cases hs with
  | work c hw => exact h.leaves hw.leaves
  | enter task back back' c₁ c₂ c₃ ht hroom hstore hworks hsp hload =>
    obtain ⟨_, hcall, -, henter⟩ := h.enter (f := f) hroom ht back back'
    obtain rfl := Option.some.inj (hstore.symm.trans hcall)
    obtain ⟨_, hcall', -, hnext, -⟩ := henter c₂ hworks hsp
    obtain rfl := Option.some.inj (hload.symm.trans hcall')
    exact hnext
  | fork clone back back' c hn hroom hcall =>
    obtain ⟨c₁, -, -, -, hsome, hforks⟩ := h.forks hext hroom hn back back'
    obtain ⟨c₂, hclone⟩ := hsome c hcall
    obtain ⟨_, new, hcall', hf⟩ := hforks c₂ hclone
    obtain rfl := Option.some.inj (hcall.symm.trans hcall')
    have hnew : peek c.mem c.cr3 (clone + 0x08#32) = new := by
      rw [hf.cr3]
      exact hf.pgd
    rw [hnew]
    exact h.fork hn hf

theorem Switching.run (h : Switching S m) (hext : CloneCode S f) {tr : List (SwitchOp M)}
    (hr : Run (SwitchStep S f) m tr m') : Switching S m' :=
  hr.invariant (I := fun _ m => Switching S m) h fun _ _ _ _ ih hs => ih.step hext hs

def TaskMachine.pgd (m : TaskMachine M) (t : Word) : Word :=
  peek m.cpu.mem m.cpu.cr3 (t + 0x08#32)

theorem SwitchStep.pgd_eq {op : SwitchOp M} (hs : SwitchStep S f m op m') (h : Switching S m)
    (hext : CloneCode S f) (ht : task ∈ m.tasks) : task ∈ m'.tasks ∧ m'.pgd task = m.pgd task := by
  cases hs with
  | work c hw =>
    refine ⟨ht, ?_⟩
    have hword := hw.tasks task ht _ (pgd_mem task)
    rw [← hw.cr3] at hword
    rw [TaskMachine.pgd, TaskMachine.pgd, ← hw.cr3]
    exact hword
  | enter other back back' c₁ c₂ c₃ ht' hroom hstore hworks hsp hload =>
    obtain ⟨_, hcall, -, henter⟩ := h.enter (f := f) hroom ht' back back'
    obtain rfl := Option.some.inj (hstore.symm.trans hcall)
    obtain ⟨_, hcall', -, -, hpgd⟩ := henter c₂ hworks hsp
    obtain rfl := Option.some.inj (hload.symm.trans hcall')
    exact ⟨ht, hpgd task ht⟩
  | fork clone back back' c hn hroom hcall =>
    obtain ⟨c₁, -, -, -, hsome, hforks⟩ := h.forks hext hroom hn back back'
    obtain ⟨c₂, hclone⟩ := hsome c hcall
    obtain ⟨_, new, hcall', hf⟩ := hforks c₂ hclone
    obtain rfl := Option.some.inj (hcall.symm.trans hcall')
    refine ⟨Set.mem_insert_of_mem _ ht, ?_⟩
    have hword := hf.tasks task ht _ (pgd_mem task)
    rw [← hf.cr3] at hword
    rw [TaskMachine.pgd, TaskMachine.pgd, ← hf.cr3]
    exact hword

theorem pgd_run (h : Switching S m) (hext : CloneCode S f) {tr : List (SwitchOp M)}
    (hr : Run (SwitchStep S f) m tr m') (ht : task ∈ m.tasks) :
    task ∈ m'.tasks ∧ m'.pgd task = m.pgd task := by
  have hall : Switching S m' ∧ task ∈ m'.tasks ∧ m'.pgd task = m.pgd task := by
    refine hr.invariant (I := fun _ m' => Switching S m' ∧ task ∈ m'.tasks ∧
      m'.pgd task = m.pgd task) ⟨h, ht, rfl⟩ ?_
    intro tr t op u ih hs
    obtain ⟨hsw, hmem, hpgd⟩ := ih
    obtain ⟨hmem', hpgd'⟩ := hs.pgd_eq hsw hext hmem
    exact ⟨hsw.step hext hs, hmem', hpgd'.trans hpgd⟩
  exact hall.2

/-- A task can be entered whenever there is room for the calls. -/
theorem Switching.exists_enter (h : Switching S m) (hroom : S.Room (m.cpu.reg .esp))
    (ht : task ∈ m.tasks) (hne : task ≠ m.current) (back back' : Word) :
    ∃ k m', SwitchStep S f m (.enter task k) m' ∧ Resumes S 1#32 (m.left task) m'.cpu ∧
      k.cr3 = m.cpu.cr3 ∧ k.reg .esp = m.cpu.reg .esp ∧
      ∀ a ∈ S.above (m.cpu.reg .esp), peek k.mem m.cpu.cr3 a = peek m.cpu.mem m.cpu.cr3 a := by
  obtain ⟨c, hcall, hstore, hleaves, -⟩ := h.store (f := f) hroom back
  obtain ⟨c₁, hcall', -, henter⟩ := h.enter (f := f) hroom ht back back'
  obtain rfl := Option.some.inj (hcall.symm.trans hcall')
  -- the argument of the first call is dropped
  have hworks : Works S { m with cpu := c } (c.setReg .esp (m.cpu.reg .esp)) :=
    ⟨hleaves.good, rfl, fun _ _ _ _ => rfl, fun _ _ _ _ _ => rfl⟩
  have hsp : (c.setReg .esp (m.cpu.reg .esp)).reg .esp = m.cpu.reg .esp := by simp
  obtain ⟨c₃, hload, hres, -⟩ := henter _ hworks hsp
  refine ⟨_, _, .enter task back back' c _ c₃ ht hroom hcall hworks hsp hload, ?_, hleaves.cr3,
    hsp, ?_⟩
  · have hleft := resumed_other { m with cpu := c.setReg .esp (m.cpu.reg .esp) } back' hne
    rw [hleft] at hres
    exact hres
  · intro a ha
    have hkept := hstore.stack a ha
    rw [hleaves.cr3] at hkept
    exact hkept

/-- A task waits where `k` was. -/
structure LeftAt (m : TaskMachine M) (task : Word) (k : Cpu M) : Prop where
  known : task ∈ m.tasks
  away : task ≠ m.current
  left : m.left task = k

theorem LeftAt.step (h : LeftAt m task k) {op : SwitchOp M} (hs : SwitchStep S f m op m')
    (hop : ∀ k', op ≠ .enter task k') : LeftAt m' task k := by
  cases hs with
  | work c _ => exact ⟨h.known, h.away, h.left⟩
  | enter other back back' c₁ c₂ c₃ _ _ _ _ _ _ =>
    refine ⟨h.known, ?_, ?_⟩
    · rintro rfl
      exact hop _ rfl
    · have hleft := resumed_other { m with cpu := c₂ } back' h.away
      exact hleft.trans h.left
  | fork clone back back' c hn _ _ =>
    have hne : task ≠ clone := fun he => hn.new (he ▸ h.known)
    exact ⟨Set.mem_insert_of_mem _ h.known, h.away, (Function.update_of_ne hne ..).trans h.left⟩

theorem LeftAt.run (h : LeftAt m task k) {tr : List (SwitchOp M)}
    (hr : Run (SwitchStep S f) m tr m') (htr : ∀ k', .enter task k' ∉ tr) : LeftAt m' task k := by
  revert htr
  refine hr.invariant (I := fun tr m => (∀ k', .enter task k' ∉ tr) → LeftAt m task k)
    (fun _ => h) ?_
  intro tr t op u ih hs htr
  refine (ih fun k' hk => htr k' (List.mem_append_left _ hk)).step hs ?_
  rintro k' rfl
  exact htr k' (List.mem_append_right _ List.mem_cons_self)

theorem SwitchStep.leftAt_enter (h : Switching S m) {u : Word} (hu : u ≠ m.current)
    (hs : SwitchStep S f m (.enter u k) m') : LeftAt m' m.current k := by
  cases hs with
  | enter _ back back' c₁ c₂ c₃ _ _ _ _ _ _ =>
    exact ⟨h.current, hu.symm, resumed_current { m with cpu := c₂ } back'⟩

theorem SwitchStep.leftAt_fork (h : Switching S m) {clone : Word}
    (hs : SwitchStep S f m (.fork clone k) m') : LeftAt m' clone k := by
  cases hs with
  | fork _ back back' c hn _ _ =>
    refine ⟨Set.mem_insert _ _, ?_, Function.update_self ..⟩
    intro he
    exact hn.new (he ▸ h.current)

/-- A task that waits goes on where it waits, whichever task leaves for it. -/
theorem LeftAt.enter (hl : LeftAt m task k) (h : Switching S m)
    (hroom : S.Room (m.cpu.reg .esp)) (back back' : Word) :
    ∃ c₁, m.cpu.callWith f taskStoreContext m.current back = some c₁ ∧
      ∀ c₂, Works S { m with cpu := c₁ } c₂ → c₂.reg .esp = m.cpu.reg .esp →
        ∃ c₃, c₂.callWith f taskLoadContext task back' = some c₃ ∧ Resumes S 1#32 k c₃ := by
  obtain ⟨c₁, hcall, -, henter⟩ := h.enter (f := f) hroom hl.known back back'
  refine ⟨c₁, hcall, ?_⟩
  intro c₂ hworks hsp
  obtain ⟨c₃, hload, hres, -, -⟩ := henter c₂ hworks hsp
  refine ⟨c₃, hload, ?_⟩
  have hleft := resumed_other { m with cpu := c₂ } back' hl.away
  rw [hleft.trans hl.left] at hres
  exact hres

theorem LeftAt.entered (hl : LeftAt m task k) (h : Switching S m) {k' : Cpu M}
    (hs : SwitchStep S f m (.enter task k') m') : m'.current = task ∧ Resumes S 1#32 k m'.cpu := by
  cases hs with
  | enter _ back back' c₁ c₂ c₃ ht hroom hstore hworks hsp hload =>
    refine ⟨rfl, ?_⟩
    obtain ⟨_, hcall, henter⟩ := hl.enter (f := f) h hroom back back'
    obtain rfl := Option.some.inj (hstore.symm.trans hcall)
    obtain ⟨_, hcall', hres⟩ := henter c₂ hworks hsp
    obtain rfl := Option.some.inj (hload.symm.trans hcall')
    exact hres

theorem Switching.single (hgood : S.Good m.spaces m.cpu.mem) (ht : m.tasks = {m.current})
    (hspace : m.cpu.cr3 ∈ m.spaces) (hcommon : archTask m.current ⊆ S.common)
    (hpgd : peek m.cpu.mem m.cpu.cr3 (m.current + 0x08#32) = m.cpu.cr3) : Switching S m := by
  have hone : ∀ t ∈ m.tasks, t = m.current := by
    rw [ht]
    exact fun _ h => h
  refine ⟨hgood, ht ▸ rfl, hspace, hpgd, ?_, ?_, ?_, ?_, ?_⟩
  · intro t h
    rw [hone t h, hpgd]
    exact hspace
  · intro t h u h' _
    rw [hone t h, hone u h']
  · intro t h
    rw [hone t h]
    exact hcommon
  · intro t h u h' hne
    exact absurd ((hone t h).trans (hone u h').symm) hne
  · intro t h hne
    exact absurd (hone t h) hne

end Steps

end AkKernel
