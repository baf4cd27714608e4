import AkKernel.Fault
import AkKernel.Foundation.Ia32

/-!
# Saving and loading the context of a task

`arch/x86/proc/context.S`. The functions have the frame of a C function with two local
variables: the task at `-0x4(%ebp)`, and at `-0x8(%ebp)` what is returned.
-/

set_option autoImplicit false

namespace AkKernel

open Ia32

/-- The functions that `context.S` calls. -/
inductive ContextExtern where
  | pgCloneDir
deriving DecidableEq, Repr

abbrev ContextCode := List (Instr ContextExtern)

def taskLoadContext : ContextCode :=
  [.push .ebp, .mov .ebp .esp, .subImm .esp 0x8#32,
   .load .eax .ebp 0x8#32, .store .ebp (-0x4#32) .eax, .storeImm .ebp (-0x8#32) 0#32,
   .load .eax .ebp (-0x4#32),
   .load .edx .eax 0x00#32, .load .ebx .eax 0x04#32, .load .ecx .eax 0x08#32,
   .mov .esp .edx, .mov .ebp .ebx, .toCr3 .ecx,
   .storeImm .ebp (-0x8#32) 1#32,
   .load .eax .ebp (-0x8#32), .addImm .esp 0x8#32, .pop .ebp, .ret]

def taskStoreContext : ContextCode :=
  [.push .ebp, .mov .ebp .esp, .subImm .esp 0x8#32,
   .load .eax .ebp 0x8#32, .store .ebp (-0x4#32) .eax, .storeImm .ebp (-0x8#32) 0#32,
   .load .eax .ebp (-0x4#32),
   .mov .edx .esp, .mov .ebx .ebp, .store .eax 0x00#32 .edx, .store .eax 0x04#32 .ebx,
   .load .eax .ebp (-0x8#32), .addImm .esp 0x8#32, .pop .ebp, .ret]

/-- `back` is the address behind the call of `pg_clone_dir`. -/
def taskForkContext (back : Word) : ContextCode :=
  [.push .ebp, .mov .ebp .esp, .subImm .esp 0x8#32,
   .load .eax .ebp 0x8#32, .store .ebp (-0x4#32) .eax, .storeImm .ebp (-0x8#32) 0#32,
   .load .eax .ebp (-0x4#32),
   .mov .edx .esp, .mov .ebx .ebp, .store .eax 0x00#32 .edx, .store .eax 0x04#32 .ebx,
   .fromCr3 .ebx, .push .eax, .push .ebx, .call .pgCloneDir back, .addImm .esp 4#32,
   .mov .ecx .eax, .pop .eax, .store .eax 0x08#32 .ecx,
   .load .eax .ebp (-0x8#32), .addImm .esp 0x8#32, .pop .ebp, .ret]

/-- How all three begin and end. -/
def prologue : ContextCode :=
  [.push .ebp, .mov .ebp .esp, .subImm .esp 0x8#32,
   .load .eax .ebp 0x8#32, .store .ebp (-0x4#32) .eax, .storeImm .ebp (-0x8#32) 0#32,
   .load .eax .ebp (-0x4#32)]

def epilogue : ContextCode :=
  [.load .eax .ebp (-0x8#32), .addImm .esp 0x8#32, .pop .ebp, .ret]

/-- The words of a call, with the stack at `sp` before it: the task, the address to return
to, `ebp` of the caller, and the two local variables. -/
structure Frame {M : Type} [Memory M] (m : M) (d sp task back ebp res : Word) : Prop where
  arg : peek m d (slot sp 1) = task
  ret : peek m d (slot sp 2) = back
  caller : peek m d (slot sp 3) = ebp
  local₁ : peek m d (slot sp 4) = task
  local₂ : peek m d (slot sp 5) = res

section Code
variable {M : Type} [Memory M] {I : M → Prop} {A : Set Word} {c : Cpu M} {sp : Word}
  {f : ContextExtern → Cpu M → Option (Cpu M)}

/-- The processor behind the prologue. -/
@[simp] def inFrame (c : Cpu M) (sp task : Word) (m : M) : Cpu M :=
  { c with
    reg := Function.update (Function.update (Function.update c.reg .ebp (slot sp 3)) .esp
      (slot sp 5)) .eax task
    mem := m }

/-- The processor when the function has returned. -/
@[simp] def returned (c : Cpu M) (sp : Word) : Cpu M :=
  { c with
    reg := Function.update (Function.update (Function.update c.reg .ebp
      (peek c.mem c.cr3 (slot sp 3))) .esp (slot sp 1)) .eax (peek c.mem c.cr3 (slot sp 5))
    eip := peek c.mem c.cr3 (slot sp 2) }

theorem prologue_run (hw : Words I c.cr3 A) (hI : I c.mem) (hsp : c.reg .esp = sp)
    (hA : slots sp 1 5 ⊆ A) (task back : Word) (rest : ContextCode) :
    ∃ m, c.callWith f (prologue ++ rest) task back = (inFrame c sp task m).run f rest ∧
      Wrote c.cr3 (slots sp 1 5) c.mem m ∧ Frame m c.cr3 sp task back (c.reg .ebp) 0#32 := by
  have hslot : ∀ k, 1 ≤ k → k ≤ 5 → slot sp k ∈ A := fun k h1 h5 => hA (slot_mem h1 h5)
  have s1 := hslot 1 (by decide) (by decide)
  have s2 := hslot 2 (by decide) (by decide)
  have s3 := hslot 3 (by decide) (by decide)
  have s4 := hslot 4 (by decide) (by decide)
  have s5 := hslot 5 (by decide) (by decide)
  have i1 := hw.keeps (v := task) hI s1
  have i2 := hw.keeps (v := back) i1 s2
  have i3 := hw.keeps (v := c.reg .ebp) i2 s3
  have i4 := hw.keeps (v := task) i3 s4
  have i5 := hw.keeps (v := 0#32) i4 s5
  have htop : c.reg .esp - 4#32 = slot sp 1 := by rw [hsp, sub_four]
  refine ⟨poke (poke (poke (poke (poke c.mem c.cr3 (slot sp 1) task) c.cr3 (slot sp 2) back)
    c.cr3 (slot sp 3) (c.reg .ebp)) c.cr3 (slot sp 4) task) c.cr3 (slot sp 5) 0#32, ?_, ?_, ?_⟩
  · simp only [prologue, Cpu.callWith, List.cons_append, List.nil_append, Cpu.run, Cpu.step,
      Cpu.push, Cpu.store, Cpu.load, Cpu.setReg, Cpu.onStack, Option.map_some, Option.bind_some,
      bind, htop, slot_push, slot_drop, slot_raise, slot_local, slot_local₂, BitVec.reduceNeg,
      Function.update_self, Function.update_of_ne, ne_eq, reduceCtorEq, not_false_eq_true,
      hw.read, hw.write, hw.peek_self, hw.peek_other, slot_inj, Nat.reduceLT,
      Nat.reduceAdd, Nat.reduceEqDiff, hI, i1, i2, i3, i4, i5, s1, s2, s3, s4, s5, inFrame]
    congr 2
    funext r
    cases r <;> rfl
  · have hmem : ∀ k, 1 ≤ k → k ≤ 5 → slot sp k ∈ slots sp 1 5 := fun k h1 h5 => slot_mem h1 h5
    exact .poke 0#32 (.poke task (.poke (c.reg .ebp) (.poke back (.poke task .refl
      (hmem 1 (by decide) (by decide))) (hmem 2 (by decide) (by decide)))
      (hmem 3 (by decide) (by decide))) (hmem 4 (by decide) (by decide)))
      (hmem 5 (by decide) (by decide))
  · constructor <;>
    simp only [hw.peek_self, hw.peek_other, hI, i1, i2, i3, i4, s1, s2, s3, s4, s5, ne_eq,
      slot_inj, Nat.reduceLT, Nat.reduceEqDiff, not_false_eq_true]

theorem epilogue_run (hw : Words I c.cr3 A) (hI : I c.mem) (hsp : c.reg .esp = slot sp 5)
    (hbp : c.reg .ebp = slot sp 3) (hA : slots sp 1 5 ⊆ A) :
    c.run f epilogue = some (returned c sp) := by
  have hslot : ∀ k, 1 ≤ k → k ≤ 5 → slot sp k ∈ A := fun k h1 h5 => hA (slot_mem h1 h5)
  have s2 := hslot 2 (by decide) (by decide)
  have s3 := hslot 3 (by decide) (by decide)
  have s5 := hslot 5 (by decide) (by decide)
  simp only [epilogue, Cpu.run, Cpu.step, Cpu.popReg, Cpu.pop, Cpu.load, Cpu.setReg,
    Option.map_some, Option.bind_some, hsp, hbp, slot_raise, slot_pop, slot_local₂,
    BitVec.reduceNeg, Function.update_self, Function.update_of_ne, ne_eq, reduceCtorEq,
    not_false_eq_true, hw.read, hI, s2, s3, s5, returned, Option.some.injEq]
  congr 1
  funext r
  cases r <;> rfl

/-- The words of the `arch_task_t` at `task`, apart from the words of a call and of the call
of `pg_clone_dir` in it. -/
structure TaskWords (A : Set Word) (sp task : Word) : Prop where
  esp : task ∈ A
  ebp : task + 0x04#32 ∈ A
  pgd : task + 0x08#32 ∈ A
  esp_slots : task ∉ slots sp 1 8
  ebp_slots : task + 0x04#32 ∉ slots sp 1 8
  pgd_slots : task + 0x08#32 ∉ slots sp 1 8

theorem add_ne_self {w v : Word} (hv : v ≠ 0#32) : w + v ≠ w := by
  intro h
  apply hv
  have hw : w + v = w + 0#32 := by rw [h, BitVec.add_zero]
  exact (BitVec.add_right_inj w).mp hw

/-- The memory when both stack pointers are in the task. -/
def saved (m : M) (d sp task : Word) : M :=
  poke (poke m d task (slot sp 5)) d (task + 0x04#32) (slot sp 3)

@[simp] def saving (c : Cpu M) (sp task : Word) (m : M) : Cpu M :=
  { inFrame c sp task m with
    reg := Function.update (Function.update (inFrame c sp task m).reg .edx (slot sp 5)) .ebx
      (slot sp 3)
    mem := saved m c.cr3 sp task }

structure SavedWords (d : Word) (sp task : Word) (m m' : M) : Prop where
  esp : peek m' d task = slot sp 5
  ebp : peek m' d (task + 0x04#32) = slot sp 3
  wrote : Wrote d {task, task + 0x04#32} m m'
  frame : ∀ k, 1 ≤ k → k ≤ 5 → peek m' d (slot sp k) = peek m d (slot sp k)

theorem saved_words {m : M} {d task : Word} (hw : Words I d A) (hm : I m) (hA : slots sp 1 5 ⊆ A)
    (ht : TaskWords A sp task) : SavedWords d sp task m (saved m d sp task) := by
  have i1 := hw.keeps (v := slot sp 5) hm ht.esp
  have hwrote : Wrote d {task, task + 0x04#32} m (saved m d sp task) :=
    .poke _ (.poke _ .refl (by simp)) (by simp)
  refine ⟨?_, hw.peek_self i1 ht.ebp, hwrote, ?_⟩
  · rw [saved, hw.peek_other i1 ht.ebp ht.esp (add_ne_self (by decide)).symm]
    exact hw.peek_self hm ht.esp
  · intro k h1 h5
    have hmem : slot sp k ∈ slots sp 1 8 := slot_mem h1 (h5.trans (by decide))
    refine hwrote.peek_eq hw ?_ hm (hA (slot_mem h1 h5)) ?_
    · rintro a (rfl | rfl)
      · exact ht.esp
      · exact ht.ebp
    · rintro (he | he)
      · exact ht.esp_slots (he ▸ hmem)
      · exact ht.ebp_slots (he ▸ hmem)

theorem saving_run {m : M} {task : Word} (hw : Words I c.cr3 A) (hm : I m)
    (ht : TaskWords A sp task) (rest : ContextCode) :
    (inFrame c sp task m).run f (.mov .edx .esp :: .mov .ebx .ebp ::
      .store .eax 0x00#32 .edx :: .store .eax 0x04#32 .ebx :: rest) =
      (saving c sp task m).run f rest := by
  have i1 := hw.keeps (v := slot sp 5) hm ht.esp
  simp only [Cpu.run, Cpu.step, Cpu.store, Cpu.setReg, inFrame, saving, saved, Option.map_some,
    Option.bind_some, Function.update_self, Function.update_of_ne, ne_eq, reduceCtorEq,
    not_false_eq_true, BitVec.add_zero, hw.write, hm, i1, ht.esp, ht.ebp]

/-- What `task_store_context` leaves: the stack pointers of its own frame are in the task. -/
structure StoredContext (c c' : Cpu M) (sp task back : Word) : Prop where
  eax : c'.reg .eax = 0#32
  esp : c'.reg .esp = slot sp 1
  ebp : c'.reg .ebp = c.reg .ebp
  ebx : c'.reg .ebx = slot sp 3
  eip : c'.eip = back
  cr3 : c'.cr3 = c.cr3
  rest : ∀ r, r = .ecx ∨ r = .esi ∨ r = .edi → c'.reg r = c.reg r
  savedEsp : peek c'.mem c.cr3 task = slot sp 5
  savedEbp : peek c'.mem c.cr3 (task + 0x04#32) = slot sp 3
  wrote : Wrote c.cr3 (slots sp 1 5 ∪ {task, task + 0x04#32}) c.mem c'.mem

theorem taskStoreContext_run (hw : Words I c.cr3 A) (hI : I c.mem) (hsp : c.reg .esp = sp)
    (hA : slots sp 1 5 ⊆ A) {task : Word} (ht : TaskWords A sp task) (back : Word) :
    ∃ c', c.callWith f taskStoreContext task back = some c' ∧
      StoredContext c c' sp task back := by
  obtain ⟨m, hrun, hwrote, hframe⟩ := prologue_run (f := f) hw hI hsp hA task back
    (.mov .edx .esp :: .mov .ebx .ebp :: .store .eax 0x00#32 .edx ::
      .store .eax 0x04#32 .ebx :: epilogue)
  have hm := hwrote.good hw hA hI
  have hsaved := saved_words hw hm hA ht
  have hm' : I (saved m c.cr3 sp task) := hw.keeps (hw.keeps hm ht.esp) ht.ebp
  refine ⟨returned (saving c sp task m) sp, ?_, ?_⟩
  · change c.callWith f taskStoreContext task back = _ at hrun
    rw [hrun, saving_run hw hm ht]
    exact epilogue_run (A := A) hw hm' rfl rfl hA
  · refine ⟨?_, rfl, ?_, rfl, ?_, rfl, ?_, hsaved.esp, hsaved.ebp, ?_⟩
    · exact (hsaved.frame 5 (by decide) (by decide)).trans hframe.local₂
    · exact (hsaved.frame 3 (by decide) (by decide)).trans hframe.caller
    · exact (hsaved.frame 2 (by decide) (by decide)).trans hframe.ret
    · rintro r (rfl | rfl | rfl) <;> rfl
    · exact (hwrote.mono Set.subset_union_left).trans (hsaved.wrote.mono Set.subset_union_right)

/-- What `task_load_context` leaves, when `m` is memory with its frame: the processor is in the
frame at `q` of space `pgd`, and has left it. -/
structure LoadedContext (c : Cpu M) (m : M) (q pgd : Word) (c' : Cpu M) : Prop where
  eax : c'.reg .eax = 1#32
  esp : c'.reg .esp = slot q 1
  ebp : c'.reg .ebp = peek m pgd (slot q 3)
  ebx : c'.reg .ebx = slot q 3
  eip : c'.eip = peek m pgd (slot q 2)
  cr3 : c'.cr3 = pgd
  rest : ∀ r, r = .esi ∨ r = .edi → c'.reg r = c.reg r
  mem : c'.mem = poke m pgd (slot q 5) 1#32

/-- The processor behind `mov %ecx,%cr3`. -/
@[simp] def switched (c : Cpu M) (q pgd task : Word) (m : M) : Cpu M :=
  { c with
    reg := Function.update (Function.update (Function.update (Function.update (Function.update
      (Function.update c.reg .eax task) .edx (slot q 5)) .ebx (slot q 3)) .ecx pgd)
      .esp (slot q 5)) .ebp (slot q 3)
    cr3 := pgd
    mem := m }

theorem taskLoadContext_run (hw : Words I c.cr3 A) (hI : I c.mem) (hsp : c.reg .esp = sp)
    (hA : slots sp 1 5 ⊆ A) {task : Word} (ht : TaskWords A sp task) (back : Word) {q pgd : Word}
    (hesp : peek c.mem c.cr3 task = slot q 5)
    (hebp : peek c.mem c.cr3 (task + 0x04#32) = slot q 3)
    (hpgd : peek c.mem c.cr3 (task + 0x08#32) = pgd) (hw' : Words I pgd A)
    (hA' : slots q 1 5 ⊆ A) :
    ∃ m c', c.callWith f taskLoadContext task back = some c' ∧
      Wrote c.cr3 (slots sp 1 5) c.mem m ∧ Frame m c.cr3 sp task back (c.reg .ebp) 0#32 ∧
      LoadedContext c m q pgd c' := by
  obtain ⟨m, hrun, hwrote, hframe⟩ := prologue_run (f := f) hw hI hsp hA task back
    (.load .edx .eax 0x00#32 :: .load .ebx .eax 0x04#32 :: .load .ecx .eax 0x08#32 ::
      .mov .esp .edx :: .mov .ebp .ebx :: .toCr3 .ecx ::
      .storeImm .ebp (-0x8#32) 1#32 :: epilogue)
  have hm := hwrote.good hw hA hI
  have hout : ∀ a, a ∉ slots sp 1 8 → a ∉ slots sp 1 5 :=
    fun a ha h5 => ha (slots_mono (by decide) (by decide) h5)
  -- the frame of this call is not in the task
  have h0 : peek m c.cr3 task = slot q 5 :=
    (hwrote.peek_eq hw hA hI ht.esp (hout _ ht.esp_slots)).trans hesp
  have h4 : peek m c.cr3 (task + 0x04#32) = slot q 3 :=
    (hwrote.peek_eq hw hA hI ht.ebp (hout _ ht.ebp_slots)).trans hebp
  have h8 : peek m c.cr3 (task + 0x08#32) = pgd :=
    (hwrote.peek_eq hw hA hI ht.pgd (hout _ ht.pgd_slots)).trans hpgd
  have hslot : ∀ k, 1 ≤ k → k ≤ 5 → slot q k ∈ A := fun k h1 h5 => hA' (slot_mem h1 h5)
  have s2 := hslot 2 (by decide) (by decide)
  have s3 := hslot 3 (by decide) (by decide)
  have s5 := hslot 5 (by decide) (by decide)
  have hbody : (inFrame c sp task m).run f (.load .edx .eax 0x00#32 ::
      .load .ebx .eax 0x04#32 :: .load .ecx .eax 0x08#32 :: .mov .esp .edx :: .mov .ebp .ebx ::
      .toCr3 .ecx :: .storeImm .ebp (-0x8#32) 1#32 :: epilogue) =
      (switched c q pgd task (poke m pgd (slot q 5) 1#32)).run f epilogue := by
    simp only [Cpu.run, Cpu.step, Cpu.store, Cpu.load, Cpu.setReg, inFrame, switched,
      Option.map_some, Option.bind_some, Function.update_self, Function.update_of_ne, ne_eq,
      reduceCtorEq, not_false_eq_true, BitVec.add_zero, BitVec.reduceNeg, slot_local₂, hw.read,
      hm, ht.esp, ht.ebp, ht.pgd, h0, h4, h8, hw'.write, s5]
    congr 2
    funext r
    cases r <;> rfl
  refine ⟨m, returned (switched c q pgd task (poke m pgd (slot q 5) 1#32)) q, ?_, hwrote,
    hframe, ?_⟩
  · change c.callWith f taskLoadContext task back = _ at hrun
    rw [hrun, hbody]
    exact epilogue_run (A := A) hw' (hw'.keeps hm s5) rfl rfl hA'
  · refine ⟨hw'.peek_self hm s5, rfl, ?_, rfl, ?_, rfl, ?_, rfl⟩
    · exact hw'.peek_other hm s5 s3 (slot_ne (by decide) (by decide) (by decide))
    · exact hw'.peek_other hm s5 s2 (slot_ne (by decide) (by decide) (by decide))
    · rintro r (rfl | rfl) <;> rfl

/-- The processor where `pg_clone_dir` is entered: its argument is the directory in use. -/
structure CallsClone (I : M → Prop) (c : Cpu M) (sp task back : Word) (c₁ : Cpu M) : Prop where
  esp : c₁.reg .esp = slot sp 8
  ebp : c₁.reg .ebp = slot sp 3
  cr3 : c₁.cr3 = c.cr3
  rest : ∀ r, r = .esi ∨ r = .edi → c₁.reg r = c.reg r
  arg : peek c₁.mem c.cr3 (slot sp 7) = c.cr3
  good : I c₁.mem
  savedEsp : peek c₁.mem c.cr3 task = slot sp 5
  savedEbp : peek c₁.mem c.cr3 (task + 0x04#32) = slot sp 3
  frame : Frame c₁.mem c.cr3 sp task back (c.reg .ebp) 0#32
  pushed : peek c₁.mem c.cr3 (slot sp 6) = task
  wrote : Wrote c.cr3 (slots sp 1 8 ∪ {task, task + 0x04#32}) c.mem c₁.mem

/-- A C function returns: the words above its arguments are as they were. -/
structure Returns (c₁ c₂ : Cpu M) (d sp : Word) : Prop where
  esp : c₂.reg .esp = slot sp 7
  cr3 : c₂.cr3 = d
  saved : ∀ r, r = .ebp ∨ r = .esi ∨ r = .edi → c₂.reg r = c₁.reg r
  above : ∀ k, 1 ≤ k → k ≤ 6 → peek c₂.mem d (slot sp k) = peek c₁.mem d (slot sp k)

/-- What `task_fork_context` leaves when `pg_clone_dir` has returned with `c₂`. -/
structure ForkedContext (c c₂ : Cpu M) (sp task back : Word) (c' : Cpu M) : Prop where
  eax : c'.reg .eax = 0#32
  esp : c'.reg .esp = slot sp 1
  ebp : c'.reg .ebp = c.reg .ebp
  eip : c'.eip = back
  cr3 : c'.cr3 = c.cr3
  rest : ∀ r, r = .esi ∨ r = .edi → c'.reg r = c.reg r
  mem : c'.mem = poke c₂.mem c.cr3 (task + 0x08#32) (c₂.reg .eax)

/-- The processor where `pg_clone_dir` is entered. -/
def cloning (c : Cpu M) (sp task back : Word) (m : M) : Cpu M :=
  { saving c sp task m with
    reg := Function.update (Function.update (saving c sp task m).reg .ebx c.cr3) .esp (slot sp 8)
    mem := poke (poke (poke (saved m c.cr3 sp task) c.cr3 (slot sp 6) task) c.cr3 (slot sp 7)
      c.cr3) c.cr3 (slot sp 8) back }

theorem cloning_calls (hw : Words I c.cr3 A) (hI : I c.mem) (hA : slots sp 1 8 ⊆ A)
    {task back : Word} (ht : TaskWords A sp task) (back' : Word) {m : M}
    (hwrote : Wrote c.cr3 (slots sp 1 5) c.mem m)
    (hframe : Frame m c.cr3 sp task back (c.reg .ebp) 0#32) :
    CallsClone I c sp task back (cloning c sp task back' m) := by
  have hA5 : slots sp 1 5 ⊆ A := (slots_mono (by decide) (by decide)).trans hA
  have hm := hwrote.good hw hA5 hI
  have hsaved := saved_words hw hm hA5 ht
  have hm' : I (saved m c.cr3 sp task) := hw.keeps (hw.keeps hm ht.esp) ht.ebp
  have hslot : ∀ k, 1 ≤ k → k ≤ 8 → slot sp k ∈ A := fun k h1 h8 => hA (slot_mem h1 h8)
  have s6 := hslot 6 (by decide) (by decide)
  have s7 := hslot 7 (by decide) (by decide)
  have s8 := hslot 8 (by decide) (by decide)
  have i6 := hw.keeps (v := task) hm' s6
  have i7 := hw.keeps (v := c.cr3) i6 s7
  have hpush : Wrote c.cr3 (slots sp 6 8) (saved m c.cr3 sp task) (cloning c sp task back' m).mem :=
    .poke _ (.poke _ (.poke _ .refl (slot_mem (by decide) (by decide)))
      (slot_mem (by decide) (by decide))) (slot_mem (by decide) (by decide))
  have h68 : slots sp 6 8 ⊆ A := (slots_mono (by decide) (by decide)).trans hA
  have hword : ∀ a ∈ A, a ∉ slots sp 1 8 →
      peek (cloning c sp task back' m).mem c.cr3 a = peek (saved m c.cr3 sp task) c.cr3 a := by
    intro a ha hn
    exact hpush.peek_eq hw h68 hm' ha fun h => hn (slots_mono (by decide) (by decide) h)
  have hslots : ∀ k, 1 ≤ k → k ≤ 5 →
      peek (cloning c sp task back' m).mem c.cr3 (slot sp k) = peek m c.cr3 (slot sp k) := by
    intro k h1 h5
    rw [hpush.peek_eq hw h68 hm' (hslot k h1 (by omega))
      (slot_not_mem (by omega) (by decide) (Or.inl (by omega)))]
    exact hsaved.frame k h1 h5
  refine ⟨rfl, rfl, rfl, ?_, ?_, hw.keeps i7 s8, ?_, ?_, ?_, ?_, ?_⟩
  · rintro r (rfl | rfl) <;> rfl
  · rw [cloning, hw.peek_other i7 s8 s7 (slot_ne (by decide) (by decide) (by decide))]
    exact hw.peek_self i6 s7
  · exact (hword _ ht.esp ht.esp_slots).trans hsaved.esp
  · exact (hword _ ht.ebp ht.ebp_slots).trans hsaved.ebp
  · exact ⟨(hslots 1 (by decide) (by decide)).trans hframe.arg,
      (hslots 2 (by decide) (by decide)).trans hframe.ret,
      (hslots 3 (by decide) (by decide)).trans hframe.caller,
      (hslots 4 (by decide) (by decide)).trans hframe.local₁,
      (hslots 5 (by decide) (by decide)).trans hframe.local₂⟩
  · rw [cloning, hw.peek_other i7 s8 s6 (slot_ne (by decide) (by decide) (by decide)),
      hw.peek_other i6 s7 s6 (slot_ne (by decide) (by decide) (by decide))]
    exact hw.peek_self hm' s6
  · refine ((hwrote.mono ?_).trans (hsaved.wrote.mono Set.subset_union_right)).trans
      (hpush.mono ?_)
    · exact (slots_mono (by decide) (by decide)).trans Set.subset_union_left
    · exact (slots_mono (by decide) (by decide)).trans Set.subset_union_left

/-- The processor when the new directory is in the task. -/
@[simp] def cloned (c₂ : Cpu M) (sp task : Word) : Cpu M :=
  { c₂ with
    reg := Function.update (Function.update (Function.update c₂.reg .ecx (c₂.reg .eax)) .eax task)
      .esp (slot sp 5)
    mem := poke c₂.mem c₂.cr3 (task + 0x08#32) (c₂.reg .eax) }

theorem cloning_run (hw : Words I c.cr3 A) (hA : slots sp 1 8 ⊆ A) {task back : Word} {m : M}
    (hm' : I (saved m c.cr3 sp task)) (rest : ContextCode) :
    (saving c sp task m).run f (.fromCr3 .ebx :: .push .eax :: .push .ebx ::
      .call .pgCloneDir back :: rest) =
      (f .pgCloneDir (cloning c sp task back m)).bind (Cpu.run f rest) := by
  have hslot : ∀ k, 1 ≤ k → k ≤ 8 → slot sp k ∈ A := fun k h1 h8 => hA (slot_mem h1 h8)
  have s6 := hslot 6 (by decide) (by decide)
  have s7 := hslot 7 (by decide) (by decide)
  have s8 := hslot 8 (by decide) (by decide)
  have i6 := hw.keeps (v := task) hm' s6
  have i7 := hw.keeps (v := c.cr3) i6 s7
  simp only [Cpu.run, Cpu.step, Cpu.push, Cpu.setReg, Cpu.onStack, saving, inFrame,
    Option.map_some, Option.bind_some, bind, slot_push, Function.update_self,
    Function.update_of_ne, Function.update_idem, ne_eq, reduceCtorEq, not_false_eq_true, hw.write,
    Nat.reduceAdd, hm', i6, i7, s6, s7, s8, cloning]

theorem cloned_run {J : M → Prop} {task d : Word} {c₂ : Cpu M} (hw : Words J d A)
    (hJ : J c₂.mem) (hcr3 : c₂.cr3 = d) (hesp : c₂.reg .esp = slot sp 7)
    (hA : slots sp 1 8 ⊆ A) (ht : TaskWords A sp task)
    (hpushed : peek c₂.mem d (slot sp 6) = task) (rest : ContextCode) :
    c₂.run f (.addImm .esp 4#32 :: .mov .ecx .eax :: .pop .eax ::
      .store .eax 0x08#32 .ecx :: rest) = (cloned c₂ sp task).run f rest := by
  have s6 : slot sp 6 ∈ A := hA (slot_mem (by decide) (by decide))
  subst hcr3
  simp only [Cpu.run, Cpu.step, Cpu.popReg, Cpu.pop, Cpu.store, Cpu.setReg, cloned,
    Option.map_some, Option.bind_some, hesp, slot_pop, Function.update_self,
    Function.update_of_ne, ne_eq, reduceCtorEq, not_false_eq_true, hw.read, hw.write, hJ, s6,
    hpushed, ht.pgd]
  congr 2
  funext r
  cases r <;> rfl

theorem taskForkContext_run (hw : Words I c.cr3 A) (hI : I c.mem) (hsp : c.reg .esp = sp)
    (hA : slots sp 1 8 ⊆ A) {task : Word} (ht : TaskWords A sp task) (back back' : Word) :
    ∃ c₁, CallsClone I c sp task back c₁ ∧
      (∀ c', c.callWith f (taskForkContext back') task back = some c' →
        ∃ c₂, f .pgCloneDir c₁ = some c₂) ∧
      ∀ c₂, f .pgCloneDir c₁ = some c₂ → ∀ J : M → Prop, Words J c.cr3 A → J c₂.mem →
        Returns c₁ c₂ c.cr3 sp →
        ∃ c', c.callWith f (taskForkContext back') task back = some c' ∧
          ForkedContext c c₂ sp task back c' := by
  have hA5 : slots sp 1 5 ⊆ A := (slots_mono (by decide) (by decide)).trans hA
  obtain ⟨m, hrun, hwrote, hframe⟩ := prologue_run (f := f) hw hI hsp hA5 task back
    (.mov .edx .esp :: .mov .ebx .ebp :: .store .eax 0x00#32 .edx ::
      .store .eax 0x04#32 .ebx :: .fromCr3 .ebx :: .push .eax :: .push .ebx ::
      .call .pgCloneDir back' :: .addImm .esp 4#32 :: .mov .ecx .eax :: .pop .eax ::
      .store .eax 0x08#32 .ecx :: epilogue)
  have hm := hwrote.good hw hA5 hI
  have hm' : I (saved m c.cr3 sp task) := hw.keeps (hw.keeps hm ht.esp) ht.ebp
  have hcalls := cloning_calls hw hI hA ht back' hwrote hframe
  have hclone := hrun
  rw [saving_run hw hm ht, cloning_run hw hA hm'] at hclone
  change c.callWith f (taskForkContext back') task back = _ at hclone
  refine ⟨_, hcalls, ?_, ?_⟩
  · intro c' hfork
    rw [hclone, Option.bind_eq_some_iff] at hfork
    obtain ⟨c₂, hcall, -⟩ := hfork
    exact ⟨c₂, hcall⟩
  intro c₂ hcall J hw' hJ hret
  have hpushed : peek c₂.mem c.cr3 (slot sp 6) = task :=
    (hret.above 6 (by decide) (by decide)).trans hcalls.pushed
  have hbp : c₂.reg .ebp = slot sp 3 := (hret.saved .ebp (Or.inl rfl)).trans hcalls.ebp
  have hslot : ∀ k, 1 ≤ k → k ≤ 5 → peek (cloned c₂ sp task).mem c.cr3 (slot sp k) =
      peek c₂.mem c.cr3 (slot sp k) := by
    intro k h1 h5
    have hmem : slot sp k ∈ slots sp 1 8 := slot_mem h1 (by omega)
    rw [← hret.cr3] at hw' ⊢
    exact hw'.peek_other hJ ht.pgd (hA hmem) fun he => ht.pgd_slots (he ▸ hmem)
  have hgood : J (cloned c₂ sp task).mem := by
    rw [← hret.cr3] at hw'
    exact hw'.keeps hJ ht.pgd
  have hword : ∀ k, 1 ≤ k → k ≤ 5 → peek (cloned c₂ sp task).mem c.cr3 (slot sp k) =
      peek (cloning c sp task back' m).mem c.cr3 (slot sp k) :=
    fun k h1 h5 => (hslot k h1 h5).trans (hret.above k h1 (by omega))
  have hcr3 : (cloned c₂ sp task).cr3 = c.cr3 := hret.cr3
  have hc' : c.callWith f (taskForkContext back') task back =
      some (returned (cloned c₂ sp task) sp) := by
    rw [hclone, hcall, Option.bind_some, cloned_run hw' hJ hret.cr3 hret.esp hA ht hpushed,
      epilogue_run (A := A) (I := J) (hcr3 ▸ hw') hgood rfl hbp hA5]
  refine ⟨_, hc', ?_⟩
  have hout : ∀ k, 1 ≤ k → k ≤ 5 →
      peek (cloned c₂ sp task).mem (cloned c₂ sp task).cr3 (slot sp k) =
        peek (cloning c sp task back' m).mem c.cr3 (slot sp k) := by
    intro k h1 h5
    rw [hcr3]
    exact hword k h1 h5
  refine ⟨?_, rfl, ?_, ?_, hcr3, ?_, ?_⟩
  · exact (hout 5 (by decide) (by decide)).trans hcalls.frame.local₂
  · exact (hout 3 (by decide) (by decide)).trans hcalls.frame.caller
  · exact (hout 2 (by decide) (by decide)).trans hcalls.frame.ret
  · rintro r (rfl | rfl)
    · exact (hret.saved .esi (by simp)).trans (hcalls.rest .esi (by simp))
    · exact (hret.saved .edi (by simp)).trans (hcalls.rest .edi (by simp))
  · rw [← hret.cr3]
    rfl

end Code

end AkKernel
