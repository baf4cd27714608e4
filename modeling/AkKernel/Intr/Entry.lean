import AkKernel.Fault
import AkKernel.Foundation.Ia32

/-!
# Entering and leaving an interrupt

`arch/x86/intr/isr_root.S`. The registers of the program that is interrupted are on its stack
while `idt_handler` runs, as an `isrargs_t`.
-/

set_option autoImplicit false

namespace AkKernel

open Ia32

inductive IsrExtern where
  | idtHandler
deriving DecidableEq, Repr

abbrev IsrCode := List (Instr IsrExtern)

def callback (int : Word) : IsrCode := [.pushImm 0#32, .pushImm int]

def callbackErr (int : Word) : IsrCode := [.pushImm int]

/-- `idt_cb_common` before the call. -/
def idtCbEnter : IsrCode :=
  [.pushal, .fromSeg .eax .ds, .push .eax, .mov .edx .esp,
   .movLow .eax 0x10#16, .toSeg .ds .eax, .toSeg .es .eax, .toSeg .fs .eax, .toSeg .gs .eax,
   .push .edx]

/-- Behind the call; the segment registers are read here, not written. -/
def idtCbLeave : IsrCode :=
  [.addImm .esp 4#32, .pop .eax, .fromSeg .eax .ds, .fromSeg .eax .es, .fromSeg .eax .fs,
   .fromSeg .eax .gs, .popal, .addImm .esp 8#32, .iret]

def idtCbCommon (back : Word) : IsrCode := idtCbEnter ++ .call .idtHandler back :: idtCbLeave

/-- The vectors that are declared with `callback_err`. -/
def HasErr (int : Nat) : Prop := int = 8 ∨ 10 ≤ int ∧ int ≤ 14

instance (int : Nat) : Decidable (HasErr int) := inferInstanceAs (Decidable (_ ∨ _))

def isrRoots (int : Nat) : IsrCode :=
  if HasErr int then callbackErr (BitVec.ofNat 32 int) else callback (BitVec.ofNat 32 int)

/-- `isrargs_t`, up to `eflags`: the rest is pushed when the privilege level changes only. -/
structure IsrargsT where
  ds : Word
  edi : Word
  esi : Word
  ebp : Word
  esp : Word
  ebx : Word
  edx : Word
  ecx : Word
  eax : Word
  intNo : Word
  errCode : Word
  eip : Word
  cs : Word
  eflags : Word
deriving DecidableEq, Repr

section Code
variable {M : Type} [Memory M] {I : M → Prop} {A : Set Word} {c : Cpu M} {sp : Word}
  {f : IsrExtern → Cpu M → Option (Cpu M)} {int : Nat} {err : Option Word}

/-- The `isrargs_t` at `p`. -/
def isrArgs (m : M) (d p : Word) : IsrargsT where
  ds := peek m d p
  edi := peek m d (p + 0x04#32)
  esi := peek m d (p + 0x08#32)
  ebp := peek m d (p + 0x0C#32)
  esp := peek m d (p + 0x10#32)
  ebx := peek m d (p + 0x14#32)
  edx := peek m d (p + 0x18#32)
  ecx := peek m d (p + 0x1C#32)
  eax := peek m d (p + 0x20#32)
  intNo := peek m d (p + 0x24#32)
  errCode := peek m d (p + 0x28#32)
  eip := peek m d (p + 0x2C#32)
  cs := peek m d (p + 0x30#32)
  eflags := peek m d (p + 0x34#32)

/-- An interrupt: what the processor does, then the code of the vector. -/
def takeInterrupt (f : IsrExtern → Cpu M → Option (Cpu M)) (int : Nat) (err : Option Word)
    (back : Word) (c : Cpu M) : Option (Cpu M) := do
  let c ← c.interrupt err
  c.run f (isrRoots int ++ idtCbCommon back)

/-- The arguments that an interrupt of `c` has, with the stack of `c` at `sp`. -/
def argsOf (c : Cpu M) (sp : Word) (int : Nat) (err : Option Word) : IsrargsT where
  ds := withLow (c.reg .eax) (c.seg .ds)
  edi := c.reg .edi
  esi := c.reg .esi
  ebp := c.reg .ebp
  esp := slot sp 5
  ebx := c.reg .ebx
  edx := c.reg .edx
  ecx := c.reg .ecx
  eax := c.reg .eax
  intNo := BitVec.ofNat 32 int
  errCode := err.getD 0#32
  eip := c.eip
  cs := c.cs
  eflags := c.eflags

/-- The words of `isrargs_t` in the order in which they are pushed. -/
def IsrargsT.pushed (a : IsrargsT) : List Word :=
  [a.eflags, a.cs, a.eip, a.errCode, a.intNo, a.eax, a.ecx, a.edx, a.ebx, a.esp, a.ebp, a.esi,
   a.edi, a.ds]

/-- The processor when the arguments are on the stack. -/
@[simp] def inHandler (c : Cpu M) (sp : Word) (c' : Cpu M) : Cpu M :=
  { c' with
    reg := Function.update (Function.update c'.reg .eax
      (withLow (withLow (c.reg .eax) (c.seg .ds)) 0x10#16)) .edx (slot sp 14)
    seg := fun _ => 0x10#16
    eflags := c.eflags &&& ~~~0x200#32 }

@[simp] theorem lowHalf_withLow (w : Word) (v : BitVec 16) : lowHalf (withLow w v) = v := by
  apply BitVec.eq_of_getLsbD_eq
  intro i hi
  simp [lowHalf, withLow, hi]

/-- The vectors without an error code push one, and so all have the same arguments. -/
theorem root_eq (herr : err.isSome ↔ HasErr int) (rest : IsrCode) :
    (c.interrupt err).bind (Cpu.run f (isrRoots int ++ rest)) =
      (c.pushAll [c.eflags, c.cs, c.eip, err.getD 0#32, BitVec.ofNat 32 int]).bind
        fun c' => Cpu.run f rest { c' with eflags := c.eflags &&& ~~~0x200#32 } := by
  cases err with
  | none =>
    have hint : ¬ HasErr int := fun h => absurd (herr.mpr h) (by simp)
    rw [isrRoots, if_neg hint]
    simp only [callback, Cpu.interrupt, Cpu.pushAll, List.cons_append, List.nil_append, Cpu.run,
      Cpu.step, Cpu.push, Cpu.onStack, Option.bind_assoc, Option.bind_map, bind, pure,
      Option.bind_some, Option.getD_none, Function.comp_def]
  | some e =>
    have hint : HasErr int := herr.mp (by simp)
    rw [isrRoots, if_pos hint]
    simp only [callbackErr, Cpu.interrupt, Cpu.pushAll, List.cons_append, List.nil_append,
      Cpu.run, Cpu.step, Cpu.push, Cpu.onStack, Option.bind_assoc, Option.bind_map, bind,
      Option.bind_some, Option.getD_some, Function.comp_def]

/-- Up to the call, the code pushes the arguments and a pointer to them. -/
theorem enter_eq (hsp : c.reg .esp = sp) (herr : err.isSome ↔ HasErr int) (rest : IsrCode) :
    (c.interrupt err).bind (Cpu.run f (isrRoots int ++ (idtCbEnter ++ rest))) =
      (c.pushAll ((argsOf c sp int err).pushed ++ [slot sp 14])).bind
        fun c' => Cpu.run f rest (inHandler c sp c') := by
  have htop : c.reg .esp - 4#32 = slot sp 1 := by rw [hsp, sub_four]
  rw [root_eq herr]
  simp only [idtCbEnter, argsOf, IsrargsT.pushed, Cpu.pushAll, List.cons_append, List.nil_append,
    Cpu.run, Cpu.step, Cpu.push, Cpu.onStack, Cpu.setReg, Option.bind_assoc, Option.bind_map, bind,
    Option.bind_some, htop, slot_push, Function.comp_def, Function.update_self,
    Function.update_of_ne, ne_eq, reduceCtorEq, not_false_eq_true, Function.update_idem,
    lowHalf_withLow, Nat.reduceAdd]
  iterate 15 refine Option.bind_congr fun _ _ => ?_
  congr 2
  · funext r
    cases r <;> rfl
  · funext r
    cases r <;> rfl

theorem isrArgs_slots (m : M) (d sp : Word) : isrArgs m d (slot sp 14) =
    { ds := peek m d (slot sp 14)
      edi := peek m d (slot sp 13)
      esi := peek m d (slot sp 12)
      ebp := peek m d (slot sp 11)
      esp := peek m d (slot sp 10)
      ebx := peek m d (slot sp 9)
      edx := peek m d (slot sp 8)
      ecx := peek m d (slot sp 7)
      eax := peek m d (slot sp 6)
      intNo := peek m d (slot sp 5)
      errCode := peek m d (slot sp 4)
      eip := peek m d (slot sp 3)
      cs := peek m d (slot sp 2)
      eflags := peek m d (slot sp 1) } := by
  have h : ∀ j k, j + k = 14 → slot sp 14 + BitVec.ofNat 32 (4 * k) = slot sp j :=
    fun j k hjk => hjk ▸ slot_add sp j k
  rw [isrArgs, h 13 1 rfl, h 12 2 rfl, h 11 3 rfl, h 10 4 rfl, h 9 5 rfl, h 8 6 rfl, h 7 7 rfl,
    h 6 8 rfl, h 5 9 rfl, h 4 10 rfl, h 3 11 rfl, h 2 12 rfl, h 1 13 rfl]

theorem isrArgs_of_words {m : M} {d : Word} (a : IsrargsT)
    (h : ∀ i v, a.pushed[i]? = some v → peek m d (slot sp (i + 1)) = v) :
    isrArgs m d (slot sp 14) = a := by
  rw [isrArgs_slots]
  cases a
  simp only [IsrargsT.mk.injEq]
  exact ⟨h 13 _ rfl, h 12 _ rfl, h 11 _ rfl, h 10 _ rfl, h 9 _ rfl, h 8 _ rfl, h 7 _ rfl,
    h 6 _ rfl, h 5 _ rfl, h 4 _ rfl, h 3 _ rfl, h 2 _ rfl, h 1 _ rfl, h 0 _ rfl⟩

/-- The processor with the registers that `a` holds. -/
@[simp] def IsrargsT.restore (a : IsrargsT) (sp : Word) (c : Cpu M) : Cpu M :=
  { c with
    reg := fun
      | .eax => a.eax
      | .ecx => a.ecx
      | .edx => a.edx
      | .ebx => a.ebx
      | .esp => sp
      | .ebp => a.ebp
      | .esi => a.esi
      | .edi => a.edi
    eip := a.eip
    cs := a.cs
    eflags := a.eflags }

/-- Behind the call, the registers are read back from the arguments. -/
theorem leave_run (hw : Words I c.cr3 A) (hI : I c.mem) (hsp : c.reg .esp = slot sp 15)
    (hA : slots sp 1 15 ⊆ A) : c.run f idtCbLeave =
      some ((isrArgs c.mem c.cr3 (slot sp 14)).restore sp c) := by
  have hread : ∀ k, 1 ≤ k → k ≤ 15 →
      Memory.read c.mem c.cr3 (slot sp k) = some (peek c.mem c.cr3 (slot sp k)) :=
    fun k h1 h15 => hw.read hI (hA (slot_mem h1 h15))
  have hdrop : ∀ k, slot sp (k + 1) + 4#32 = slot sp k := slot_pop sp
  have hlast : slot sp 5 + 8#32 = slot sp 3 := slot_raise sp 3
  have htop : slot sp 1 + 4#32 = sp := by rw [hdrop 0, slot_zero]
  rw [isrArgs_slots]
  simp only [idtCbLeave, Cpu.run, Cpu.step, Cpu.popReg, Cpu.pop, Cpu.setReg, Option.map_some,
    Option.bind_some, bind, pure, hsp, slot_pop, hlast, htop, Function.update_self,
    Function.update_of_ne, ne_eq, reduceCtorEq, not_false_eq_true, hread, Nat.reduceLeDiff,
    Nat.le_refl, IsrargsT.restore]
  congr 2
  funext r
  cases r <;> rfl

/-- The processor where `idt_handler` is entered: the registers of `c` are in its argument. -/
structure EntersHandler (I : M → Prop) (c : Cpu M) (sp : Word) (int : Nat) (err : Option Word)
    (c₁ : Cpu M) : Prop where
  esp : c₁.reg .esp = slot sp 16
  cr3 : c₁.cr3 = c.cr3
  segs : ∀ r, c₁.seg r = 0x10#16
  eflags : c₁.eflags = c.eflags &&& ~~~0x200#32
  arg : peek c₁.mem c.cr3 (slot sp 15) = slot sp 14
  args : isrArgs c₁.mem c.cr3 (slot sp 14) = argsOf c sp int err
  good : I c₁.mem
  wrote : Wrote c.cr3 (slots sp 1 16) c.mem c₁.mem

theorem takeInterrupt_run (hw : Words I c.cr3 A) (hI : I c.mem) (hsp : c.reg .esp = sp)
    (hA : slots sp 1 16 ⊆ A) (herr : err.isSome ↔ HasErr int) (back : Word) :
    ∃ c₁, takeInterrupt f int err back c = (f .idtHandler c₁).bind (Cpu.run f idtCbLeave) ∧
      EntersHandler I c sp int err c₁ := by
  have hA15 : slots sp 1 15 ⊆ A := (slots_mono (by decide) (by decide)).trans hA
  have hlen : 0 + ((argsOf c sp int err).pushed ++ [slot sp 14]).length = 15 := rfl
  obtain ⟨m, hpush, hwrote, hwords⟩ := pushAll_run (k := 0)
    ((argsOf c sp int err).pushed ++ [slot sp 14]) hw hI (by rw [hsp, slot_zero])
    (hlen.trans_lt (by decide)) (hlen ▸ hA15)
  rw [hlen] at hpush hwrote
  have hm : I m := hwrote.good hw hA15 hI
  have s16 : slot sp 16 ∈ A := hA (slot_mem (by decide) (by decide))
  have hlow : Wrote c.cr3 (slots sp 1 16) c.mem (poke m c.cr3 (slot sp 16) back) :=
    .poke back (hwrote.mono (slots_mono (by decide) (by decide)))
      (slot_mem (by decide) (by decide))
  -- the call pushes below the words
  have hword : ∀ i v, ((argsOf c sp int err).pushed ++ [slot sp 14])[i]? = some v → i < 15 →
      peek (poke m c.cr3 (slot sp 16) back) c.cr3 (slot sp (i + 1)) = v := by
    intro i v hv hi
    have hmem : slot sp (i + 1) ∈ slots sp 1 15 := slot_mem (by omega) (by omega)
    rw [hw.peek_other hm s16 (hA15 hmem) (slot_ne (by omega) (by decide) (by omega)),
      ← hwords i v hv]
    congr 2
    omega
  refine ⟨{ inHandler c sp (c.onStack (slot sp 15) m) with
      reg := Function.update (inHandler c sp (c.onStack (slot sp 15) m)).reg .esp (slot sp 16)
      mem := poke m c.cr3 (slot sp 16) back }, ?_, ?_⟩
  · have hesp : (inHandler c sp (c.onStack (slot sp 15) m)).reg .esp - 4#32 = slot sp 16 := by
      simp
    rw [takeInterrupt, idtCbCommon]
    change (c.interrupt err).bind _ = _
    rw [enter_eq hsp herr, hpush, Option.bind_some, Cpu.run, Cpu.step, Cpu.push, hesp]
    change ((Option.map _ (Memory.write m c.cr3 (slot sp 16) back)).bind _).bind _ = _
    rw [hw.write hm s16 back]
    rfl
  · refine ⟨rfl, rfl, fun _ => rfl, rfl, ?_, ?_, hw.keeps hm s16, hlow⟩
    · exact hword 14 _ rfl (by decide)
    · apply isrArgs_of_words
      intro i v hv
      have hi : i < 14 := (List.getElem?_eq_some_iff.mp hv).1
      exact hword i v (by rw [List.getElem?_append_left hi, hv]) (by omega)

end Code

end AkKernel
