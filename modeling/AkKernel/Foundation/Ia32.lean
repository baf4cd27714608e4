import Mathlib.Data.Set.Insert
import Mathlib.Tactic.Common

/-!
# Straight-line code of a 32-bit processor

Instructions on registers and on memory that is reached through address spaces. The
arithmetic flags are left out: no instruction here reads them but `iret`, which has set all
flags anew.
-/

set_option autoImplicit false

namespace Ia32

abbrev Word32 := BitVec 32

inductive Reg where
  | eax | ecx | edx | ebx | esp | ebp | esi | edi
deriving DecidableEq, Repr

inductive Seg where
  | ds | es | fs | gs
deriving DecidableEq, Repr

/-- Memory as it is reached through the address space that `cr3` selects. -/
class Memory (M : Type) where
  read : M → Word32 → Word32 → Option Word32
  write : M → Word32 → Word32 → Word32 → Option M

structure Cpu (M : Type) where
  reg : Reg → Word32
  seg : Seg → BitVec 16
  eip : Word32
  cs : Word32
  eflags : Word32
  cr3 : Word32
  mem : M

/-- `F` names the functions that are called and are not code here; `back` is the address
behind the call. -/
inductive Instr (F : Type) where
  | push (src : Reg)
  | pushImm (v : Word32)
  | pop (dest : Reg)
  | mov (dest src : Reg)
  | load (dest base : Reg) (disp : Word32)
  | store (base : Reg) (disp : Word32) (src : Reg)
  | storeImm (base : Reg) (disp v : Word32)
  | addImm (dest : Reg) (v : Word32)
  | subImm (dest : Reg) (v : Word32)
  | toCr3 (src : Reg)
  | fromCr3 (dest : Reg)
  | movLow (dest : Reg) (v : BitVec 16)
  | fromSeg (dest : Reg) (src : Seg)
  | toSeg (dest : Seg) (src : Reg)
  | pushal
  | popal
  | call (f : F) (back : Word32)
  | ret
  | iret

section Machine
variable {M F : Type}

@[simp] def Cpu.setReg (c : Cpu M) (r : Reg) (v : Word32) : Cpu M :=
  { c with reg := Function.update c.reg r v }

/-- The stack is at `sp`, and memory is `m`. -/
@[simp] def Cpu.onStack (c : Cpu M) (sp : Word32) (m : M) : Cpu M :=
  { c with reg := Function.update c.reg .esp sp, mem := m }

/-- The lower half of a register. -/
def withLow (w : Word32) (v : BitVec 16) : Word32 := (w &&& 0xFFFF0000#32) ||| v.setWidth 32

def lowHalf (w : Word32) : BitVec 16 := w.setWidth 16

variable [Memory M]

@[simp] def Cpu.push (c : Cpu M) (v : Word32) : Option (Cpu M) :=
  (Memory.write c.mem c.cr3 (c.reg .esp - 4#32) v).map (c.onStack (c.reg .esp - 4#32))

/-- The word on top of the stack, and the processor without it. -/
@[simp] def Cpu.pop (c : Cpu M) : Option (Word32 × Cpu M) :=
  (Memory.read c.mem c.cr3 (c.reg .esp)).map fun v => (v, c.setReg .esp (c.reg .esp + 4#32))

@[simp] def Cpu.popReg (c : Cpu M) (r : Reg) : Option (Cpu M) := c.pop.map fun p => p.2.setReg r p.1

@[simp] def Cpu.store (c : Cpu M) (addr v : Word32) : Option (Cpu M) :=
  (Memory.write c.mem c.cr3 addr v).map fun m => { c with mem := m }

@[simp] def Cpu.load (c : Cpu M) (r : Reg) (addr : Word32) : Option (Cpu M) :=
  (Memory.read c.mem c.cr3 addr).map fun v => c.setReg r v

/-- What the processor does for an interrupt that stays in the privilege level and goes through
an interrupt gate; some exceptions have an error code. -/
def Cpu.interrupt (err : Option Word32) (c : Cpu M) : Option (Cpu M) := do
  let eflags := c.eflags
  let c ← c.push eflags
  let c ← c.push c.cs
  let c ← c.push c.eip
  let c := { c with eflags := eflags &&& ~~~0x200#32 }
  match err with
  | none => pure c
  | some e => c.push e

@[simp] def Cpu.step (ext : F → Cpu M → Option (Cpu M)) (c : Cpu M) : Instr F → Option (Cpu M)
  | .push src => c.push (c.reg src)
  | .pushImm v => c.push v
  | .pop dest => c.popReg dest
  | .mov dest src => some (c.setReg dest (c.reg src))
  | .load dest base disp => c.load dest (c.reg base + disp)
  | .store base disp src => c.store (c.reg base + disp) (c.reg src)
  | .storeImm base disp v => c.store (c.reg base + disp) v
  | .addImm dest v => some (c.setReg dest (c.reg dest + v))
  | .subImm dest v => some (c.setReg dest (c.reg dest - v))
  | .toCr3 src => some { c with cr3 := c.reg src }
  | .fromCr3 dest => some (c.setReg dest c.cr3)
  | .movLow dest v => some (c.setReg dest (withLow (c.reg dest) v))
  | .fromSeg dest src => some (c.setReg dest (withLow (c.reg dest) (c.seg src)))
  | .toSeg dest src =>
    some { c with seg := Function.update c.seg dest (lowHalf (c.reg src)) }
  | .pushal => do
    let esp := c.reg .esp
    let c ← c.push (c.reg .eax)
    let c ← c.push (c.reg .ecx)
    let c ← c.push (c.reg .edx)
    let c ← c.push (c.reg .ebx)
    let c ← c.push esp
    let c ← c.push (c.reg .ebp)
    let c ← c.push (c.reg .esi)
    c.push (c.reg .edi)
  | .popal => do
    let c ← c.popReg .edi
    let c ← c.popReg .esi
    let c ← c.popReg .ebp
    -- the word of `esp` is thrown away
    let (_, c) ← c.pop
    let c ← c.popReg .ebx
    let c ← c.popReg .edx
    let c ← c.popReg .ecx
    c.popReg .eax
  | .call f back => do
    let c ← c.push back
    ext f c
  | .ret => c.pop.map fun p => { p.2 with eip := p.1 }
  | .iret => do
    let (eip, c) ← c.pop
    let (cs, c) ← c.pop
    let (eflags, c) ← c.pop
    pure { c with eip := eip, cs := cs, eflags := eflags }

@[simp] def Cpu.run (ext : F → Cpu M → Option (Cpu M)) : List (Instr F) → Cpu M → Option (Cpu M)
  | [], c => some c
  | i :: is, c => (c.step ext i).bind (run ext is)

/-- A call of `code` with one argument on the stack; `back` is the address behind the call. -/
def Cpu.callWith (ext : F → Cpu M → Option (Cpu M)) (code : List (Instr F)) (arg back : Word32)
    (c : Cpu M) : Option (Cpu M) := do
  let c ← c.push arg
  let c ← c.push back
  c.run ext code

end Machine

/-- The word `k` words below the address `sp`. -/
def slot (sp : Word32) (k : Nat) : Word32 := sp - BitVec.ofNat 32 (4 * k)

section Slots
variable {sp : Word32} {j k : Nat}

@[simp] theorem slot_zero (sp : Word32) : slot sp 0 = sp := by simp [slot]

theorem slot_sub (sp : Word32) (k j : Nat) :
    slot sp k - BitVec.ofNat 32 (4 * j) = slot sp (k + j) := by
  unfold slot
  rw [Nat.mul_add, BitVec.ofNat_add]
  generalize BitVec.ofNat 32 (4 * k) = x
  generalize BitVec.ofNat 32 (4 * j) = y
  bv_omega

theorem slot_add (sp : Word32) (k j : Nat) :
    slot sp (k + j) + BitVec.ofNat 32 (4 * j) = slot sp k := by
  rw [← slot_sub, BitVec.sub_add_cancel]

theorem sub_four (sp : Word32) : sp - 4#32 = slot sp 1 := rfl

theorem slot_inj (hj : j < 0x40000000) (hk : k < 0x40000000) : slot sp j = slot sp k ↔ j = k := by
  constructor
  · intro h
    unfold slot at h
    have hn : BitVec.ofNat 32 (4 * j) = BitVec.ofNat 32 (4 * k) := by
      generalize BitVec.ofNat 32 (4 * j) = x at *
      generalize BitVec.ofNat 32 (4 * k) = y at *
      bv_omega
    have := congrArg BitVec.toNat hn
    rw [BitVec.toNat_ofNat, BitVec.toNat_ofNat] at this
    omega
  · exact fun h => by rw [h]

@[simp] theorem slot_push (sp : Word32) (k : Nat) : slot sp k - 4#32 = slot sp (k + 1) :=
  slot_sub sp k 1

@[simp] theorem slot_drop (sp : Word32) (k : Nat) : slot sp k - 8#32 = slot sp (k + 2) :=
  slot_sub sp k 2

@[simp] theorem slot_pop (sp : Word32) (k : Nat) : slot sp (k + 1) + 4#32 = slot sp k :=
  slot_add sp k 1

@[simp] theorem slot_raise (sp : Word32) (k : Nat) : slot sp (k + 2) + 8#32 = slot sp k :=
  slot_add sp k 2

theorem slot_ne (hj : j < 0x40000000) (hk : k < 0x40000000) (h : j ≠ k) : slot sp j ≠ slot sp k :=
  fun he => h ((slot_inj hj hk).mp he)

theorem slot_toNat (h : 4 * k ≤ sp.toNat) : (slot sp k).toNat = sp.toNat - 4 * k := by
  have hlt := sp.isLt
  unfold slot
  rw [BitVec.toNat_sub_of_le]
  · rw [BitVec.toNat_ofNat]
    omega
  · rw [BitVec.le_def, BitVec.toNat_ofNat]
    omega

/-- The words `lo` to `hi` words below `sp`. -/
def slots (sp : Word32) (lo hi : Nat) : Set Word32 := { a | ∃ k, lo ≤ k ∧ k ≤ hi ∧ a = slot sp k }

theorem slot_mem {lo hi : Nat} (hl : lo ≤ k) (hh : k ≤ hi) : slot sp k ∈ slots sp lo hi :=
  ⟨k, hl, hh, rfl⟩

theorem slots_mono {lo hi lo' hi' : Nat} (hl : lo' ≤ lo) (hh : hi ≤ hi') :
    slots sp lo hi ⊆ slots sp lo' hi' := by
  rintro a ⟨k, hk, hk', rfl⟩
  exact slot_mem (hl.trans hk) (hk'.trans hh)

theorem slot_not_mem {lo hi : Nat} (hk : k < 0x40000000) (hh : hi < 0x40000000)
    (h : k < lo ∨ hi < k) : slot sp k ∉ slots sp lo hi := by
  rintro ⟨j, hl, hj, he⟩
  have := (slot_inj hk (by omega)).mp he
  omega

@[simp] theorem slot_local (sp : Word32) (k : Nat) :
    slot sp k + 0xFFFFFFFC#32 = slot sp (k + 1) := by
  rw [← slot_push]
  generalize slot sp k = x
  bv_omega

@[simp] theorem slot_local₂ (sp : Word32) (k : Nat) :
    slot sp k + 0xFFFFFFF8#32 = slot sp (k + 2) := by
  rw [← slot_drop]
  generalize slot sp k = x
  bv_omega

end Slots

section Words
variable {M : Type} [Memory M]

/-- The word that is read, where there is one. -/
def peek (m : M) (d a : Word32) : Word32 := (Memory.read m d a).getD 0#32

def poke (m : M) (d a v : Word32) : M := (Memory.write m d a v).getD m

/-- In the memories of `I`, the words at `A` in space `d` can be read and written one by one. -/
structure Words (I : M → Prop) (d : Word32) (A : Set Word32) : Prop where
  reads : ∀ m, I m → ∀ a ∈ A, ∃ v, Memory.read m d a = some v
  writes : ∀ m, I m → ∀ a ∈ A, ∀ v, ∃ m', Memory.write m d a v = some m' ∧ I m' ∧
    Memory.read m' d a = some v ∧ ∀ b ∈ A, b ≠ a → Memory.read m' d b = Memory.read m d b

namespace Words
variable {I : M → Prop} {d a b v : Word32} {A : Set Word32} {m : M}

theorem read (h : Words I d A) (hm : I m) (ha : a ∈ A) :
    Memory.read m d a = some (peek m d a) := by
  obtain ⟨v, hv⟩ := h.reads m hm a ha
  rw [peek, hv]
  rfl

theorem write (h : Words I d A) (hm : I m) (ha : a ∈ A) (v : Word32) :
    Memory.write m d a v = some (poke m d a v) := by
  obtain ⟨m', hw, -⟩ := h.writes m hm a ha v
  rw [poke, hw]
  rfl

theorem poke_spec (h : Words I d A) (hm : I m) (ha : a ∈ A) (v : Word32) :
    I (poke m d a v) ∧ peek (poke m d a v) d a = v ∧
      ∀ b ∈ A, b ≠ a → peek (poke m d a v) d b = peek m d b := by
  obtain ⟨m', hw, hI, hself, hother⟩ := h.writes m hm a ha v
  have hp : poke m d a v = m' := by
    rw [poke, hw]
    rfl
  rw [hp]
  refine ⟨hI, ?_, ?_⟩
  · rw [peek, hself]
    rfl
  · intro b hb hne
    rw [peek, hother b hb hne, ← peek]

theorem keeps (h : Words I d A) (hm : I m) (ha : a ∈ A) : I (poke m d a v) :=
  (h.poke_spec hm ha v).1

theorem peek_self (h : Words I d A) (hm : I m) (ha : a ∈ A) : peek (poke m d a v) d a = v :=
  (h.poke_spec hm ha v).2.1

theorem peek_other (h : Words I d A) (hm : I m) (ha : a ∈ A) (hb : b ∈ A) (hne : b ≠ a) :
    peek (poke m d a v) d b = peek m d b := (h.poke_spec hm ha v).2.2 b hb hne

end Words

/-- `m'` is `m` after writes to words of `W` in space `d`. -/
inductive Wrote (d : Word32) (W : Set Word32) (m : M) : M → Prop where
  | refl : Wrote d W m m
  | poke {m' : M} {a : Word32} (v : Word32) : Wrote d W m m' → a ∈ W → Wrote d W m (poke m' d a v)

namespace Wrote
variable {I : M → Prop} {d b : Word32} {A W : Set Word32} {m m' m'' : M}

theorem trans (h : Wrote d W m m') (h' : Wrote d W m' m'') : Wrote d W m m'' := by
  induction h' with
  | refl => exact h
  | poke v _ ha ih => exact .poke v ih ha

theorem mono {V : Set Word32} (h : Wrote d W m m') (hsub : W ⊆ V) : Wrote d V m m' := by
  induction h with
  | refl => exact .refl
  | poke v _ ha ih => exact .poke v ih (hsub ha)

/-- What every write keeps, they all keep. -/
theorem keeps {P : M → Prop} (h : Wrote d W m m') (hm : P m)
    (hw : ∀ m a v, P m → a ∈ W → P (Ia32.poke m d a v)) : P m' := by
  induction h with
  | refl => exact hm
  | poke v _ ha ih => exact hw _ _ v ih ha

theorem good (h : Wrote d W m m') (hw : Words I d A) (hsub : W ⊆ A) (hm : I m) : I m' :=
  h.keeps hm fun _ _ _ hI ha => hw.keeps hI (hsub ha)

theorem peek_eq (h : Wrote d W m m') (hw : Words I d A) (hsub : W ⊆ A) (hm : I m) (hb : b ∈ A)
    (hn : b ∉ W) : peek m' d b = peek m d b := by
  have hall : I m' ∧ peek m' d b = peek m d b := by
    refine h.keeps (P := fun t => I t ∧ peek t d b = peek m d b) ⟨hm, rfl⟩ ?_
    intro t a v ht ha
    refine ⟨hw.keeps ht.1 (hsub ha), ?_⟩
    rw [hw.peek_other ht.1 (hsub ha) hb (ne_of_mem_of_not_mem ha hn).symm]
    exact ht.2
  exact hall.2

end Wrote

/-- Words are pushed one after the other. -/
def Cpu.pushAll : List Word32 → Cpu M → Option (Cpu M)
  | [], c => some c
  | v :: vs, c => (c.push v).bind (Cpu.pushAll vs)

/-- The words that were pushed are on the stack, and nothing but the stack was written. -/
theorem pushAll_run {I : M → Prop} {A : Set Word32} {sp : Word32} (vs : List Word32) {k : Nat}
    {c : Cpu M} (hw : Words I c.cr3 A) (hI : I c.mem) (hsp : c.reg .esp = slot sp k)
    (hlen : k + vs.length < 0x40000000) (hA : slots sp (k + 1) (k + vs.length) ⊆ A) :
    ∃ m, c.pushAll vs = some (c.onStack (slot sp (k + vs.length)) m) ∧
      Wrote c.cr3 (slots sp (k + 1) (k + vs.length)) c.mem m ∧
      ∀ i v, vs[i]? = some v → peek m c.cr3 (slot sp (k + 1 + i)) = v := by
  induction vs generalizing k c with
  | nil =>
    refine ⟨c.mem, ?_, .refl, ?_⟩
    · simp only [Cpu.pushAll, Cpu.onStack, List.length_nil, Nat.add_zero, ← hsp,
        Function.update_eq_self]
    · intro i v hv
      cases hv
  | cons v vs ih =>
    have hlen' : k + 1 + vs.length = k + (v :: vs).length := by
      rw [List.length_cons]
      omega
    have ha : slot sp (k + 1) ∈ A := hA (slot_mem (Nat.le_refl _) (by omega))
    obtain ⟨hgood, hself, -⟩ := hw.poke_spec hI ha v
    have hsp' : (c.onStack (slot sp (k + 1)) (poke c.mem c.cr3 (slot sp (k + 1)) v)).reg .esp =
        slot sp (k + 1) := by simp
    have hsub : slots sp (k + 1 + 1) (k + 1 + vs.length) ⊆ A :=
      (slots_mono (by omega) (by omega)).trans hA
    obtain ⟨m, hrun, hwrote, hwords⟩ := ih
      (c := c.onStack (slot sp (k + 1)) (poke c.mem c.cr3 (slot sp (k + 1)) v)) hw hgood hsp'
      (by omega) hsub
    refine ⟨m, ?_, ?_, ?_⟩
    · rw [Cpu.pushAll, Cpu.push, hsp, slot_push, hw.write hI ha, Option.map_some,
        Option.bind_some, hrun, hlen']
      simp only [Cpu.onStack, Function.update_idem]
    · have hfirst : Wrote c.cr3 (slots sp (k + 1) (k + (v :: vs).length)) c.mem
          (poke c.mem c.cr3 (slot sp (k + 1)) v) := .poke v .refl (slot_mem (by omega) (by omega))
      exact hfirst.trans (hwrote.mono (slots_mono (by omega) (by omega)))
    · intro i w hi
      cases i with
      | zero =>
        cases hi
        have hkeep := hwrote.peek_eq hw hsub hgood ha
          (slot_not_mem (by omega) (by omega) (Or.inl (by omega)))
        exact hkeep.trans hself
      | succ i =>
        have h := hwords i w hi
        rw [show k + 1 + 1 + i = k + 1 + (i + 1) by omega] at h
        exact h

end Words

end Ia32
