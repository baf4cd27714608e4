import AkKernel.Fault
import Mathlib.Tactic.Common

/-!
# Page entries and addresses

The macros of `arch/x86/mem/mmu.h` and `arch/x86/mem/map.h`. Physical memory is
numbered by frames of 4096 bytes, so `frameNo` is also the `ADDR_PAGE` of the frame
allocator.
-/

set_option autoImplicit false

namespace AkKernel

def pagePresent : Word := 0x1#32
def pageRw : Word := 0x2#32
def pageUser : Word := 0x4#32
def pageExtended : Word := 0x80#32
def pageLink : Word := 0x200#32
def pageReserved : Word := 0x400#32
def pageStackEnd : Word := 0x2#32

def baseFlagBits : Word := pagePresent ||| pageRw
def userFlags : Word := baseFlagBits ||| pageUser
def kernelFlags : Word := baseFlagBits ||| pageLink

def pageSize : Word := 0x1000#32
def pteAddrMask : Word := 0xFFFFF000#32
def pdeAddrMask : Word := 0xFFC00000#32

def kZero : Word := 0xC0000000#32

/-- The page of the kernel's stack, the last one below `KZERO`. -/
def kStackPage : Word := 0xBFFFF000#32

def kTmpMem : Word := 0xFFC00000#32

def nilPgEnt : Word := 0#32

def pageEntry (addr flags : Word) : Word := addr ||| flags

/-- `PAGE_ENTRY(0, KERNEL_FLAGS | PAGE_EXTENDED)` -/
def kernelLow4M : Word := pageEntry 0#32 (kernelFlags ||| pageExtended)

def pgAddr (addr : Word) : Word := addr - addr % pageSize
def addrPde (addr : Word) : Nat := (addr >>> 22).toNat
def addrPte (addr : Word) : Nat := ((addr >>> 12) % 1024#32).toNat
def pdeAddr (pde : Word) : Word := pde &&& pdeAddrMask
def pteAddr (pte : Word) : Word := pte &&& pteAddrMask
def pdeFlags (pde : Word) : Word := pde &&& ~~~ pdeAddrMask
def pteFlags (pte : Word) : Word := pte &&& ~~~ pteAddrMask

def frameNo (addr : Word) : Nat := addr.toNat / 4096
def frameAddr (n : Nat) : Word := BitVec.ofNat 32 (n * 4096)

def Present (e : Word) : Prop := e &&& pagePresent ≠ 0#32
def Linked (e : Word) : Prop := e &&& pageLink ≠ 0#32
def Extended (e : Word) : Prop := e &&& pageExtended ≠ 0#32
def Reserved (e : Word) : Prop := e &&& pageReserved ≠ 0#32

instance (e : Word) : Decidable (Present e) := inferInstanceAs (Decidable (_ ≠ _))
instance (e : Word) : Decidable (Linked e) := inferInstanceAs (Decidable (_ ≠ _))
instance (e : Word) : Decidable (Extended e) := inferInstanceAs (Decidable (_ ≠ _))
instance (e : Word) : Decidable (Reserved e) := inferInstanceAs (Decidable (_ ≠ _))

section Addresses
variable {addr e e' flags m : Word} {n : Nat}

theorem frameNo_lt (addr : Word) : frameNo addr < 2 ^ 20 := by
  have := addr.isLt
  unfold frameNo
  omega

theorem addrPde_lt (addr : Word) : addrPde addr < 1024 := by
  have := addr.isLt
  unfold addrPde
  rw [BitVec.toNat_ushiftRight, Nat.shiftRight_eq_div_pow]
  omega

theorem addrPte_lt (addr : Word) : addrPte addr < 1024 := by
  unfold addrPte
  rw [BitVec.toNat_umod]
  exact Nat.mod_lt _ (by decide)

theorem addrPde_eq (addr : Word) : addrPde addr = addr.toNat / 2 ^ 22 := by
  rw [addrPde, BitVec.toNat_ushiftRight, Nat.shiftRight_eq_div_pow]

theorem addrPte_eq (addr : Word) : addrPte addr = addr.toNat / 4096 % 1024 := by
  rw [addrPte, BitVec.toNat_umod, BitVec.toNat_ushiftRight, Nat.shiftRight_eq_div_pow]
  rfl

theorem lt_kZero_of_below {v : Word} (h : v < kStackPage) : v < kZero :=
  BitVec.lt_trans h (by decide)

theorem addrPde_lt_iff {v : Word} : addrPde v < 768 ↔ v < kZero := by
  have hk : kZero.toNat = 768 * 2 ^ 22 := by decide
  rw [addrPde_eq, BitVec.lt_def, hk]
  omega

theorem pgAddr_toNat (addr : Word) : (pgAddr addr).toNat = addr.toNat - addr.toNat % 4096 := by
  have hlt := addr.isLt
  have hmod : (addr % pageSize).toNat = addr.toNat % 4096 := by
    rw [BitVec.toNat_umod]
    rfl
  rw [pgAddr, BitVec.toNat_sub_of_le, hmod]
  rw [BitVec.le_def, hmod]
  exact Nat.mod_le _ _

theorem addrPde_pgAddr (addr : Word) : addrPde (pgAddr addr) = addrPde addr := by
  rw [addrPde_eq, addrPde_eq, pgAddr_toNat]
  omega

theorem addrPte_pgAddr (addr : Word) : addrPte (pgAddr addr) = addrPte addr := by
  rw [addrPte_eq, addrPte_eq, pgAddr_toNat]
  omega

/-- The slots of a walk tell the page. -/
theorem pgAddr_eq_of_slots {a b : Word} (hpde : addrPde a = addrPde b)
    (hpte : addrPte a = addrPte b) : pgAddr a = pgAddr b := by
  rw [addrPde_eq, addrPde_eq] at hpde
  rw [addrPte_eq, addrPte_eq] at hpte
  apply BitVec.eq_of_toNat_eq
  rw [pgAddr_toNat, pgAddr_toNat]
  omega

theorem slots_of_pgAddr_eq {a b : Word} (h : pgAddr a = pgAddr b) :
    addrPde a = addrPde b ∧ addrPte a = addrPte b := by
  constructor
  · rw [← addrPde_pgAddr, h, addrPde_pgAddr]
  · rw [← addrPte_pgAddr, h, addrPte_pgAddr]

theorem frameNo_frameAddr (hn : n < 2 ^ 20) : frameNo (frameAddr n) = n := by
  rw [frameNo, frameAddr, BitVec.toNat_ofNat]
  omega

theorem toNat_shiftRight_frameNo (addr : Word) : addr.toNat >>> 12 = frameNo addr := by
  rw [Nat.shiftRight_eq_div_pow]
  rfl

theorem frameNo_pageEntry (hf : flags.toNat < 4096) :
    frameNo (pageEntry addr flags) = frameNo addr := by
  rw [← toNat_shiftRight_frameNo, ← toNat_shiftRight_frameNo, pageEntry, BitVec.toNat_or,
    Nat.shiftRight_or_distrib]
  have : flags.toNat >>> 12 = 0 := by
    rw [Nat.shiftRight_eq_div_pow]
    omega
  rw [this, Nat.or_zero]

theorem frameNo_pteAddr (e : Word) : frameNo (pteAddr e) = frameNo e := by
  rw [← toNat_shiftRight_frameNo, ← toNat_shiftRight_frameNo, pteAddr, BitVec.toNat_and,
    Nat.shiftRight_and_distrib]
  have hmask : pteAddrMask.toNat >>> 12 = 2 ^ 20 - 1 := by decide
  have hlt : e.toNat >>> 12 < 2 ^ 20 := by
    rw [toNat_shiftRight_frameNo]
    exact frameNo_lt e
  rw [hmask, Nat.and_two_pow_sub_one_eq_mod, Nat.mod_eq_of_lt hlt]

end Addresses

section Flags
variable {addr e e' flags m : Word} {n : Nat}

theorem pteFlags_lt (e : Word) : (pteFlags e).toNat < 4096 := by
  have hle : (pteFlags e).toNat ≤ (~~~ pteAddrMask).toNat := by
    rw [pteFlags, BitVec.toNat_and]
    exact Nat.and_le_right
  have : (~~~ pteAddrMask).toNat = 4095 := by decide
  omega

theorem pteFlags_frameAddr (n : Nat) : pteFlags (frameAddr n) = 0#32 := by
  apply BitVec.eq_of_toNat_eq
  have hmask : (~~~ pteAddrMask).toNat = 2 ^ 12 - 1 := by decide
  rw [pteFlags, BitVec.toNat_and, hmask, Nat.and_two_pow_sub_one_eq_mod, frameAddr,
    BitVec.toNat_ofNat]
  change n * 4096 % 2 ^ 32 % 2 ^ 12 = 0
  omega

theorem pteFlags_pteFlags (e : Word) : pteFlags (pteFlags e) = pteFlags e := by
  rw [pteFlags, pteFlags, BitVec.and_assoc, BitVec.and_self]

theorem pteFlags_pageEntry (n : Nat) (hf : pteFlags flags = flags) :
    pteFlags (pageEntry (frameAddr n) flags) = flags := by
  have h := pteFlags_frameAddr n
  unfold pteFlags at h hf ⊢
  rw [pageEntry, BitVec.and_or_distrib_right, h, hf, BitVec.zero_or]

theorem and_flag (hm : ~~~ pteAddrMask &&& m = m) : e &&& m = pteFlags e &&& m := by
  rw [pteFlags, BitVec.and_assoc, hm]

theorem present_iff : Present e ↔ pteFlags e &&& pagePresent ≠ 0#32 := by
  rw [Present, and_flag (by decide)]

theorem linked_iff : Linked e ↔ pteFlags e &&& pageLink ≠ 0#32 := by
  rw [Linked, and_flag (by decide)]

theorem extended_iff : Extended e ↔ pteFlags e &&& pageExtended ≠ 0#32 := by
  rw [Extended, and_flag (by decide)]

theorem present_congr (h : pteFlags e = pteFlags e') : Present e ↔ Present e' := by
  rw [present_iff, present_iff, h]

theorem linked_congr (h : pteFlags e = pteFlags e') : Linked e ↔ Linked e' := by
  rw [linked_iff, linked_iff, h]

theorem extended_congr (h : pteFlags e = pteFlags e') : Extended e ↔ Extended e' := by
  rw [extended_iff, extended_iff, h]

theorem reserved_congr (h : pteFlags e = pteFlags e') : Reserved e ↔ Reserved e' := by
  rw [Reserved, Reserved, and_flag (by decide), and_flag (e := e') (by decide), h]

theorem Present.ne_nil (h : Present e) : e ≠ nilPgEnt := by
  intro he
  rw [he] at h
  exact h (by decide)

theorem not_present_nil : ¬ Present nilPgEnt := by decide

end Flags

end AkKernel
