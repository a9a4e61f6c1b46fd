import Mathlib.Data.BitVec
import Mathlib.Tactic

/-!
Addresses of the i386 kernel (`paging/address.hpp`). Physical and virtual
addresses are 32-bit words with modular arithmetic; a page has 4096 bytes, a
page table 1024 entries and a directory 1024 tables.
-/

namespace Nyan.Paging

abbrev VirtualAddress := BitVec 32

abbrev PhysicalAddress := BitVec 32

def alignDown (addr : BitVec 32) : BitVec 32 := addr &&& ~~~0xFFF#32

def alignUp (addr : BitVec 32) : BitVec 32 := (addr + 0xFFF#32) &&& ~~~0xFFF#32

def thisPage (addr : BitVec 32) : BitVec 32 := alignDown addr

def prevPage (addr : BitVec 32) : BitVec 32 := (addr &&& ~~~0xFFF#32) - 0x1000#32

def nextPage (addr : BitVec 32) : BitVec 32 := (addr &&& ~~~0xFFF#32) + 0x1000#32

theorem shiftRight_22_lt (addr : BitVec 32) : (addr >>> 22).toNat < 1024 := by
  simp only [BitVec.toNat_ushiftRight, Nat.shiftRight_eq_div_pow]
  have := addr.isLt
  omega

theorem shiftRight_12_mod_lt (addr : BitVec 32) :
    ((addr >>> 12) &&& 0x3FF#32).toNat < 1024 := by
  have h : ((addr >>> 12) &&& 0x3FF#32).toNat ≤ (0x3FF#32).toNat := by
    rw [BitVec.toNat_and]
    exact Nat.and_le_right
  have h3ff : (0x3FF#32).toNat = 1023 := by decide
  omega

/-- The directory slot of a virtual address. -/
def tableLoc (addr : VirtualAddress) : Fin 1024 := ⟨(addr >>> 22).toNat, shiftRight_22_lt addr⟩

/-- The slot of a virtual address in its page table; the source spells it
`tablePageLoc` in `Table::freePage` and `pageTableOffset` in `handleCOW`. -/
def tablePageLoc (addr : VirtualAddress) : Fin 1024 :=
  ⟨((addr >>> 12) &&& 0x3FF#32).toNat, shiftRight_12_mod_lt addr⟩

/-- `begin.thisPage() == begin`, the alignment test of the system calls. -/
def PageAligned (addr : BitVec 32) : Prop := thisPage addr = addr

instance (addr : BitVec 32) : Decidable (PageAligned addr) :=
  inferInstanceAs (Decidable (thisPage addr = addr))

theorem and_not_low (addr : BitVec 32) : addr &&& ~~~0xFFF#32 = (addr >>> 12) <<< 12 := by
  have hmask : ~~~0xFFF#32 = BitVec.allOnes 32 <<< 12 := by decide
  rw [hmask]
  ext i hi
  simp only [BitVec.getElem_and, BitVec.getElem_shiftLeft, BitVec.getElem_ushiftRight,
    BitVec.getElem_allOnes]
  by_cases h : i < 12
  · simp [h]
  · have hindex : 12 + (i - 12) = i := by omega
    simp [h, hindex, BitVec.getLsbD_eq_getElem hi]

theorem alignDown_toNat (addr : BitVec 32) :
    (alignDown addr).toNat = addr.toNat - addr.toNat % 4096 := by
  unfold alignDown
  rw [and_not_low]
  simp only [BitVec.toNat_shiftLeft, BitVec.toNat_ushiftRight, Nat.shiftLeft_eq,
    Nat.shiftRight_eq_div_pow]
  have := addr.isLt
  omega

theorem thisPage_toNat (addr : BitVec 32) :
    (thisPage addr).toNat = addr.toNat - addr.toNat % 4096 := alignDown_toNat addr

theorem nextPage_toNat (addr : BitVec 32) :
    (nextPage addr).toNat = (addr.toNat - addr.toNat % 4096 + 4096) % 2 ^ 32 := by
  have h : nextPage addr = alignDown addr + 0x1000#32 := rfl
  rw [h, BitVec.toNat_add, alignDown_toNat]
  rfl

theorem prevPage_toNat (addr : BitVec 32) :
    (prevPage addr).toNat = (2 ^ 32 - 4096 + (addr.toNat - addr.toNat % 4096)) % 2 ^ 32 := by
  have h : prevPage addr = alignDown addr - 0x1000#32 := rfl
  rw [h, BitVec.toNat_sub, alignDown_toNat]
  rfl

theorem pageAligned_iff (addr : BitVec 32) : PageAligned addr ↔ addr.toNat % 4096 = 0 := by
  unfold PageAligned
  rw [← BitVec.toNat_inj, thisPage_toNat]
  have := addr.isLt
  omega

theorem PageAligned.add {addr size : BitVec 32} (haddr : PageAligned addr)
    (hsize : size.toNat % 4096 = 0) : PageAligned (addr + size) := by
  rw [pageAligned_iff] at haddr ⊢
  rw [BitVec.toNat_add]
  omega

theorem alignUp_toNat (addr : BitVec 32) (hfit : addr.toNat + 4095 < 2 ^ 32) :
    (alignUp addr).toNat = (addr.toNat + 4095) / 4096 * 4096 := by
  have h : alignUp addr = alignDown (addr + 0xFFF#32) := rfl
  have hsum : (addr + 0xFFF#32).toNat = addr.toNat + 4095 := by
    rw [BitVec.toNat_add]
    have : (0xFFF#32).toNat = 4095 := rfl
    omega
  rw [h, alignDown_toNat, hsum]
  omega

theorem alignUp_aligned (addr : BitVec 32) : (alignUp addr).toNat % 4096 = 0 := by
  have h : alignUp addr = alignDown (addr + 0xFFF#32) := rfl
  rw [h, alignDown_toNat]
  omega

theorem tableLoc_val (addr : VirtualAddress) : (tableLoc addr).val = addr.toNat / 0x400000 := by
  simp only [tableLoc, BitVec.toNat_ushiftRight, Nat.shiftRight_eq_div_pow]

theorem tablePageLoc_val (addr : VirtualAddress) :
    (tablePageLoc addr).val = addr.toNat / 0x1000 % 1024 := by
  have hmask := Nat.and_two_pow_sub_one_eq_mod (addr.toNat >>> 12) 10
  simp only [tablePageLoc, BitVec.toNat_and, BitVec.toNat_ushiftRight]
  rw [Nat.shiftRight_eq_div_pow] at hmask ⊢
  simpa using hmask

end Nyan.Paging
