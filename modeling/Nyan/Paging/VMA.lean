import Nyan.Paging.RangeErase

/-!
The virtual memory areas of a process (`paging/vma.hpp`). A `VMSpace` is the
range manager between `0x00400000` and `0xC0000000` whose entries also carry
flags, protection and a name. The two sentinels carry no protection.

`validate` decides whether the kernel may touch a buffer that user code named.
It adds the size to the address modulo `2 ^ 32` before it compares, so its
answer can be trusted only for ranges that do not wrap.
-/

namespace Nyan.Paging

def MAP_SHARED : BitVec 32 := 0x01#32
def MAP_PRIVATE : BitVec 32 := 0x02#32
def MAP_FIXED : BitVec 32 := 0x10#32
def MAP_ANONYMOUS : BitVec 32 := 0x20#32
def MAP_GROWSDOWN : BitVec 32 := 0x100#32
def MAP_FILE : BitVec 32 := 0#32

def PROT_READ : BitVec 32 := 0x1#32
def PROT_WRITE : BitVec 32 := 0x2#32
def PROT_EXEC : BitVec 32 := 0x4#32

structure VMA where
  beginAddr : VirtualAddress
  endAddr : VirtualAddress
  flags : BitVec 32 := 0#32
  protect : BitVec 32 := 0#32
  name : String := ""
  deriving DecidableEq, Repr

instance : RangeEntry VMA where
  beginAddr := VMA.beginAddr
  endAddr := VMA.endAddr
  make lower upper := { beginAddr := lower, endAddr := upper }
  setBegin vma lower := { vma with beginAddr := lower }
  setEnd vma upper := { vma with endAddr := upper }
  beginAddr_make _ _ := rfl
  endAddr_make _ _ := rfl
  beginAddr_setBegin _ _ := rfl
  endAddr_setBegin _ _ := rfl
  beginAddr_setEnd _ _ := rfl
  endAddr_setEnd _ _ := rfl

/-- The vector `__addrs` of a `VMSpace`. -/
abbrev VMSpace := List VMA

namespace VMSpace

open RangeManager Library

def Base : VirtualAddress := 0x00400000#32
def Top : VirtualAddress := 0xC0000000#32

def init : VMSpace := RangeManager.init Base Top

/-- The entries from `begin()` up to `end()`: all but the first and the last. -/
def iterated (space : VMSpace) : List VMA := space.tail.dropLast

/-- `find_name`, as an index; the sentinels are searched too. -/
def findName (space : VMSpace) (name : String) : Option Nat :=
  space.findIdx? fun vma => vma.name == name

/-- `__split_range`: the low part of a split area no longer grows down. -/
def splitRange (entry source : VMA) : VMA :=
  { entry with
    flags := source.flags &&& ~~~MAP_GROWSDOWN
    protect := source.protect
    name := source.name }

/-- `erase`, with the released ranges left for the caller to free. -/
def erase (space : VMSpace) (addr : VirtualAddress) (size : BitVec 32) : Option (RangeManager.Erased VMA) :=
  RangeManager.erase Top splitRange space addr size

def findFree (space : VMSpace) (size : BitVec 32) (hint : VirtualAddress) :
    Option (Option VirtualAddress) :=
  RangeManager.findFree Base Top space size hint

/-- `validate`. The bound `addr + size` is a 32-bit sum. -/
def validate (space : VMSpace) (addr : VirtualAddress) (size prot : BitVec 32) :
    Option Bool := do
  let pos ← locate space addr
  let vma ← space[pos]?
  if ¬ ContainsRange vma addr (addr + size) then
    return false
  if vma.protect &&& prot ≠ prot then
    return false
  return true

/-- The stack area `execTask` inserts. -/
def stackArea : VMA where
  beginAddr := 0xBFFFF000#32
  endAddr := 0xC0000000#32
  flags := MAP_PRIVATE ||| MAP_ANONYMOUS ||| MAP_GROWSDOWN
  protect := PROT_READ ||| PROT_WRITE
  name := "stack"

theorem splitRange_keepsBounds : KeepsBounds splitRange := fun _ _ => ⟨rfl, rfl⟩

/-- A space whose entries are sorted and disjoint and which still ends with the
sentinel that begins at `Top`. -/
structure WellFormed (space : VMSpace) : Prop where
  sorted : Interval.Sorted lo space
  disjoint : Interval.Disjoint lo hi space
  last : space.getLast? = some (RangeEntry.make Top 0xFFFFF000#32)

/-- What the callers of `validate` rely on: the range does not wrap, it lies in
one area that grants the protection asked for, and it stays below `Top`. -/
structure Trusted (space : VMSpace) (addr : VirtualAddress) (size prot : BitVec 32) : Prop where
  nowrap : addr.toNat + size.toNat < 2 ^ 32
  inside : ∃ vma ∈ space, vma.protect &&& prot = prot ∧
    ∀ x, addr.toNat ≤ x → x < addr.toNat + size.toNat → lo vma ≤ x ∧ x < hi vma
  user : 0 < size.toNat → prot ≠ 0#32 → addr.toNat + size.toNat ≤ Top.toNat

/-- The sum wraps, and the area found for the address hides that: it grants the
protection and ends at or above the wrapped sum. -/
def WrapsInside (space : VMSpace) (addr : VirtualAddress) (size prot : BitVec 32) : Prop :=
  2 ^ 32 ≤ addr.toNat + size.toNat ∧ ∃ pos vma, locate space addr = some pos ∧
    space[pos]? = some vma ∧ vma.protect &&& prot = prot ∧ addr + size ≤ vma.endAddr

theorem validate_eq_true {space : VMSpace} {addr : VirtualAddress} {size prot : BitVec 32} :
    validate space addr size prot = some true ↔
      ∃ pos vma, locate space addr = some pos ∧ space[pos]? = some vma ∧
        vma.protect &&& prot = prot ∧ addr + size ≤ vma.endAddr := by
  simp only [validate, Option.bind_eq_bind, Option.bind_eq_some_iff]
  refine exists_congr fun pos => ?_
  constructor
  · rintro ⟨hpos, vma, hvma, h⟩
    split at h
    · cases h
    rename_i hcontains
    split at h
    · cases h
    rename_i hprot
    rw [not_not] at hcontains hprot
    exact ⟨vma, hpos, hvma, hprot, hcontains.2⟩
  · rintro ⟨vma, hpos, hvma, hprot, hend⟩
    obtain ⟨⟨found, hfound, hbegin⟩, _⟩ := locate_spec hpos
    obtain rfl := Option.some.inj (hvma.symm.trans hfound)
    have hcontains : ContainsRange vma addr (addr + size) := ⟨hbegin, hend⟩
    exact ⟨hpos, vma, hvma, by simp [hcontains, hprot]⟩

/-- An area that grants some protection is not the last sentinel, so it ends at
or below `Top`. -/
theorem WellFormed.hi_le_top {space : VMSpace} (hspace : WellFormed space) {vma : VMA}
    (hmem : vma ∈ space) (hprot : vma.protect ≠ 0#32) : hi vma ≤ Top.toNat := by
  obtain ⟨front, rfl⟩ := List.getLast?_eq_some_iff.mp hspace.last
  rcases List.mem_append.mp hmem with hfront | hlast
  · have hsorted := (List.pairwise_append.mp hspace.sorted).2.2 vma hfront _
      (List.mem_singleton_self _)
    have hdisjoint := (List.pairwise_append.mp hspace.disjoint).2.2 vma hfront _
      (List.mem_singleton_self _) Top.toNat
    have hbound : Top.toNat < (0xFFFFF000#32).toNat := by decide
    simp only [lo, hi, RangeEntry.beginAddr_make, RangeEntry.endAddr_make] at *
    omega
  · obtain rfl := List.mem_singleton.mp hlast
    exact absurd rfl hprot

/-- Validation is sound exactly for the requests whose sum does not wrap into
the area that was found. -/
theorem validate_sound_iff {space : VMSpace} (hspace : WellFormed space)
    (addr : VirtualAddress) (size prot : BitVec 32) :
    (validate space addr size prot = some true → Trusted space addr size prot) ↔
      ¬ WrapsInside space addr size prot := by
  constructor
  · rintro htrust ⟨hwrap, hlocated⟩
    have hnowrap := (htrust (validate_eq_true.mpr hlocated)).nowrap
    omega
  · intro hinside hvalid
    have hlocated := validate_eq_true.mp hvalid
    have hnowrap : addr.toNat + size.toNat < 2 ^ 32 := by
      by_contra hwrap
      exact hinside ⟨by omega, hlocated⟩
    obtain ⟨pos, vma, hpos, hvma, hprot, hend⟩ := hlocated
    obtain ⟨⟨found, hfound, hbegin⟩, _⟩ := locate_spec hpos
    obtain rfl := Option.some.inj (hvma.symm.trans hfound)
    have hmem : vma ∈ space := List.mem_of_getElem? hvma
    have hlower : lo vma ≤ addr.toNat := BitVec.le_def.mp hbegin
    have hupper : addr.toNat + size.toNat ≤ hi vma := by
      have hle := BitVec.le_def.mp hend
      rwa [BitVec.toNat_add, Nat.mod_eq_of_lt hnowrap] at hle
    refine ⟨hnowrap, ⟨vma, hmem, hprot, ?_⟩, ?_⟩
    · intro x hx hx'
      omega
    · intro _ hnonzero
      have hgrants : vma.protect ≠ 0#32 := by
        intro hzero
        rw [hzero, BitVec.zero_and] at hprot
        exact hnonzero hprot.symm
      exact hupper.trans (hspace.hi_le_top hmem hgrants)

/-- The areas of a process that has only the stack `execTask` gives it. -/
def stackOnly : VMSpace :=
  [RangeEntry.make 0#32 Base, stackArea, RangeEntry.make Top 0xFFFFF000#32]

theorem stackOnly_wellFormed : WellFormed stackOnly := by
  refine ⟨?_, ?_, rfl⟩
  · unfold Interval.Sorted stackOnly
    decide
  · apply Interval.Ordered.disjoint
    exact ⟨by decide, by unfold stackOnly; decide⟩

theorem validate_sound_iff_stack_page :
    validate stackOnly 0xBFFFF000#32 0x1000#32 PROT_WRITE = some true ∧
      (validate stackOnly 0xBFFFF000#32 0x1000#32 PROT_WRITE = some true →
        Trusted stackOnly 0xBFFFF000#32 0x1000#32 PROT_WRITE) :=
  ⟨by decide, (validate_sound_iff stackOnly_wellFormed _ _ _).mpr fun h =>
    absurd h.1 (by decide)⟩

/-- A buffer of `INT_MAX` bytes at the stack's page passes, although it runs
through kernel space and past the end of the address space. -/
theorem validate_accepts_wrapped_range :
    WellFormed stackOnly ∧
      validate stackOnly 0xBFFFF000#32 0x7FFFFFFF#32 PROT_WRITE = some true ∧
      ¬ Trusted stackOnly 0xBFFFF000#32 0x7FFFFFFF#32 PROT_WRITE :=
  ⟨stackOnly_wellFormed, by decide, fun h => absurd h.nowrap (by decide)⟩

end VMSpace

end Nyan.Paging
