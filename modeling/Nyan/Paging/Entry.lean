import Nyan.Paging.Directory

/-!
Words of tables and directories, as a frame and its attributes. The attributes of
an entry have 12 bits, and the address of a frame has none of these, so both can
be read back from the word.
-/

namespace Nyan.Paging

/-- Attributes that leave the address of an entry alone. -/
def AttrOk (attr : BitVec 16) : Prop := attr.toNat < 4096

instance (attr : BitVec 16) : Decidable (AttrOk attr) := inferInstanceAs (Decidable (_ < _))

def isReadWrite (word : BitVec 32) : Bool := entryAttr word &&& PTE_ReadWrite ≠ 0#16

def isCOW (word : BitVec 32) : Bool := entryAttr word &&& PTE_COW ≠ 0#16

variable {addr : PhysicalAddress} {attr : BitVec 16} {word : BitVec 32}

theorem entryAttr_toNat (word : BitVec 32) : (entryAttr word).toNat = word.toNat % 4096 := by
  have hmask : word.toNat &&& (0xFFF#32).toNat = word.toNat % 4096 :=
    Nat.and_two_pow_sub_one_eq_mod _ 12
  rw [entryAttr, BitVec.toNat_setWidth, BitVec.toNat_and, hmask]
  omega

theorem attrOk_entryAttr (word : BitVec 32) : AttrOk (entryAttr word) := by
  rw [AttrOk, entryAttr_toNat]
  omega

theorem entryWord_toNat (haddr : PageAligned addr) (hattr : AttrOk attr) :
    (entryWord addr attr).toNat = addr.toNat + attr.toNat := by
  rw [pageAligned_iff] at haddr
  have hor := Nat.shiftLeft_add_eq_or_of_lt (i := 12) hattr (addr.toNat / 4096)
  rw [Nat.shiftLeft_eq, Nat.div_mul_cancel (Nat.dvd_of_mod_eq_zero haddr)] at hor
  have hsmall : attr.toNat % 2 ^ 32 = attr.toNat := by
    have := attr.isLt
    omega
  simp only [entryWord, BitVec.toNat_or, BitVec.toNat_setWidth, hsmall, ← hor]

theorem entryAt_entryWord (haddr : PageAligned addr) (hattr : AttrOk attr) :
    entryAt (entryWord addr attr) = addr := by
  have hdown : (entryAt (entryWord addr attr)).toNat = _ := alignDown_toNat _
  rw [← BitVec.toNat_inj, hdown, entryWord_toNat haddr hattr]
  rw [pageAligned_iff] at haddr
  unfold AttrOk at hattr
  omega

theorem entryAttr_entryWord (haddr : PageAligned addr) (hattr : AttrOk attr) :
    entryAttr (entryWord addr attr) = attr := by
  rw [← BitVec.toNat_inj, entryAttr_toNat, entryWord_toNat haddr hattr]
  rw [pageAligned_iff] at haddr
  unfold AttrOk at hattr
  omega

theorem entryAt_aligned (word : BitVec 32) : PageAligned (entryAt word) := by
  have hdown : (entryAt word).toNat = _ := alignDown_toNat word
  rw [pageAligned_iff, hdown]
  omega

/-- A test of one bit. -/
theorem and_flag_ne_zero {flag : BitVec 16} {i : Nat} (hflag : flag = BitVec.twoPow 16 i)
    (hi : i < 16) (attr : BitVec 16) : attr &&& flag ≠ 0#16 ↔ attr.getLsbD i = true := by
  subst hflag
  rw [BitVec.and_twoPow]
  cases attr.getLsbD i with
  | false => simp
  | true =>
      have hne : BitVec.twoPow 16 i ≠ 0#16 := by
        intro hzero
        have hbit := congrArg (BitVec.getLsbD · i) hzero
        simp [hi] at hbit
      simp [hne]

theorem isReadWrite_iff : isReadWrite word = true ↔ (entryAttr word).getLsbD 1 = true := by
  rw [isReadWrite, decide_eq_true_iff]
  exact and_flag_ne_zero (by decide) (by decide) _

theorem isCOW_iff : isCOW word = true ↔ (entryAttr word).getLsbD 9 = true := by
  rw [isCOW, decide_eq_true_iff]
  exact and_flag_ne_zero (by decide) (by decide) _

theorem isPresent_iff : isPresent word = true ↔ (entryAttr word).getLsbD 0 = true := by
  have hmask : word.toNat &&& (1#32).toNat = word.toNat % 2 :=
    Nat.and_two_pow_sub_one_eq_mod _ 1
  rw [isPresent, decide_eq_true_iff, ne_eq, ← BitVec.toNat_inj, BitVec.toNat_and, hmask,
    ← BitVec.testBit_toNat, entryAttr_toNat, Nat.testBit_zero, decide_eq_true_iff,
    BitVec.toNat_ofNat]
  omega

/-- The flags of an entry that is built from a frame and attributes. -/
theorem entryWord_flags (haddr : PageAligned addr) (hattr : AttrOk attr) :
    isPresent (entryWord addr attr) = attr.getLsbD 0 ∧
    isReadWrite (entryWord addr attr) = attr.getLsbD 1 ∧
    isCOW (entryWord addr attr) = attr.getLsbD 9 := by
  refine ⟨?_, ?_, ?_⟩ <;> rw [Bool.eq_iff_iff]
  · rw [isPresent_iff, entryAttr_entryWord haddr hattr]
  · rw [isReadWrite_iff, entryAttr_entryWord haddr hattr]
  · rw [isCOW_iff, entryAttr_entryWord haddr hattr]

theorem attrOk_or {other : BitVec 16} (h : AttrOk attr) (hother : AttrOk other) :
    AttrOk (attr ||| other) := by
  unfold AttrOk at *
  rw [BitVec.toNat_or]
  exact Nat.or_lt_two_pow (n := 12) h hother

theorem attrOk_and (h : AttrOk attr) (other : BitVec 16) : AttrOk (attr &&& other) := by
  unfold AttrOk at *
  rw [BitVec.toNat_and]
  exact Nat.lt_of_le_of_lt Nat.and_le_left h

/-- The entry that `forkCOW` writes into both tables. -/
def sharedWord (word : BitVec 32) : BitVec 32 :=
  entryWord (entryAt word) (UserDirectory.shareAttr (entryAttr word))

/-- The entry that `handleCOW` leaves. -/
def ownedWord (addr : PhysicalAddress) (word : BitVec 32) : BitVec 32 :=
  entryWord addr ((entryAttr word ||| PTE_ReadWrite) &&& ~~~PTE_COW)

theorem attrOk_shareAttr (h : AttrOk attr) : AttrOk (UserDirectory.shareAttr attr) := by
  unfold UserDirectory.shareAttr
  split
  · exact attrOk_or (attrOk_and h _) (by decide)
  · exact h

theorem entryAt_sharedWord (word : BitVec 32) : entryAt (sharedWord word) = entryAt word :=
  entryAt_entryWord (entryAt_aligned word) (attrOk_shareAttr (attrOk_entryAttr word))

/-- A shared page is present if it was, is not writable, and will be copied on a
write if it was writable or to be copied before. -/
theorem sharedWord_flags (word : BitVec 32) :
    isPresent (sharedWord word) = isPresent word ∧ isReadWrite (sharedWord word) = false ∧
      isCOW (sharedWord word) = (isReadWrite word || isCOW word) := by
  obtain ⟨hpresent, hwrite, hcow⟩ := entryWord_flags (entryAt_aligned word)
    (attrOk_shareAttr (attrOk_entryAttr word))
  have hold : isPresent word = (entryAttr word).getLsbD 0 := by
    rw [Bool.eq_iff_iff, isPresent_iff]
  have hold' : isCOW word = (entryAttr word).getLsbD 9 := by
    rw [Bool.eq_iff_iff, isCOW_iff]
  rw [sharedWord, hpresent, hwrite, hcow, hold, hold']
  by_cases hrw : isReadWrite word = true
  · have hne : entryAttr word &&& PTE_ReadWrite ≠ 0#16 := by simpa [isReadWrite] using hrw
    have hshare : UserDirectory.shareAttr (entryAttr word) = _ := if_pos hne
    simp [hshare, hrw, PTE_ReadWrite, PTE_COW]
  · have heq : ¬ (entryAttr word &&& PTE_ReadWrite ≠ 0#16) := by simpa [isReadWrite] using hrw
    have hbit : (entryAttr word).getLsbD 1 = false := by
      rw [← Bool.not_eq_true, ← isReadWrite_iff]
      exact hrw
    have hshare : UserDirectory.shareAttr (entryAttr word) = entryAttr word := if_neg heq
    rw [hshare, hbit]
    simp [hrw]

theorem entryAt_ownedWord (haddr : PageAligned addr) : entryAt (ownedWord addr word) = addr :=
  entryAt_entryWord haddr (attrOk_and (attrOk_or (attrOk_entryAttr word) (by decide)) _)

theorem ownedWord_flags (haddr : PageAligned addr) (word : BitVec 32) :
    isPresent (ownedWord addr word) = isPresent word ∧
      isReadWrite (ownedWord addr word) = true ∧ isCOW (ownedWord addr word) = false := by
  obtain ⟨hpresent, hwrite, hcow⟩ := entryWord_flags haddr
    (attrOk_and (attrOk_or (attrOk_entryAttr word) (show AttrOk PTE_ReadWrite by decide))
      (~~~PTE_COW))
  have hold : isPresent word = (entryAttr word).getLsbD 0 := by
    rw [Bool.eq_iff_iff, isPresent_iff]
  rw [ownedWord, hpresent, hwrite, hcow, hold]
  simp [PTE_ReadWrite, PTE_COW]

theorem pageAttr_flags (haddr : PageAligned addr) (writable : Bool) :
    entryAt (entryWord addr (UserDirectory.pageAttr writable)) = addr ∧
      isPresent (entryWord addr (UserDirectory.pageAttr writable)) = true ∧
      isReadWrite (entryWord addr (UserDirectory.pageAttr writable)) = writable ∧
      isCOW (entryWord addr (UserDirectory.pageAttr writable)) = false := by
  have hok : AttrOk (UserDirectory.pageAttr writable) := by cases writable <;> decide
  obtain ⟨hpresent, hwrite, hcow⟩ := entryWord_flags haddr hok
  refine ⟨entryAt_entryWord haddr hok, ?_, ?_, ?_⟩
  · rw [hpresent]
    cases writable <;> decide
  · rw [hwrite]
    cases writable <;> decide
  · rw [hcow]
    cases writable <;> decide

end Nyan.Paging
