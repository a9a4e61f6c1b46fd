import Mathlib.Data.BitVec
import Mathlib.Data.Nat.Size
import Mathlib.Tactic
import Nyan.Library.ByteMemory
import Nyan.Library.Numeral
import Nyan.Library.Outcome

/-!
The numeric `emit` (`lib/format/emit.hpp`). The sign is taken off first. Decimal, octal and
hexadecimal digits are then divided off the magnitude into a local buffer. The binary digits have
no buffer: they are bits of the value itself, tested with a mask of type `int`.
-/

namespace Nyan.Lib

open Library

/-- The sizes of the integer types. -/
inductive IntWidth where
  | w8
  | w16
  | w32
  | w64
  deriving DecidableEq, Repr

namespace IntWidth

/-- `sizeof`. -/
def bytes : IntWidth → Nat
  | .w8 => 1
  | .w16 => 2
  | .w32 => 4
  | .w64 => 8

def bits (width : IntWidth) : Nat := width.bytes * 8

/-- `std::numeric_limits<U>::digits10`. -/
def digits10 : IntWidth → Nat
  | .w8 => 2
  | .w16 => 4
  | .w32 => 9
  | .w64 => 19

end IntWidth

structure IntType where
  width : IntWidth
  signed : Bool
  deriving DecidableEq, Repr

namespace IntType

abbrev Value (T : IntType) : Type := BitVec T.width.bits

def value (T : IntType) (val : T.Value) : Int :=
  if T.signed then val.toInt else val.toNat

def negative (T : IntType) (val : T.Value) : Bool :=
  T.signed && decide (val.toInt < 0)

/-- `uval`, as it is before the digits are taken off. -/
def magnitude (T : IntType) (val : T.Value) : T.Value :=
  if T.negative val then 0#_ - val else val

/-- The width in which a value and an `int` are combined. -/
def wide (T : IntType) : Nat := max 32 T.width.bits

/-- A value after the conversions that precede an operation with an `int`. -/
def promote (T : IntType) (val : T.Value) : BitVec T.wide :=
  if T.signed then val.signExtend T.wide else val.setWidth T.wide

/-- The condition `val & (1 << i)`, for a shift that is defined. -/
def bitSet (T : IntType) (val : T.Value) (i : Nat) : Bool :=
  T.promote val &&& (1#32 <<< i).signExtend T.wide != 0

end IntType

/-- What is undefined: a write behind the digit buffer, and a shift of an `int` by its width. -/
inductive EmitFault where
  | bufferOverrun
  | shiftCount
  deriving DecidableEq, Repr

inductive Sign where
  | plus
  | minus
  | space
  deriving DecidableEq, Repr

/-- The presentation types, named by their letters. -/
inductive FormatType where
  | c
  | s
  | b
  | B
  | d
  | o
  | x
  | X
  | p
  | P
  deriving DecidableEq, Repr

namespace FormatType

def base : FormatType → Option Nat
  | .c | .s => none
  | .b | .B => some 2
  | .d => some 10
  | .o => some 8
  | .x | .X | .p | .P => some 16

/-- Whether the digits are taken from the bits of the value. -/
def Binary (type : FormatType) : Prop := type.base = some 2

instance : DecidablePred Binary := fun type => inferInstanceAs (Decidable (type.base = some 2))

end FormatType

/-- The part of `format_spec` that `emit` reads. -/
structure FormatSpec where
  sign : Sign
  sharp : Bool
  zero : Bool
  width : BitVec 16
  type : FormatType
  deriving DecidableEq, Repr

namespace FormatSpec

def signText (spec : FormatSpec) (negative : Bool) : List Char :=
  if negative then ['-']
  else
    match spec.sign with
    | .plus => ['+']
    | .space => [' ']
    | .minus => []

/-- What stands between the sign and the digits. -/
def mark (spec : FormatSpec) : List Char :=
  match spec.type with
  | .c | .s | .d => []
  | .b => if spec.sharp then ['0', 'b'] else []
  | .B => if spec.sharp then ['0', 'B'] else []
  | .o => if spec.sharp then ['0'] else []
  | .x => if spec.sharp then ['0', 'x'] else []
  | .X => if spec.sharp then ['0', 'X'] else []
  | .p => ['0', 'x']
  | .P => ['0', 'X']

/-- The loop that raises `len` to the width. -/
def zeroFill (spec : FormatSpec) (len : Nat) : List Char :=
  if spec.zero then List.replicate (spec.width.toNat - len) '0' else []

end FormatSpec

/-- The loop that takes the digits off `uval` and stores them, the last one first. Its first
argument is the room left in the buffer. -/
def fillDigits {w : Nat} (digit : BitVec w → Char) (next : BitVec w → BitVec w) :
    Nat → BitVec w → Except EmitFault (List Char)
  | 0, _ => .error .bufferOverrun
  | room + 1, uval =>
      if next uval = 0 then
        .ok [digit uval]
      else do
        return digit uval :: (← fillDigits digit next room (next uval))

def decimalDigit (k : Nat) : Char := Char.ofNat (k + '0'.toNat)

def hexDigit (upper : Bool) (k : Nat) : Char :=
  (if upper then "0123456789ABCDEF" else "0123456789abcdef").toList.getD k '0'

namespace IntType

/-- The loop over the bits, from bit `i - 1` down. -/
def binaryDigits (T : IntType) (val : T.Value) : Nat → Except EmitFault (List Char)
  | 0 => .ok []
  | i + 1 =>
      if 32 ≤ i then
        .error .shiftCount
      else do
        return (if T.bitSet val i then '1' else '0') :: (← T.binaryDigits val i)

def decimalDigits (T : IntType) (uval : T.Value) : Except EmitFault (List Char) :=
  (fillDigits (fun u => decimalDigit (u % 10#_).toNat) (· / 10#_) (T.width.digits10 + 2) uval).map
    List.reverse

def octalDigits (T : IntType) (uval : T.Value) : Except EmitFault (List Char) :=
  (fillDigits (fun u => decimalDigit (u &&& 7#_).toNat) (· >>> 3) (T.width.bytes * 8 / 3 + 2)
    uval).map List.reverse

def hexDigits (T : IntType) (upper : Bool) (uval : T.Value) : Except EmitFault (List Char) :=
  (fillDigits (fun u => hexDigit upper (u &&& 0xF#_).toNat) (· >>> 4) (T.width.bytes * 2 + 2)
    uval).map List.reverse

/-- The digits in the base of the presentation type. -/
def digitsOf (T : IntType) (val : T.Value) : FormatType → Except EmitFault (List Char)
  | .c | .s => .ok []
  | .b | .B => T.binaryDigits val (max 1 (T.magnitude val).toNat.size)
  | .d => T.decimalDigits (T.magnitude val)
  | .o => T.octalDigits (T.magnitude val)
  | .x | .p => T.hexDigits false (T.magnitude val)
  | .X | .P => T.hexDigits true (T.magnitude val)

end IntType

/-- `emit` for an integer. -/
def emit (T : IntType) (val : T.Value) (spec : FormatSpec) : Except EmitFault (List Char) :=
  match spec.type with
  | .c => .ok [Char.ofNat (val.setWidth 8).toNat]
  | .s => .ok []
  | _ => do
      let sign := spec.signText (T.negative val)
      let digits ← T.digitsOf val spec.type
      let len := sign.length + spec.mark.length + digits.length
      return sign ++ spec.mark ++ spec.zeroFill len ++ digits

/-! ### Reading a number back -/

def afterSign : List Char → List Char
  | [] => []
  | c :: rest => if c = '-' ∨ c = '+' ∨ c = ' ' then rest else c :: rest

/-- What a reader makes of an output who knows how it was formatted: behind the sign, the mark
and leading zeros stand the digits. -/
def readMagnitude (spec : FormatSpec) (base : Nat) (out : List Char) : Option Nat :=
  let unsigned := afterSign out
  if unsigned.take spec.mark.length = spec.mark then
    Numeral.read base ((unsigned.drop spec.mark.length).dropWhile (· == '0'))
  else
    none

/-- `emit` returns, has a minus sign for negative values only, and writes the absolute value. -/
def Faithful (T : IntType) (val : T.Value) (spec : FormatSpec) (base : Nat) : Prop :=
  ∃ out, emit T val spec = .ok out ∧ ('-' ∈ out ↔ T.value val < 0) ∧
    readMagnitude spec base out = some (T.value val).natAbs

section Values

variable {T : IntType} {val : T.Value}

theorem IntType.negative_iff : T.negative val = true ↔ T.value val < 0 := by
  unfold IntType.negative IntType.value
  cases T.signed <;> simp

theorem IntType.magnitude_toNat : (T.magnitude val).toNat = (T.value val).natAbs := by
  have hlt := val.isLt
  have hint := val.toInt_eq_toNat_cond
  unfold IntType.magnitude IntType.negative IntType.value
  cases T.signed with
  | false => simp
  | true =>
      simp only [Bool.true_and, decide_eq_true_eq, if_true]
      by_cases hsmall : 2 * val.toNat < 2 ^ T.width.bits
      · rw [if_pos hsmall] at hint
        rw [if_neg (by omega)]
        omega
      · rw [if_neg hsmall] at hint
        rw [if_pos (by omega), BitVec.toNat_sub, BitVec.toNat_zero, Nat.add_zero,
          Nat.mod_eq_of_lt (by omega)]
        omega

/-- A negative value is promoted to its complement in the wider type. -/
theorem IntType.promote_toNat : (T.promote val).toNat =
    if T.negative val then 2 ^ T.wide - (T.magnitude val).toNat
    else (T.magnitude val).toNat := by
  have hlt := val.isLt
  have hint := val.toInt_eq_toNat_cond
  have hwide : 2 ^ T.width.bits ≤ 2 ^ T.wide :=
    Nat.pow_le_pow_right (by omega) (le_max_right _ _)
  have hset : (val.setWidth T.wide).toNat = val.toNat := by
    rw [BitVec.toNat_setWidth, Nat.mod_eq_of_lt (by omega)]
  rw [IntType.magnitude_toNat]
  unfold IntType.promote IntType.negative IntType.value
  cases T.signed with
  | false => simpa using hset
  | true =>
      simp only [Bool.true_and, decide_eq_true_eq, if_true]
      rw [BitVec.toNat_signExtend, hset, BitVec.msb_eq_toInt]
      simp only [decide_eq_true_eq]
      by_cases hsmall : 2 * val.toNat < 2 ^ T.width.bits
      · rw [if_pos hsmall] at hint
        rw [if_neg (by omega), if_neg (by omega)]
        omega
      · rw [if_neg hsmall] at hint
        rw [if_pos (by omega), if_pos (by omega)]
        omega

theorem IntType.wide_cases (T : IntType) : T.wide = 32 ∨ T.wide = 64 := by
  unfold IntType.wide IntWidth.bits IntWidth.bytes
  cases T.width <;> decide

theorem IntType.wide_eq_iff : T.wide = 64 ↔ T.width = .w64 := by
  unfold IntType.wide IntWidth.bits IntWidth.bytes
  cases T.width <;> decide

/-- A mask that is no negative `int` has one bit in the wider type as well. -/
theorem mask_eq_twoPow {w i : Nat} (hw : w = 32 ∨ w = 64) (hi : i < 31 ∨ i < 32 ∧ w = 32) :
    (1#32 <<< i).signExtend w = BitVec.twoPow w i := by
  rcases hw with rfl | rfl
  · rw [BitVec.signExtend_eq, BitVec.twoPow_eq]
  · have hlow : i < 31 := by omega
    interval_cases i <;> decide

theorem IntType.bitSet_eq_testBit {i : Nat} (hi : i < 31 ∨ i < 32 ∧ T.wide = 32) :
    T.bitSet val i = (T.promote val).toNat.testBit i := by
  have hwide := T.wide_cases
  have hpow : BitVec.twoPow T.wide i ≠ 0 := by
    intro h
    have hnat := congrArg BitVec.toNat h
    rw [BitVec.toNat_twoPow_of_lt (by omega)] at hnat
    exact absurd hnat (by simp)
  rw [IntType.bitSet, mask_eq_twoPow hwide hi, BitVec.and_twoPow, BitVec.testBit_toNat]
  cases (T.promote val).getLsbD i
  · simp
  · simpa using hpow

/-- The sign of the mask for bit 31 spreads over the upper half of a wider value. -/
theorem IntType.bitSet_top (hwide : T.wide = 64) :
    T.bitSet val 31 = decide (2 ^ 31 ≤ (T.promote val).toNat) := by
  have hmask : (1#32 <<< 31).signExtend T.wide = BitVec.allOnes T.wide <<< 31 := by
    rw [hwide]
    decide
  have hand := toNat_and_allOnes (T.promote val) 31
  rw [IntType.bitSet, hmask, Bool.eq_iff_iff, bne_iff_ne, decide_eq_true_eq, ne_eq,
    ← BitVec.toNat_inj, hand]
  simp

/-- The condition under which the bits of a value are those of its magnitude. The bits of a
negative value are the complement, which has the same digits for powers of two only; in a 64-bit
type the mask for bit 31 makes one more value come out right. -/
def IntType.Exact (T : IntType) (val : T.Value) : Prop :=
  (T.value val).natAbs < 2 ^ 32 ∧
    (T.value val < 0 → (∃ k, (T.value val).natAbs = 2 ^ k) ∨
      T.width = .w64 ∧ (T.value val).natAbs = 3 * 2 ^ 30)

theorem lowBits_of_nonneg (hneg : T.negative val = false)
    (hsmall : (T.magnitude val).toNat < 2 ^ 32) {n : Nat} (hn : n ≤ 32)
    (hlt : (T.magnitude val).toNat < 2 ^ n) :
    Numeral.lowBits (T.bitSet val) n = (T.magnitude val).toNat := by
  have hpromote : (T.promote val).toNat = (T.magnitude val).toNat := by
    simp [IntType.promote_toNat, hneg]
  rw [Numeral.lowBits_testBit (x := (T.magnitude val).toNat), Nat.mod_eq_of_lt hlt]
  intro i hi
  by_cases hlow : i < 31 ∨ i < 32 ∧ T.wide = 32
  · rw [IntType.bitSet_eq_testBit hlow, hpromote]
  · obtain rfl : i = 31 := by omega
    have hwide := T.wide_cases
    rw [IntType.bitSet_top (by omega), hpromote, Nat.testBit_eq_decide_div_mod_eq]
    congr 1
    simp only [eq_iff_iff]
    omega

/-- The digits of a negative value whose bits are all tested one at a time. -/
theorem lowBits_of_negative (hneg : T.negative val = true) {n : Nat}
    (hn : n ≤ 31 ∨ n ≤ 32 ∧ T.wide = 32) (hpos : 0 < (T.magnitude val).toNat)
    (hlt : (T.magnitude val).toNat < 2 ^ n) :
    Numeral.lowBits (T.bitSet val) n = 2 ^ n - (T.magnitude val).toNat := by
  have hpromote : (T.promote val).toNat = 2 ^ T.wide - (T.magnitude val).toNat := by
    simp [IntType.promote_toNat, hneg]
  have hwide := T.wide_cases
  rw [Numeral.lowBits_testBit (x := (T.promote val).toNat)
    (fun i hi => IntType.bitSet_eq_testBit (by omega)), hpromote]
  have hpow : 2 ^ T.wide = 2 ^ n * (2 ^ (T.wide - n) - 1) + 2 ^ n := by
    have hone : 0 < 2 ^ (T.wide - n) := Nat.two_pow_pos _
    calc 2 ^ T.wide = 2 ^ n * 2 ^ (T.wide - n) := by rw [← pow_add]; congr 1; omega
      _ = 2 ^ n * (2 ^ (T.wide - n) - 1 + 1) := by rw [Nat.sub_add_cancel hone]
      _ = _ := by rw [Nat.mul_add, Nat.mul_one]
  rw [hpow, Nat.add_sub_assoc hlt.le, Nat.mul_add_mod, Nat.mod_eq_of_lt (by omega)]

/-- The digits of a negative value when bit 31 of a wider type is tested. -/
theorem lowBits_of_negative_wide (hneg : T.negative val = true) (hwide : T.wide = 64)
    (hle : 2 ^ 31 ≤ (T.magnitude val).toNat) (hlt : (T.magnitude val).toNat < 2 ^ 32) :
    Numeral.lowBits (T.bitSet val) 32 = 2 ^ 31 + (2 ^ 32 - (T.magnitude val).toNat) % 2 ^ 31 := by
  have hpromote : (T.promote val).toNat = 2 ^ 64 - (T.magnitude val).toNat := by
    simp [IntType.promote_toNat, hneg, hwide]
  have htop : T.bitSet val 31 = true := by
    rw [IntType.bitSet_top hwide, hpromote, decide_eq_true_eq]
    omega
  have hlow : Numeral.lowBits (T.bitSet val) 31 = (T.promote val).toNat % 2 ^ 31 :=
    Numeral.lowBits_testBit (fun i hi => IntType.bitSet_eq_testBit (.inl hi))
  have hstep : Numeral.lowBits (T.bitSet val) 32 =
      2 ^ 31 * (T.bitSet val 31).toNat + Numeral.lowBits (T.bitSet val) 31 := rfl
  rw [hstep, htop, hlow, hpromote, Bool.toNat_true]
  omega

theorem lowBits_eq_iff (hsmall : (T.magnitude val).toNat < 2 ^ 32) :
    Numeral.lowBits (T.bitSet val) (max 1 (T.magnitude val).toNat.size) =
      (T.magnitude val).toNat ↔ T.Exact val := by
  obtain ⟨m, hm⟩ : ∃ m, m = (T.magnitude val).toNat := ⟨_, rfl⟩
  have habs : (T.value val).natAbs = m := by rw [hm, IntType.magnitude_toNat]
  have hsize : m.size ≤ 32 := Nat.size_le.mpr (hm ▸ hsmall)
  have hself := Nat.lt_size_self m
  simp only [IntType.Exact, habs, ← IntType.negative_iff, ← IntType.wide_eq_iff]
  rw [← hm] at hsmall ⊢
  cases hneg : T.negative val with
  | false =>
      have hlt : m < 2 ^ max 1 m.size :=
        lt_of_lt_of_le hself (Nat.pow_le_pow_right (by omega) (le_max_right _ _))
      have heq := lowBits_of_nonneg hneg (hm ▸ hsmall) (n := max 1 m.size) (by omega) (hm ▸ hlt)
      rw [← hm] at heq
      simpa [heq] using hsmall
  | true =>
      have hpos : 0 < m := by
        have hvalue := IntType.negative_iff.mp hneg
        omega
      have hsizepos : 0 < m.size := Nat.size_pos.mpr hpos
      have hge : 2 ^ (m.size - 1) ≤ m := Nat.lt_size.mp (by omega)
      have hdouble : 2 ^ m.size = 2 * 2 ^ (m.size - 1) := by
        rw [← pow_succ', Nat.sub_add_cancel hsizepos]
      have hpower : (∃ k, m = 2 ^ k) ↔ m = 2 ^ (m.size - 1) := by
        constructor
        · rintro ⟨k, rfl⟩
          rw [Nat.size_pow, Nat.add_sub_cancel]
        · intro h
          exact ⟨_, h⟩
      have hwide := T.wide_cases
      rw [max_eq_right hsizepos]
      simp only [hsmall, true_and, forall_const, hpower]
      by_cases hnarrow : m.size ≤ 31 ∨ m.size ≤ 32 ∧ T.wide = 32
      · rw [lowBits_of_negative hneg hnarrow (hm ▸ hpos) (hm ▸ hself), ← hm]
        have hbound : m.size ≤ 31 → m < 2 ^ 31 := Nat.size_le.mp
        omega
      · obtain ⟨hfull, hwide⟩ : m.size = 32 ∧ T.wide = 64 := by omega
        rw [hfull] at hge ⊢
        rw [lowBits_of_negative_wide hneg hwide (hm ▸ hge) (hm ▸ hsmall), ← hm]
        omega

theorem binaryDigits_of_le {n : Nat} (hn : n ≤ 32) :
    T.binaryDigits val n = .ok (Numeral.bitText (T.bitSet val) n) := by
  induction n with
  | zero => rfl
  | succ i ih =>
      rw [IntType.binaryDigits, if_neg (by omega), ih (by omega)]
      rfl

theorem binaryDigits_of_gt {n : Nat} (hn : 32 < n) :
    T.binaryDigits val n = .error .shiftCount := by
  obtain ⟨i, rfl⟩ : ∃ i, n = i + 1 := ⟨n - 1, by omega⟩
  rw [IntType.binaryDigits, if_pos (by omega)]

end Values

section Digits

variable {w base : Nat} {digit : BitVec w → Char} {next : BitVec w → BitVec w} {write : Nat → Char}

/-- The digit loop stays in a buffer with room for the largest value, and stores the digits of
the value. -/
theorem fillDigits_eq (hbase : 1 < base) (hdigit : ∀ u, digit u = write (u.toNat % base))
    (hnext : ∀ u, (next u).toNat = u.toNat / base) {room : Nat} (hroom : 0 < room)
    {uval : BitVec w} (hfits : uval.toNat < base ^ room) :
    fillDigits digit next room uval = .ok ((Numeral.digits base uval.toNat).map write) := by
  induction room generalizing uval with
  | zero => omega
  | succ room ih =>
      have hzero : next uval = 0 ↔ uval.toNat / base = 0 := by
        rw [← hnext, ← BitVec.toNat_inj]
        simp
      rw [fillDigits, hdigit]
      split
      · rename_i hlast
        have hlt : uval.toNat < base := by
          rcases Nat.div_eq_zero_iff.mp (hzero.mp hlast) with h | h <;> omega
        rw [Numeral.digits_of_lt hlt, Nat.mod_eq_of_lt hlt]
        rfl
      · rename_i hmore
        have hmore : uval.toNat / base ≠ 0 := fun h => hmore (hzero.mpr h)
        have hfits' : (next uval).toNat < base ^ room := by
          rw [hnext, Nat.div_lt_iff_lt_mul (by omega), ← pow_succ]
          exact hfits
        have hroom' : 0 < room := by
          rcases Nat.eq_zero_or_pos room with rfl | hpos
          · rw [hnext, pow_zero, Nat.lt_one_iff] at hfits'
            exact absurd hfits' hmore
          · exact hpos
        rw [ih hroom' hfits', Numeral.digits_step hbase hmore, hnext]
        rfl

/-- A text of digits that stands for a number. -/
def Reads (base : Nat) (written : Except EmitFault (List Char)) (n : Nat) : Prop :=
  ∃ text, written = .ok text ∧ (∀ c ∈ text, Numeral.digitValue c ≠ none) ∧
    Numeral.read base text = some n

theorem fillDigits_reads (hbase : 1 < base)
    (hwrite : ∀ d < base, Numeral.digitValue (write d) = some d)
    (hdigit : ∀ u, digit u = write (u.toNat % base))
    (hnext : ∀ u, (next u).toNat = u.toNat / base) {room : Nat} (hroom : 0 < room)
    {uval : BitVec w} (hfits : uval.toNat < base ^ room) :
    Reads base ((fillDigits digit next room uval).map List.reverse) uval.toNat := by
  have hlt := Numeral.digits_lt hbase (n := uval.toNat)
  refine ⟨((Numeral.digits base uval.toNat).map write).reverse, ?_, ?_, ?_⟩
  · rw [fillDigits_eq hbase hdigit hnext hroom hfits]
    rfl
  · intro c hc
    obtain ⟨d, hd, rfl⟩ := List.mem_map.mp (List.mem_reverse.mp hc)
    rw [hwrite d (hlt d hd)]
    simp
  · rw [Numeral.read_reverse hwrite hlt, Numeral.ofDigits_digits]

end Digits

section Bases

variable {T : IntType} (uval : T.Value)

theorem decimalDigit_value : ∀ d < 10, Numeral.digitValue (decimalDigit d) = some d := by
  decide

theorem hexDigit_value (upper : Bool) :
    ∀ d < 16, Numeral.digitValue (hexDigit upper d) = some d := by
  cases upper <;> decide

/-- Literals of one byte fit into every type. -/
theorem toNat_literal (T : IntType) {k : Nat} (hk : k < 2 ^ 8) :
    (BitVec.ofNat T.width.bits k).toNat = k := by
  have hbits : 8 ≤ T.width.bits := by
    unfold IntWidth.bits IntWidth.bytes
    cases T.width <;> decide
  rw [BitVec.toNat_ofNat, Nat.mod_eq_of_lt]
  exact lt_of_lt_of_le hk (Nat.pow_le_pow_right (by omega) hbits)

/-- The low bits that a mask leaves. -/
theorem toNat_and_low {w k : Nat} (u mask : BitVec w) (hmask : mask.toNat = 2 ^ k - 1) :
    (u &&& mask).toNat = u.toNat % 2 ^ k := by
  rw [BitVec.toNat_and, hmask, Nat.and_two_pow_sub_one_eq_mod]

theorem decimalDigits_reads : Reads 10 (T.decimalDigits uval) uval.toNat := by
  have hten : (10#T.width.bits).toNat = 10 := toNat_literal T (by omega)
  have hfits : uval.toNat < 10 ^ (T.width.digits10 + 2) := by
    refine lt_of_lt_of_le uval.isLt ?_
    unfold IntWidth.bits IntWidth.bytes IntWidth.digits10
    cases T.width <;> norm_num
  refine fillDigits_reads (by omega) decimalDigit_value ?_ ?_ (by omega) hfits
  · intro u
    rw [BitVec.toNat_umod, hten]
  · intro u
    rw [BitVec.toNat_udiv, hten]

theorem octalDigits_reads : Reads 8 (T.octalDigits uval) uval.toNat := by
  have hmask : (7#T.width.bits).toNat = 2 ^ 3 - 1 := toNat_literal T (by omega)
  have hfits : uval.toNat < 8 ^ (T.width.bytes * 8 / 3 + 2) := by
    refine lt_of_lt_of_le uval.isLt ?_
    unfold IntWidth.bits IntWidth.bytes
    cases T.width <;> norm_num
  refine fillDigits_reads (by omega) (fun d hd => decimalDigit_value d (by omega)) ?_ ?_
    (by omega) hfits
  · intro u
    rw [toNat_and_low u 7#_ hmask]
    rfl
  · intro u
    rw [BitVec.toNat_ushiftRight, Nat.shiftRight_eq_div_pow]

theorem hexDigits_reads (upper : Bool) : Reads 16 (T.hexDigits upper uval) uval.toNat := by
  have hmask : (0xF#T.width.bits).toNat = 2 ^ 4 - 1 := toNat_literal T (by omega)
  have hfits : uval.toNat < 16 ^ (T.width.bytes * 2 + 2) := by
    refine lt_of_lt_of_le uval.isLt ?_
    unfold IntWidth.bits IntWidth.bytes
    cases T.width <;> norm_num
  refine fillDigits_reads (by omega) (hexDigit_value upper) ?_ ?_ (by omega) hfits
  · intro u
    rw [toNat_and_low u 0xF#_ hmask]
    rfl
  · intro u
    rw [BitVec.toNat_ushiftRight, Nat.shiftRight_eq_div_pow]

end Bases

section Faithfulness

variable {T : IntType} {val : T.Value} {spec : FormatSpec} {base : Nat}

variable (T val) in
/-- All bases but base two read back. -/
theorem digitsOf_reads {type : FormatType} (hbase : type.base = some base)
    (htype : ¬ type.Binary) : Reads base (T.digitsOf val type) (T.value val).natAbs := by
  rw [← IntType.magnitude_toNat]
  cases type with
  | c | s => cases hbase
  | b | B => exact absurd rfl htype
  | d =>
      obtain rfl := Option.some.inj hbase
      exact decimalDigits_reads _
  | o =>
      obtain rfl := Option.some.inj hbase
      exact octalDigits_reads _
  | x | X | p | P =>
      obtain rfl := Option.some.inj hbase
      exact hexDigits_reads _ _

variable (T val) in
theorem digitsOf_binary {type : FormatType} (htype : type.Binary) :
    T.digitsOf val type = T.binaryDigits val (max 1 (T.magnitude val).toNat.size) := by
  cases type <;> first | rfl | cases htype

variable (T val) in
theorem emit_eq (hbase : spec.type.base = some base) :
    emit T val spec = do
      let digits ← T.digitsOf val spec.type
      let sign := spec.signText (T.negative val)
      let len := sign.length + spec.mark.length + digits.length
      return sign ++ (spec.mark ++ (spec.zeroFill len ++ digits)) := by
  unfold emit
  split
  · rename_i htype
    rw [htype] at hbase
    cases hbase
  · rename_i htype
    rw [htype] at hbase
    cases hbase
  · simp only [List.append_assoc]

theorem afterSign_eq {sign rest : List Char} {negative : Bool}
    (hsign : sign = spec.signText negative) (hrest : '-' ∉ rest ∧ '+' ∉ rest ∧ ' ' ∉ rest) :
    afterSign (sign ++ rest) = rest := by
  have hnone : afterSign rest = rest := by
    cases rest with
    | nil => rfl
    | cons c rest =>
        simp only [List.mem_cons, not_or] at hrest
        simp [afterSign, Ne.symm hrest.1.1, Ne.symm hrest.2.1.1, Ne.symm hrest.2.2.1]
  subst hsign
  unfold FormatSpec.signText
  cases negative with
  | true => simp [afterSign]
  | false =>
      cases spec.sign with
      | plus | space => rfl
      | minus => exact hnone

theorem minus_mem_signText {negative : Bool} :
    '-' ∈ spec.signText negative ↔ negative = true := by
  unfold FormatSpec.signText
  cases negative with
  | true => simp
  | false => cases spec.sign <;> simp

variable (spec) in
/-- Neither the mark nor the digits hold a sign. -/
theorem no_sign {text : List Char} (hdigits : ∀ c ∈ text, Numeral.digitValue c ≠ none)
    (len : Nat) : ∀ sign ∈ ['-', '+', ' '], sign ∉ spec.mark ++ (spec.zeroFill len ++ text) := by
  intro sign hsign hmem
  have hsigns : ∀ sign ∈ ['-', '+', ' '],
      Numeral.digitValue sign = none ∧ sign ∉ ['0', 'b', 'B', 'x', 'X'] := by
    simp [Numeral.digitValue]
  have hvalue := hsigns sign hsign
  rcases List.mem_append.mp hmem with hmark | hmem
  · have hmarks : ∀ c ∈ spec.mark, c ∈ ['0', 'b', 'B', 'x', 'X'] := by
      unfold FormatSpec.mark
      cases spec.type <;> cases spec.sharp <;> simp
    exact hvalue.2 (hmarks sign hmark)
  · rcases List.mem_append.mp hmem with hzero | htext
    · unfold FormatSpec.zeroFill at hzero
      split at hzero
      · rw [List.eq_of_mem_replicate hzero] at hvalue
        exact hvalue.2 (by decide)
      · cases hzero
    · exact hdigits sign htext hvalue.1

/-- What `emit` writes around the digits is read off again. -/
theorem emit_of_digits (hbase : spec.type.base = some base) {text : List Char}
    (hok : T.digitsOf val spec.type = .ok text)
    (hdigits : ∀ c ∈ text, Numeral.digitValue c ≠ none) :
    ∃ out, emit T val spec = .ok out ∧ ('-' ∈ out ↔ T.value val < 0) ∧
      readMagnitude spec base out = Numeral.read base text := by
  have hpos : 0 < base := by
    cases htype : spec.type <;> rw [htype] at hbase <;> cases hbase <;> decide
  have hemit := emit_eq T val hbase
  rw [hok] at hemit
  refine ⟨_, hemit, ?_, ?_⟩
  · rw [List.mem_append, minus_mem_signText, IntType.negative_iff]
    have hnone := no_sign spec hdigits
    simp [hnone]
  · unfold readMagnitude
    rw [afterSign_eq rfl]
    · simp only [List.take_left, List.drop_left, if_true]
      rw [Numeral.read_dropWhile_zero hpos]
      unfold FormatSpec.zeroFill
      split
      · rw [Numeral.read_replicate_zero hpos]
      · rfl
    · have hnone := no_sign spec hdigits
      exact ⟨hnone _ _ (by decide), hnone _ _ (by decide), hnone _ _ (by decide)⟩

/-- Integer formatting is faithful exactly when it is not binary or the bits of the value are
those of its magnitude. -/
theorem emit_faithful_iff (hbase : spec.type.base = some base) :
    Faithful T val spec base ↔ (spec.type.Binary → T.Exact val) := by
  by_cases htype : spec.type.Binary
  · obtain rfl : 2 = base := Option.some.inj (htype.symm.trans hbase)
    have hdigits := digitsOf_binary T val htype
    simp only [htype, forall_const]
    by_cases hsmall : (T.magnitude val).toNat < 2 ^ 32
    · have hsize : (T.magnitude val).toNat.size ≤ 32 := Nat.size_le.mpr hsmall
      rw [binaryDigits_of_le (by omega)] at hdigits
      obtain ⟨out, hout, hminus, hread⟩ := emit_of_digits hbase hdigits Numeral.bitText_digits
      rw [← lowBits_eq_iff hsmall, IntType.magnitude_toNat]
      rw [Numeral.read_bitText, IntType.magnitude_toNat] at hread
      constructor
      · rintro ⟨out', hout', -, hread'⟩
        obtain rfl := Except.ok.inj (hout.symm.trans hout')
        exact Option.some.inj (hread.symm.trans hread')
      · intro hexact
        exact ⟨out, hout, hminus, by rw [hread, hexact]⟩
    · have hsize : 32 < (T.magnitude val).toNat.size := Nat.lt_size.mpr (by omega)
      rw [binaryDigits_of_gt (by omega)] at hdigits
      have hemit := emit_eq T val hbase
      rw [hdigits] at hemit
      rw [IntType.magnitude_toNat] at hsmall
      constructor
      · rintro ⟨out, hout, -⟩
        cases hout.symm.trans hemit
      · rintro ⟨hlt, -⟩
        exact absurd hlt hsmall
  · obtain ⟨text, hok, hdigits, hread⟩ := digitsOf_reads T val hbase htype
    obtain ⟨out, hout, hminus, hback⟩ := emit_of_digits hbase hok hdigits
    exact ⟨fun _ hbinary => absurd hbinary htype,
      fun _ => ⟨out, hout, hminus, hback.trans hread⟩⟩

end Faithfulness

def int32 : IntType := { width := .w32, signed := true }

def uint64 : IntType := { width := .w64, signed := false }

/-- The specification `#b`. -/
def sharpBinary : FormatSpec :=
  { sign := .minus, sharp := true, zero := false, width := 0, type := .b }

/-- The specification `+#010x`. -/
def paddedHex : FormatSpec :=
  { sign := .plus, sharp := true, zero := true, width := 10, type := .x }

theorem emit_faithful_hex :
    emit int32 (-255) paddedHex = .ok "-0x00000ff".toList ∧
      Faithful int32 (-255) paddedHex 16 ∧ Faithful int32 5 sharpBinary 2 := by
  refine ⟨by decide +kernel, ?_, ?_⟩
  · exact (emit_faithful_iff rfl).mpr (fun h => by cases h)
  · exact (emit_faithful_iff rfl).mpr (fun _ => ⟨by decide, fun h => absurd h (by decide)⟩)

/-- Minus five is written as minus three in binary, and a value of more than 32 bits shifts an
`int` by its width. -/
theorem emit_binary_wrong :
    int32.value (-5) = -5 ∧ emit int32 (-5) sharpBinary = .ok "-0b011".toList ∧
      readMagnitude sharpBinary 2 "-0b011".toList = some 3 ∧
      ¬ Faithful int32 (-5) sharpBinary 2 ∧
      uint64.value (2 ^ 32) = 2 ^ 32 ∧ emit uint64 (2 ^ 32) sharpBinary = .error .shiftCount := by
  have hemit : emit int32 (-5) sharpBinary = .ok "-0b011".toList := by decide +kernel
  have hread : readMagnitude sharpBinary 2 "-0b011".toList = some 3 := by decide +kernel
  have hvalue : int32.value (-5) = -5 := by decide +kernel
  refine ⟨hvalue, hemit, hread, ?_, by decide +kernel, by decide +kernel⟩
  rintro ⟨out, hout, -, hout'⟩
  obtain rfl := Except.ok.inj (hemit.symm.trans hout)
  rw [hread, hvalue] at hout'
  exact absurd hout' (by decide)

end Nyan.Lib
