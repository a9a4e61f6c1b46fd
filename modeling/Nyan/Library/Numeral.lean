import Mathlib.Data.Nat.Digits.Defs
import Mathlib.Tactic

/-!
Numerals. A text is read in a base from its first digit on, and a number is written from its
last digit on, whatever the characters that stand for the digits.
-/

namespace Nyan.Library.Numeral

/-- The value of a digit in a base up to sixteen. -/
def digitValue (c : Char) : Option Nat :=
  if '0' ≤ c ∧ c ≤ '9' then some (c.toNat - '0'.toNat)
  else if 'a' ≤ c ∧ c ≤ 'f' then some (c.toNat - 'a'.toNat + 10)
  else if 'A' ≤ c ∧ c ≤ 'F' then some (c.toNat - 'A'.toNat + 10)
  else none

def readDigit (base value : Nat) (c : Char) : Option Nat := do
  let digit ← digitValue c
  if digit < base then some (value * base + digit) else none

/-- The number that a text of digits stands for. -/
def read (base : Nat) (text : List Char) : Option Nat :=
  text.foldlM (readDigit base) 0

/-- The digits of a number, the last one first. Zero has one digit. -/
def digits (base n : Nat) : List Nat :=
  if n = 0 then [0] else Nat.digits base n

section Reading

variable {base : Nat}

theorem read_zero_cons (hbase : 0 < base) (text : List Char) :
    read base ('0' :: text) = read base text := by
  have hzero : readDigit base 0 '0' = some 0 := by
    simp [readDigit, digitValue, hbase]
  simp [read, hzero]

/-- Leading zeros do not count. -/
theorem read_dropWhile_zero (hbase : 0 < base) (text : List Char) :
    read base (text.dropWhile (· == '0')) = read base text := by
  induction text with
  | nil => rfl
  | cons c rest ih =>
      by_cases hc : c = '0'
      · subst hc
        rw [read_zero_cons hbase, ← ih]
        rfl
      · rw [List.dropWhile_cons_of_neg (by simpa using hc)]

theorem read_replicate_zero (hbase : 0 < base) (n : Nat) (text : List Char) :
    read base (List.replicate n '0' ++ text) = read base text := by
  induction n with
  | zero => rfl
  | succ n ih => rw [List.replicate_succ, List.cons_append, read_zero_cons hbase, ih]

/-- Digits written down the last one first are read in the opposite order. -/
theorem read_reverse {write : Nat → Char} (hwrite : ∀ d < base, digitValue (write d) = some d)
    {ds : List Nat} (hds : ∀ d ∈ ds, d < base) :
    read base (ds.map write).reverse = some (Nat.ofDigits base ds) := by
  induction ds with
  | nil => rfl
  | cons d ds ih =>
      obtain ⟨hd, hrest⟩ := List.forall_mem_cons.mp hds
      have hread : (ds.map write).reverse.foldlM (readDigit base) 0 =
          some (Nat.ofDigits base ds) := ih hrest
      rw [List.map_cons, List.reverse_cons, read, List.foldlM_append, hread, Nat.ofDigits_cons]
      simp [readDigit, hwrite d hd, hd]
      ring

end Reading

section Digits

variable {base n : Nat}

theorem ofDigits_digits : Nat.ofDigits base (digits base n) = n := by
  unfold digits
  split
  · simp [*]
  · exact Nat.ofDigits_digits base n

theorem digits_lt (hbase : 1 < base) : ∀ d ∈ digits base n, d < base := by
  intro d hd
  unfold digits at hd
  split at hd
  · rw [List.mem_singleton.mp hd]
    omega
  · exact Nat.digits_lt_base hbase hd

theorem digits_of_lt (h : n < base) : digits base n = [n] := by
  unfold digits
  split
  · simp [*]
  · exact Nat.digits_of_lt base n ‹_› h

theorem digits_step (hbase : 1 < base) (h : n / base ≠ 0) :
    digits base n = n % base :: digits base (n / base) := by
  have hn : n ≠ 0 := by
    rintro rfl
    simp at h
  rw [digits, digits, if_neg hn, if_neg h, Nat.digits_def' hbase (Nat.pos_of_ne_zero hn)]

end Digits

section Bits

variable (f : Nat → Bool)

/-- The last `n` bits, the highest one first. -/
def bitText : Nat → List Char
  | 0 => []
  | n + 1 => (if f n then '1' else '0') :: bitText n

def lowBits : Nat → Nat
  | 0 => 0
  | n + 1 => 2 ^ n * (f n).toNat + lowBits n

theorem read_bitText (n : Nat) : read 2 (bitText f n) = some (lowBits f n) := by
  have hread : ∀ value, (bitText f n).foldlM (readDigit 2) value =
      some (value * 2 ^ n + lowBits f n) := by
    induction n with
    | zero => simp [bitText, lowBits]
    | succ n ih =>
        intro value
        have hdigit : readDigit 2 value (if f n then '1' else '0') =
            some (value * 2 + (f n).toNat) := by
          cases f n <;> rfl
        rw [bitText, List.foldlM_cons, hdigit, Option.bind_eq_bind, Option.bind_some, ih, lowBits]
        congr 1
        ring
  have hzero := hread 0
  rwa [Nat.zero_mul, Nat.zero_add] at hzero

variable {f}

theorem lowBits_testBit {n x : Nat} (h : ∀ i < n, f i = x.testBit i) :
    lowBits f n = x % 2 ^ n := by
  induction n with
  | zero => simp [lowBits, Nat.mod_one]
  | succ n ih =>
      rw [lowBits, ih (fun i hi => h i (by omega)), h n (by omega), Nat.toNat_testBit,
        Nat.mod_pow_succ, add_comm]

theorem bitText_digits {n : Nat} : ∀ c ∈ bitText f n, digitValue c ≠ none := by
  induction n with
  | zero => simp [bitText]
  | succ n ih =>
      intro c hc
      rcases List.mem_cons.mp hc with rfl | hc
      · cases f n <;> decide
      · exact ih c hc

end Bits

end Nyan.Library.Numeral
