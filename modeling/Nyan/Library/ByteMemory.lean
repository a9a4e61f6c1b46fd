import Mathlib.Data.List.SplitLengths
import Mathlib.Data.Nat.Digits.Defs

/-!
A memory of bytes whose addresses wrap, and little-endian numbers in it. What was
stored at an address can be loaded from there, piece by piece, as long as no
other store has touched the bytes.
-/

namespace Nyan.Library

abbrev Byte := BitVec 8

/-- The contents of all addresses of `w` bits. -/
abbrev Memory (w : Nat) := BitVec w → Byte

namespace Memory

variable {w : Nat}

/-- Puts bytes at an address and the ones behind it. -/
def store (mem : Memory w) (addr : BitVec w) (bytes : List Byte) : Memory w := fun x =>
  bytes[(x - addr).toNat]?.getD (mem x)

/-- The `n` bytes from an address on. -/
def load (mem : Memory w) (addr : BitVec w) (n : Nat) : List Byte :=
  (List.range n).map fun i => mem (addr + BitVec.ofNat w i)

@[simp] theorem length_load (mem : Memory w) (addr : BitVec w) (n : Nat) :
    (mem.load addr n).length = n := by
  simp [load]

theorem load_add (mem : Memory w) (addr : BitVec w) (m n : Nat) :
    mem.load addr (m + n) = mem.load addr m ++ mem.load (addr + BitVec.ofNat w m) n := by
  simp only [load, List.range_add, List.map_append, List.map_map]
  congr 1
  refine List.map_congr_left fun i _ => ?_
  rw [Function.comp_apply, BitVec.ofNat_add, BitVec.add_assoc]

/-- A piece of what was stored. -/
theorem load_store (mem : Memory w) (addr : BitVec w) {bytes : List Byte} {k n : Nat}
    (hlen : k + n ≤ bytes.length) (hfit : bytes.length ≤ 2 ^ w) :
    (mem.store addr bytes).load (addr + BitVec.ofNat w k) n = (bytes.drop k).take n := by
  refine List.ext_getElem (by simp; omega) fun i hi _ => ?_
  have hin : i < n := by simpa using hi
  have hoffset : (addr + BitVec.ofNat w k + BitVec.ofNat w i - addr).toNat = k + i := by
    have hsum : addr + BitVec.ofNat w k + BitVec.ofNat w i - addr = BitVec.ofNat w (k + i) := by
      rw [BitVec.ofNat_add, BitVec.add_assoc, BitVec.add_comm addr, BitVec.add_sub_cancel]
    rw [hsum, BitVec.toNat_ofNat, Nat.mod_eq_of_lt (by omega)]
  simp only [load, List.getElem_map, List.getElem_range, store, hoffset, List.getElem_take,
    List.getElem_drop]
  rw [List.getElem?_eq_getElem (by omega), Option.getD_some]

/-- Two stretches of memory have no byte in common. -/
def Apart (a : BitVec w) (m : Nat) (b : BitVec w) (n : Nat) : Prop :=
  n ≤ (a - b).toNat ∧ m ≤ (b - a).toNat

instance (a : BitVec w) (m : Nat) (b : BitVec w) (n : Nat) : Decidable (Apart a m b n) :=
  inferInstanceAs (Decidable (_ ∧ _))

theorem load_store_apart (mem : Memory w) {addr other : BitVec w} {bytes : List Byte} {n : Nat}
    (h : Apart addr bytes.length other n) :
    (mem.store addr bytes).load other n = mem.load other n := by
  refine List.map_congr_left fun i hi => ?_
  have hi := List.mem_range.mp hi
  obtain ⟨hbelow, habove⟩ := h
  have hout : bytes.length ≤ (other + BitVec.ofNat w i - addr).toNat := by
    have hsum : other + BitVec.ofNat w i - addr = (other - addr) + BitVec.ofNat w i := by
      rw [BitVec.sub_eq_add_neg, BitVec.sub_eq_add_neg, BitVec.add_assoc, BitVec.add_assoc,
        BitVec.add_comm (BitVec.ofNat w i)]
    have hneg : addr - other = -(other - addr) := by
      rw [BitVec.neg_sub, BitVec.add_comm, BitVec.sub_eq_add_neg]
    have hlt := (other - addr).isLt
    rw [hneg, BitVec.toNat_neg] at hbelow
    have hpos : (other - addr).toNat ≠ 0 := by
      intro hzero
      simp [hzero] at hbelow
      omega
    rw [Nat.mod_eq_of_lt (by omega)] at hbelow
    rw [hsum, BitVec.toNat_add, BitVec.toNat_ofNat, Nat.mod_eq_of_lt (by omega : i < 2 ^ w),
      Nat.mod_eq_of_lt (by omega)]
    omega
  rw [store, List.getElem?_eq_none hout, Option.getD_none]

end Memory

/-- The number that bytes stand for, the least significant byte first. -/
def valueOf (bytes : List Byte) : Nat := Nat.ofDigits 256 (bytes.map BitVec.toNat)

/-- The bytes of a number, the least significant first. -/
def toBytes {w : Nat} : Nat → BitVec w → List Byte
  | 0, _ => []
  | n + 1, v => v.setWidth 8 :: toBytes n (v >>> 8)

def fromBytes (w : Nat) (bytes : List Byte) : BitVec w := BitVec.ofNat w (valueOf bytes)

@[simp] theorem length_toBytes {w : Nat} (n : Nat) (v : BitVec w) : (toBytes n v).length = n := by
  induction n generalizing v with
  | zero => rfl
  | succ n ih => simp [toBytes, ih]

theorem valueOf_toBytes {w : Nat} (n : Nat) (v : BitVec w) :
    valueOf (toBytes n v) = v.toNat % 256 ^ n := by
  induction n generalizing v with
  | zero => simp [toBytes, valueOf, Nat.mod_one]
  | succ n ih =>
      have hrest : valueOf (toBytes (n + 1) v) =
          v.toNat % 256 + 256 * valueOf (toBytes n (v >>> 8)) := by
        simp [valueOf, toBytes, Nat.ofDigits_cons]
      rw [hrest, ih, BitVec.toNat_ushiftRight, Nat.shiftRight_eq_div_pow, pow_succ' 256 n,
        Nat.mod_mul]

/-- Enough bytes hold the number. -/
theorem fromBytes_toBytes {w n : Nat} (h : w ≤ 8 * n) (v : BitVec w) :
    fromBytes w (toBytes n v) = v := by
  have hlt : v.toNat < 256 ^ n := by
    calc v.toNat < 2 ^ w := v.isLt
      _ ≤ 2 ^ (8 * n) := Nat.pow_le_pow_right (by decide) h
      _ = 256 ^ n := pow_mul 2 8 n
  rw [fromBytes, valueOf_toBytes, Nat.mod_eq_of_lt hlt, BitVec.ofNat_toNat, BitVec.setWidth_eq]

/-- The parts of a sequence are found again from their lengths. -/
theorem splitLengths_flatten {α : Type*} (parts : List (List α)) :
    (parts.map List.length).splitLengths parts.flatten = parts := by
  induction parts with
  | nil => rfl
  | cons part rest ih => simp [ih]

/-- Bytes laid over a buffer from a place on. -/
def overlay {α : Type*} (buf : List α) (place : Nat) (bytes : List α) : List α :=
  buf.take place ++ bytes ++ buf.drop (place + bytes.length)

section Overlay

variable {α : Type*} {buf bytes : List α} {place n : Nat}

theorem length_overlay (h : place + bytes.length ≤ buf.length) :
    (overlay buf place bytes).length = buf.length := by
  simp only [overlay, List.length_append, List.length_take, List.length_drop]
  omega

theorem take_overlay (h : place + bytes.length ≤ buf.length) (hn : n ≤ place) :
    (overlay buf place bytes).take n = buf.take n := by
  rw [overlay, List.append_assoc, List.take_append_of_le_length (by simp; omega), List.take_take,
    Nat.min_eq_left hn]

theorem drop_overlay (h : place + bytes.length ≤ buf.length) (hn : place + bytes.length ≤ n) :
    (overlay buf place bytes).drop n = buf.drop n := by
  have hlength : (buf.take place ++ bytes).length = place + bytes.length := by
    simp only [List.length_append, List.length_take]
    omega
  rw [overlay, List.drop_append, List.drop_eq_nil_of_le (by omega), List.nil_append, List.drop_drop]
  congr 1
  omega

/-- The bytes stand at their place, with something behind them. -/
theorem overlay_at (buf : List α) (place : Nat) (h : bytes.length ≤ n) (hn : place + n ≤ buf.length) :
    ∃ padding, ((overlay buf place bytes).drop place).take n = bytes ++ padding ∧
      (bytes ++ padding).length = n := by
  have hplace : (buf.take place).length = place := by
    rw [List.length_take]
    omega
  refine ⟨(buf.drop (place + bytes.length)).take (n - bytes.length), ?_, ?_⟩
  · rw [overlay, List.append_assoc, List.drop_left' hplace, List.take_append,
      List.take_of_length_le h]
  · simp only [List.length_append, List.length_take, List.length_drop]
    omega

end Overlay

theorem and_allOnes_shiftLeft {w : Nat} (x : BitVec w) (k : Nat) :
    x &&& (BitVec.allOnes w <<< k) = (x >>> k) <<< k := by
  ext i hi
  simp only [BitVec.getElem_and, BitVec.getElem_shiftLeft, BitVec.getElem_ushiftRight,
    BitVec.getElem_allOnes]
  by_cases h : i < k
  · simp [h]
  · have hindex : k + (i - k) = i := by omega
    simp [h, hindex, BitVec.getLsbD_eq_getElem hi]

/-- Clearing the low bits rounds down. -/
theorem toNat_and_allOnes {w : Nat} (x : BitVec w) (k : Nat) :
    (x &&& (BitVec.allOnes w <<< k)).toNat = x.toNat / 2 ^ k * 2 ^ k := by
  rw [and_allOnes_shiftLeft, BitVec.toNat_shiftLeft, BitVec.toNat_ushiftRight, Nat.shiftLeft_eq,
    Nat.shiftRight_eq_div_pow, Nat.mod_eq_of_lt]
  exact Nat.lt_of_le_of_lt (Nat.div_mul_le_self ..) x.isLt

/-- Clearing some bits and setting others changes nothing iff they were so. -/
theorem clear_set_eq_self {w : Nat} {x clear set : BitVec w} (h : set &&& clear = 0#w) :
    (x &&& ~~~clear) ||| set = x ↔ x &&& set = set ∧ x &&& clear = 0#w := by
  constructor
  · intro hx
    constructor
    · rw [← hx]
      ext i hi
      simp +contextual
    · rw [← hx, BitVec.and_or_distrib_right, h]
      ext i hi
      simp
  · rintro ⟨hset, hclear⟩
    ext i hi
    have hset := congrArg (fun v : BitVec w => v.getLsbD i) hset
    have hclear := congrArg (fun v : BitVec w => v.getLsbD i) hclear
    simp [← BitVec.getLsbD_eq_getElem] at hset hclear ⊢
    cases hx : x.getLsbD i <;> simp_all

end Nyan.Library
