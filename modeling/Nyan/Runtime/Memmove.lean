import Mathlib.Tactic
import Nyan.Library.ByteMemory

/-!
`memmove` (`runtime/libc.cpp`). Of two ranges that overlap, the one that is read must not be
overwritten before its turn: the copy goes upward if the destination is below the source, and
downward if it is above.
-/

namespace Nyan.Runtime

open Library

/-- `while (size--) *pdst++ = *psrc++`. -/
def copyUp : Nat → Memory 32 → BitVec 32 → BitVec 32 → Memory 32
  | 0, mem, _, _ => mem
  | size + 1, mem, pdst, psrc =>
      copyUp size (Function.update mem pdst (mem psrc)) (pdst + 1#32) (psrc + 1#32)

/-- `while (size--) *--pdst = *--psrc`. -/
def copyDown : Nat → Memory 32 → BitVec 32 → BitVec 32 → Memory 32
  | 0, mem, _, _ => mem
  | size + 1, mem, pdst, psrc =>
      copyDown size (Function.update mem (pdst - 1#32) (mem (psrc - 1#32))) (pdst - 1#32)
        (psrc - 1#32)

/-- The memory after the call, and what it returns. -/
def memmove (mem : Memory 32) (dst src size : BitVec 32) : Memory 32 × BitVec 32 :=
  if dst < src then (copyUp size.toNat mem dst src, dst)
  else if src < dst then (copyDown size.toNat mem (dst + size) (src + size), dst)
  else (mem, dst)

/-- The addresses of a range that does not wrap around. -/
def InRange (start : BitVec 32) (size : Nat) (x : BitVec 32) : Prop :=
  start.toNat ≤ x.toNat ∧ x.toNat < start.toNat + size

instance (start : BitVec 32) (size : Nat) (x : BitVec 32) : Decidable (InRange start size x) :=
  inferInstanceAs (Decidable (_ ∧ _))

/-- What a copy is meant to do: byte for byte, from the memory before it. -/
def copied (mem : Memory 32) (dst src : BitVec 32) (size : Nat) : Memory 32 := fun x =>
  if InRange dst size x then mem (src + (x - dst)) else mem x

section Copies

variable {mem : Memory 32} {p q : BitVec 32} {n : Nat}

/-- Where the byte for an address in the range comes from. -/
theorem source_toNat {x : BitVec 32} (hq : q.toNat + n ≤ 2 ^ 32) (hx : InRange p n x) :
    (q + (x - p)).toNat = q.toNat + (x.toNat - p.toNat) := by
  obtain ⟨hlow, hhigh⟩ := hx
  rw [BitVec.toNat_add, BitVec.toNat_sub_of_le hlow, Nat.mod_eq_of_lt (by omega)]

theorem copied_zero : copied mem p q 0 = mem := by
  funext x
  exact if_neg fun hx => by
    obtain ⟨hlow, hhigh⟩ := hx
    omega

/-- The lowest byte first: the source lies above it. -/
theorem copied_succ_first (hlt : p.toNat < q.toNat) (hq : q.toNat + (n + 1) ≤ 2 ^ 32) :
    copied mem p q (n + 1) =
      copied (Function.update mem p (mem q)) (p + 1#32) (q + 1#32) n := by
  have hnext : (p + 1#32).toNat = p.toNat + 1 := by
    rw [BitVec.toNat_add, BitVec.toNat_ofNat]
    omega
  funext x
  have hmove : q + 1#32 + (x - (p + 1#32)) = q + (x - p) := by
    bv_omega
  by_cases hx : x = p
  · subst hx
    have hfirst : InRange x (n + 1) x := ⟨le_rfl, by omega⟩
    have hbelow : ¬ InRange (x + 1#32) n x := fun h => by
      have hlow := h.1
      omega
    rw [copied, copied, if_pos hfirst, if_neg hbelow, Function.update_self, BitVec.sub_self,
      BitVec.add_zero]
  · have hne : x.toNat ≠ p.toNat := fun h => hx (BitVec.eq_of_toNat_eq h)
    have hiff : InRange (p + 1#32) n x ↔ InRange p (n + 1) x := by
      unfold InRange
      omega
    rw [copied, copied, hmove, Function.update_of_ne hx]
    by_cases hin : InRange p (n + 1) x
    · have hsource : q + (x - p) ≠ p := by
        intro heq
        have htoNat := source_toNat hq hin
        rw [heq] at htoNat
        omega
      rw [if_pos hin, if_pos (hiff.mpr hin), Function.update_of_ne hsource]
    · rw [if_neg hin, if_neg (mt hiff.mp hin)]

theorem copyUp_eq (hlt : p.toNat < q.toNat) (hq : q.toNat + n ≤ 2 ^ 32) :
    copyUp n mem p q = copied mem p q n := by
  induction n generalizing mem p q with
  | zero => exact copied_zero.symm
  | succ n ih =>
      rw [copyUp, copied_succ_first hlt hq]
      by_cases hn : n = 0
      · subst hn
        exact copied_zero.symm
      · refine ih ?_ ?_
        · rw [BitVec.toNat_add, BitVec.toNat_add, BitVec.toNat_ofNat]
          omega
        · rw [BitVec.toNat_add, BitVec.toNat_ofNat]
          omega

/-- The highest byte first: the source lies below it. -/
theorem copied_succ_last (hlt : q.toNat < p.toNat) (hp : p.toNat + (n + 1) ≤ 2 ^ 32) :
    copied mem p q (n + 1) =
      copied (Function.update mem (p + BitVec.ofNat 32 n) (mem (q + BitVec.ofNat 32 n))) p q
        n := by
  have hlast : (p + BitVec.ofNat 32 n).toNat = p.toNat + n := by
    rw [BitVec.toNat_add, BitVec.toNat_ofNat]
    omega
  funext x
  by_cases hx : x = p + BitVec.ofNat 32 n
  · subst hx
    have hin : InRange p (n + 1) (p + BitVec.ofNat 32 n) := ⟨by omega, by omega⟩
    have habove : ¬ InRange p n (p + BitVec.ofNat 32 n) := fun h => by
      have hhigh := h.2
      omega
    rw [copied, copied, if_pos hin, if_neg habove, Function.update_self,
      BitVec.add_comm p, BitVec.add_sub_cancel]
  · have hne : x.toNat ≠ p.toNat + n := fun h => hx (BitVec.eq_of_toNat_eq (h.trans hlast.symm))
    have hiff : InRange p n x ↔ InRange p (n + 1) x := by
      unfold InRange
      omega
    rw [copied, copied, Function.update_of_ne hx]
    by_cases hin : InRange p (n + 1) x
    · have hsource : q + (x - p) ≠ p + BitVec.ofNat 32 n := by
        intro heq
        have htoNat := source_toNat (q := q) (by omega) hin
        rw [heq, hlast] at htoNat
        have hhigh := hin.2
        omega
      rw [if_pos hin, if_pos (hiff.mpr hin), Function.update_of_ne hsource]
    · rw [if_neg hin, if_neg (mt hiff.mp hin)]

theorem copyDown_eq (hlt : q.toNat < p.toNat) (hp : p.toNat + n ≤ 2 ^ 32) :
    copyDown n mem (p + BitVec.ofNat 32 n) (q + BitVec.ofNat 32 n) = copied mem p q n := by
  induction n generalizing mem with
  | zero => exact copied_zero.symm
  | succ n ih =>
      have hstep : ∀ r : BitVec 32, r + BitVec.ofNat 32 (n + 1) - 1#32 = r + BitVec.ofNat 32 n := by
        intro r
        rw [BitVec.ofNat_add, ← BitVec.add_assoc, BitVec.add_sub_cancel]
      rw [copyDown, hstep, hstep, ih (by omega), copied_succ_last hlt hp]

end Copies

/-- After `memmove` the destination holds the bytes that were at the source, however the two
ranges overlap, and every other byte is what it was. -/
theorem memmove_copies (mem : Memory 32) (dst src size : BitVec 32)
    (hdst : dst.toNat + size.toNat ≤ 2 ^ 32) (hsrc : src.toNat + size.toNat ≤ 2 ^ 32) :
    (memmove mem dst src size).2 = dst ∧
      (∀ i < size.toNat, (memmove mem dst src size).1 (dst + BitVec.ofNat 32 i) =
        mem (src + BitVec.ofNat 32 i)) ∧
      ∀ x, ¬ InRange dst size.toNat x → (memmove mem dst src size).1 x = mem x := by
  have hmove : memmove mem dst src size = (copied mem dst src size.toNat, dst) := by
    unfold memmove
    split
    · rename_i hlt
      rw [copyUp_eq (BitVec.lt_def.mp hlt) hsrc]
    split
    · rename_i hlt
      have hdown : copyDown _ mem _ _ = _ := copyDown_eq (BitVec.lt_def.mp hlt) hdst
      rw [BitVec.ofNat_toNat, BitVec.setWidth_eq] at hdown
      rw [hdown]
    · rename_i hup hdown
      obtain rfl : dst = src := by
        rw [BitVec.lt_def] at hup hdown
        exact BitVec.eq_of_toNat_eq (by omega)
      have hsame : copied mem dst dst size.toNat = mem := by
        funext x
        rw [copied, BitVec.add_comm, BitVec.sub_add_cancel]
        exact ite_self _
      rw [hsame]
  rw [hmove]
  refine ⟨rfl, fun i hi => ?_, fun x hx => if_neg hx⟩
  have haddr : (dst + BitVec.ofNat 32 i).toNat = dst.toNat + i := by
    rw [BitVec.toNat_add, BitVec.toNat_ofNat]
    omega
  have hin : InRange dst size.toNat (dst + BitVec.ofNat 32 i) := ⟨by omega, by omega⟩
  change copied mem dst src size.toNat (dst + BitVec.ofNat 32 i) = _
  rw [copied, if_pos hin, BitVec.add_comm dst, BitVec.add_sub_cancel]

/-- Two ranges that overlap, at the end of the address space. -/
theorem memmove_copies_overlap :
    (memmove (fun x => x.setWidth 8) 0xFFFFFFFE#32 0xFFFFFFFD#32 2#32).1 0xFFFFFFFF#32 = 0xFE#8 ∧
      (memmove (fun x => x.setWidth 8) 0xFFFFFFFE#32 0xFFFFFFFD#32 2#32).1 0xFFFFFFFD#32 =
        0xFD#8 := by
  obtain ⟨_, hcopied, hkept⟩ :=
    memmove_copies (fun x => x.setWidth 8) 0xFFFFFFFE#32 0xFFFFFFFD#32 2#32 (by decide) (by decide)
  exact ⟨hcopied 1 (by decide), hkept _ (by decide)⟩

end Nyan.Runtime
