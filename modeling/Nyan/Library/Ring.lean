import Mathlib.Data.List.Rotate
import Mathlib.Data.Vector.Basic

/-!
A ring of `n` cells that is filled and emptied with flat copies. The contents
of a stretch of the ring are read off the rotated buffer, so a stretch that
crosses the end of the buffer needs no case distinction in a specification. The
lemmas say which flat copies read a stretch and overwrite one.
-/

namespace Nyan.Library.Ring

variable {α : Type*} {n : Nat}

/-- A copy out of the buffer; there is none past its end. -/
def copyOut (buffer : List.Vector α n) (start count : Nat) : Option (List α) :=
  if start + count ≤ n then some ((buffer.toList.drop start).take count) else none

/-- A copy into the buffer; there is none past its end. -/
def copyIn (buffer : List.Vector α n) (start : Nat) (data : List α) :
    Option (List.Vector α n) :=
  if h : start + data.length ≤ n then
    some ⟨buffer.toList.take start ++ data ++ buffer.toList.drop (start + data.length), by
      simp; omega⟩
  else
    none

/-- The `count` cells from position `start` on, around the end of the buffer. -/
def contents (buffer : List.Vector α n) (start count : Nat) : List α :=
  (buffer.toList.rotate start).take count

theorem length_contents {buffer : List.Vector α n} {start count : Nat} (h : count ≤ n) :
    (contents buffer start count).length = count := by
  simp [contents, h]

theorem toList_rotate_mod (buffer : List.Vector α n) (start : Nat) :
    buffer.toList.rotate (start % n) = buffer.toList.rotate start := by
  have hmod := List.rotate_mod buffer.toList start
  rwa [buffer.toList_length] at hmod

theorem contents_mod (buffer : List.Vector α n) (start count : Nat) :
    contents buffer (start % n) count = contents buffer start count := by
  rw [contents, contents, toList_rotate_mod]

theorem contents_advance {buffer : List.Vector α n} {start count used : Nat}
    (hused : used ≤ count) (hcount : count ≤ n) :
    contents buffer (start + used) (count - used) = (contents buffer start count).drop used := by
  have hrotate : buffer.toList.rotate (start + used) =
      (buffer.toList.rotate start).drop used ++ (buffer.toList.rotate start).take used := by
    rw [← List.rotate_rotate, List.rotate_eq_drop_append_take (by simp; omega)]
  rw [contents, contents, hrotate, List.drop_take, List.take_append_of_le_length (by simp; omega)]

/-- A stretch inside the buffer is read by one copy. -/
theorem copyOut_flat {buffer : List.Vector α n} {start count : Nat} (h : start + count ≤ n) :
    copyOut buffer start count = some (contents buffer start count) := by
  rw [copyOut, if_pos h, contents, List.rotate_eq_drop_append_take (by simp; omega),
    List.take_append_of_le_length (by simp; omega)]

theorem contents_split {buffer : List.Vector α n} {start count : Nat} (hstart : start ≤ n)
    (hcross : n ≤ start + count) (hcount : count ≤ n) :
    contents buffer start count =
      buffer.toList.drop start ++ buffer.toList.take (count - (n - start)) := by
  rw [contents, List.rotate_eq_drop_append_take (by simpa using hstart), List.take_append,
    List.take_of_length_le (by simp; omega), List.take_take]
  simp only [List.length_drop, List.Vector.toList_length]
  rw [Nat.min_eq_left (by omega)]

/-- A stretch that crosses the end is read by a copy up to the end and a copy
from the beginning. -/
theorem copyOut_split (buffer : List.Vector α n) {start count : Nat} (hstart : start ≤ n)
    (hcross : n ≤ start + count) (hcount : count ≤ n) :
    ∃ first second, copyOut buffer start (n - start) = some first ∧
      copyOut buffer 0 (count - (n - start)) = some second ∧
      first ++ second = contents buffer start count := by
  refine ⟨buffer.toList.drop start, buffer.toList.take (count - (n - start)), ?_, ?_,
    (contents_split hstart hcross hcount).symm⟩
  · rw [copyOut, if_pos (by omega), List.take_of_length_le (by simp)]
  · rw [copyOut, if_pos (by omega), List.drop_zero]

/-- Overwriting the stretch after `used` occupied cells appends to the contents,
however the new cells are put in. -/
theorem contents_append {buffer buffer' : List.Vector α n} {start used : Nat} {data : List α}
    (hroom : used + data.length ≤ n)
    (hstore : buffer'.toList.rotate (start + used) =
      data ++ (buffer.toList.rotate (start + used)).drop data.length) :
    contents buffer' start (used + data.length) = contents buffer start used ++ data := by
  set ring := buffer.toList.rotate start
  set ring' := buffer'.toList.rotate start
  have hlength : ring.length = n := by simp [ring]
  have hlength' : ring'.length = n := by simp [ring']
  have hring : buffer.toList.rotate (start + used) = ring.drop used ++ ring.take used := by
    rw [← List.rotate_rotate]
    exact List.rotate_eq_drop_append_take (by simp; omega)
  have hring' : buffer'.toList.rotate (start + used) = ring'.drop used ++ ring'.take used := by
    rw [← List.rotate_rotate]
    exact List.rotate_eq_drop_append_take (by simp; omega)
  have hparts : ring'.drop used ++ ring'.take used =
      (data ++ ring.drop (used + data.length)) ++ ring.take used := by
    rw [← hring', hstore, hring, List.drop_append_of_le_length (by simp; omega), List.drop_drop,
      List.append_assoc]
  obtain ⟨hdrop, htake⟩ := List.append_inj hparts (by simp; omega)
  change ring'.take (used + data.length) = ring.take used ++ data
  rw [List.take_add, htake, hdrop, List.take_left]

theorem rotate_overwritten {low data high : List α} {start : Nat} (hlow : low.length = start) :
    (low ++ data ++ high).rotate start = data ++ high ++ low := by
  rw [List.append_assoc, ← hlow, List.rotate_append_length_eq]

/-- A stretch inside the buffer is overwritten by one copy. -/
theorem copyIn_flat (buffer : List.Vector α n) {start : Nat} {data : List α}
    (h : start + data.length ≤ n) :
    ∃ buffer', copyIn buffer start data = some buffer' ∧
      buffer'.toList.rotate start = data ++ (buffer.toList.rotate start).drop data.length := by
  refine ⟨_, dif_pos h, ?_⟩
  have hlow : (buffer.toList.take start).length = start := by
    simp
    omega
  change (buffer.toList.take start ++ data ++ buffer.toList.drop (start + data.length)).rotate
    start = _
  rw [rotate_overwritten hlow, List.append_assoc, List.rotate_eq_drop_append_take (by simp; omega),
    List.drop_append_of_le_length (by simp; omega), List.drop_drop]

/-- A stretch that crosses the end is overwritten by a copy up to the end and a
copy to the beginning. -/
theorem copyIn_split (buffer : List.Vector α n) (start : Nat) (first second : List α)
    (hfirst : start + first.length = n) (hsecond : second.length ≤ start) :
    ∃ middle buffer', copyIn buffer start first = some middle ∧
      copyIn middle 0 second = some buffer' ∧
      buffer'.toList.rotate start =
        first ++ second ++ (buffer.toList.rotate start).drop (first.length + second.length) := by
  refine ⟨_, _, dif_pos hfirst.le, dif_pos (by omega), ?_⟩
  have hlow : (buffer.toList.take start).length = start := by
    simp
    omega
  have hnone : buffer.toList.drop (start + first.length) = [] :=
    List.drop_of_length_le (by simp; omega)
  change (([] : List α) ++ second ++ (buffer.toList.take start ++ first ++
    buffer.toList.drop (start + first.length)).drop (0 + second.length)).rotate start = _
  rw [hnone, List.append_nil, Nat.zero_add, List.drop_append_of_le_length (by omega),
    List.nil_append, ← List.append_assoc, ← List.append_nil (_ ++ first),
    rotate_overwritten (by simp; omega), List.rotate_eq_drop_append_take (by simp; omega),
    List.append_nil, List.append_assoc]
  congr 2
  rw [← List.drop_drop, List.drop_append_of_le_length (by simp; omega), List.drop_drop, hnone,
    List.nil_append]

end Nyan.Library.Ring
