import Mathlib.Data.List.Nodup

/-!
A cursor that passes over a list while the list changes. The items that the cursor has
passed over are collected; an item that stays in the list is collected once when the
cursor passes it, and not again, as long as nothing is removed from before the cursor.
-/

namespace Nyan.Library

variable {α : Type*} {items seen : List α} {pos : Nat} {x : α}

/-- The item is in the list, and was collected once if it is before the cursor and not at
all if it is behind. -/
def Tracked [BEq α] (items : List α) (pos : Nat) (seen : List α) (x : α) : Prop :=
  ∃ i, items[i]? = some x ∧ seen.count x = if i < pos then 1 else 0

/-- Where an item is found after another one has been removed. -/
theorem getElem?_eraseP {p : α → Bool} {i : Nat} (h : items[i]? = some x) (hx : p x = false) :
    ∃ i', (items.eraseP p)[i']? = some x ∧
      (i' = i ∨ i' + 1 = i ∧ ∃ j y, j < i ∧ items[j]? = some y ∧ p y = true) := by
  induction items generalizing i with
  | nil => simp at h
  | cons y rest ih =>
      by_cases hy : p y = true
      · rw [List.eraseP_cons_of_pos hy]
        cases i with
        | zero =>
            obtain rfl : y = x := by simpa using h
            simp [hx] at hy
        | succ i => exact ⟨i, by simpa using h, .inr ⟨rfl, 0, y, by omega, rfl, hy⟩⟩
      · rw [List.eraseP_cons_of_neg hy]
        cases i with
        | zero => exact ⟨0, by simpa using h, .inl rfl⟩
        | succ i =>
            obtain ⟨i', hi', hplace⟩ := ih (by simpa using h)
            refine ⟨i' + 1, by simpa using hi', ?_⟩
            rcases hplace with heq | ⟨heq, j, z, hj, hz, hp⟩
            · exact .inl (by omega)
            · exact .inr ⟨by omega, j + 1, z, by omega, by simpa using hz, hp⟩

/-- A stretch of a list without repetitions has an item once if its index is inside. -/
theorem count_stretch [BEq α] [LawfulBEq α] (hnodup : items.Nodup) {i : Nat}
    (h : items[i]? = some x) (first n : Nat) :
    ((items.drop first).take n).count x = if first ≤ i ∧ i < first + n then 1 else 0 := by
  have hstretch : ((items.drop first).take n).Nodup :=
    (hnodup.sublist (List.drop_sublist ..)).sublist (List.take_sublist ..)
  have hmem : x ∈ (items.drop first).take n ↔ first ≤ i ∧ i < first + n := by
    rw [List.mem_iff_getElem?]
    constructor
    · rintro ⟨j, hj⟩
      rw [List.getElem?_take] at hj
      split at hj
      · rename_i hlt
        rw [List.getElem?_drop] at hj
        have hindex : first + j = i :=
          (List.getElem?_inj (List.getElem?_eq_some_iff.mp hj).1 hnodup).mp (hj.trans h.symm)
        omega
      · simp at hj
    · rintro ⟨hle, hlt⟩
      refine ⟨i - first, ?_⟩
      rw [List.getElem?_take, if_pos (by omega), List.getElem?_drop, Nat.add_sub_cancel' hle, h]
  split
  · rename_i hinside
    exact List.count_eq_one_of_mem hstretch (hmem.mpr hinside)
  · rename_i houtside
    exact List.count_eq_zero.mpr fun hin => houtside (hmem.mp hin)

namespace Tracked

variable [BEq α]

theorem start (h : x ∈ items) : Tracked items 0 [] x := by
  obtain ⟨i, hi⟩ := List.mem_iff_getElem?.mp h
  exact ⟨i, hi, by simp⟩

theorem push (h : Tracked items pos seen x) (y : α) : Tracked (items ++ [y]) pos seen x := by
  obtain ⟨i, hi, hcount⟩ := h
  refine ⟨i, ?_, hcount⟩
  rw [List.getElem?_append_left (List.getElem?_eq_some_iff.mp hi).1, hi]

/-- Another item may be removed behind the cursor, or when the cursor is at the end. -/
theorem erase {p : α → Bool} (h : Tracked items pos seen x) (hx : p x = false)
    (hbehind : ∀ j y, items[j]? = some y → p y = true → pos ≤ j ∨ items.length ≤ pos) :
    Tracked (items.eraseP p) pos seen x := by
  obtain ⟨i, hi, hcount⟩ := h
  obtain ⟨i', hi', hplace⟩ := getElem?_eraseP hi hx
  have hlt := (List.getElem?_eq_some_iff.mp hi).1
  refine ⟨i', hi', hcount.trans ?_⟩
  have hsame : i < pos ↔ i' < pos := by
    rcases hplace with heq | ⟨heq, j, y, hj, hy, hp⟩
    · rw [heq]
    · rcases hbehind j y hy hp with hpos | hend <;> omega
  simp only [hsame]

theorem advance [LawfulBEq α] (h : Tracked items pos seen x) (hnodup : items.Nodup) (n : Nat) :
    Tracked items (pos + n) (seen ++ (items.drop pos).take n) x := by
  obtain ⟨i, hi, hcount⟩ := h
  refine ⟨i, hi, ?_⟩
  rw [List.count_append, hcount, count_stretch hnodup hi]
  by_cases hbefore : i < pos
  · rw [if_pos hbefore, if_neg (by omega), if_pos (by omega)]
  · simp only [if_neg hbefore, Nat.zero_add, Nat.not_lt.mp hbefore, true_and]

/-- When the cursor is at the end, the item has been collected once. -/
theorem finished (h : Tracked items pos seen x) (hend : items.length ≤ pos) :
    seen.count x = 1 := by
  obtain ⟨i, hi, hcount⟩ := h
  have hlt := (List.getElem?_eq_some_iff.mp hi).1
  rw [hcount, if_pos (by omega)]

end Tracked

end Nyan.Library
