import Mathlib.Data.List.Basic

/-!
A queue of items with marks between them. A read takes items up to the next mark and never
past it; a mark at the front is taken by itself, as an empty result. What reads return
tells the whole queue.
-/

namespace Nyan.Library

/-- An item of a queue, or a mark. -/
inductive Marked (α : Type*) where
  | item (a : α)
  | mark
  deriving DecidableEq, Repr

namespace Marked

variable {α : Type*} {queue queue' : List (Marked α)}

/-- The items before the first mark. -/
def leading : List (Marked α) → List α
  | .item a :: rest => a :: leading rest
  | _ => []

/-- One read of up to `n` items. An empty queue has no result. -/
def take (n : Nat) : List (Marked α) → Option (List α) × List (Marked α)
  | [] => (none, [])
  | .mark :: rest => (some [], rest)
  | .item a :: rest =>
      (some ((a :: leading rest).take n), (.item a :: rest).drop (min n (leading rest).length.succ))

/-- What reads return one after the other. -/
def results : List Nat → List (Marked α) → List (Option (List α))
  | [], _ => []
  | n :: rest, queue => (take n queue).1 :: results rest (take n queue).2

theorem leading_items (items : List α) (rest : List (Marked α)) :
    leading (items.map .item ++ rest) = items ++ leading rest := by
  induction items with
  | nil => rfl
  | cons a items ih => simp [leading, ih]

/-- A mark and items are in the same order either way only if there are no items. -/
theorem mark_items_comm {items : List α} :
    .mark :: items.map item = items.map item ++ [.mark] ↔ items = [] := by
  cases items with
  | nil => simp
  | cons a items => simp

/-- A read where there are items before any mark. -/
theorem take_items {items : List α} (hitems : items ≠ []) {rest : List (Marked α)}
    (hrest : leading rest = []) (n : Nat) :
    take n (items.map .item ++ rest) =
      (some (items.take n), (items.drop n).map .item ++ rest) := by
  obtain ⟨a, more, rfl⟩ := List.exists_cons_of_ne_nil hitems
  have hleading : leading (more.map .item ++ rest) = more := by
    rw [leading_items, hrest, List.append_nil]
  have hdrop : ((a :: more).map item ++ rest).drop (min n more.length.succ) =
      ((a :: more).drop n).map item ++ rest := by
    rcases Nat.le_total n more.length.succ with hle | hle
    · rw [Nat.min_eq_left hle, List.drop_append_of_le_length (by simpa using hle), List.map_drop]
    · rw [Nat.min_eq_right hle, List.drop_left' (by simp), List.drop_eq_nil_of_le hle]
      rfl
  simp only [List.map_cons, List.cons_append, take, hleading] at hdrop ⊢
  rw [hdrop]

theorem take_nil (n : Nat) : take n ([] : List (Marked α)) = (none, []) := rfl

theorem take_one (head : Marked α) (rest : List (Marked α)) :
    take 1 (head :: rest) = (some (leading [head]), rest) := by
  cases head with
  | item a =>
      simp [take, leading]
  | mark => rfl

/-- One read of one item tells what was at the front. -/
theorem take_one_injective (h : take 1 queue = take 1 queue') : queue = queue' := by
  cases queue with
  | nil =>
      cases queue' with
      | nil => rfl
      | cons head' rest' => simp [take_one, take_nil] at h
  | cons head rest =>
      cases queue' with
      | nil => simp [take_one, take_nil] at h
      | cons head' rest' =>
          obtain ⟨hhead, rfl⟩ : leading [head] = leading [head'] ∧ rest = rest' := by
            simpa [take_one] using h
          cases head <;> cases head' <;> simp_all [leading]

/-- Queues that answer all reads of one item alike are the same. -/
theorem eq_of_results
    (h : ∀ k, results (List.replicate k 1) queue = results (List.replicate k 1) queue') :
    queue = queue' := by
  induction queue generalizing queue' with
  | nil =>
      have hfirst := h 1
      cases queue' with
      | nil => rfl
      | cons head' rest' => simp [results, take_one, take_nil] at hfirst
  | cons head rest ih =>
      have hfirst : (take 1 (head :: rest)).1 = (take 1 queue').1 := (List.cons.inj (h 1)).1
      have hrest : rest = (take 1 queue').2 := by
        refine ih fun k => ?_
        have hmore := (List.cons.inj (h (k + 1))).2
        rwa [take_one] at hmore
      refine take_one_injective (Prod.ext hfirst ?_)
      rw [take_one]
      exact hrest

end Marked

end Nyan.Library
