import Mathlib.Data.List.Basic
import Mathlib.Data.List.Nodup
import Mathlib.Logic.Function.Basic
import Mathlib.Tactic

/-!
Doubly linked lists whose nodes live inside the elements. An element has one
node for a family of lists, so it can be linked into one list of the family at
a time. Linking a node that is in use, or taking a node out of a list it is not
in, destroys the links; neither has a result here. The structure records the
list each node is linked into, and no value of it has an element in two lists.
-/

namespace Nyan.Library

/-- The lists of a family, and for each element the list that holds it. -/
structure Intrusive (L T : Type) where
  items : L → List T
  owner : T → Option L
  mem_iff : ∀ l t, t ∈ items l ↔ owner t = some l
  nodup : ∀ l, (items l).Nodup

namespace Intrusive

variable {L T : Type}

def empty : Intrusive L T where
  items _ := []
  owner _ := none
  mem_iff := by simp
  nodup := by simp

theorem not_mem_of_owner_none {s : Intrusive L T} {t : T} (h : s.owner t = none) (l : L) :
    t ∉ s.items l := by
  rw [s.mem_iff, h]
  simp

theorem eq_of_mem {s : Intrusive L T} {t : T} {l l' : L} (h : t ∈ s.items l)
    (h' : t ∈ s.items l') : l = l' := by
  rw [s.mem_iff] at h h'
  exact Option.some.inj (h.symm.trans h')

/-- A list that lost an element and gained none is shorter. -/
theorem length_lt [DecidableEq T] {s s' : Intrusive L T} {l : L} {t : T} (ht : t ∈ s.items l)
    (hsub : ∀ u, u ∈ s'.items l → u ∈ s.items l ∧ u ≠ t) :
    (s'.items l).length < (s.items l).length := by
  have hle : (s'.items l).length ≤ ((s.items l).erase t).length := by
    refine ((s'.nodup l).subperm fun u hu => ?_).length_le
    obtain ⟨hu', hne⟩ := hsub u hu
    exact (List.mem_erase_of_ne hne).mpr hu'
  have hpos := List.length_pos_of_mem ht
  rw [List.length_erase_of_mem ht] at hle
  omega

variable [DecidableEq L]

/-- Moves all elements of one list to the end of another. -/
def splice (s : Intrusive L T) (source target : L) : Intrusive L T :=
  if h : source = target then
    s
  else {
    items := Function.update (Function.update s.items source []) target
      (s.items target ++ s.items source)
    owner := fun t => if s.owner t = some source then some target else s.owner t
    mem_iff := by
      intro l t
      have hmem := s.mem_iff l t
      have hsource := s.mem_iff source t
      by_cases htarget : l = target
      · subst htarget
        by_cases howner : s.owner t = some source
        · simp [howner, hsource]
        · simp [howner, hsource, hmem]
      · by_cases hl : l = source
        · subst hl
          by_cases howner : s.owner t = some l
          · simp [Function.update_of_ne h, howner, Ne.symm h]
          · simp [Function.update_of_ne h, howner]
        · by_cases howner : s.owner t = some source
          · simp [Function.update_of_ne htarget, Function.update_of_ne hl, hmem, howner,
              Ne.symm hl, Ne.symm htarget]
          · simp [Function.update_of_ne htarget, Function.update_of_ne hl, hmem, howner]
    nodup := by
      intro l
      by_cases htarget : l = target
      · subst htarget
        rw [Function.update_self]
        refine (s.nodup l).append (s.nodup source) ?_
        intro t ht ht'
        exact h (eq_of_mem ht' ht)
      · by_cases hl : l = source
        · subst hl
          rw [Function.update_of_ne h, Function.update_self]
          exact List.nodup_nil
        · rw [Function.update_of_ne htarget, Function.update_of_ne hl]
          exact s.nodup l }

theorem splice_owner (s : Intrusive L T) (source target : L) (t : T) :
    (s.splice source target).owner t =
      if s.owner t = some source then some target else s.owner t := by
  unfold splice
  split
  · rename_i h
    subst h
    split
    · rename_i howner
      exact howner
    · rfl
  · rfl

variable [DecidableEq T]

/-- Links an unused node in front of position `n` of a list, at its end when
the list is shorter. -/
def insertAt (s : Intrusive L T) (l : L) (n : Nat) (t : T) : Option (Intrusive L T) :=
  if h : s.owner t = none then
    some {
      items := Function.update s.items l ((s.items l).take n ++ t :: (s.items l).drop n)
      owner := Function.update s.owner t (some l)
      mem_iff := by
        intro l' t'
        have hmem := s.mem_iff l' t'
        have hsplit : t' ∈ s.items l ↔ t' ∈ (s.items l).take n ∨ t' ∈ (s.items l).drop n := by
          rw [← List.mem_append, List.take_append_drop]
        by_cases hl : l' = l
        · subst hl
          by_cases ht : t' = t
          · simp [ht]
          · simp [← hmem, hsplit, ht]
        · by_cases ht : t' = t
          · subst ht
            simp [Function.update_of_ne hl, not_mem_of_owner_none h, Ne.symm hl]
          · simp [Function.update_of_ne hl, Function.update_of_ne ht, hmem]
      nodup := by
        intro l'
        by_cases hl : l' = l
        · subst hl
          have hnot := not_mem_of_owner_none h l'
          rw [Function.update_self, List.perm_middle.nodup_iff, List.take_append_drop]
          exact List.nodup_cons.mpr ⟨hnot, s.nodup l'⟩
        · rw [Function.update_of_ne hl]
          exact s.nodup l' }
  else
    none

def pushBack (s : Intrusive L T) (l : L) (t : T) : Option (Intrusive L T) :=
  s.insertAt l (s.items l).length t

/-- Takes a node out of the list it is linked into. -/
def extract (s : Intrusive L T) (l : L) (t : T) : Option (Intrusive L T) :=
  if h : s.owner t = some l then
    some {
      items := Function.update s.items l ((s.items l).erase t)
      owner := Function.update s.owner t none
      mem_iff := by
        intro l' t'
        have hmem := s.mem_iff l' t'
        by_cases hl : l' = l
        · subst hl
          by_cases ht : t' = t
          · simp [ht, (s.nodup l').mem_erase_iff]
          · simp [Function.update_of_ne ht, List.mem_erase_of_ne ht, hmem]
        · by_cases ht : t' = t
          · subst ht
            simp [Function.update_of_ne hl, hmem, h, Ne.symm hl]
          · simp [Function.update_of_ne hl, Function.update_of_ne ht, hmem]
      nodup := by
        intro l'
        by_cases hl : l' = l
        · subst hl
          rw [Function.update_self]
          exact (s.nodup l').erase t
        · rw [Function.update_of_ne hl]
          exact s.nodup l' }
  else
    none

theorem insertAt_eq {s : Intrusive L T} {t : T} (h : s.owner t = none) (l : L) (n : Nat) :
    ∃ s', s.insertAt l n t = some s' ∧ s'.owner = Function.update s.owner t (some l) ∧
      s'.items = Function.update s.items l ((s.items l).take n ++ t :: (s.items l).drop n) :=
  ⟨_, dif_pos h, rfl, rfl⟩

theorem pushBack_eq {s : Intrusive L T} {t : T} (h : s.owner t = none) (l : L) :
    ∃ s', s.pushBack l t = some s' ∧ s'.owner = Function.update s.owner t (some l) ∧
      s'.items = Function.update s.items l (s.items l ++ [t]) := by
  obtain ⟨s', hs', howner, hitems⟩ := insertAt_eq h l (s.items l).length
  exact ⟨s', hs', howner, by simpa using hitems⟩

theorem extract_eq {s : Intrusive L T} {t : T} {l : L} (h : s.owner t = some l) :
    ∃ s', s.extract l t = some s' ∧ s'.owner = Function.update s.owner t none ∧
      s'.items = Function.update s.items l ((s.items l).erase t) :=
  ⟨_, dif_pos h, rfl, rfl⟩

variable {s s' : Intrusive L T} {l : L} {t : T}

theorem items_of_insertAt {n : Nat} (h : s.insertAt l n t = some s') :
    s'.items = Function.update s.items l ((s.items l).take n ++ t :: (s.items l).drop n) := by
  unfold insertAt at h
  split at h <;> cases h
  rfl

theorem items_of_extract (h : s.extract l t = some s') :
    s'.items = Function.update s.items l ((s.items l).erase t) := by
  unfold extract at h
  split at h <;> cases h
  rfl

end Intrusive

end Nyan.Library
