import Nyan.Paging.FreshPages
import Nyan.Task.PageView

/-!
The loops that allocate pages, without any assumption on what is there. Every page
of the loop is a new page of zeros afterwards, in a frame that was free before, and
all other pages of all processes are as they were.
-/

namespace Nyan.Task

open Paging Paging.RangeManager Allocator

/-- The pages of a list are new, and no other page has changed. -/
structure Fills (k : Nat) (pages : List VirtualAddress) (writable : Bool) (s s' : Paging.System) :
    Prop where
  spaces : s'.spaces = s.spaces
  fresh : ∀ page ∈ pages, ∀ place, userPlace page = some place →
    ∃ frame, s.memory.frames.Free frame ∧
      s'.mapping (k, place) = some (frame, zeroPage writable)
  kept : ∀ q, (q.1 = k → ∀ page ∈ pages, userPlace page ≠ some q.2) → s'.mapping q = s.mapping q
  free : ∀ frame, s'.memory.frames.Free frame → s.memory.frames.Free frame

variable {s s' : Paging.System} {k : Nat} {writable : Bool}

theorem Fills.nil (k : Nat) (writable : Bool) (s : Paging.System) : Fills k [] writable s s :=
  ⟨rfl, nofun, fun _ _ => rfl, fun _ => id⟩

/-- One page more, before the others. A page that comes again is replaced once more. -/
theorem Fills.cons {s'' : Paging.System} {page : VirtualAddress} {rest : List VirtualAddress}
    {place : UserLoc × Fin 1024} {frame : PhysicalAddress} (hplace : userPlace page = some place)
    (hspaces : s'.spaces = s.spaces) (hfree : s.memory.frames.Free frame)
    (hmapping : s'.mapping = Function.update s.mapping (k, place)
      (some (frame, zeroPage writable)))
    (hless : ∀ frame, s'.memory.frames.Free frame → s.memory.frames.Free frame)
    (h : Fills k rest writable s' s'') : Fills k (page :: rest) writable s s'' := by
  have hold : ∀ q, q ≠ (k, place) → s'.mapping q = s.mapping q := fun q hq => by
    rw [hmapping, Function.update_of_ne hq]
  refine ⟨h.spaces.trans hspaces, ?_, ?_, fun frame hframe => hless frame (h.free frame hframe)⟩
  · intro page' hpage' place' hplace'
    by_cases hagain : ∃ other ∈ rest, userPlace other = some place'
    · obtain ⟨other, hother, hsame⟩ := hagain
      obtain ⟨frame', hfree', hnew⟩ := h.fresh other hother place' hsame
      exact ⟨frame', hless frame' hfree', hnew⟩
    · have hfirst : page' = page := by
        rcases List.mem_cons.mp hpage' with heq | hrest
        · exact heq
        · exact absurd ⟨page', hrest, hplace'⟩ hagain
      obtain rfl : place = place' := by
        rw [hfirst, hplace] at hplace'
        exact Option.some.inj hplace'
      refine ⟨frame, hfree, ?_⟩
      rw [h.kept (k, place) fun _ other hother hsame => hagain ⟨other, hother, hsame⟩, hmapping,
        Function.update_self]
  · intro q hq
    rw [h.kept q fun hqk other hother => hq hqk other (List.mem_cons_of_mem _ hother)]
    refine hold q ?_
    rintro rfl
    exact hq rfl page (List.mem_cons_self ..) hplace

theorem allocAll_fills {pages : List VirtualAddress} (h : s.Safe)
    (huser : ∀ page ∈ pages, userPlace page ≠ none)
    (heq : allocAll s k writable pages = some s') : s'.Safe ∧ Fills k pages writable s s' := by
  induction pages generalizing s with
  | nil =>
      obtain rfl : s = s' := by simpa [allocAll] using heq
      exact ⟨h, Fills.nil k writable s⟩
  | cons page rest ih =>
      simp only [allocAll, List.foldlM_cons, Option.bind_eq_bind, Option.bind_eq_some_iff] at heq
      obtain ⟨s₁, hfirst, heq⟩ := heq
      obtain ⟨place, hplace⟩ :=
        Option.ne_none_iff_exists'.mp (huser page (List.mem_cons_self ..))
      obtain ⟨h₁, hspaces, ⟨frame, hfree, hmapping⟩, hless⟩ := h.alloc hplace hfirst
      obtain ⟨h', hfills⟩ := ih h₁ (fun page hpage => huser page (by simp [hpage])) heq
      exact ⟨h', hfills.cons hplace hspaces hfree hmapping hless⟩

/-- Frames are taken for every page, also for one above `Top`. -/
theorem allocAll_draws {pages : List VirtualAddress}
    (heq : allocAll s k writable pages = some s') :
    PhysicalFrames.Draws s.memory.frames s'.memory.frames ∧
      (pages ≠ [] → PhysicalFrames.Taken s.memory.frames s'.memory.frames) := by
  induction pages generalizing s with
  | nil =>
      obtain rfl : s = s' := by simpa [allocAll] using heq
      exact ⟨.refl _, fun h => absurd rfl h⟩
  | cons page rest ih =>
      simp only [allocAll, List.foldlM_cons, Option.bind_eq_bind, Option.bind_eq_some_iff] at heq
      obtain ⟨s₁, hfirst, heq⟩ := heq
      simp only [Paging.System.step, Option.bind_eq_bind, Option.bind_eq_some_iff, Option.pure_def,
        Option.some_inj, Prod.exists] at hfirst
      obtain ⟨dir, _, frame, memory, halloc, rfl⟩ := hfirst
      obtain ⟨hdraws, htaken⟩ := UserDirectory.alloc_takes halloc
      obtain ⟨hrest, _⟩ := ih heq
      exact ⟨hdraws.trans hrest, fun _ => htaken.after hrest⟩

/-- What `checkStack` allocates below an area that need not begin with a page: the
pages from the one of the target up to the last whole page below the area. If the
target is in the page in which the area begins, this is the page before it. -/
theorem walk_below {fuel : Nat} {upper target : VirtualAddress} {pages : List VirtualAddress}
    (htarget : 4096 ≤ target.toNat) (hbelow : target.toNat < upper.toNat)
    (h : walk prevPage (fun addr => addr ≤ target) fuel upper = some pages) :
    (∀ addr ∈ pages.map prevPage, PageAligned addr ∧ addr.toNat < upper.toNat) ∧
      ∀ addr, PageAligned addr → (thisPage target).toNat ≤ addr.toNat →
        addr.toNat + 4096 ≤ upper.toNat → addr ∈ pages.map prevPage := by
  cases fuel with
  | zero => cases h
  | succ fuel =>
      have hmore : ¬ upper ≤ target := by
        rw [BitVec.le_def]
        omega
      simp only [walk, decide_eq_true_eq, if_neg hmore] at h
      obtain ⟨rest, hrest, rfl⟩ := Option.map_eq_some_iff.mp h
      have hthis := thisPage_toNat target
      have hprev : (prevPage upper).toNat = upper.toNat - upper.toNat % 4096 - 4096 := by
        rw [prevPage_toNat]
        have := upper.isLt
        omega
      have haligned : PageAligned (prevPage upper) := (pageAligned_iff _).mpr (by omega)
      by_cases hsame : (thisPage target).toNat ≤ (prevPage upper).toNat
      · obtain ⟨_, hmem⟩ := walk_down haligned hsame hrest
        simp only [List.map_cons, List.mem_cons, hmem]
        constructor
        · rintro addr (rfl | ⟨halign, _, hhigh⟩)
          · exact ⟨haligned, by omega⟩
          · exact ⟨halign, by omega⟩
        · intro addr halign hlow hhigh
          rw [← BitVec.toNat_inj]
          have halign' := (pageAligned_iff addr).mp halign
          by_cases heq : addr.toNat = (prevPage upper).toNat
          · exact Or.inl heq
          · exact Or.inr ⟨halign, hlow, by omega⟩
      · have hdone : rest = [] := by
          cases fuel with
          | zero => cases hrest
          | succ fuel =>
              have hstop : prevPage upper ≤ target := by
                rw [BitVec.le_def]
                omega
              simpa [walk, hstop] using hrest.symm
        subst hdone
        simp only [List.map_cons, List.map_nil, List.mem_singleton]
        constructor
        · rintro addr rfl
          exact ⟨haligned, by omega⟩
        · intro addr halign hlow hhigh
          have halign' := (pageAligned_iff addr).mp halign
          omega

end Nyan.Task
