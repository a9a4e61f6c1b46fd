import Nyan.Paging.Layout

/-!
What each operation on a page directory does: it keeps `Inv`, and changes the
mapping of the address spaces in one simple way. Operations that give frames back
need that the counters have not wrapped, which holds as long as there are at most
`2 ^ 16` address spaces: a frame is named at most once in each.
-/

namespace Nyan.Paging

open Allocator Library

variable {m m' : Memory} {L : Layout} {k : Nat} {i : UserLoc} {j : Fin 1024}
  {addr dir : PhysicalAddress} {word : BitVec 32}

/-- So few address spaces that no counter can be mistaken. -/
def Bounded (dir : Nat → Option PhysicalAddress) : Prop :=
  ∃ live : Finset Nat, live.card ≤ PhysicalFrames.maxRef ∧ ∀ k, dir k ≠ none → k ∈ live

theorem Memory.Represents.dir_of_slot (h : m.Represents L) {x : Slot}
    (hx : L.slots x = some addr) : L.dir x.space ≠ none := by
  have htable : ∀ p, L.table p ≠ none → L.dir p.1 ≠ none :=
    fun p hp hdir => hp (h.noDir p.1 p.2 hdir)
  cases x with
  | directory l => exact Option.ne_none_iff_exists'.mpr ⟨addr, hx⟩
  | table p => exact htable p (Option.ne_none_iff_exists'.mpr ⟨addr, hx⟩)
  | page q =>
      obtain ⟨w, hw, _⟩ := Option.map_eq_some_iff.mp hx
      refine htable (q.1, q.2.1) fun hnone => ?_
      cases hw.symm.trans (h.noTable q.1 q.2.1 q.2.2 hnone)

theorem Inv.few (h : Inv m L) (hbound : Bounded L.dir) : PhysicalFrames.Few L.slots := by
  intro addr
  obtain ⟨live, hcard, hlive⟩ := hbound
  obtain ⟨count, _, hexact⟩ := h.counted
  have hle : count addr ≤ live.card := hexact.count_le Slot.space live
    (fun x hx => hlive _ (h.represents.dir_of_slot hx))
    (fun x y hx hy hspace => (h.shared x y addr hx hy).eq_of_space hspace)
  rw [hexact addr]
  exact_mod_cast hle.trans hcard

theorem Layout.setEntry_self {p : Spot} (h : L.entry p = none) : L.setEntry p none = L := by
  unfold Layout.setEntry
  rw [← h, Function.update_eq_self]

/-- The table that an operation finds through the directory. -/
theorem Memory.Represents.table_eq (h : m.Represents L) (hk : L.dir k = some dir)
    (hpresent : isPresent (m.page dir i.loc) = true) :
    L.table (k, i) = some (entryAt (m.page dir i.loc)) := by
  rw [h.table k i dir hk, presentWord_of_present hpresent]
  rfl

theorem Memory.Represents.table_none (h : m.Represents L) (hk : L.dir k = some dir)
    (habsent : ¬ isPresent (m.page dir i.loc) = true) : L.table (k, i) = none := by
  rw [h.table k i dir hk, presentWord, if_neg habsent]
  rfl

theorem Inv.present (h : Inv m L) {table : PhysicalAddress} (htable : L.table (k, i) = some table)
    (hentry : L.entry (k, i, j) = some word) : isPresent word = true := by
  obtain ⟨rfl, hpresent⟩ :=
    presentWord_eq_some ((h.represents.entry k i j table htable).symm.trans hentry)
  exact hpresent

/-- A page that no other space has becomes writable again. -/
theorem Inv.ownPage (h : Inv m L) {table : PhysicalAddress} (htable : L.table (k, i) = some table)
    (hentry : L.entry (k, i, j) = some word)
    (honly : ∀ x, L.slots x = some (entryAt word) → x = .page (k, i, j)) :
    Inv (m.setWord table j (ownedWord (entryAt word) word))
        (L.setEntry (k, i, j) (some (ownedWord (entryAt word) word))) ∧
      (m.setWord table j (ownedWord (entryAt word) word)).mapping
        (L.setEntry (k, i, j) (some (ownedWord (entryAt word) word))) =
      Function.update (m.mapping L) (k, i, j)
        (some (entryAt word, { m.userPage word with writable := true })) := by
  obtain ⟨hflag, hwrite, _⟩ := ownedWord_flags (entryAt_aligned word) word
  have hat : entryAt (ownedWord (entryAt word) word) = entryAt word :=
    entryAt_ownedWord (entryAt_aligned word)
  have hword := presentWord_of_present (hflag.trans (h.present htable hentry))
  have hslot : L.slots (.page (k, i, j)) = some (entryAt word) := by
    simp [Layout.slots, hentry]
  rw [← hword]
  constructor
  · refine h.setEntry htable j _ ?_ ?_ ?_
    · rw [hword, Option.map_some, hat, ← hslot, Function.update_eq_self]
      exact h.counted
    · intro w hw x hx
      obtain ⟨rfl, _⟩ := presentWord_eq_some hw
      rw [honly x (hx.trans (congrArg some hat))]
      exact Std.Refl.refl _
    · intro w hw q w' hq hqentry hframe
      obtain ⟨rfl, _⟩ := presentWord_eq_some hw
      have hsame := honly (.page q) (by simp [Layout.slots, hqentry, hframe, hat])
      exact absurd (Slot.page.inj hsame) hq
  · rw [h.separate.mapping_setEntry htable, hword]
    · simp [Memory.userPage, hat, hwrite]
    · intro w hw
      obtain ⟨rfl, _⟩ := presentWord_eq_some hw
      rw [hat]
      exact (h.separate.table_ne_page htable hentry).symm

/-- A shared page is copied to a new frame. -/
theorem Inv.copyPage (h : Inv m L) {table : PhysicalAddress} (htable : L.table (k, i) = some table)
    (hentry : L.entry (k, i, j) = some word) (hfresh : L.Fresh addr) {frames : PhysicalFrames}
    (hcounted : frames.Counted (Function.update L.slots (.page (k, i, j)) (some addr))) :
    Inv ({ m.setPage addr (m.page (entryAt word)) with frames }.setWord table j
          (ownedWord addr word)) (L.setEntry (k, i, j) (some (ownedWord addr word))) ∧
      ({ m.setPage addr (m.page (entryAt word)) with frames }.setWord table j
          (ownedWord addr word)).mapping (L.setEntry (k, i, j) (some (ownedWord addr word))) =
        Function.update (m.mapping L) (k, i, j)
          (some (addr, { m.userPage word with writable := true })) := by
  obtain ⟨hflag, hwrite, _⟩ := ownedWord_flags hfresh.aligned word
  have hat : entryAt (ownedWord addr word) = addr := entryAt_ownedWord hfresh.aligned
  have hcopy := h.setPage hfresh.not_dir hfresh.not_table (m.page (entryAt word))
  obtain ⟨hinv, hmapping, _⟩ := hcopy.setFresh htable j hfresh hat
    (hflag.trans (h.present htable hentry)) hcounted
  refine ⟨hinv, hmapping.trans ?_⟩
  rw [Inv.mapping_setPage hfresh.not_page]
  simp [Memory.userPage, hat, hwrite]

namespace UserDirectory

theorem ensure_spec (h : Inv m L) (hk : L.dir k = some dir) {attr : BitVec 16}
    (hattr : AttrOk attr) (hpresent : attr.getLsbD 0 = true)
    (heq : ensure m dir i.loc attr = some m') :
    ∃ L', Inv m' L' ∧ L'.dir = L.dir ∧ L'.entry = L.entry ∧ m'.mapping L' = m.mapping L ∧
      L'.table (k, i) = some (entryAt (m'.page dir i.loc)) ∧
      ∀ p, p ≠ (k, i) → L'.table p = L.table p := by
  unfold ensure at heq
  split at heq
  · rename_i hold
    obtain rfl := Option.some.inj heq
    exact ⟨L, h, rfl, rfl, rfl, h.represents.table_eq hk hold, fun _ _ => rfl⟩
  · rename_i hold
    simp only [Option.bind_eq_bind, Option.bind_eq_some_iff, Option.pure_def, Option.some_inj,
      Prod.exists] at heq
    obtain ⟨addr, m₁, halloc, rfl⟩ := heq
    obtain ⟨hinv, hmapping, hat⟩ := h.newTable hk (h.represents.table_none hk hold) halloc
      hattr hpresent
    refine ⟨_, hinv, rfl, rfl, hmapping, ?_, fun p hp => Function.update_of_ne hp ..⟩
    rw [Memory.setWord_self, hat]
    exact Function.update_self ..

theorem fork_spec (h : Inv m L) (hk : L.dir k = none) {kernel : Page}
    (heq : fork m kernel = some (addr, m')) :
    Inv m' (L.setDir k (some addr)) ∧ m'.mapping (L.setDir k (some addr)) = m.mapping L := by
  simp only [fork, Option.bind_eq_bind, Option.bind_eq_some_iff, Option.pure_def, Option.some_inj,
    Prod.exists, Prod.mk.injEq] at heq
  obtain ⟨_, m₁, halloc, rfl, rfl⟩ := heq
  exact h.newDir hk halloc fun i => if_pos i.isLt

/-- A page that was not there is added. -/
theorem alloc_spec (h : Inv m L) (hk : L.dir k = some dir) {va : VirtualAddress}
    (hloc : tableLoc va = i.loc) (hnone : L.entry (k, i, tablePageLoc va) = none)
    {writable : Bool} (heq : alloc m dir va writable = some (addr, m')) :
    ∃ L', Inv m' L' ∧ L'.dir = L.dir ∧ (∀ p, p ≠ (k, i) → L'.table p = L.table p) ∧
      m'.mapping L' = Function.update (m.mapping L) (k, i, tablePageLoc va)
        (some (addr, { content := fun _ => 0#32, writable })) := by
  simp only [alloc, hloc, Table.alloc, Option.bind_eq_bind, Option.bind_eq_some_iff,
    Option.pure_def, Option.some_inj, Prod.exists, Prod.mk.injEq] at heq
  obtain ⟨m₁, hensure, _, _, ⟨f, m₂, halloc, rfl, rfl⟩, rfl, rfl⟩ := heq
  obtain ⟨L₁, h₁, hdir₁, hentry₁, hmapping₁, htable₁, hother₁⟩ :=
    ensure_spec h hk (by decide) (by decide) hensure
  obtain ⟨frames, hframes, rfl⟩ := Memory.physicalFrameAlloc_eq halloc
  obtain ⟨haligned, hunused, hcounted⟩ := h₁.counted.alloc hframes
  have hfresh : L₁.Fresh f := ⟨haligned, hunused⟩
  obtain ⟨hat, hpresent, hwrite, hcow⟩ := pageAttr_flags haligned writable
  have hthis : thisPage f = f := haligned
  have hnone₁ : L₁.entry (k, i, tablePageLoc va) = none := by rw [hentry₁, hnone]
  obtain ⟨hinv, hmapping, honly⟩ := h₁.setFresh htable₁ (tablePageLoc va) hfresh hat hpresent
    (hcounted (.page (k, i, tablePageLoc va)) (by simp [Layout.slots, hnone₁]))
  rw [hthis]
  refine ⟨_, hinv.setPage hfresh.not_dir hfresh.not_table _, hdir₁, hother₁, ?_⟩
  rw [Inv.mapping_store (Function.update_self ..) hat honly, hmapping, hmapping₁,
    Function.update_idem]
  simp [Memory.userPage, hwrite, hcow]

/-- The page is gone, whether it was there or not. -/
theorem freePage_spec (h : Inv m L) (hbound : Bounded L.dir) (hk : L.dir k = some dir)
    {va : VirtualAddress} (hloc : tableLoc va = i.loc) :
    Inv (freePage m dir va) (L.setEntry (k, i, tablePageLoc va) none) ∧
      (freePage m dir va).mapping (L.setEntry (k, i, tablePageLoc va) none) =
        Function.update (m.mapping L) (k, i, tablePageLoc va) none := by
  have hgone : L.entry (k, i, tablePageLoc va) = none →
      Inv m (L.setEntry (k, i, tablePageLoc va) none) ∧
      m.mapping (L.setEntry (k, i, tablePageLoc va) none) =
        Function.update (m.mapping L) (k, i, tablePageLoc va) none := by
    intro hnone
    rw [Layout.setEntry_self hnone]
    refine ⟨h, ?_⟩
    rw [Function.eq_update_iff]
    exact ⟨by simp [Memory.mapping, hnone], fun _ _ => rfl⟩
  unfold freePage
  dsimp only
  rw [hloc]
  split
  · rename_i hpresent
    have htable := h.represents.table_eq hk hpresent
    have hentry := h.represents.entry k i (tablePageLoc va) _ htable
    unfold Table.freePage
    dsimp only
    split
    · rename_i hpage
      rw [presentWord_of_present hpage] at hentry
      have hcounted := h.counted.release (h.few hbound)
        (x := .page (k, i, tablePageLoc va)) (by simp [Layout.slots, hentry]; rfl)
      exact ⟨h.setEntry htable (tablePageLoc va) 0#32 hcounted (fun _ hw => by cases hw)
          (fun _ hw => by cases hw),
        h.separate.mapping_setEntry htable (tablePageLoc va) 0#32 _ (fun _ hw => by cases hw)⟩
    · rename_i hpage
      rw [presentWord, if_neg hpage] at hentry
      exact hgone hentry
  · rename_i habsent
    exact hgone (h.represents.noTable k i _ (h.represents.table_none hk habsent))

section HandleCOW

variable {va : VirtualAddress} (h : Inv m L) (hk : L.dir k = some dir) (hloc : tableLoc va = i.loc)
include h hk hloc

/-- A page that is absent or was never writable is left alone. -/
theorem handleCOW_false
    (hno : ∀ w, L.entry (k, i, tablePageLoc va) = some w → isCOW w = false) :
    handleCOW m dir va = some (false, m) := by
  unfold handleCOW
  dsimp only
  rw [hloc]
  split
  · rfl
  · rename_i hpresent
    split
    · rfl
    · rename_i hpage
      simp only [Bool.not_eq_true', Bool.not_eq_false] at hpresent hpage
      have hentry := h.represents.entry k i (tablePageLoc va) _ (h.represents.table_eq hk hpresent)
      rw [presentWord_of_present hpage] at hentry
      have hcow := hno _ hentry
      simp only [isCOW, decide_eq_false_iff_not, not_not] at hcow
      rw [if_pos hcow]

/-- A page to be copied on a write: its table, and what `handleCOW` does. -/
theorem handleCOW_cow (hentry : L.entry (k, i, tablePageLoc va) = some word)
    (hcow : isCOW word = true) :
    ∃ table, L.table (k, i) = some table ∧ handleCOW m dir va =
      if m.frames.physicalFrameGetRef (entryAt word) = 1#16 then
        some (true, m.setWord table (tablePageLoc va) (ownedWord (entryAt word) word))
      else do
        let (newAddr, m) ← m.physicalFrameAlloc
        return (true, ((m.setPage newAddr (m.page (entryAt word))).physicalFrameRelease
          (entryAt word)).setWord table (tablePageLoc va) (ownedWord newAddr word)) := by
  have hpresent : isPresent (m.page dir i.loc) = true := by
    by_contra habsent
    have hnone := h.represents.noTable k i (tablePageLoc va) (h.represents.table_none hk habsent)
    cases hentry.symm.trans hnone
  have htable := h.represents.table_eq hk hpresent
  have hword := hentry.symm.trans (h.represents.entry k i (tablePageLoc va) _ htable)
  obtain ⟨hword, hpage⟩ := presentWord_eq_some hword.symm
  refine ⟨_, htable, ?_⟩
  have hne : ¬ (entryAttr word &&& PTE_COW = 0#16) := by simpa [isCOW] using hcow
  unfold handleCOW
  dsimp only
  rw [← hword] at hpage
  rw [hloc, hpresent, ← hword, hpage]
  simp only [Bool.not_true, Bool.false_eq_true, if_false, if_neg hne]
  rfl

/-- `handleCOW` gives the space its own writable copy of a page to be copied on a
write, with the same bytes. -/
theorem handleCOW_spec (hbound : Bounded L.dir) {owned : Bool}
    (heq : handleCOW m dir va = some (owned, m')) :
    (owned = false ∧ m' = m ∧
      ∀ w, L.entry (k, i, tablePageLoc va) = some w → isCOW w = false) ∨
    (owned = true ∧ ∃ w w', L.entry (k, i, tablePageLoc va) = some w ∧ isReadWrite w' = true ∧
      isCOW w = true ∧
      Inv m' (L.setEntry (k, i, tablePageLoc va) (some w')) ∧
      m'.mapping (L.setEntry (k, i, tablePageLoc va) (some w')) =
        Function.update (m.mapping L) (k, i, tablePageLoc va)
          (some (entryAt w', { m.userPage w with writable := true }))) := by
  by_cases hno : ∀ w, L.entry (k, i, tablePageLoc va) = some w → isCOW w = false
  · rw [handleCOW_false h hk hloc hno] at heq
    obtain ⟨rfl, rfl⟩ := Prod.mk.inj (Option.some.inj heq)
    exact Or.inl ⟨rfl, rfl, hno⟩
  obtain ⟨w, hentry, hcow⟩ : ∃ w, L.entry (k, i, tablePageLoc va) = some w ∧ isCOW w = true := by
    simpa using hno
  obtain ⟨table, htable, hhandle⟩ := handleCOW_cow h hk hloc hentry hcow
  have hslot : L.slots (.page (k, i, tablePageLoc va)) = some (entryAt w) := by
    simp [Layout.slots, hentry]
  rw [hhandle] at heq
  refine Or.inr ?_
  split at heq
  · rename_i hone
    obtain ⟨rfl, rfl⟩ := Prod.mk.inj (Option.some.inj heq)
    obtain ⟨hinv, hmapping⟩ := h.ownPage htable hentry
      ((h.counted.getRef (h.few hbound) hslot).mp hone)
    refine ⟨rfl, w, ownedWord (entryAt w) w, hentry, ?_, hcow, hinv, ?_⟩
    · exact (ownedWord_flags (entryAt_aligned w) w).2.1
    · rwa [entryAt_ownedWord (entryAt_aligned w)]
  · simp only [Option.bind_eq_bind, Option.bind_eq_some_iff, Option.pure_def, Option.some_inj,
      Prod.exists, Prod.mk.injEq] at heq
    obtain ⟨f, m₁, halloc, rfl, rfl⟩ := heq
    obtain ⟨frames, hframes, rfl⟩ := Memory.physicalFrameAlloc_eq halloc
    obtain ⟨haligned, hunused, _⟩ := h.counted.alloc hframes
    obtain ⟨hinv, hmapping⟩ := h.copyPage htable hentry ⟨haligned, hunused⟩
      (h.counted.replace (h.few hbound) hslot hframes)
    refine ⟨rfl, w, ownedWord f w, hentry, (ownedWord_flags haligned w).2.1, hcow, hinv, ?_⟩
    rw [entryAt_ownedWord haligned]
    exact hmapping

end HandleCOW

end UserDirectory

end Nyan.Paging
