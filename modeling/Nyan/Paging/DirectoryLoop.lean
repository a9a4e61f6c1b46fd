import Nyan.Paging.DirectoryInvariant

/-!
The two operations that go through a whole directory: `forkCOW`, which shares
every page of a space with a new one, and `freePageTables`, which gives up every
table. Each loop is proved by induction on the places still to be visited, from
what its body does at one place.
-/

namespace Nyan.Paging

open Allocator Library

variable {m m' : Memory} {L : Layout} {k l : Nat} {i : UserLoc} {j : Fin 1024}
  {addr dir newDir table newTable : PhysicalAddress} {word : BitVec 32}

/-- At the places `P`, space `l` has what space `k` has; nothing else is different. -/
structure Copies {α : Type} (k l : Nat) (P : Set (UserLoc × Fin 1024)) (f f' : Spot → α) :
    Prop where
  copied : ∀ place ∈ P, f' (l, place) = f (k, place)
  kept : ∀ q, (q.1 = l → q.2 ∉ P) → f' q = f q

namespace Copies

variable {α : Type} {P Q : Set (UserLoc × Fin 1024)} {f f' f'' : Spot → α}

theorem refl (k l : Nat) (f : Spot → α) : Copies k l ∅ f f :=
  ⟨fun _ h => h.elim, fun _ _ => rfl⟩

theorem trans (hkl : k ≠ l) (h : Copies k l P f f') (h' : Copies k l Q f' f'') :
    Copies k l (P ∪ Q) f f'' := by
  constructor
  · intro place hplace
    by_cases hQ : place ∈ Q
    · rw [h'.copied place hQ, h.kept (k, place) fun hk => absurd hk hkl]
    · have hP : place ∈ P := hplace.resolve_right hQ
      rw [h'.kept (l, place) fun _ => hQ, h.copied place hP]
  · intro q hq
    rw [h'.kept q fun hl hQ => hq hl (Or.inr hQ), h.kept q fun hl hP => hq hl (Or.inl hP)]

end Copies

theorem mapping_eq_none {q : Spot} : m.mapping L q = none ↔ L.entry q = none := by
  simp [Memory.mapping]

namespace Inv

/-- The old entry of a page that is being shared loses its write permission. -/
theorem demotePage (h : Inv m L) (htable : L.table (k, i) = some table)
    (hentry : L.entry (k, i, j) = some word) :
    Inv (m.setWord table j (sharedWord word)) (L.setEntry (k, i, j) (some (sharedWord word))) ∧
      (m.setWord table j (sharedWord word)).mapping
        (L.setEntry (k, i, j) (some (sharedWord word))) = m.mapping L := by
  obtain ⟨hflag, hwrite, hcow⟩ := sharedWord_flags word
  have hat := entryAt_sharedWord word
  have hword := presentWord_of_present (hflag.trans (h.present htable hentry))
  have hslot : L.slots (.page (k, i, j)) = some (entryAt word) := by
    simp [Layout.slots, hentry]
  rw [← hword]
  constructor
  · refine h.setEntry htable j _ ?_ ?_ ?_
    · rw [hword, Option.map_some, hat, ← hslot, Function.update_eq_self]
      exact h.counted
    · intro w hw x hx
      obtain ⟨rfl, _⟩ := presentWord_eq_some hw
      exact h.shared _ x _ hslot (hx.trans (congrArg some hat))
    · intro w hw q w' hq hqentry hframe
      obtain ⟨rfl, _⟩ := presentWord_eq_some hw
      refine ⟨hwrite, ?_⟩
      by_contra hrw
      rw [Bool.not_eq_false] at hrw
      exact hq (h.exclusive q (k, i, j) w' word hqentry hentry hrw (hframe.trans hat).symm).symm
  · rw [h.separate.mapping_setEntry htable, hword, Function.update_eq_iff]
    · refine ⟨?_, fun _ _ => rfl⟩
      simp [Memory.mapping, hentry, Memory.userPage, hat, hwrite, hcow]
    · intro w hw
      obtain ⟨rfl, _⟩ := presentWord_eq_some hw
      rw [hat]
      exact (h.separate.table_ne_page htable hentry).symm

/-- The new space gets an entry for a page that no space may write to. -/
theorem addSharer (h : Inv m L) (hnew : L.table (l, i) = some newTable)
    (hentry : L.entry (k, i, j) = some word) (hwrite : isReadWrite word = false)
    (hpresent : isPresent word = true) (hnone : L.entry (l, i, j) = none) :
    Inv ((m.setWord newTable j word).physicalFrameRetain (entryAt word))
        (L.setEntry (l, i, j) (some word)) ∧
      ((m.setWord newTable j word).physicalFrameRetain (entryAt word)).mapping
        (L.setEntry (l, i, j) (some word)) =
      Function.update (m.mapping L) (l, i, j) (m.mapping L (k, i, j)) := by
  have hword := presentWord_of_present hpresent
  have hslot : L.slots (.page (k, i, j)) = some (entryAt word) := by
    simp [Layout.slots, hentry]
  have hempty : L.slots (.page (l, i, j)) = none := by
    simp [Layout.slots, hnone]
  rw [← hword]
  constructor
  · refine h.setEntry hnew j word (by rw [hword]; exact h.counted.retain hempty hslot) ?_ ?_
    · intro w hw x hx
      obtain ⟨rfl, _⟩ := presentWord_eq_some hw
      have hkin := h.shared _ x _ hslot hx
      cases x with
      | directory => exact hkin
      | table => exact hkin
      | page q => exact hkin
    · intro w hw q w' hq hqentry hframe
      obtain ⟨rfl, _⟩ := presentWord_eq_some hw
      refine ⟨hwrite, ?_⟩
      by_contra hrw
      rw [Bool.not_eq_false] at hrw
      obtain rfl := h.exclusive q (k, i, j) w' w hqentry hentry hrw hframe.symm
      obtain rfl := Option.some.inj (hentry.symm.trans hqentry)
      rw [hwrite] at hrw
      cases hrw
  · refine (h.separate.mapping_setEntry hnew j word _ ?_).trans ?_
    · intro w hw
      obtain ⟨rfl, _⟩ := presentWord_eq_some hw
      exact (h.separate.table_ne_page hnew hentry).symm
    · rw [hword]
      simp [Memory.mapping, hentry]

end Inv

namespace UserDirectory

/-- One page: the new space gets what the old one has. -/
theorem sharePage_spec (h : Inv m L) (hkl : k ≠ l) (hold : L.table (k, i) = some table)
    (hnew : L.table (l, i) = some newTable) (hnone : m.mapping L (l, i, j) = none) :
    ∃ L', Inv (sharePage m table newTable j) L' ∧ L'.dir = L.dir ∧ L'.table = L.table ∧
      Copies k l {(i, j)} (m.mapping L) ((sharePage m table newTable j).mapping L') := by
  have hentry := h.represents.entry k i j table hold
  unfold sharePage
  dsimp only
  split
  · rename_i hpresent
    rw [presentWord_of_present hpresent] at hentry
    obtain ⟨hinv, hmapping⟩ := h.demotePage hold hentry
    obtain ⟨hflag, hwrite, _⟩ := sharedWord_flags (m.page table j)
    have hother : (l, i, j) ≠ (k, i, j) := by
      intro heq
      exact hkl (Prod.mk.inj heq).1.symm
    have hadd := hinv.addSharer hnew (Function.update_self ..) hwrite (hflag.trans hpresent)
      ((Function.update_of_ne hother ..).trans (mapping_eq_none.mp hnone))
    rw [hmapping, entryAt_sharedWord] at hadd
    refine ⟨_, hadd.1, rfl, rfl, ?_⟩
    constructor
    · rintro place rfl
      exact (congrFun hadd.2 _).trans (Function.update_self ..)
    · intro q hq
      refine (congrFun hadd.2 q).trans (Function.update_of_ne ?_ ..)
      rintro rfl
      exact hq rfl rfl
  · rename_i habsent
    rw [presentWord, if_neg habsent] at hentry
    refine ⟨L, h, rfl, rfl, ?_, fun _ _ => rfl⟩
    rintro place rfl
    rw [hnone, mapping_eq_none.mpr hentry]

/-- The pages of one table. -/
theorem sharePages_spec (h : Inv m L) (hkl : k ≠ l) (hold : L.table (k, i) = some table)
    (hnew : L.table (l, i) = some newTable) {js : List (Fin 1024)} (hnodup : js.Nodup)
    (hnone : ∀ j ∈ js, m.mapping L (l, i, j) = none) :
    ∃ L', Inv (js.foldl (fun m j => sharePage m table newTable j) m) L' ∧ L'.dir = L.dir ∧
      L'.table = L.table ∧ Copies k l {place | place.1 = i ∧ place.2 ∈ js} (m.mapping L)
        ((js.foldl (fun m j => sharePage m table newTable j) m).mapping L') := by
  induction js generalizing m L with
  | nil =>
      refine ⟨L, h, rfl, rfl, ?_⟩
      simpa using Copies.refl k l (m.mapping L)
  | cons j rest ih =>
      obtain ⟨hj, hrest⟩ := List.nodup_cons.mp hnodup
      obtain ⟨L₁, h₁, hdir₁, htable₁, hcopy₁⟩ :=
        sharePage_spec h hkl hold hnew (hnone j (List.mem_cons_self ..))
      obtain ⟨L₂, h₂, hdir₂, htable₂, hcopy₂⟩ := ih h₁ (htable₁ ▸ hold) (htable₁ ▸ hnew) hrest (by
        intro j' hj'
        rw [hcopy₁.kept]
        · exact hnone j' (List.mem_cons_of_mem _ hj')
        · rintro _ heq
          obtain rfl : j' = j := (Prod.mk.inj heq).2
          exact hj hj')
      refine ⟨L₂, h₂, hdir₂.trans hdir₁, htable₂.trans htable₁, ?_⟩
      have hplaces : {place : UserLoc × Fin 1024 | place.1 = i ∧ place.2 ∈ j :: rest} =
          {(i, j)} ∪ {place | place.1 = i ∧ place.2 ∈ rest} := by
        ext ⟨i', j'⟩
        simp only [Set.mem_ofPred_eq, List.mem_cons, Set.mem_union, Set.mem_singleton_iff,
          Prod.mk.injEq]
        tauto
      rw [hplaces]
      exact hcopy₁.trans hkl hcopy₂

/-- One table, which the new space does not have yet. -/
theorem shareTable_spec (h : Inv m L) (hkl : k ≠ l) (hk : L.dir k = some dir)
    (hl : L.dir l = some newDir) (hnone : L.table (l, i) = none)
    (heq : shareTable m dir newDir i = some m') :
    ∃ L', Inv m' L' ∧ L'.dir = L.dir ∧ (∀ p, p ≠ (l, i) → L'.table p = L.table p) ∧
      Copies k l {place | place.1 = i} (m.mapping L) (m'.mapping L') := by
  have hempty : ∀ j, m.mapping L (l, i, j) = none :=
    fun j => mapping_eq_none.mpr (h.represents.noTable l i j hnone)
  unfold shareTable at heq
  dsimp only at heq
  split at heq
  · rename_i hpresent
    simp only [Option.bind_eq_bind, Option.bind_eq_some_iff, Option.pure_def,
      Option.some_inj] at heq
    obtain ⟨m₁, hensure, rfl⟩ := heq
    obtain ⟨L₁, h₁, hdir₁, _, hmapping₁, hnew, hother⟩ := ensure_spec h hl
      (attrOk_entryAttr _) (isPresent_iff.mp hpresent) hensure
    have hne : (k, i) ≠ (l, i) := by
      intro heq
      exact hkl (Prod.mk.inj heq).1
    have hold : L₁.table (k, i) = some _ :=
      (hother (k, i) hne).trans (h.represents.table_eq hk hpresent)
    obtain ⟨L₂, h₂, hdir₂, htable₂, hcopy⟩ := sharePages_spec h₁ hkl hold hnew
      (List.nodup_finRange 1024) (by rw [hmapping₁]; exact fun j _ => hempty j)
    refine ⟨L₂, h₂, hdir₂.trans hdir₁, fun p hp => ?_, ?_⟩
    · rw [htable₂, hother p hp]
    · rw [hmapping₁] at hcopy
      simpa using hcopy
  · rename_i habsent
    obtain rfl := Option.some.inj heq
    refine ⟨L, h, rfl, fun _ _ => rfl, ?_, fun _ _ => rfl⟩
    rintro ⟨i', j⟩ rfl
    rw [hempty, mapping_eq_none.mpr]
    exact h.represents.noTable k i' j (h.represents.table_none hk habsent)

/-- Several tables. -/
theorem shareTables_spec (h : Inv m L) (hkl : k ≠ l) (hk : L.dir k = some dir)
    (hl : L.dir l = some newDir) {locs : List UserLoc} (hnodup : locs.Nodup)
    (hnone : ∀ i ∈ locs, L.table (l, i) = none)
    (heq : locs.foldlM (fun m i => shareTable m dir newDir i) m = some m') :
    ∃ L', Inv m' L' ∧ L'.dir = L.dir ∧ (∀ p, p.1 ≠ l → L'.table p = L.table p) ∧
      Copies k l {place | place.1 ∈ locs} (m.mapping L) (m'.mapping L') := by
  induction locs generalizing m L with
  | nil =>
      obtain rfl : m = m' := by simpa using heq
      refine ⟨L, h, rfl, fun _ _ => rfl, ?_⟩
      simpa using Copies.refl k l (m.mapping L)
  | cons i rest ih =>
      obtain ⟨hi, hrest⟩ := List.nodup_cons.mp hnodup
      simp only [List.foldlM_cons, Option.bind_eq_bind, Option.bind_eq_some_iff] at heq
      obtain ⟨m₁, hshare, heq⟩ := heq
      obtain ⟨L₁, h₁, hdir₁, htable₁, hcopy₁⟩ :=
        shareTable_spec h hkl hk hl (hnone i (List.mem_cons_self ..)) hshare
      obtain ⟨L₂, h₂, hdir₂, htable₂, hcopy₂⟩ := ih h₁ (hdir₁ ▸ hk) (hdir₁ ▸ hl) hrest (by
        intro i' hi'
        rw [htable₁ (l, i')]
        · exact hnone i' (List.mem_cons_of_mem _ hi')
        · intro heq
          obtain rfl : i' = i := (Prod.mk.inj heq).2
          exact hi hi') heq
      refine ⟨L₂, h₂, hdir₂.trans hdir₁, fun p hp => ?_, ?_⟩
      · rw [htable₂ p hp, htable₁]
        rintro rfl
        exact hp rfl
      have hplaces : {place : UserLoc × Fin 1024 | place.1 ∈ i :: rest} =
          {place | place.1 = i} ∪ {place | place.1 ∈ rest} := by
        ext place
        simp
      rw [hplaces]
      exact hcopy₁.trans hkl hcopy₂

section Defined

/-- The number of free frames. -/
def free (m : Memory) : Nat := m.frames.pool.freeFrames

theorem physicalFrameAlloc_defined (h : 0 < free m) :
    ∃ addr m', m.physicalFrameAlloc = some (addr, m') ∧ free m = free m' + 1 := by
  obtain ⟨offset, pool, halloc⟩ := PoolManager.alloc_of_free h
  let frames : PhysicalFrames := { pool, info := Function.update m.frames.info offset 1#16 }
  refine ⟨PoolManager.pageAt offset, { m with frames }, ?_, PoolManager.alloc_freeFrames halloc⟩
  simp only [Memory.physicalFrameAlloc, PhysicalFrames.physicalFrameAlloc, halloc,
    Option.bind_eq_bind, Option.bind_some, Option.pure_def, frames]

theorem fork_defined (h : 0 < free m) (kernel : Page) :
    ∃ addr m', fork m kernel = some (addr, m') ∧ free m = free m' + 1 := by
  obtain ⟨addr, m₁, halloc, hfree⟩ := physicalFrameAlloc_defined h
  refine ⟨addr, m₁.setPage addr (emptyDirectory kernel), ?_, hfree⟩
  simp only [fork, halloc, Option.bind_eq_bind, Option.bind_some, Option.pure_def]

theorem ensure_defined (h : 0 < free m) (dir : PhysicalAddress) (location : Fin 1024)
    (attr : BitVec 16) :
    ∃ m', ensure m dir location attr = some m' ∧ free m ≤ free m' + 1 := by
  unfold ensure
  split
  · exact ⟨m, rfl, Nat.le_succ _⟩
  · obtain ⟨addr, m₁, halloc, hfree⟩ := physicalFrameAlloc_defined h
    refine ⟨(m₁.setPage addr fun _ => 0#32).setWord dir location (entryWord addr attr), ?_,
      hfree.le⟩
    simp only [halloc, Option.bind_eq_bind, Option.bind_some, Option.pure_def]

variable (dir) in
/-- A new page takes a frame, and perhaps one for its table. -/
theorem alloc_defined (h : 1 < free m) (va : VirtualAddress) (writable : Bool) :
    ∃ addr m', alloc m dir va writable = some (addr, m') ∧ free m ≤ free m' + 2 := by
  obtain ⟨m₁, hensure, hfree₁⟩ := ensure_defined (Nat.zero_lt_of_lt h) dir (tableLoc va)
    (PDE_Present ||| PDE_ReadWrite ||| PDE_User)
  obtain ⟨addr, m₂, halloc, hfree₂⟩ := physicalFrameAlloc_defined (m := m₁) (by omega)
  refine ⟨addr, (m₂.setWord (entryAt (m₁.page dir (tableLoc va))) (tablePageLoc va)
    (entryWord (thisPage addr) (pageAttr writable))).setPage addr fun _ => 0#32, ?_, ?_⟩
  · simp only [alloc, hensure, Table.alloc, halloc, Option.bind_eq_bind, Option.bind_some,
      Option.pure_def]
  · have hsame : free ((m₂.setWord (entryAt (m₁.page dir (tableLoc va))) (tablePageLoc va)
        (entryWord (thisPage addr) (pageAttr writable))).setPage addr fun _ => 0#32) = free m₂ := rfl
    omega

theorem free_sharePages (js : List (Fin 1024)) :
    free (js.foldl (fun m j => sharePage m table newTable j) m) = free m := by
  induction js generalizing m with
  | nil => rfl
  | cons j rest ih =>
      rw [List.foldl_cons, ih]
      unfold sharePage
      dsimp only
      split
      · rfl
      · rfl

/-- Sharing a table takes one frame. -/
theorem shareTable_defined (h : 0 < free m) :
    ∃ m', shareTable m dir newDir i = some m' ∧ free m ≤ free m' + 1 := by
  unfold shareTable
  dsimp only
  split
  · obtain ⟨m₁, hensure, hfree⟩ := ensure_defined h newDir i.loc (entryAttr (m.page dir i.loc))
    simp only [hensure, Option.bind_eq_bind, Option.bind_some, Option.pure_def]
    refine ⟨_, rfl, ?_⟩
    rwa [free_sharePages]
  · exact ⟨m, rfl, by omega⟩

theorem shareTable_absent (h : m.Represents L) (hk : L.dir k = some dir)
    (hnone : L.table (k, i) = none) : shareTable m dir newDir i = some m := by
  have habsent : ¬ isPresent (m.page dir i.loc) = true := by
    intro hpresent
    cases hnone.symm.trans (h.table_eq hk hpresent)
  unfold shareTable
  dsimp only
  rw [if_neg habsent]

/-- Sharing tables takes a frame for each that is there. -/
theorem shareTables_defined (h : Inv m L) (hkl : k ≠ l) (hk : L.dir k = some dir)
    (hl : L.dir l = some newDir) {locs : List UserLoc} (hnodup : locs.Nodup)
    (hnone : ∀ i ∈ locs, L.table (l, i) = none)
    (hfree : (locs.filter fun i => (L.table (k, i)).isSome).length ≤ free m) :
    ∃ m', locs.foldlM (fun m i => shareTable m dir newDir i) m = some m' ∧
      free m ≤ free m' + (locs.filter fun i => (L.table (k, i)).isSome).length := by
  induction locs generalizing m L with
  | nil => exact ⟨m, rfl, Nat.le_add_right _ _⟩
  | cons i rest ih =>
      obtain ⟨hi, hrest⟩ := List.nodup_cons.mp hnodup
      obtain ⟨m₁, hshare, hcost⟩ : ∃ m₁, shareTable m dir newDir i = some m₁ ∧
          free m ≤ free m₁ + if (L.table (k, i)).isSome then 1 else 0 := by
        cases htable : L.table (k, i) with
        | none => exact ⟨m, shareTable_absent h.represents hk htable, by simp⟩
        | some table =>
            have hpos : 0 < free m := by
              simp only [List.filter_cons, htable, Option.isSome_some, if_true,
                List.length_cons] at hfree
              omega
            simpa using shareTable_defined hpos
      obtain ⟨L₁, h₁, hdir₁, htable₁, _⟩ :=
        shareTable_spec h hkl hk hl (hnone i (List.mem_cons_self ..)) hshare
      have hsame : (rest.filter fun i => (L₁.table (k, i)).isSome) =
          rest.filter fun i => (L.table (k, i)).isSome := by
        refine List.filter_congr fun i' _ => ?_
        rw [htable₁ (k, i') fun heq => hkl (Prod.mk.inj heq).1]
      have hcount : ((i :: rest).filter fun i => (L.table (k, i)).isSome).length =
          (if (L.table (k, i)).isSome then 1 else 0) +
            (rest.filter fun i => (L.table (k, i)).isSome).length := by
        rw [List.filter_cons]
        split
        · rw [List.length_cons]
          omega
        · omega
      rw [hcount] at hfree ⊢
      obtain ⟨m₂, hloop, hcost₂⟩ := ih h₁ (hdir₁ ▸ hk) (hdir₁ ▸ hl) hrest (by
        intro i' hi'
        rw [htable₁ (l, i')]
        · exact hnone i' (List.mem_cons_of_mem _ hi')
        · intro heq
          obtain rfl : i' = i := (Prod.mk.inj heq).2
          exact hi hi') (by rw [hsame]; omega)
      rw [hsame] at hcost₂
      refine ⟨m₂, ?_, by omega⟩
      rw [List.foldlM_cons, hshare]
      exact hloop

/-- `forkCOW` takes a frame for the directory and one for each table. -/
theorem forkCOW_defined (h : Inv m L) (hk : L.dir k = some dir) (hl : L.dir l = none)
    (hfree : ((List.finRange 768).filter fun i => (L.table (k, i)).isSome).length < free m) :
    ∃ newDir m', forkCOW m dir = some (newDir, m') ∧
      free m ≤ free m' + ((List.finRange 768).filter fun i => (L.table (k, i)).isSome).length + 1 := by
  have hkl : k ≠ l := by
    rintro rfl
    cases hk.symm.trans hl
  obtain ⟨newDir, m₁, halloc, hcost⟩ := physicalFrameAlloc_defined (Nat.zero_lt_of_lt hfree)
  have hpage : ∀ i : UserLoc, emptyDirectory (m₁.page dir) i.loc = 0#32 := fun i => if_pos i.isLt
  obtain ⟨h₁, _⟩ := h.newDir hl halloc hpage
  have hsame : free (m₁.setPage newDir (emptyDirectory (m₁.page dir))) = free m₁ := rfl
  have htables : (L.setDir l (some newDir)).table = L.table := rfl
  obtain ⟨m₂, hloop, hcost₂⟩ := shareTables_defined h₁ hkl
    ((Function.update_of_ne hkl ..).trans hk) (Function.update_self ..) (List.nodup_finRange 768)
    (fun i _ => h.represents.noDir l i hl) (by
      rw [hsame, htables]
      omega)
  refine ⟨newDir, m₂, ?_, ?_⟩
  · simp only [forkCOW, halloc, Option.bind_eq_bind, Option.bind_some, hloop, Option.pure_def]
  · rw [hsame, htables] at hcost₂
    omega

end Defined

/-- The new space has the pages of the old one, in the same frames. -/
theorem forkCOW_spec (h : Inv m L) (hk : L.dir k = some dir) (hl : L.dir l = none)
    (heq : forkCOW m dir = some (newDir, m')) :
    ∃ L', Inv m' L' ∧ L'.dir = Function.update L.dir l (some newDir) ∧
      (∀ p, p.1 ≠ l → L'.table p = L.table p) ∧
      Copies k l Set.univ (m.mapping L) (m'.mapping L') := by
  simp only [forkCOW, Option.bind_eq_bind, Option.bind_eq_some_iff, Option.pure_def,
    Option.some_inj, Prod.exists, Prod.mk.injEq] at heq
  obtain ⟨_, m₁, halloc, m₂, hloop, rfl, rfl⟩ := heq
  have hkl : k ≠ l := by
    rintro rfl
    cases hk.symm.trans hl
  have hpage : ∀ i : UserLoc, emptyDirectory (m₁.page dir) i.loc = 0#32 := fun i => if_pos i.isLt
  obtain ⟨h₁, hmapping⟩ := h.newDir hl halloc hpage
  obtain ⟨L', h', hdir, htable, hcopy⟩ := shareTables_spec h₁ hkl
    ((Function.update_of_ne hkl ..).trans hk) (Function.update_self ..) (List.nodup_finRange 768)
    (fun i _ => h.represents.noDir l i hl) hloop
  rw [hmapping] at hcopy
  exact ⟨L', h', hdir, htable, by simpa using hcopy⟩

end UserDirectory

theorem Few.mono {X : Type} {slots slots' : X → Option PhysicalAddress}
    (h : PhysicalFrames.Few slots)
    (hsub : ∀ x f, slots' x = some f → slots x = some f) : PhysicalFrames.Few slots' :=
  fun f => (Set.encard_le_encard fun x hx => hsub x f hx).trans (h f)

/-- `freeDangling` gives back the frames of a table's entries, and changes no page. -/
theorem Table.freeDangling_spec {slots : Slot → Option PhysicalAddress}
    (hcounted : m.frames.Counted slots) (hfew : PhysicalFrames.Few slots) {js : List (Fin 1024)}
    (hnodup : js.Nodup) (hslots : ∀ j ∈ js, slots (.page (k, i, j)) =
      (presentWord (m.page table j)).map entryAt) :
    ∃ frames, js.foldl (fun m' j => if isPresent (m'.page table j) then
        m'.physicalFrameRelease (entryAt (m'.page table j)) else m') m = { m with frames } ∧
      frames.Counted fun x => if ∃ j ∈ js, x = .page (k, i, j) then none else slots x := by
  induction js generalizing m slots with
  | nil => exact ⟨m.frames, rfl, by simpa using hcounted⟩
  | cons j rest ih =>
      obtain ⟨hj, hrest⟩ := List.nodup_cons.mp hnodup
      have hslot := hslots j (List.mem_cons_self ..)
      obtain ⟨frames, hbody, hfree⟩ : ∃ frames,
          (if isPresent (m.page table j) then
            m.physicalFrameRelease (entryAt (m.page table j)) else m) = { m with frames } ∧
          frames.Counted (Function.update slots (.page (k, i, j)) none) := by
        split
        · rename_i hpresent
          rw [presentWord_of_present hpresent] at hslot
          exact ⟨_, rfl, hcounted.release hfew hslot⟩
        · rename_i habsent
          rw [presentWord, if_neg habsent, Option.map_none] at hslot
          refine ⟨m.frames, rfl, ?_⟩
          rwa [← hslot, Function.update_eq_self]
      have hfew' : PhysicalFrames.Few (Function.update slots (.page (k, i, j)) none) := by
        refine Few.mono hfew fun x f hx => ?_
        by_cases hxj : x = .page (k, i, j)
        · simp [hxj] at hx
        · rwa [Function.update_of_ne hxj] at hx
      obtain ⟨frames', hloop, hfree'⟩ := ih (m := { m with frames }) hfree hfew' hrest (by
        intro j' hj'
        have hne : Slot.page (k, i, j') ≠ .page (k, i, j) := by
          intro heq
          obtain rfl : j' = j := by simpa using heq
          exact hj hj'
        rw [Function.update_of_ne hne]
        exact hslots j' (List.mem_cons_of_mem _ hj'))
      refine ⟨frames', ?_, ?_⟩
      · rw [List.foldl_cons, hbody]
        exact hloop
      · convert hfree' using 1
        funext x
        by_cases hxj : x = .page (k, i, j)
        · simp [hxj]
        · simp [hxj]

namespace UserDirectory

/-- What is held once the pages of a table and then the table are given back. -/
theorem freed_slots (L : Layout) (k : Nat) (i : UserLoc) :
    Function.update (fun x => if ∃ j ∈ List.finRange 1024, x = .page (k, i, j) then none
      else L.slots x) (.table (k, i)) none = (L.without fun p => p = (k, i)).slots := by
  funext x
  cases x with
  | directory l => simp [Layout.slots, Layout.without]
  | table p =>
      by_cases hp : p = (k, i)
      · simp [Layout.slots, Layout.without, hp]
      · simp [Layout.slots, Layout.without, hp]
  | page q =>
      obtain ⟨l, i', j⟩ := q
      by_cases hp : l = k ∧ i' = i
      · simp [Layout.slots, Layout.without, hp]
      · simp [Layout.slots, Layout.without, hp]

theorem without_self (htable : L.table (k, i) = none) (hentry : ∀ j, L.entry (k, i, j) = none) :
    (L.without fun p => p = (k, i)) = L := by
  simp only [Layout.without, decide_eq_true_eq]
  congr 1
  · funext p
    split
    · rename_i hp
      rw [hp, htable]
    · rfl
  · funext q
    split
    · rename_i hq
      obtain ⟨l, i', j⟩ := q
      obtain ⟨rfl, rfl⟩ : l = k ∧ i' = i := by simpa using hq
      exact (hentry j).symm
    · rfl

/-- One table of a directory is given up, with the pages in it. -/
theorem freeTable_spec (h : Inv m L) (hbound : Bounded L.dir) (hk : L.dir k = some dir)
    (i : UserLoc) :
    Inv (freeTable m dir i) (L.without fun p => p = (k, i)) ∧
      (freeTable m dir i).mapping (L.without fun p => p = (k, i)) = fun q =>
        if (q.1, q.2.1) = (k, i) then none else m.mapping L q := by
  unfold freeTable
  split
  · rename_i hpresent
    have htable := h.represents.table_eq hk hpresent
    have hpages : ∀ j ∈ List.finRange 1024, L.slots (.page (k, i, j)) =
        (presentWord (m.page (entryAt (m.page dir i.loc)) j)).map entryAt :=
      fun j _ => congrArg (Option.map entryAt) (h.represents.entry k i j _ htable)
    obtain ⟨frames, hfree, hcounted⟩ := Table.freeDangling_spec h.counted (h.few hbound)
      (List.nodup_finRange 1024) hpages
    have hfew : PhysicalFrames.Few fun x =>
        if ∃ j ∈ List.finRange 1024, x = .page (k, i, j) then none else L.slots x := by
      refine Few.mono (h.few hbound) fun x f hx => ?_
      split at hx
      · cases hx
      · exact hx
    have hslot : (if ∃ j ∈ List.finRange 1024, Slot.table (k, i) = .page (k, i, j) then none
        else L.slots (.table (k, i))) = some (entryAt (m.page dir i.loc)) := by
      simpa [Layout.slots] using htable
    have hrelease := hcounted.release hfew hslot
    rw [freed_slots] at hrelease
    have hdangling : Table.freeDangling m (entryAt (m.page dir i.loc)) = { m with frames } := hfree
    dsimp only
    rw [hdangling]
    refine ⟨h.dropTable hk hrelease, (h.separate.mapping_dropTable hk _ _ _).trans ?_⟩
    simp only [decide_eq_true_eq]
  · rename_i habsent
    have hnone := h.represents.table_none hk habsent
    rw [without_self hnone fun j => h.represents.noTable k i j hnone]
    refine ⟨h, ?_⟩
    funext q
    split
    · rename_i hq
      obtain ⟨l, i', j⟩ := q
      obtain ⟨rfl, rfl⟩ : l = k ∧ i' = i := by simpa using hq
      exact mapping_eq_none.mpr (h.represents.noTable l i' j hnone)
    · rfl

theorem without_without (L : Layout) (drop drop' : Nat × UserLoc → Bool) :
    (L.without drop).without drop' = L.without fun p => drop p || drop' p := by
  simp only [Layout.without, Layout.mk.injEq, true_and]
  refine ⟨funext fun p => ?_, funext fun q => ?_⟩
  · by_cases hdrop : drop p = true <;> simp [hdrop]
  · by_cases hdrop : drop (q.1, q.2.1) = true <;> simp [hdrop]

/-- Several tables. -/
theorem freeTables_spec (h : Inv m L) (hbound : Bounded L.dir) (hk : L.dir k = some dir)
    (locs : List UserLoc) :
    Inv (locs.foldl (fun m i => freeTable m dir i) m)
        (L.without fun p => p.1 = k ∧ p.2 ∈ locs) ∧
      (locs.foldl (fun m i => freeTable m dir i) m).mapping
          (L.without fun p => p.1 = k ∧ p.2 ∈ locs) = fun q =>
        if q.1 = k ∧ q.2.1 ∈ locs then none else m.mapping L q := by
  induction locs generalizing m L with
  | nil =>
      have hself : (L.without fun p => p.1 = k ∧ p.2 ∈ []) = L := by
        simp [Layout.without]
      rw [hself]
      exact ⟨h, by simp⟩
  | cons i rest ih =>
      obtain ⟨h₁, hmapping₁⟩ := freeTable_spec h hbound hk i
      obtain ⟨h₂, hmapping₂⟩ := ih h₁ hbound hk
      have hplaces : ((L.without fun p => p = (k, i)).without fun p => p.1 = k ∧ p.2 ∈ rest) =
          L.without fun p => p.1 = k ∧ p.2 ∈ i :: rest := by
        rw [without_without]
        congr 1
        funext p
        rw [← Bool.decide_or, decide_eq_decide, Prod.ext_iff, List.mem_cons]
        tauto
      rw [hplaces] at h₂ hmapping₂
      refine ⟨h₂, hmapping₂.trans ?_⟩
      rw [hmapping₁]
      funext q
      simp only [List.mem_cons, Prod.mk.injEq]
      by_cases hq : q.1 = k
      · by_cases hi : q.2.1 = i
        · simp [hq, hi]
        · simp [hq, hi]
      · simp [hq]

/-- No table and no page of the space is left. -/
theorem freePageTables_spec (h : Inv m L) (hbound : Bounded L.dir) (hk : L.dir k = some dir) :
    Inv (freePageTables m dir) (L.without fun p => p.1 = k) ∧
      (freePageTables m dir).mapping (L.without fun p => p.1 = k) = fun q =>
        if q.1 = k then none else m.mapping L q := by
  unfold freePageTables
  simpa using freeTables_spec h hbound hk (List.finRange 768)

end UserDirectory

end Nyan.Paging
