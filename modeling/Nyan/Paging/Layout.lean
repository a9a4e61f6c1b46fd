import Nyan.Paging.Entry

/-!
What the page directories of several address spaces say. A `Layout` has the
directory of each space, its tables and its entries; `Represents` says that these
are what physical memory holds. `Inv` is the invariant of the memory manager:
directories and tables are not shared, a page is shared only between spaces and
at one place, a page that may be written is not shared at all, and the counters of
the frames count the directories, tables and entries that name them.
-/

namespace Nyan.Paging

open Allocator Library

/-- A page of an address space. -/
abbrev Spot := Nat × UserLoc × Fin 1024

/-- The places that hold a reference to a frame. -/
inductive Slot where
  | directory (space : Nat)
  | table (place : Nat × UserLoc)
  | page (spot : Spot)
  deriving DecidableEq

namespace Slot

/-- The slots that may refer to one frame. -/
def Kin : Slot → Slot → Prop
  | .directory k, .directory l => k = l
  | .table p, .table q => p = q
  | .page p, .page q => p.2 = q.2
  | _, _ => False

instance : Std.Refl Kin where
  refl x := by cases x <;> rfl

instance : Std.Symm Kin where
  symm x y h := by
    cases x <;> cases y <;> first | exact Eq.symm h | exact h

/-- The address space of a slot. -/
def space : Slot → Nat
  | .directory k => k
  | .table p => p.1
  | .page p => p.1

theorem Kin.eq_of_space {x y : Slot} (h : Kin x y) (hspace : x.space = y.space) : x = y := by
  cases x <;> cases y <;> simp only [Kin, space] at h hspace
  case directory.directory => rw [h]
  case table.table => rw [h]
  case page.page => rw [Prod.ext hspace h]

end Slot

@[ext] structure Layout where
  dir : Nat → Option PhysicalAddress
  table : Nat × UserLoc → Option PhysicalAddress
  entry : Spot → Option (BitVec 32)

/-- An entry, if it is present. -/
def presentWord (word : BitVec 32) : Option (BitVec 32) :=
  if isPresent word then some word else none

namespace Layout

variable (L : Layout)

/-- The frame that a slot refers to. -/
def slots : Slot → Option PhysicalAddress
  | .directory k => L.dir k
  | .table p => L.table p
  | .page p => (L.entry p).map entryAt

def setDir (k : Nat) (addr : Option PhysicalAddress) : Layout :=
  { L with dir := Function.update L.dir k addr }

def setTable (p : Nat × UserLoc) (addr : Option PhysicalAddress) : Layout :=
  { L with table := Function.update L.table p addr }

def setEntry (p : Spot) (word : Option (BitVec 32)) : Layout :=
  { L with entry := Function.update L.entry p word }

@[simp] theorem slots_setDir (k : Nat) (addr : Option PhysicalAddress) :
    (L.setDir k addr).slots = Function.update L.slots (.directory k) addr := by
  funext x
  cases x with
  | directory l =>
      by_cases h : l = k
      · simp [slots, setDir, h]
      · simp [slots, setDir, h]
  | table p => simp [slots, setDir]
  | page p => simp [slots, setDir]

@[simp] theorem slots_setTable (p : Nat × UserLoc) (addr : Option PhysicalAddress) :
    (L.setTable p addr).slots = Function.update L.slots (.table p) addr := by
  funext x
  cases x with
  | directory l => simp [slots, setTable]
  | table q =>
      by_cases h : q = p
      · simp [slots, setTable, h]
      · simp [slots, setTable, h]
  | page q => simp [slots, setTable]

@[simp] theorem slots_setEntry (p : Spot) (word : Option (BitVec 32)) :
    (L.setEntry p word).slots = Function.update L.slots (.page p) (word.map entryAt) := by
  funext x
  cases x with
  | directory l => simp [slots, setEntry]
  | table q => simp [slots, setEntry]
  | page q =>
      by_cases h : q = p
      · simp [slots, setEntry, h]
      · simp [slots, setEntry, h]

/-- Only one entry names a frame that some entry may write to. -/
def Exclusive : Prop :=
  ∀ p q w w', L.entry p = some w → L.entry q = some w' → isReadWrite w = true →
    entryAt w' = entryAt w → q = p

end Layout

/-- The layout is what the memory holds. -/
structure Memory.Represents (m : Memory) (L : Layout) : Prop where
  table : ∀ k i addr, L.dir k = some addr →
    L.table (k, i) = (presentWord (m.page addr i.loc)).map entryAt
  entry : ∀ k i j addr, L.table (k, i) = some addr → L.entry (k, i, j) = presentWord (m.page addr j)
  noDir : ∀ k i, L.dir k = none → L.table (k, i) = none
  noTable : ∀ k i j, L.table (k, i) = none → L.entry (k, i, j) = none

structure Inv (m : Memory) (L : Layout) : Prop where
  represents : m.Represents L
  shared : SharedBy Slot.Kin L.slots
  counted : m.frames.Counted L.slots
  exclusive : L.Exclusive

/-- What `Inv` says apart from the counters. -/
structure Separate (m : Memory) (L : Layout) : Prop where
  represents : m.Represents L
  shared : SharedBy Slot.Kin L.slots
  exclusive : L.Exclusive

/-- A page as the program sees it. A page to be copied on a write is writable. -/
structure UserPage where
  content : Page
  writable : Bool

def Memory.userPage (m : Memory) (word : BitVec 32) : UserPage where
  content := m.page (entryAt word)
  writable := isReadWrite word || isCOW word

/-- The pages of all address spaces, with the frames they are in. -/
def Memory.mapping (m : Memory) (L : Layout) (p : Spot) : Option (PhysicalAddress × UserPage) :=
  (L.entry p).map fun word => (entryAt word, m.userPage word)

variable {m : Memory} {L : Layout} {k : Nat} {i : UserLoc} {j : Fin 1024}
  {addr table : PhysicalAddress} {word : BitVec 32}

theorem presentWord_of_present (h : isPresent word = true) : presentWord word = some word := if_pos h

theorem presentWord_zero : presentWord 0#32 = none := rfl

theorem presentWord_eq_some {found : BitVec 32} (h : presentWord word = some found) :
    found = word ∧ isPresent word = true := by
  unfold presentWord at h
  split at h
  · rename_i hpresent
    exact ⟨(Option.some.inj h).symm, hpresent⟩
  · cases h

namespace Memory

@[simp] theorem setPage_self (m : Memory) (addr : PhysicalAddress) (page : Page) :
    (m.setPage addr page).page addr = page := Function.update_self ..

theorem setPage_of_ne {other : PhysicalAddress} (h : other ≠ addr) (page : Page) :
    (m.setPage addr page).page other = m.page other := Function.update_of_ne h ..

@[simp] theorem setWord_self (m : Memory) (addr : PhysicalAddress) (i : Fin 1024)
    (word : BitVec 32) : (m.setWord addr i word).page addr i = word := by
  simp [setWord]

theorem setWord_of_ne {other : PhysicalAddress} (h : other ≠ addr) (i : Fin 1024)
    (word : BitVec 32) : (m.setWord addr i word).page other = m.page other := setPage_of_ne h _

theorem setWord_index_ne {i other : Fin 1024} (h : other ≠ i) (word : BitVec 32) :
    (m.setWord addr i word).page addr other = m.page addr other := by
  simp [setWord, h]

end Memory

theorem UserLoc.loc_inj {i i' : UserLoc} (h : i.loc = i'.loc) : i = i' := by
  exact Fin.ext (congrArg (fun x : Fin 1024 => x.val) h)

theorem Inv.separate (h : Inv m L) : Separate m L := ⟨h.represents, h.shared, h.exclusive⟩

namespace Separate

variable (h : Separate m L)
include h

theorem dir_eq {l : Nat} (hk : L.dir k = some addr) (hl : L.dir l = some addr) : k = l :=
  h.shared (.directory k) (.directory l) addr hk hl

theorem dir_ne_table {p : Nat × UserLoc} (hk : L.dir k = some addr)
    (hp : L.table p = some table) : addr ≠ table := by
  rintro rfl
  exact h.shared (.directory k) (.table p) addr hk hp

theorem table_eq {p q : Nat × UserLoc} (hp : L.table p = some table) (hq : L.table q = some table) :
    p = q :=
  h.shared (.table p) (.table q) table hp hq

theorem dir_ne_page {p : Spot} (hk : L.dir k = some addr) (hp : L.entry p = some word) :
    addr ≠ entryAt word := by
  rintro rfl
  exact h.shared (.directory k) (.page p) _ hk (by simp [Layout.slots, hp])

theorem table_ne_page {p : Nat × UserLoc} {q : Spot} (hp : L.table p = some table)
    (hq : L.entry q = some word) : table ≠ entryAt word := by
  rintro rfl
  exact h.shared (.table p) (.page q) _ hp (by simp [Layout.slots, hq])

end Separate

/-- Writes to a frame that is no directory and no table. -/
theorem Memory.Represents.setPage (h : m.Represents L) (hdir : ∀ k, L.dir k ≠ some addr)
    (htable : ∀ p, L.table p ≠ some addr) (page : Page) : (m.setPage addr page).Represents L := by
  refine ⟨?_, ?_, h.noDir, h.noTable⟩
  · intro k i other hk
    have hne : other ≠ addr := by
      rintro rfl
      exact hdir k hk
    rw [Memory.setPage_of_ne hne]
    exact h.table k i other hk
  · intro k i j other hp
    have hne : other ≠ addr := by
      rintro rfl
      exact htable _ hp
    rw [Memory.setPage_of_ne hne]
    exact h.entry k i j other hp

/-- A write of one entry of a table. -/
theorem Separate.represents_setEntry (h : Separate m L) (htable : L.table (k, i) = some table)
    (j : Fin 1024) (word : BitVec 32) :
    (m.setWord table j word).Represents (L.setEntry (k, i, j) (presentWord word)) := by
  refine ⟨?_, ?_, h.represents.noDir, ?_⟩
  · intro l i' other hl
    rw [Memory.setWord_of_ne (h.dir_ne_table hl htable)]
    exact h.represents.table l i' other hl
  · intro l i' j' other hp
    by_cases hspot : (l, i', j') = (k, i, j)
    · obtain ⟨rfl, rfl, rfl⟩ : l = k ∧ i' = i ∧ j' = j := by simpa using hspot
      obtain rfl : table = other := Option.some.inj (htable.symm.trans hp)
      simp [Layout.setEntry]
    · simp only [Layout.setEntry, Function.update_of_ne hspot]
      rw [h.represents.entry l i' j' other hp]
      by_cases hother : other = table
      · subst hother
        obtain ⟨rfl, rfl⟩ : l = k ∧ i' = i := by simpa using h.table_eq hp htable
        have hj : j' ≠ j := by
          rintro rfl
          exact hspot rfl
        rw [Memory.setWord_index_ne hj]
      · rw [Memory.setWord_of_ne hother]
  · intro l i' j' hnone
    have hspot : (l, i', j') ≠ (k, i, j) := by
      rintro heq
      obtain ⟨rfl, rfl, rfl⟩ : l = k ∧ i' = i ∧ j' = j := by simpa using heq
      cases htable.symm.trans hnone
    simp only [Layout.setEntry, Function.update_of_ne hspot]
    exact h.represents.noTable l i' j' hnone

theorem Layout.Exclusive.setEntry (h : L.Exclusive) {p : Spot} {word : Option (BitVec 32)}
    (hword : ∀ w, word = some w → ∀ q w', q ≠ p → L.entry q = some w' →
      entryAt w' = entryAt w → isReadWrite w = false ∧ isReadWrite w' = false) :
    (L.setEntry p word).Exclusive := by
  intro q q' w w' hq hq' hwrite heq
  simp only [Layout.setEntry] at hq hq'
  by_cases hqp : q = p
  · subst hqp
    by_contra hne
    rw [Function.update_self] at hq
    rw [Function.update_of_ne hne] at hq'
    rw [(hword w hq q' w' hne hq' heq).1] at hwrite
    cases hwrite
  · rw [Function.update_of_ne hqp] at hq
    by_cases hqp' : q' = p
    · subst hqp'
      rw [Function.update_self] at hq'
      rw [(hword w' hq' q w hqp hq heq.symm).2] at hwrite
      cases hwrite
    · rw [Function.update_of_ne hqp'] at hq'
      exact h q q' w w' hq hq' hwrite heq

namespace Separate

/-- An entry of a table is written. The frame named may be one that related entries
name too if none of them may write to it. -/
theorem setEntry (h : Separate m L) (htable : L.table (k, i) = some table) (j : Fin 1024)
    (word : BitVec 32) (frames : PhysicalFrames)
    (hshared : ∀ w, presentWord word = some w → ∀ x, L.slots x = some (entryAt w) →
      Slot.Kin (.page (k, i, j)) x)
    (hexclusive : ∀ w, presentWord word = some w → ∀ q w', q ≠ (k, i, j) →
      L.entry q = some w' → entryAt w' = entryAt w →
      isReadWrite w = false ∧ isReadWrite w' = false) :
    Separate ({ m with frames }.setWord table j word)
      (L.setEntry (k, i, j) (presentWord word)) := by
  refine ⟨?_, ?_, h.exclusive.setEntry hexclusive⟩
  · have hset := h.represents_setEntry htable j word
    exact ⟨hset.table, hset.entry, hset.noDir, hset.noTable⟩
  · rw [Layout.slots_setEntry]
    cases hword : presentWord word with
    | none => exact h.shared.drop _
    | some w => exact h.shared.put (hshared w hword)

theorem mapping_setEntry (h : Separate m L) (htable : L.table (k, i) = some table) (j : Fin 1024)
    (word : BitVec 32) (frames : PhysicalFrames)
    (hframe : ∀ w, presentWord word = some w → entryAt w ≠ table) :
    ({ m with frames }.setWord table j word).mapping (L.setEntry (k, i, j) (presentWord word)) =
      Function.update (m.mapping L) (k, i, j)
        ((presentWord word).map fun w => (entryAt w, m.userPage w)) := by
  have huser : ∀ w, entryAt w ≠ table →
      ({ m with frames }.setWord table j word).userPage w = m.userPage w := by
    intro w hne
    rw [Memory.userPage, Memory.setWord_of_ne hne, Memory.userPage]
  funext q
  by_cases hq : q = (k, i, j)
  · subst hq
    simp only [Memory.mapping, Layout.setEntry, Function.update_self]
    cases hword : presentWord word with
    | none => rfl
    | some w => simp only [Option.map_some, huser w (hframe w hword)]
  · simp only [Memory.mapping, Layout.setEntry, Function.update_of_ne hq]
    cases hentry : L.entry q with
    | none => rfl
    | some w => simp only [Option.map_some, huser w (h.table_ne_page htable hentry).symm]

/-- A write to a frame that holds a user page, or nothing yet. -/
theorem setPage (h : Separate m L) (hdir : ∀ k, L.dir k ≠ some addr)
    (htable : ∀ p, L.table p ≠ some addr) (page : Page) : Separate (m.setPage addr page) L :=
  ⟨h.represents.setPage hdir htable page, h.shared, h.exclusive⟩

end Separate

namespace Inv

/-- An entry of a table is written, with the counters changed to match. -/
theorem setEntry (h : Inv m L) (htable : L.table (k, i) = some table) (j : Fin 1024)
    (word : BitVec 32) {frames : PhysicalFrames}
    (hcounted : frames.Counted
      (Function.update L.slots (.page (k, i, j)) ((presentWord word).map entryAt)))
    (hshared : ∀ w, presentWord word = some w → ∀ x, L.slots x = some (entryAt w) →
      Slot.Kin (.page (k, i, j)) x)
    (hexclusive : ∀ w, presentWord word = some w → ∀ q w', q ≠ (k, i, j) →
      L.entry q = some w' → entryAt w' = entryAt w →
      isReadWrite w = false ∧ isReadWrite w' = false) :
    Inv ({ m with frames }.setWord table j word) (L.setEntry (k, i, j) (presentWord word)) := by
  obtain ⟨hrep, hkin, hexcl⟩ := h.separate.setEntry htable j word frames hshared hexclusive
  refine ⟨hrep, hkin, ?_, hexcl⟩
  rw [Layout.slots_setEntry]
  exact hcounted

theorem setPage (h : Inv m L) (hdir : ∀ k, L.dir k ≠ some addr)
    (htable : ∀ p, L.table p ≠ some addr) (page : Page) : Inv (m.setPage addr page) L :=
  ⟨h.represents.setPage hdir htable page, h.shared, h.counted, h.exclusive⟩

theorem mapping_setPage (hfree : ∀ p w, L.entry p = some w → entryAt w ≠ addr) (page : Page) :
    (m.setPage addr page).mapping L = m.mapping L := by
  funext p
  unfold Memory.mapping
  cases hentry : L.entry p with
  | none => rfl
  | some w =>
      simp only [Option.map_some, Memory.userPage, Memory.setPage_of_ne (hfree p w hentry)]

/-- A write to a frame that one entry names changes the page of that entry only. -/
theorem mapping_store {p : Spot} (hp : L.entry p = some word) (hat : entryAt word = addr)
    (honly : ∀ q w, L.entry q = some w → entryAt w = addr → q = p) (page : Page) :
    (m.setPage addr page).mapping L =
      Function.update (m.mapping L) p (some (addr, { m.userPage word with content := page })) := by
  subst hat
  funext q
  unfold Memory.mapping
  by_cases hq : q = p
  · subst hq
    simp [hp, Memory.userPage]
  · rw [Function.update_of_ne hq]
    cases hentry : L.entry q with
    | none => rfl
    | some w =>
        have hne : entryAt w ≠ entryAt word := fun heq => hq (honly q w hentry heq)
        simp only [Option.map_some, Memory.userPage, Memory.setPage_of_ne hne]

end Inv

/-- What the allocation of a frame does to the memory. -/
theorem Memory.physicalFrameAlloc_eq {m' : Memory}
    (h : m.physicalFrameAlloc = some (addr, m')) :
    ∃ frames, m.frames.physicalFrameAlloc = some (addr, frames) ∧ m' = { m with frames } := by
  simp only [physicalFrameAlloc, Option.bind_eq_bind, Option.bind_eq_some_iff, Option.pure_def,
    Option.some_inj, Prod.mk.injEq, Prod.exists] at h
  obtain ⟨addr', frames, halloc, rfl, rfl⟩ := h
  exact ⟨frames, halloc, rfl⟩

/-- A frame that no slot refers to. -/
structure Layout.Fresh (L : Layout) (addr : PhysicalAddress) : Prop where
  aligned : PageAligned addr
  unused : ∀ x, L.slots x ≠ some addr

namespace Layout.Fresh

variable (h : L.Fresh addr)
include h

theorem not_dir (k : Nat) : L.dir k ≠ some addr := h.unused (.directory k)

theorem not_table (p : Nat × UserLoc) : L.table p ≠ some addr := h.unused (.table p)

theorem not_page (p : Spot) (w : BitVec 32) (hp : L.entry p = some w) : entryAt w ≠ addr := by
  rintro rfl
  exact h.unused (.page p) (by simp [Layout.slots, hp])

end Layout.Fresh

namespace Separate

/-- An entry gets a frame of its own. -/
theorem setFresh (h : Separate m L) (htable : L.table (k, i) = some table) (j : Fin 1024)
    (hfresh : L.Fresh addr) (hat : entryAt word = addr) (hpresent : isPresent word = true)
    (frames : PhysicalFrames) :
    Separate ({ m with frames }.setWord table j word) (L.setEntry (k, i, j) (some word)) ∧
    ({ m with frames }.setWord table j word).mapping (L.setEntry (k, i, j) (some word)) =
      Function.update (m.mapping L) (k, i, j) (some (addr, m.userPage word)) ∧
    ∀ q w, (L.setEntry (k, i, j) (some word)).entry q = some w → entryAt w = addr →
      q = (k, i, j) := by
  subst hat
  have hword := presentWord_of_present hpresent
  rw [← hword]
  refine ⟨?_, ?_, ?_⟩
  · refine h.setEntry htable j word frames ?_ ?_
    · intro w hw x hx
      obtain ⟨rfl, _⟩ := presentWord_eq_some hw
      exact absurd hx (hfresh.unused x)
    · intro w hw q w' _ hq hframe
      obtain ⟨rfl, _⟩ := presentWord_eq_some hw
      exact absurd hframe (hfresh.not_page q w' hq)
  · rw [h.mapping_setEntry htable j word frames, hword]
    · rfl
    · intro w hw
      obtain ⟨rfl, _⟩ := presentWord_eq_some hw
      rintro rfl
      exact hfresh.not_table _ htable
  · intro q w hq hframe
    by_contra hne
    simp only [Layout.setEntry, Function.update_of_ne hne] at hq
    exact hfresh.not_page q w hq hframe

/-- A new table without entries. -/
theorem newTable (h : Separate m L) {dir : PhysicalAddress} (hk : L.dir k = some dir)
    (hnone : L.table (k, i) = none) (hfresh : L.Fresh addr) (frames : PhysicalFrames)
    {attr : BitVec 16} (hattr : AttrOk attr) (hpresent : attr.getLsbD 0 = true) :
    Separate (({ m with frames }.setPage addr fun _ => 0#32).setWord dir i.loc
        (entryWord addr attr)) (L.setTable (k, i) (some addr)) ∧
      (({ m with frames }.setPage addr fun _ => 0#32).setWord dir i.loc
        (entryWord addr attr)).mapping (L.setTable (k, i) (some addr)) = m.mapping L ∧
      entryAt (entryWord addr attr) = addr := by
  have hdir : addr ≠ dir := by
    rintro rfl
    exact hfresh.not_dir k hk
  have hword : presentWord (entryWord addr attr) = some (entryWord addr attr) :=
    presentWord_of_present ((entryWord_flags hfresh.aligned hattr).1.trans hpresent)
  have hat : entryAt (entryWord addr attr) = addr := entryAt_entryWord hfresh.aligned hattr
  refine ⟨⟨⟨?_, ?_, ?_, ?_⟩, ?_, h.exclusive⟩, ?_, hat⟩
  · intro l i' other hl
    by_cases hplace : (l, i') = (k, i)
    · obtain ⟨rfl, rfl⟩ : l = k ∧ i' = i := by simpa using hplace
      obtain rfl : dir = other := Option.some.inj (hk.symm.trans hl)
      simp [Layout.setTable, hword, hat]
    · simp only [Layout.setTable, Function.update_of_ne hplace]
      rw [h.represents.table l i' other hl]
      by_cases hother : other = dir
      · subst hother
        obtain rfl := h.dir_eq hl hk
        have hi : i'.loc ≠ i.loc := by
          intro hloc
          exact hplace (by rw [UserLoc.loc_inj hloc])
        rw [Memory.setWord_index_ne hi, Memory.setPage_of_ne hdir.symm]
      · have hne : other ≠ addr := by
          rintro rfl
          exact hfresh.not_dir l hl
        rw [Memory.setWord_of_ne hother, Memory.setPage_of_ne hne]
  · intro l i' j other hp
    by_cases hplace : (l, i') = (k, i)
    · obtain ⟨rfl, rfl⟩ : l = k ∧ i' = i := by simpa using hplace
      obtain rfl : addr = other := by simpa [Layout.setTable] using hp
      rw [Memory.setWord_of_ne hdir, Memory.setPage_self]
      exact h.represents.noTable l i' j hnone
    · simp only [Layout.setTable, Function.update_of_ne hplace] at hp
      have hne : other ≠ addr := by
        rintro rfl
        exact hfresh.not_table _ hp
      rw [Memory.setWord_of_ne (h.dir_ne_table hk hp).symm, Memory.setPage_of_ne hne]
      exact h.represents.entry l i' j other hp
  · intro l i' hl
    have hplace : (l, i') ≠ (k, i) := by
      intro heq
      obtain ⟨rfl, rfl⟩ : l = k ∧ i' = i := by simpa using heq
      cases hk.symm.trans hl
    simp only [Layout.setTable, Function.update_of_ne hplace]
    exact h.represents.noDir l i' hl
  · intro l i' j hp
    by_cases hplace : (l, i') = (k, i)
    · simp [Layout.setTable, hplace] at hp
    · simp only [Layout.setTable, Function.update_of_ne hplace] at hp
      exact h.represents.noTable l i' j hp
  · rw [Layout.slots_setTable]
    exact h.shared.put fun x hx => absurd hx (hfresh.unused x)
  · have hpages : ∀ p w, L.entry p = some w → entryAt w ≠ dir :=
      fun p w hp => (h.dir_ne_page hk hp).symm
    exact (Inv.mapping_setPage hpages _).trans (Inv.mapping_setPage hfresh.not_page _)

end Separate

namespace Inv

variable {m' : Memory}

/-- An entry gets a frame of its own, and the counters count it. -/
theorem setFresh (h : Inv m L) (htable : L.table (k, i) = some table) (j : Fin 1024)
    (hfresh : L.Fresh addr) (hat : entryAt word = addr) (hpresent : isPresent word = true)
    {frames : PhysicalFrames}
    (hcounted : frames.Counted (Function.update L.slots (.page (k, i, j)) (some addr))) :
    Inv ({ m with frames }.setWord table j word) (L.setEntry (k, i, j) (some word)) ∧
    ({ m with frames }.setWord table j word).mapping (L.setEntry (k, i, j) (some word)) =
      Function.update (m.mapping L) (k, i, j) (some (addr, m.userPage word)) ∧
    ∀ q w, (L.setEntry (k, i, j) (some word)).entry q = some w → entryAt w = addr →
      q = (k, i, j) := by
  obtain ⟨hseparate, hrest⟩ := h.separate.setFresh htable j hfresh hat hpresent frames
  refine ⟨⟨hseparate.represents, hseparate.shared, ?_, hseparate.exclusive⟩, hrest⟩
  rw [Layout.slots_setEntry, Option.map_some, hat]
  exact hcounted

/-- A new directory without tables. -/
theorem newDir (h : Inv m L) (hk : L.dir k = none)
    (halloc : m.physicalFrameAlloc = some (addr, m')) {page : Page}
    (hpage : ∀ i : UserLoc, page i.loc = 0#32) :
    Inv (m'.setPage addr page) (L.setDir k (some addr)) ∧
      (m'.setPage addr page).mapping (L.setDir k (some addr)) = m.mapping L := by
  obtain ⟨frames, hframes, rfl⟩ := Memory.physicalFrameAlloc_eq halloc
  obtain ⟨haligned, hunused, hcounted⟩ := h.counted.alloc hframes
  have hfresh : L.Fresh addr := ⟨haligned, hunused⟩
  refine ⟨⟨?_, ?_, ?_, h.exclusive⟩, mapping_setPage hfresh.not_page page⟩
  · have hkeep := h.represents.setPage hfresh.not_dir hfresh.not_table page
    refine ⟨?_, hkeep.entry, ?_, hkeep.noTable⟩
    · intro l i other hl
      by_cases hlk : l = k
      · subst hlk
        obtain rfl : addr = other := by simpa [Layout.setDir] using hl
        simp [Layout.setDir, hpage, h.represents.noDir l i hk, presentWord_zero]
      · simp only [Layout.setDir, Function.update_of_ne hlk] at hl
        exact hkeep.table l i other hl
    · intro l i hl
      by_cases hlk : l = k
      · simp [Layout.setDir, hlk] at hl
      · simp only [Layout.setDir, Function.update_of_ne hlk] at hl
        exact hkeep.noDir l i hl
  · rw [Layout.slots_setDir]
    exact h.shared.put fun x hx => absurd hx (hunused x)
  · rw [Layout.slots_setDir]
    exact hcounted (.directory k) hk

/-- A new table without entries, which the counters count. -/
theorem newTable (h : Inv m L) {dir : PhysicalAddress} (hk : L.dir k = some dir)
    (hnone : L.table (k, i) = none) (halloc : m.physicalFrameAlloc = some (addr, m'))
    {attr : BitVec 16} (hattr : AttrOk attr) (hpresent : attr.getLsbD 0 = true) :
    Inv ((m'.setPage addr fun _ => 0#32).setWord dir i.loc (entryWord addr attr))
        (L.setTable (k, i) (some addr)) ∧
      ((m'.setPage addr fun _ => 0#32).setWord dir i.loc (entryWord addr attr)).mapping
        (L.setTable (k, i) (some addr)) = m.mapping L ∧
      entryAt (entryWord addr attr) = addr := by
  obtain ⟨frames, hframes, rfl⟩ := Memory.physicalFrameAlloc_eq halloc
  obtain ⟨haligned, hunused, hcounted⟩ := h.counted.alloc hframes
  obtain ⟨hseparate, hrest⟩ :=
    h.separate.newTable hk hnone ⟨haligned, hunused⟩ frames hattr hpresent
  refine ⟨⟨hseparate.represents, hseparate.shared, ?_, hseparate.exclusive⟩, hrest⟩
  rw [Layout.slots_setTable]
  exact hcounted (.table (k, i)) hnone

/-- A directory without tables is given up. -/
theorem dropDir (h : Inv m L) (hfew : PhysicalFrames.Few L.slots) (hk : L.dir k = some addr)
    (hnone : ∀ i, L.table (k, i) = none) :
    Inv (m.physicalFrameRelease addr) (L.setDir k none) := by
  refine ⟨⟨?_, h.represents.entry, ?_, h.represents.noTable⟩, ?_, ?_, h.exclusive⟩
  · intro l i other hl
    by_cases hlk : l = k
    · simp [Layout.setDir, hlk] at hl
    · simp only [Layout.setDir, Function.update_of_ne hlk] at hl
      exact h.represents.table l i other hl
  · intro l i hl
    by_cases hlk : l = k
    · rw [hlk]
      exact hnone i
    · simp only [Layout.setDir, Function.update_of_ne hlk] at hl
      exact h.represents.noDir l i hl
  · rw [Layout.slots_setDir]
    exact h.shared.drop _
  · rw [Layout.slots_setDir]
    exact h.counted.release hfew hk

end Inv

/-- The layout without some tables and their entries. -/
def Layout.without (L : Layout) (drop : Nat × UserLoc → Bool) : Layout where
  dir := L.dir
  table p := if drop p then none else L.table p
  entry q := if drop (q.1, q.2.1) then none else L.entry q

theorem Layout.entry_without {drop : Nat × UserLoc → Bool} {q : Spot} {w : BitVec 32}
    (hq : (L.without drop).entry q = some w) : L.entry q = some w := by
  simp only [without] at hq
  split at hq
  · cases hq
  · exact hq

theorem Layout.slots_without {drop : Nat × UserLoc → Bool} {x : Slot}
    (hx : (L.without drop).slots x = some addr) : L.slots x = some addr := by
  cases x with
  | directory l => exact hx
  | table p =>
      simp only [slots, without] at hx
      split at hx
      · cases hx
      · exact hx
  | page q =>
      obtain ⟨w, hw, rfl⟩ := Option.map_eq_some_iff.mp hx
      simp [slots, entry_without hw]

/-- A table is taken out of its directory. -/
theorem Inv.dropTable (h : Inv m L) {dir : PhysicalAddress} (hk : L.dir k = some dir)
    {frames : PhysicalFrames}
    (hcounted : frames.Counted (L.without fun p => p = (k, i)).slots) :
    Inv ({ m with frames }.setWord dir i.loc 0#32) (L.without fun p => p = (k, i)) := by
  refine ⟨⟨?_, ?_, ?_, ?_⟩, h.shared.mono fun x f => Layout.slots_without, hcounted, ?_⟩
  · intro l i' other hl
    by_cases hplace : (l, i') = (k, i)
    · obtain ⟨rfl, rfl⟩ : l = k ∧ i' = i := by simpa using hplace
      obtain rfl : dir = other := Option.some.inj (hk.symm.trans hl)
      simp [Layout.without, presentWord_zero]
    · simp only [Layout.without, decide_eq_true_eq, if_neg hplace]
      rw [h.represents.table l i' other hl]
      by_cases hother : other = dir
      · subst hother
        obtain rfl := h.separate.dir_eq hl hk
        have hi : i'.loc ≠ i.loc := by
          intro hloc
          exact hplace (by rw [UserLoc.loc_inj hloc])
        rw [Memory.setWord_index_ne hi]
      · rw [Memory.setWord_of_ne hother]
  · intro l i' j other hp
    by_cases hplace : (l, i') = (k, i)
    · simp [Layout.without, hplace] at hp
    · simp only [Layout.without, decide_eq_true_eq, if_neg hplace] at hp ⊢
      rw [Memory.setWord_of_ne (h.separate.dir_ne_table hk hp).symm]
      exact h.represents.entry l i' j other hp
  · intro l i' hl
    by_cases hplace : (l, i') = (k, i)
    · simp only [Layout.without, decide_eq_true_eq, if_pos hplace]
    · simp only [Layout.without, decide_eq_true_eq, if_neg hplace]
      exact h.represents.noDir l i' hl
  · intro l i' j hp
    by_cases hplace : (l, i') = (k, i)
    · simp only [Layout.without, decide_eq_true_eq, if_pos hplace]
    · simp only [Layout.without, decide_eq_true_eq, if_neg hplace] at hp ⊢
      exact h.represents.noTable l i' j hp
  · intro p q w w' hp hq
    exact h.exclusive p q w w' (Layout.entry_without hp) (Layout.entry_without hq)

theorem Separate.mapping_dropTable (h : Separate m L) {dir : PhysicalAddress} (hk : L.dir k = some dir)
    (frames : PhysicalFrames) (i : Fin 1024) (drop : Nat × UserLoc → Bool) :
    ({ m with frames }.setWord dir i 0#32).mapping (L.without drop) = fun q =>
      if drop (q.1, q.2.1) then none else m.mapping L q := by
  funext q
  simp only [Memory.mapping, Layout.without]
  split
  · rfl
  · cases hentry : L.entry q with
    | none => rfl
    | some w =>
        simp only [Option.map_some, Memory.userPage,
          Memory.setWord_of_ne (h.dir_ne_page hk hentry).symm]

end Nyan.Paging
