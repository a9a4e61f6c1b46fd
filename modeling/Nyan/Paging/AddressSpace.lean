import Nyan.Paging.DirectoryLoop

/-!
The address spaces of all tasks. Spaces are created, shared and torn down in any
order, and programs write to their pages in between; a write that the page table
does not allow goes through `handleCOW` first. Every step keeps the invariant of
the memory manager, and `Effect` says what it does to the pages of all spaces.
-/

namespace Nyan.Paging

open Allocator Library

/-- Directories, in the order in which they were made. A directory that has been
released leaves `none`. -/
structure System where
  memory : Memory
  kernel : Page
  spaces : List (Option PhysicalAddress)

/-- The directory slot and table slot of a user address. -/
def userPlace (addr : VirtualAddress) : Option (UserLoc × Fin 1024) :=
  if h : (tableLoc addr).val < 768 then some (⟨(tableLoc addr).val, h⟩, tablePageLoc addr) else none

/-- Calls of the memory manager, for the space with a given number. A write
replaces the bits `mask` of one word of a page. -/
inductive Action where
  | fork
  | forkCOW (k : Nat)
  | ensure (k : Nat) (location : UserLoc) (attr : BitVec 16)
  | alloc (k : Nat) (addr : VirtualAddress) (writable : Bool)
  | handleCOW (k : Nat) (addr : VirtualAddress)
  | write (k : Nat) (addr : VirtualAddress) (offset : Fin 1024) (value mask : BitVec 32)
  | freePage (k : Nat) (addr : VirtualAddress)
  | freePageTables (k : Nat)
  | release (k : Nat)

/-- The word at `offset` gets the bits `mask` of `value`. -/
def Page.store (page : Page) (offset : Fin 1024) (value mask : BitVec 32) : Page :=
  Function.update page offset (page offset &&& ~~~mask ||| value &&& mask)

namespace System

def dir (s : System) (k : Nat) : Option PhysicalAddress := s.spaces[k]?.join

/-- What memory holds for the live directories. -/
def layout (s : System) : Layout where
  dir := s.dir
  table p := (s.dir p.1).bind fun dir => (presentWord (s.memory.page dir p.2.loc)).map entryAt
  entry q := (s.dir q.1).bind fun dir =>
    (presentWord (s.memory.page dir q.2.1.loc)).bind fun word =>
      presentWord (s.memory.page (entryAt word) q.2.2)

def mapping (s : System) : Spot → Option (PhysicalAddress × UserPage) := s.memory.mapping s.layout

/-- What the program in a space sees at a page. -/
def page (s : System) (q : Spot) : Option UserPage := (s.mapping q).map Prod.snd

/-- The numbers of the live spaces. -/
def live (s : System) : List Nat := (List.range s.spaces.length).filter fun k => (s.dir k).isSome

/-- The entry that the processor finds for an address, if there is one. -/
def lookup (m : Memory) (dir : PhysicalAddress) (addr : VirtualAddress) : Option (BitVec 32) := do
  let table ← presentWord (m.page dir (tableLoc addr))
  presentWord (m.page (entryAt table) (tablePageLoc addr))

/-- A store to the frame of a page. -/
def store (m : Memory) (word : BitVec 32) (offset : Fin 1024) (value mask : BitVec 32) : Memory :=
  m.setPage (entryAt word) ((m.page (entryAt word)).store offset value mask)

/-- A write to a page. It is done directly if the entry allows it, and otherwise
again after `handleCOW` if that says so. -/
def write (m : Memory) (dir : PhysicalAddress) (addr : VirtualAddress) (offset : Fin 1024)
    (value mask : BitVec 32) : Option Memory :=
  match lookup m dir addr with
  | none => some m
  | some word =>
      if isReadWrite word then
        some (store m word offset value mask)
      else do
        let (owned, m) ← UserDirectory.handleCOW m dir addr
        if owned then
          return store m (← lookup m dir addr) offset value mask
        else
          return m

def step (s : System) : Action → Option System
  | .fork => do
      let (addr, memory) ← UserDirectory.fork s.memory s.kernel
      return { s with memory, spaces := s.spaces ++ [some addr] }
  | .forkCOW k => do
      let (addr, memory) ← UserDirectory.forkCOW s.memory (← s.dir k)
      return { s with memory, spaces := s.spaces ++ [some addr] }
  | .ensure k location attr => do
      return { s with memory := ← UserDirectory.ensure s.memory (← s.dir k) location.loc attr }
  | .alloc k addr writable => do
      return { s with memory := (← UserDirectory.alloc s.memory (← s.dir k) addr writable).2 }
  | .handleCOW k addr => do
      return { s with memory := (← UserDirectory.handleCOW s.memory (← s.dir k) addr).2 }
  | .write k addr offset value mask => do
      return { s with memory := ← write s.memory (← s.dir k) addr offset value mask }
  | .freePage k addr => do
      return { s with memory := UserDirectory.freePage s.memory (← s.dir k) addr }
  | .freePageTables k => do
      return { s with memory := UserDirectory.freePageTables s.memory (← s.dir k) }
  | .release k => do
      return { s with memory := s.memory.physicalFrameRelease (← s.dir k),
                      spaces := s.spaces.set k none }

/-- What the callers promise: there are at most `limit` live spaces, pages are in
user space, `alloc` is for a page that is not there, table attributes are present
and do not touch the address, and a directory is released without tables. -/
def Allowed (limit : Nat) (s : System) : Action → Prop
  | .fork | .forkCOW _ => s.live.length < limit
  | .ensure _ _ attr => AttrOk attr ∧ attr.getLsbD 0 = true
  | .alloc k addr _ => ∃ place, userPlace addr = some place ∧ s.layout.entry (k, place) = none
  | .handleCOW _ addr | .write _ addr _ _ _ | .freePage _ addr => userPlace addr ≠ none
  | .freePageTables _ => True
  | .release k => ∀ i, s.layout.table (k, i) = none

instance (limit : Nat) (s : System) : (a : Action) → Decidable (s.Allowed limit a)
  | .fork | .forkCOW _ => inferInstanceAs (Decidable (_ < _))
  | .ensure _ _ attr => inferInstanceAs (Decidable (AttrOk attr ∧ attr.getLsbD 0 = true))
  | .alloc k addr _ => decidable_of_iff
      ((userPlace addr).any fun place => (s.layout.entry (k, place)).isNone) <| by
        show _ ↔ ∃ place, userPlace addr = some place ∧ s.layout.entry (k, place) = none
        cases userPlace addr <;> simp
  | .handleCOW _ addr | .write _ addr _ _ _ | .freePage _ addr =>
      inferInstanceAs (Decidable (userPlace addr ≠ none))
  | .freePageTables _ => isTrue trivial
  | .release k => inferInstanceAs (Decidable (∀ i, s.layout.table (k, i) = none))

/-- The state after the allocator is loaded: no frame is in use. -/
def boot (size : Nat) (hsize : size ≤ 0x7FC0) (page : PhysicalAddress → Page) (kernel : Page) :
    System where
  memory := { frames := PhysicalFrames.load size hsize, page }
  kernel := kernel
  spaces := []

def Good (s : System) : Prop := Inv s.memory s.layout

/-- What each action does to the spaces and their pages. -/
def Effect (s s' : System) : Action → Prop
  | .fork => (∃ addr, s'.spaces = s.spaces ++ [some addr]) ∧ s'.mapping = s.mapping
  | .forkCOW k => (∃ addr, s'.spaces = s.spaces ++ [some addr]) ∧
      Copies k s.spaces.length Set.univ s.mapping s'.mapping
  | .ensure _ _ _ => s'.spaces = s.spaces ∧ s'.mapping = s.mapping
  | .alloc k addr writable => s'.spaces = s.spaces ∧ ∃ place frame,
      userPlace addr = some place ∧ s'.mapping = Function.update s.mapping (k, place)
        (some (frame, { content := fun _ => 0#32, writable }))
  | .handleCOW _ _ => s'.spaces = s.spaces ∧ s'.page = s.page
  | .write k addr offset value mask => s'.spaces = s.spaces ∧ ∃ place,
      userPlace addr = some place ∧ s'.page = Function.update s.page (k, place)
        ((s.page (k, place)).map fun page =>
          if page.writable then { page with content := page.content.store offset value mask }
          else page)
  | .freePage k addr => s'.spaces = s.spaces ∧ ∃ place,
      userPlace addr = some place ∧ s'.mapping = Function.update s.mapping (k, place) none
  | .freePageTables k => s'.spaces = s.spaces ∧
      s'.mapping = fun q => if q.1 = k then none else s.mapping q
  | .release k => s'.spaces = s.spaces.set k none ∧ s'.mapping = s.mapping

variable {s s' : System} {L : Layout} {k : Nat} {place : UserLoc × Fin 1024} {word : BitVec 32}

theorem userPlace_eq {addr : VirtualAddress} {place : UserLoc × Fin 1024}
    (h : userPlace addr = some place) :
    tableLoc addr = place.1.loc ∧ tablePageLoc addr = place.2 := by
  unfold userPlace at h
  split at h
  · obtain rfl := Option.some.inj h
    exact ⟨rfl, rfl⟩
  · cases h

/-- The layout is determined by the memory and the directories. -/
theorem eq_layout (h : s.memory.Represents L) (hdir : L.dir = s.dir) : L = s.layout := by
  have htable : L.table = s.layout.table := by
    funext ⟨k, i⟩
    cases hk : s.dir k with
    | none => simp [layout, hk, h.noDir k i (by rw [hdir, hk])]
    | some dir => simp [layout, hk, h.table k i dir (by rw [hdir, hk])]
  have hentry : L.entry = s.layout.entry := by
    funext ⟨k, i, j⟩
    have hplace := congrFun htable (k, i)
    cases hk : s.dir k with
    | none => simp [layout, hk, h.noTable k i j (h.noDir k i (by rw [hdir, hk]))]
    | some dir =>
        cases hword : presentWord (s.memory.page dir i.loc) with
        | none =>
            simp only [layout, hk, hword, Option.bind_some, Option.map_none] at hplace
            simp [layout, hk, hword, h.noTable k i j hplace]
        | some word =>
            simp only [layout, hk, hword, Option.bind_some, Option.map_some] at hplace
            simp [layout, hk, hword, h.entry k i j _ hplace]
  exact Layout.ext hdir htable hentry

theorem good_of (h : Inv s.memory L) (hdir : L.dir = s.dir) :
    s.Good ∧ s.mapping = s.memory.mapping L := by
  obtain rfl := eq_layout h.represents hdir
  exact ⟨h, rfl⟩

theorem dir_append {addr : PhysicalAddress} (h : s'.spaces = s.spaces ++ [some addr]) :
    s'.dir = Function.update s.dir s.spaces.length (some addr) := by
  funext k
  rcases Nat.lt_trichotomy k s.spaces.length with hk | rfl | hk
  · simp [dir, h, List.getElem?_append_left hk, Function.update_of_ne (Nat.ne_of_lt hk)]
  · simp [dir, h]
  · have hnone : (s.spaces ++ [some addr])[k]? = none := by
      rw [List.getElem?_eq_none_iff, List.length_append, List.length_singleton]
      omega
    simp [dir, h, hnone, Function.update_of_ne (Nat.ne_of_gt hk), Nat.le_of_lt hk]

theorem dir_length (s : System) : s.dir s.spaces.length = none := by
  simp [dir]

theorem dir_set (h : s'.spaces = s.spaces.set k none) : s'.dir = Function.update s.dir k none := by
  funext l
  by_cases hl : l = k
  · subst hl
    simp only [dir, h, List.getElem?_set_self', Function.update_self]
    cases s.spaces[l]? <;> rfl
  · simp [dir, h, List.getElem?_set_ne (Ne.symm hl), Function.update_of_ne hl]

theorem mem_live : k ∈ s.live ↔ s.dir k ≠ none := by
  have hlt : s.dir k ≠ none → k < s.spaces.length := by
    intro hk
    by_contra hge
    simp [dir, List.getElem?_eq_none (Nat.not_lt.mp hge)] at hk
  rw [live, List.mem_filter, List.mem_range, Option.isSome_iff_ne_none]
  exact ⟨And.right, fun hk => ⟨hlt hk, hk⟩⟩

theorem bounded_of_live (h : s.live.length ≤ PhysicalFrames.maxRef) : Bounded s.dir :=
  ⟨s.live.toFinset, (List.toFinset_card_le _).trans h,
    fun _ hk => List.mem_toFinset.mpr (mem_live.mpr hk)⟩

theorem live_append {addr : PhysicalAddress} (h : s'.spaces = s.spaces ++ [some addr]) :
    s'.live.length = s.live.length + 1 := by
  have hdir := dir_append h
  have hold : (List.range s.spaces.length).filter (fun k => (s'.dir k).isSome) = s.live := by
    refine List.filter_congr fun k hk => ?_
    rw [hdir, Function.update_of_ne (Nat.ne_of_lt (List.mem_range.mp hk))]
  have hnew : (s'.dir s.spaces.length).isSome = true := by
    rw [hdir, Function.update_self]
    rfl
  rw [live, h, List.length_append, List.length_singleton, List.range_succ, List.filter_append,
    hold, List.length_append]
  simp [hnew]

theorem live_set_le (h : s'.spaces = s.spaces.set k none) : s'.live.length ≤ s.live.length := by
  have hdir := dir_set h
  rw [live, h, List.length_set]
  refine (List.monotone_filter_right _ fun l hl => ?_).length_le
  rw [hdir] at hl
  by_cases hlk : l = k
  · simp [hlk] at hl
  · rwa [Function.update_of_ne hlk] at hl

theorem dir_congr (h : s'.spaces = s.spaces) : s'.dir = s.dir := by
  unfold dir
  rw [h]

theorem live_congr (h : s'.spaces = s.spaces) : s'.live = s.live := by
  unfold live
  rw [h, dir_congr h]

/-- No action makes more live spaces than its guard allows. -/
theorem Effect.live {limit : Nat} {a : Action} (h : Effect s s' a)
    (hallowed : s.Allowed limit a) (hlive : s.live.length ≤ limit) : s'.live.length ≤ limit := by
  cases a with
  | fork =>
      obtain ⟨⟨addr, hspaces⟩, _⟩ := h
      rw [live_append hspaces]
      exact hallowed
  | forkCOW =>
      obtain ⟨⟨addr, hspaces⟩, _⟩ := h
      rw [live_append hspaces]
      exact hallowed
  | release => exact (live_set_le h.1).trans hlive
  | ensure => rwa [live_congr h.1]
  | alloc => rwa [live_congr h.1]
  | handleCOW => rwa [live_congr h.1]
  | write => rwa [live_congr h.1]
  | freePage => rwa [live_congr h.1]
  | freePageTables => rwa [live_congr h.1]

theorem layout_keep {memory : Memory} (h : Inv memory L) (hdir : L.dir = s.dir) :
    layout { s with memory } = L :=
  (eq_layout (s := { s with memory }) h.represents hdir).symm

/-- An operation that leaves the directories where they are. -/
theorem good_keep {memory : Memory} (h : Inv memory L) (hdir : L.dir = s.dir) :
    Good { s with memory } ∧ mapping { s with memory } = memory.mapping L :=
  good_of (s := { s with memory }) h hdir

theorem page_eq (hentry : s.layout.entry (k, place) = some word) :
    s.page (k, place) = some (s.memory.userPage word) := by
  simp [page, mapping, Memory.mapping, hentry]

/-- A page that is to be copied on a write looks the same once it is owned. -/
theorem page_owned (hentry : s.layout.entry (k, place) = some word) (hcow : isCOW word = true)
    {frame : PhysicalAddress}
    (hmapping : s'.mapping = Function.update s.mapping (k, place)
      (some (frame, { s.memory.userPage word with writable := true }))) : s'.page = s.page := by
  funext q
  unfold page
  rw [hmapping]
  by_cases hq : q = (k, place)
  · subst hq
    simp [mapping, Memory.mapping, hentry, Memory.userPage, hcow]
  · rw [Function.update_of_ne hq]

/-- A store to a page that may be written. -/
theorem store_spec {m : Memory} (h : Inv m L) {q : Spot} (hentry : L.entry q = some word)
    (hwrite : isReadWrite word = true) (offset : Fin 1024) (value mask : BitVec 32) :
    Inv (store m word offset value mask) L ∧
      (store m word offset value mask).mapping L = Function.update (m.mapping L) q
        (some (entryAt word, { m.userPage word with
          content := (m.page (entryAt word)).store offset value mask })) := by
  refine ⟨h.setPage ?_ ?_ _, Inv.mapping_store hentry rfl ?_ _⟩
  · exact fun k hk => h.separate.dir_ne_page hk hentry rfl
  · exact fun p hp => h.separate.table_ne_page hp hentry rfl
  · exact fun q' w hq' hframe => h.exclusive q q' word w hentry hq' hwrite hframe

theorem Good.store (h : s.Good) (hentry : s.layout.entry (k, place) = some word)
    (hwrite : isReadWrite word = true) (offset : Fin 1024) (value mask : BitVec 32) :
    Good { s with memory := store s.memory word offset value mask } ∧
      page { s with memory := store s.memory word offset value mask } =
        Function.update s.page (k, place) ((s.page (k, place)).map fun page =>
          if page.writable then { page with content := page.content.store offset value mask }
          else page) := by
  obtain ⟨hinv, hmapping⟩ := store_spec h hentry hwrite offset value mask
  obtain ⟨hgood, hnew⟩ := good_keep hinv rfl
  have hwritable : (s.memory.userPage word).writable = true := by simp [Memory.userPage, hwrite]
  refine ⟨hgood, ?_⟩
  rw [page_eq hentry]
  funext q
  simp only [page, hnew.trans hmapping, Option.map_some, hwritable, if_true]
  by_cases hq : q = (k, place)
  · subst hq
    simp [Memory.userPage]
  · simp only [Function.update_of_ne hq]
    rfl

section Step

variable (h : s.Good)
include h

theorem fork_spec (heq : s.step .fork = some s') : s'.Good ∧ Effect s s' .fork := by
  simp only [step, Option.bind_eq_bind, Option.bind_eq_some_iff, Option.pure_def,
    Option.some_inj, Prod.exists] at heq
  obtain ⟨addr, memory, hfork, rfl⟩ := heq
  obtain ⟨hinv, hmapping⟩ := UserDirectory.fork_spec h s.dir_length hfork
  obtain ⟨hgood, hnew⟩ := good_of (s := { s with memory, spaces := s.spaces ++ [some addr] }) hinv
    (dir_append rfl).symm
  exact ⟨hgood, ⟨addr, rfl⟩, hnew.trans hmapping⟩

theorem forkCOW_spec (heq : s.step (.forkCOW k) = some s') :
    s'.Good ∧ Effect s s' (.forkCOW k) := by
  simp only [step, Option.bind_eq_bind, Option.bind_eq_some_iff, Option.pure_def,
    Option.some_inj, Prod.exists] at heq
  obtain ⟨dir, hk, addr, memory, hfork, rfl⟩ := heq
  obtain ⟨L', hinv, hdir, _, hcopies⟩ := UserDirectory.forkCOW_spec h hk s.dir_length hfork
  obtain ⟨hgood, hnew⟩ := good_of (s := { s with memory, spaces := s.spaces ++ [some addr] }) hinv
    (hdir.trans (dir_append rfl).symm)
  refine ⟨hgood, ⟨addr, rfl⟩, ?_⟩
  rw [hnew]
  exact hcopies

theorem ensure_spec {location : UserLoc} {attr : BitVec 16} (hattr : AttrOk attr)
    (hpresent : attr.getLsbD 0 = true) (heq : s.step (.ensure k location attr) = some s') :
    s'.Good ∧ Effect s s' (.ensure k location attr) := by
  simp only [step, Option.bind_eq_bind, Option.bind_eq_some_iff, Option.pure_def,
    Option.some_inj] at heq
  obtain ⟨dir, hk, memory, hensure, rfl⟩ := heq
  obtain ⟨L', hinv, hdir, _, hmapping, _⟩ :=
    UserDirectory.ensure_spec h hk hattr hpresent hensure
  obtain ⟨hgood, hnew⟩ := good_keep hinv hdir
  exact ⟨hgood, rfl, hnew.trans hmapping⟩

theorem alloc_spec {addr : VirtualAddress} {writable : Bool}
    (hallowed : ∃ place, userPlace addr = some place ∧ s.layout.entry (k, place) = none)
    (heq : s.step (.alloc k addr writable) = some s') :
    s'.Good ∧ Effect s s' (.alloc k addr writable) := by
  simp only [step, Option.bind_eq_bind, Option.bind_eq_some_iff, Option.pure_def,
    Option.some_inj, Prod.exists] at heq
  obtain ⟨dir, hk, frame, memory, halloc, rfl⟩ := heq
  obtain ⟨place, hplace, hnone⟩ := hallowed
  obtain ⟨hloc, hpage⟩ := userPlace_eq hplace
  obtain ⟨L', hinv, hdir, _, hmapping⟩ :=
    UserDirectory.alloc_spec h hk hloc (by rw [hpage]; exact hnone) halloc
  obtain ⟨hgood, hnew⟩ := good_keep hinv hdir
  rw [hpage] at hmapping
  exact ⟨hgood, rfl, place, frame, hplace, hnew.trans hmapping⟩

variable (hbound : Bounded s.dir)
include hbound

theorem handleCOW_spec {addr : VirtualAddress} (huser : userPlace addr ≠ none)
    (heq : s.step (.handleCOW k addr) = some s') :
    s'.Good ∧ Effect s s' (.handleCOW k addr) := by
  simp only [step, Option.bind_eq_bind, Option.bind_eq_some_iff, Option.pure_def,
    Option.some_inj, Prod.exists] at heq
  obtain ⟨dir, hk, owned, memory, hhandle, rfl⟩ := heq
  obtain ⟨place, hplace⟩ := Option.ne_none_iff_exists'.mp huser
  obtain ⟨hloc, hpage⟩ := userPlace_eq hplace
  rcases UserDirectory.handleCOW_spec h hk hloc hbound hhandle with
    ⟨_, rfl, _⟩ | ⟨_, w, w', hentry, _, hcow, hinv, hmapping⟩
  · exact ⟨h, rfl, rfl⟩
  · obtain ⟨hgood, hnew⟩ := good_keep hinv rfl
    exact ⟨hgood, rfl, page_owned hentry hcow (hnew.trans hmapping)⟩

theorem write_spec {addr : VirtualAddress} {offset : Fin 1024} {value mask : BitVec 32}
    (huser : userPlace addr ≠ none) (heq : s.step (.write k addr offset value mask) = some s') :
    s'.Good ∧ Effect s s' (.write k addr offset value mask) := by
  simp only [step, Option.bind_eq_bind, Option.bind_eq_some_iff, Option.pure_def,
    Option.some_inj] at heq
  obtain ⟨dir, hk, memory, hwrite, rfl⟩ := heq
  obtain ⟨place, hplace⟩ := Option.ne_none_iff_exists'.mp huser
  obtain ⟨hloc, hpage⟩ := userPlace_eq hplace
  have hlookup : lookup s.memory dir addr = s.layout.entry (k, place) := by
    simp [lookup, layout, hk, hloc, hpage]
  unfold write at hwrite
  rw [hlookup] at hwrite
  cases hentry : s.layout.entry (k, place) with
  | none =>
      simp only [hentry, Option.some_inj] at hwrite
      subst hwrite
      refine ⟨h, rfl, place, hplace, ?_⟩
      have hnone : s.page (k, place) = none := by simp [page, mapping, Memory.mapping, hentry]
      rw [hnone, Option.map_none, ← hnone, Function.update_eq_self]
  | some w =>
      simp only [hentry] at hwrite
      split at hwrite
      · rename_i hrw
        obtain rfl := Option.some.inj hwrite
        obtain ⟨hgood, hstored⟩ := h.store hentry hrw offset value mask
        exact ⟨hgood, rfl, place, hplace, hstored⟩
      · rename_i hrw
        simp only [Option.bind_eq_bind, Option.bind_eq_some_iff, Prod.exists] at hwrite
        obtain ⟨owned, m₁, hhandle, hwrite⟩ := hwrite
        rcases UserDirectory.handleCOW_spec h hk hloc hbound hhandle with
          ⟨rfl, rfl, hno⟩ | ⟨rfl, w₀, w', hentry₀, hrw', hcow, hinv, hmapping⟩
        · obtain rfl : s.memory = memory := by simpa using hwrite
          refine ⟨h, rfl, place, hplace, ?_⟩
          rw [hpage] at hno
          have hreadonly : (s.memory.userPage w).writable = false := by
            simp [Memory.userPage, hrw, hno w hentry]
          have hsame : (s.page (k, place)).map (fun page => if page.writable then
              { page with content := page.content.store offset value mask } else page) =
              s.page (k, place) := by
            simp [page_eq hentry, hreadonly]
          rw [hsame, Function.update_eq_self]
        · rw [hpage] at hentry₀ hinv hmapping
          obtain ⟨hgood₁, hmapping₁⟩ := good_keep hinv rfl
          have hpage₁ := page_owned hentry₀ hcow (hmapping₁.trans hmapping)
          have hentry₁ : ({ s with memory := m₁ } : System).layout.entry (k, place) = some w' := by
            rw [layout_keep hinv rfl]
            exact Function.update_self ..
          have hlookup₁ : lookup m₁ dir addr = some w' := by
            rw [← hentry₁]
            simp [lookup, layout, show ({ s with memory := m₁ } : System).dir k = some dir from hk,
              hloc, hpage]
          obtain rfl : store m₁ w' offset value mask = memory := by
            simpa [hlookup₁] using hwrite
          obtain ⟨hgood, hstored⟩ := hgood₁.store hentry₁ hrw' offset value mask
          rw [hpage₁] at hstored
          exact ⟨hgood, rfl, place, hplace, hstored⟩

theorem freePage_spec {addr : VirtualAddress} (huser : userPlace addr ≠ none)
    (heq : s.step (.freePage k addr) = some s') :
    s'.Good ∧ Effect s s' (.freePage k addr) := by
  simp only [step, Option.bind_eq_bind, Option.bind_eq_some_iff, Option.pure_def,
    Option.some_inj] at heq
  obtain ⟨dir, hk, rfl⟩ := heq
  obtain ⟨place, hplace⟩ := Option.ne_none_iff_exists'.mp huser
  obtain ⟨hloc, hpage⟩ := userPlace_eq hplace
  obtain ⟨hinv, hmapping⟩ := UserDirectory.freePage_spec h hbound hk hloc
  rw [hpage] at hinv hmapping
  obtain ⟨hgood, hnew⟩ := good_keep hinv rfl
  exact ⟨hgood, rfl, place, hplace, hnew.trans hmapping⟩

theorem freePageTables_spec (heq : s.step (.freePageTables k) = some s') :
    s'.Good ∧ Effect s s' (.freePageTables k) := by
  simp only [step, Option.bind_eq_bind, Option.bind_eq_some_iff, Option.pure_def,
    Option.some_inj] at heq
  obtain ⟨dir, hk, rfl⟩ := heq
  obtain ⟨hinv, hmapping⟩ := UserDirectory.freePageTables_spec h hbound hk
  obtain ⟨hgood, hnew⟩ := good_keep hinv rfl
  exact ⟨hgood, rfl, hnew.trans hmapping⟩

theorem release_spec (hnone : ∀ i, s.layout.table (k, i) = none)
    (heq : s.step (.release k) = some s') : s'.Good ∧ Effect s s' (.release k) := by
  simp only [step, Option.bind_eq_bind, Option.bind_eq_some_iff, Option.pure_def,
    Option.some_inj] at heq
  obtain ⟨dir, hk, rfl⟩ := heq
  have hinv := Inv.dropDir h (h.few hbound) hk hnone
  obtain ⟨hgood, hnew⟩ := good_of
    (s := { s with memory := s.memory.physicalFrameRelease dir, spaces := s.spaces.set k none })
    hinv (dir_set rfl).symm
  exact ⟨hgood, rfl, hnew⟩

end Step

/-- Every allowed action keeps the invariant and does what it should. -/
theorem step_spec (h : s.Good) {limit : Nat} (hlimit : limit ≤ PhysicalFrames.maxRef)
    (hlive : s.live.length ≤ limit) {a : Action} (hallowed : s.Allowed limit a)
    (heq : s.step a = some s') : s'.Good ∧ Effect s s' a := by
  have hbound := bounded_of_live (hlive.trans hlimit)
  cases a with
  | fork => exact fork_spec h heq
  | forkCOW => exact forkCOW_spec h heq
  | ensure => exact ensure_spec h hallowed.1 hallowed.2 heq
  | alloc => exact alloc_spec h hallowed heq
  | handleCOW => exact handleCOW_spec h hbound hallowed heq
  | write => exact write_spec h hbound hallowed heq
  | freePage => exact freePage_spec h hbound hallowed heq
  | freePageTables => exact freePageTables_spec h hbound heq
  | release => exact release_spec h hbound hallowed heq

end System

end Nyan.Paging
