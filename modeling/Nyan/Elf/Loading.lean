import Nyan.Elf.File
import Nyan.Paging.FrameSupply
import Nyan.Task.PageFill

/-!
What the loader has done after some of its accesses. As long as the pages it maps are
in user space, it changes nothing but the new directory, its tables and the frames it
takes: the memory below the pool of frames, with the kernel and its page tables, stays
as it is, and so do the pages of all other spaces. It stops early only if the frames
run out, and `framesFor` counts how many it takes.
-/

namespace Nyan.Elf

open Paging Paging.RangeManager Nyan.Task Allocator

def Access.page? : Access → Option VirtualAddress
  | .map _ page => some page
  | _ => none

/-- The pages that accesses map, in order. -/
def pagesOf (done : List Access) : List VirtualAddress := done.filterMap Access.page?

/-- The directory slots that get a table of their own for some pages. -/
def tablesOf (pages : List VirtualAddress) : List (Fin 1024) :=
  ((pages.map tableLoc).filter fun loc => loc.val < 768).dedup

/-- The frames that the loader takes for pages and tables. -/
def framesFor (pages : List VirtualAddress) : Nat := pages.length + (tablesOf pages).length

@[simp] theorem pagesOf_nil : pagesOf [] = [] := rfl

@[simp] theorem pagesOf_append (first second : List Access) :
    pagesOf (first ++ second) = pagesOf first ++ pagesOf second :=
  List.filterMap_append ..

@[simp] theorem pagesOf_read (offset : BitVec 32) (count : Nat) (rest : List Access) :
    pagesOf (.read offset count :: rest) = pagesOf rest := rfl

@[simp] theorem pagesOf_map (h : ProgramHeader) (page : VirtualAddress) (rest : List Access) :
    pagesOf (.map h page :: rest) = page :: pagesOf rest := rfl

@[simp] theorem pagesOf_insert (h : ProgramHeader) (rest : List Access) :
    pagesOf (.insert h :: rest) = pagesOf rest := rfl

theorem mem_tablesOf {pages : List VirtualAddress} {loc : Fin 1024} :
    loc ∈ tablesOf pages ↔ loc.val < 768 ∧ ∃ page ∈ pages, tableLoc page = loc := by
  simp only [tablesOf, List.mem_dedup, List.mem_filter, List.mem_map, decide_eq_true_eq]
  tauto

/-- One page more takes a frame, and another one if its table is not there yet. -/
theorem framesFor_concat (pages : List VirtualAddress) (page : VirtualAddress) :
    framesFor (pages ++ [page]) = framesFor pages +
      if (tableLoc page).val < 768 ∧ tableLoc page ∉ tablesOf pages then 2 else 1 := by
  have hlength : ∀ first second : List (Fin 1024), first.Nodup → second.Nodup →
      (∀ loc, loc ∈ first ↔ loc ∈ second) → first.length = second.length := by
    intro first second hfirst hsecond hsame
    exact ((List.perm_ext_iff_of_nodup hfirst hsecond).mpr hsame).length_eq
  have hnodup : ∀ pages, (tablesOf pages).Nodup := fun pages => List.nodup_dedup _
  have hmem : ∀ loc, loc ∈ tablesOf (pages ++ [page]) ↔
      loc ∈ tablesOf pages ∨ loc.val < 768 ∧ loc = tableLoc page := by
    intro loc
    simp only [mem_tablesOf, List.mem_append, List.mem_singleton]
    constructor
    · rintro ⟨hlt, other, hother | rfl, rfl⟩
      · exact Or.inl ⟨hlt, other, hother, rfl⟩
      · exact Or.inr ⟨hlt, rfl⟩
    · rintro (⟨hlt, other, hother, rfl⟩ | ⟨hlt, rfl⟩)
      · exact ⟨hlt, other, Or.inl hother, rfl⟩
      · exact ⟨hlt, page, Or.inr rfl, rfl⟩
  unfold framesFor
  rw [List.length_append, List.length_singleton]
  split
  · rename_i hnew
    have hcons : (tablesOf (pages ++ [page])).length =
        (tableLoc page :: tablesOf pages).length := by
      refine hlength _ _ (hnodup _) (List.nodup_cons.mpr ⟨hnew.2, hnodup _⟩) fun loc => ?_
      rw [hmem, List.mem_cons]
      constructor
      · rintro (hold | ⟨_, heq⟩)
        · exact Or.inr hold
        · exact Or.inl heq
      · rintro (rfl | hold)
        · exact Or.inr ⟨hnew.1, rfl⟩
        · exact Or.inl hold
    rw [hcons, List.length_cons]
    omega
  · rename_i hold
    have hsame : (tablesOf (pages ++ [page])).length = (tablesOf pages).length := by
      refine hlength _ _ (hnodup _) (hnodup _) fun loc => ?_
      rw [hmem]
      constructor
      · rintro (hmem | ⟨hlt, rfl⟩)
        · exact hmem
        · by_contra hnot
          exact hold ⟨hlt, hnot⟩
      · exact Or.inl
    rw [hsame]
    omega

section Page

variable {file : Bytes} {h : ProgramHeader} {k : Nat} {s s' : Paging.System} {page : VirtualAddress}

/-- The page that the loader makes. -/
def loadedPage (file : Bytes) (h : ProgramHeader) (page : VirtualAddress) : UserPage where
  content := h.pageAt file page
  writable := h.flags &&& PHF_Writable ≠ 0#32

theorem loadPage_eq (heq : loadPage file h k s page = some s') :
    ∃ dir frame memory, s.dir k = some dir ∧
      UserDirectory.alloc s.memory dir page (h.flags &&& PHF_Writable ≠ 0#32) =
        some (frame, memory) ∧
      s' = { s with memory := memory.setPage frame (h.pageAt file page) } := by
  simp only [loadPage, Option.bind_eq_bind, Option.bind_eq_some_iff, Option.pure_def,
    Option.some_inj, Prod.exists] at heq
  obtain ⟨dir, hk, frame, memory, halloc, rfl⟩ := heq
  exact ⟨dir, frame, memory, hk, halloc, rfl⟩

/-- A page is loaded over whatever is there, into a frame that was free. -/
theorem loadPage_safe (hsafe : s.Safe) {place : UserLoc × Fin 1024}
    (hplace : userPlace page = some place) (heq : loadPage file h k s page = some s') :
    s'.Safe ∧ s'.spaces = s.spaces ∧ ∃ frame,
      s'.mapping = Function.update s.mapping (k, place) (some (frame, loadedPage file h page)) := by
  obtain ⟨dir, frame, memory, hk, halloc, rfl⟩ := loadPage_eq heq
  obtain ⟨hsafe', hmapping⟩ := hsafe.allocFilled hplace hk halloc (h.pageAt file page)
  exact ⟨hsafe', rfl, frame, hmapping⟩

/-- What a loaded page costs, and what it leaves alone. -/
theorem loadPage_spares (hsafe : s.Safe) {place : UserLoc × Fin 1024} {dir : PhysicalAddress}
    (hk : s.dir k = some dir) (hplace : userPlace page = some place)
    (heq : loadPage file h k s page = some s') :
    UserDirectory.Spares dir (tableLoc page) s.memory s'.memory ∧
      UserDirectory.free s.memory =
        UserDirectory.free s'.memory + allocCost s.memory dir page := by
  obtain ⟨dir', frame, memory, hk', halloc, rfl⟩ := loadPage_eq heq
  obtain rfl : dir = dir' := Option.some.inj (hk.symm.trans hk')
  obtain ⟨hloc, _⟩ := Paging.System.userPlace_eq hplace
  have hspares := UserDirectory.alloc_spares hsafe hk hloc halloc
  obtain ⟨_, _, _, hfree, _⟩ := UserDirectory.alloc_guarded hsafe hk hloc halloc
  have hpool := PhysicalFrames.pool_of_free hfree
  have hne : dir ≠ frame := by
    rintro rfl
    have hheld : s.layout.slots (.directory k) = some dir := hk
    exact hsafe.covers.not_free hheld hfree
  have hcount := UserDirectory.alloc_count halloc
  rw [hloc]
  refine ⟨⟨fun other hother => ?_, fun other hother => ?_, ?_⟩, hcount⟩
  · have hother' : other ≠ frame := by
      rintro rfl
      omega
    rw [Memory.setPage_of_ne hother']
    exact hspares.kernel other hother
  · rw [Memory.setPage_of_ne hne]
    exact hspares.others other hother
  · rw [Memory.setPage_of_ne hne]
    exact hspares.present

variable (file h) in
theorem loadPage_affordable {dir : PhysicalAddress} (hk : s.dir k = some dir)
    (hcost : allocCost s.memory dir page ≤ UserDirectory.free s.memory) :
    ∃ s', loadPage file h k s page = some s' := by
  obtain ⟨frame, memory, halloc⟩ :=
    UserDirectory.alloc_affordable page (h.flags &&& PHF_Writable ≠ 0#32) hcost
  refine ⟨{ s with memory := memory.setPage frame (h.pageAt file page) }, ?_⟩
  simp only [loadPage, hk, halloc, Option.bind_eq_bind, Option.bind_some, Option.pure_def]

end Page

/-- What holds after the accesses `done`, if the pages among them are in user space. -/
structure Underway (s : Paging.System) (file : Bytes) (done : List Access) (image : Image) : Prop where
  safe : image.system.Safe
  directory : ∃ dir, image.system.spaces = s.spaces ++ [some dir] ∧
    (∀ loc : Fin 1024, 768 ≤ loc.val → image.system.memory.page dir loc = s.kernel loc) ∧
    ∀ loc : Fin 1024, loc.val < 768 →
      (isPresent (image.system.memory.page dir loc) = true ↔ loc ∈ tablesOf (pagesOf done))
  below : ∀ frame : PhysicalAddress, frame.toNat < 0x800000 →
    image.system.memory.page frame = s.memory.page frame
  count : UserDirectory.free s.memory =
    UserDirectory.free image.system.memory + 1 + framesFor (pagesOf done)
  others : ∀ q : Spot, q.1 ≠ s.spaces.length → image.system.mapping q = s.mapping q
  absent : ∀ place, (∀ page ∈ pagesOf done, userPlace page ≠ some place) →
    image.system.mapping (s.spaces.length, place) = none
  loaded : ∀ before h page after place, done = before ++ .map h page :: after →
    userPlace page = some place → (∀ other ∈ pagesOf after, userPlace other ≠ some place) →
    ∃ frame, image.system.mapping (s.spaces.length, place) =
      some (frame, loadedPage file h page)
  ends : ∃ interior, image.vmSpace =
    RangeEntry.make 0#32 VMSpace.Base :: interior ++ [RangeEntry.make VMSpace.Top 0xFFFFF000#32]
  begins : ∀ vma ∈ image.vmSpace, vma.beginAddr ≤ 0xFFFFF000#32

namespace Underway

variable {s : Paging.System} {file : Bytes} {done : List Access} {image image' : Image}

theorem dir_eq (h : Underway s file done image) :
    ∃ dir, image.system.dir s.spaces.length = some dir ∧
      (∀ loc : Fin 1024, 768 ≤ loc.val → image.system.memory.page dir loc = s.kernel loc) ∧
      ∀ loc : Fin 1024, loc.val < 768 →
        (isPresent (image.system.memory.page dir loc) = true ↔
          loc ∈ tablesOf (pagesOf done)) := by
  obtain ⟨dir, hspaces, hupper, htables⟩ := h.directory
  refine ⟨dir, ?_, hupper, htables⟩
  rw [Paging.System.dir_append hspaces, Function.update_self]

/-- What the next page costs, as far as it is in user space. -/
theorem cost_eq (h : Underway s file done image) {page : VirtualAddress} {dir : PhysicalAddress}
    (hdir : image.system.dir s.spaces.length = some dir) (huser : (tableLoc page).val < 768) :
    framesFor (pagesOf done ++ [page]) =
      framesFor (pagesOf done) + allocCost image.system.memory dir page := by
  obtain ⟨dir', hdir', _, htables⟩ := h.dir_eq
  obtain rfl : dir = dir' := Option.some.inj (hdir.symm.trans hdir')
  rw [framesFor_concat, allocCost]
  by_cases hold : tableLoc page ∈ tablesOf (pagesOf done)
  · rw [if_pos ((htables _ huser).mpr hold), if_neg (by tauto)]
  · rw [if_neg (mt (htables _ huser).mp hold), if_pos ⟨huser, hold⟩]

/-- The last access of a list with one more. -/
theorem split_concat {before after : List Access} {a b : Access}
    (h : done ++ [a] = before ++ b :: after) :
    (after = [] ∧ done = before ∧ a = b) ∨
      ∃ front, after = front ++ [a] ∧ done = before ++ b :: front := by
  rcases List.eq_nil_or_concat after with rfl | ⟨front, last, rfl⟩
  · obtain ⟨hdone, heq⟩ := List.append_inj' h rfl
    exact Or.inl ⟨rfl, hdone, (List.cons.inj heq).1⟩
  · have h' : done ++ [a] = (before ++ b :: front) ++ [last] := by simpa using h
    obtain ⟨hdone, heq⟩ := List.append_inj' h' rfl
    exact Or.inr ⟨front, by rw [(List.cons.inj heq).1]; simp, hdone⟩

/-- An access that maps no page. -/
theorem quiet (h : Underway s file done image) {a : Access} (hnone : a.page? = none)
    (hsystem : image'.system = image.system)
    (hends : ∃ interior, image'.vmSpace = RangeEntry.make 0#32 VMSpace.Base :: interior ++
      [RangeEntry.make VMSpace.Top 0xFFFFF000#32])
    (hbegins : ∀ vma ∈ image'.vmSpace, vma.beginAddr ≤ 0xFFFFF000#32) :
    Underway s file (done ++ [a]) image' := by
  have hpages : pagesOf (done ++ [a]) = pagesOf done := by simp [pagesOf, hnone]
  obtain ⟨hsafe, hdirectory, hbelow, hcount, hothers, habsent, hloaded, _, _⟩ := h
  refine ⟨?_, ?_, ?_, ?_, ?_, ?_, ?_, hends, hbegins⟩
  all_goals simp only [hsystem, hpages]
  · exact hsafe
  · exact hdirectory
  · exact hbelow
  · exact hcount
  · exact hothers
  · exact habsent
  · intro before hd page after place hdone hplace hlast
    rcases split_concat hdone with ⟨_, _, rfl⟩ | ⟨front, rfl, hfront⟩
    · cases hnone
    · exact hloaded before hd page front place hfront hplace fun other hother =>
        hlast other (by simp [hother])

/-- A page of user space more. -/
theorem page (h : Underway s file done image) {hd : ProgramHeader} {page : VirtualAddress}
    {place : UserLoc × Fin 1024} {system : Paging.System} (hplace : userPlace page = some place)
    (heq : loadPage file hd s.spaces.length image.system page = some system) :
    Underway s file (done ++ [.map hd page]) { image with system } := by
  obtain ⟨hsafe, hspaces, frame, hmapping⟩ := loadPage_safe h.safe hplace heq
  obtain ⟨dir, hnew, hupper, htables⟩ := h.directory
  have hdir : image.system.dir s.spaces.length = some dir := by
    rw [Paging.System.dir_append hnew, Function.update_self]
  obtain ⟨hspares, hcount⟩ := loadPage_spares h.safe hdir hplace heq
  have huser : (tableLoc page).val < 768 := by
    rw [(Paging.System.userPlace_eq hplace).1]
    exact place.1.isLt
  have hcost := h.cost_eq hdir huser
  have hpages : pagesOf (done ++ [.map hd page]) = pagesOf done ++ [page] := by simp
  have hkept : ∀ q, q ≠ (s.spaces.length, place) →
      system.mapping q = image.system.mapping q := fun q hq => by
    rw [hmapping, Function.update_of_ne hq]
  refine ⟨hsafe, ⟨dir, hspaces.trans hnew, fun loc hloc => ?_, fun loc hloc => ?_⟩,
    fun other hother => ?_, ?_, fun q hq => ?_, fun other hother => ?_, ?_, h.ends,
    h.begins⟩
  · rw [hspares.others loc fun heq => by omega]
    exact hupper loc hloc
  · rw [hpages, mem_tablesOf]
    by_cases hsame : loc = tableLoc page
    · subst hsame
      exact iff_of_true hspares.present ⟨huser, page, by simp, rfl⟩
    · rw [hspares.others loc hsame, htables loc hloc, mem_tablesOf]
      simp [Ne.symm hsame]
  · exact (hspares.kernel other hother).trans (h.below other hother)
  · rw [hpages, hcost, h.count, hcount]
    dsimp only
    omega
  · rw [hkept q (by rintro rfl; exact hq rfl)]
    exact h.others q hq
  · rw [hpages] at hother
    have hne : other ≠ place := by
      rintro rfl
      exact hother page (by simp) hplace
    rw [hkept _ (by simpa using hne)]
    exact h.absent other fun page' hpage' => hother page' (by simp [hpage'])
  · intro before hd' page' after place' hdone hplace' hlast
    rcases split_concat hdone with ⟨rfl, rfl, heq⟩ | ⟨front, rfl, hfront⟩
    · obtain ⟨rfl, rfl⟩ := Access.map.inj heq
      obtain rfl : place = place' := Option.some.inj (hplace.symm.trans hplace')
      exact ⟨frame, by rw [hmapping, Function.update_self]⟩
    · have hne : place' ≠ place := by
        rintro rfl
        exact hlast page (by simp) hplace
      rw [hkept _ (by simpa using hne)]
      exact h.loaded before hd' page' front place' hfront hplace' fun other hother =>
        hlast other (by simp [hother])

/-- An access whose page, if it maps one, is in user space. -/
theorem step (h : Underway s file done image) {a : Access}
    (huser : ∀ page ∈ a.page?, userPlace page ≠ none)
    (heq : perform file s.spaces.length image a = some image') :
    Underway s file (done ++ [a]) image' := by
  cases a with
  | read offset count =>
      obtain rfl := Option.some.inj heq
      exact h.quiet rfl rfl h.ends h.begins
  | map hd page =>
      obtain ⟨system, hload, rfl⟩ := Option.map_eq_some_iff.mp heq
      obtain ⟨place, hplace⟩ := Option.ne_none_iff_exists'.mp (huser page rfl)
      exact h.page hplace hload
  | insert hd =>
      simp only [perform, Option.bind_eq_bind, Option.bind_eq_some_iff, Option.pure_def,
        Prod.exists] at heq
      obtain ⟨ok, vmSpace, hinsert, heq⟩ := heq
      obtain rfl := Option.some.inj heq
      refine h.quiet rfl rfl (insert_sentinels h.ends hinsert) fun vma hvma => ?_
      rcases (mem_of_insert hinsert vma).mp hvma with hold | ⟨_, rfl⟩
      · exact h.begins vma hold
      · exact lowerPage_le hd

/-- A new space, with no page and no area. -/
theorem start (hgood : s.Good) (hlive : s.live.length < PhysicalFrames.maxRef)
    (heq : Elf.start s = some image) : Underway s file [] image := by
  obtain ⟨system, hfork, rfl⟩ := Option.map_eq_some_iff.mp heq
  obtain ⟨hgood', ⟨dir, hspaces⟩, hmapping⟩ := Paging.System.fork_spec hgood hfork
  have hbound : Bounded system.dir := by
    refine Paging.System.bounded_of_live ?_
    rw [Paging.System.live_append hspaces]
    exact hlive
  simp only [Paging.System.step, UserDirectory.fork, Option.bind_eq_bind, Option.bind_eq_some_iff,
    Option.pure_def, Option.some_inj, Prod.exists, Prod.mk.injEq] at hfork
  obtain ⟨_, _, ⟨addr, m₁, halloc, rfl, rfl⟩, rfl⟩ := hfork
  obtain rfl : addr = dir := by simpa using hspaces
  obtain ⟨frames, hframes, rfl⟩ := Memory.physicalFrameAlloc_eq halloc
  have hpool := PhysicalFrames.pool_of_free (PhysicalFrames.alloc_free hframes).1
  have hbegins : ∀ vma ∈ VMSpace.init, vma.beginAddr ≤ 0xFFFFF000#32 := by decide
  refine ⟨hgood'.safe hbound, ⟨addr, rfl, fun loc hloc => ?_, fun loc hloc => ?_⟩,
    fun other hother => ?_, ?_, fun q _ => congrFun hmapping q, fun place _ => ?_, ?_, ⟨[], rfl⟩,
    hbegins⟩
  · simp only [Memory.setPage_self, UserDirectory.emptyDirectory]
    rw [if_neg (by omega)]
  · simp only [Memory.setPage_self, UserDirectory.emptyDirectory]
    rw [if_pos hloc]
    simp [isPresent, tablesOf]
  · have hne : other ≠ addr := by
      rintro rfl
      omega
    dsimp only
    rw [Memory.setPage_of_ne hne]
  · have hcount := UserDirectory.physicalFrameAlloc_count halloc
    have hnone : framesFor (pagesOf []) = 0 := rfl
    rw [hnone]
    exact hcount
  · have hnone : s.mapping (s.spaces.length, place) = none := by
      simp [Paging.System.mapping, Memory.mapping, Paging.System.layout, s.dir_length]
    exact (congrFun hmapping _).trans hnone
  · intro before hd page after place hdone
    simp at hdone

/-- What the next page costs. The kernel has a table in each of its slots. -/
theorem next_cost (h : Underway s file done image) {page : VirtualAddress}
    {dir : PhysicalAddress}
    (hkernel : (tableLoc page).val < 768 ∨ isPresent (s.kernel (tableLoc page)) = true)
    (hdir : image.system.dir s.spaces.length = some dir) :
    framesFor (pagesOf done ++ [page]) =
      framesFor (pagesOf done) + allocCost image.system.memory dir page := by
  by_cases huser : (tableLoc page).val < 768
  · exact h.cost_eq hdir huser
  · obtain ⟨dir', hdir', hupper, _⟩ := h.dir_eq
    obtain rfl : dir = dir' := Option.some.inj (hdir.symm.trans hdir')
    have hpresent : isPresent (image.system.memory.page dir (tableLoc page)) = true := by
      rw [hupper _ (by omega)]
      exact hkernel.resolve_left huser
    rw [framesFor_concat, allocCost, if_pos hpresent, if_neg (by tauto)]

/-- With enough frames the next access is done. -/
theorem affordable (h : Underway s file done image) {a : Access}
    (hkernel : ∀ page ∈ a.page?,
      (tableLoc page).val < 768 ∨ isPresent (s.kernel (tableLoc page)) = true)
    (hends : ∀ hd, a = .insert hd → hd.lowerPage ≠ 0xFFFFF000#32)
    (hfree : framesFor (pagesOf (done ++ [a])) < UserDirectory.free s.memory) :
    ∃ image', perform file s.spaces.length image a = some image' := by
  cases a with
  | read offset count => exact ⟨image, rfl⟩
  | map hd page =>
      obtain ⟨dir, hdir, _⟩ := h.dir_eq
      rw [pagesOf_append, pagesOf_map, pagesOf_nil, h.next_cost (hkernel page rfl) hdir, h.count] at hfree
      have hleft : allocCost image.system.memory dir page ≤
          UserDirectory.free image.system.memory := by omega
      obtain ⟨system, hload⟩ := loadPage_affordable file hd hdir hleft
      exact ⟨{ image with system }, by simp [perform, hload]⟩
  | insert hd =>
      have hbelow : RangeEntry.beginAddr hd.area < 0xFFFFF000#32 := by
        have hle := BitVec.le_def.mp (lowerPage_le hd)
        have hne : hd.lowerPage.toNat ≠ (0xFFFFF000#32).toNat := fun heq =>
          hends hd rfl (BitVec.eq_of_toNat_eq heq)
        change hd.lowerPage < _
        rw [BitVec.lt_def]
        omega
      obtain ⟨⟨ok, vmSpace⟩, hinsert⟩ := insert_defined_of_ends h.ends hd.area hbelow
      exact ⟨_, by simp only [perform, hinsert, Option.bind_eq_bind, Option.bind_some]; rfl⟩

/-- What has been done was affordable, and did not read past the areas. -/
theorem performed (h : Underway s file done image) {a : Access}
    (hkernel : ∀ page ∈ a.page?,
      (tableLoc page).val < 768 ∨ isPresent (s.kernel (tableLoc page)) = true)
    (heq : perform file s.spaces.length image a = some image') :
    framesFor (pagesOf (done ++ [a])) < UserDirectory.free s.memory ∧
      ∀ hd, a = .insert hd → hd.lowerPage ≠ 0xFFFFF000#32 := by
  have hcount := h.count
  cases a with
  | read offset count =>
      refine ⟨?_, nofun⟩
      rw [pagesOf_append, pagesOf_read, pagesOf_nil, List.append_nil]
      omega
  | map hd page =>
      refine ⟨?_, nofun⟩
      obtain ⟨system, hload, rfl⟩ := Option.map_eq_some_iff.mp heq
      obtain ⟨dir, frame, memory, hdir, halloc, rfl⟩ := loadPage_eq hload
      have hcost := UserDirectory.alloc_count halloc
      rw [pagesOf_append, pagesOf_map, pagesOf_nil, h.next_cost (hkernel page rfl) hdir]
      omega
  | insert hd =>
      constructor
      · rw [pagesOf_append, pagesOf_insert, pagesOf_nil, List.append_nil]
        omega
      · rintro _ ⟨⟩ hlast
        have hpast : RangeManager.insert image.vmSpace hd.area = none :=
          insert_past h.ends h.begins hlast
        simp [perform, hpast] at heq

end Underway

/-- The loader gets as far as to have done some accesses. -/
def Reaches (s : Paging.System) (file : Bytes) (done : List Access) (image : Image) : Prop :=
  ∃ first, start s = some first ∧
    done.foldlM (perform file s.spaces.length) first = some image

theorem Reaches.snoc {s : Paging.System} {file : Bytes} {done : List Access} {image image' : Image}
    {a : Access} (h : Reaches s file done image)
    (heq : perform file s.spaces.length image a = some image') :
    Reaches s file (done ++ [a]) image' := by
  obtain ⟨first, hstart, hrun⟩ := h
  refine ⟨first, hstart, ?_⟩
  rw [performAll_append, hrun]
  simpa using heq

theorem Reaches.last {s : Paging.System} {file : Bytes} {done : List Access} {image' : Image}
    {a : Access} (h : Reaches s file (done ++ [a]) image') :
    ∃ image, Reaches s file done image ∧
      perform file s.spaces.length image a = some image' := by
  obtain ⟨first, hstart, hrun⟩ := h
  rw [performAll_append, Option.bind_eq_some_iff] at hrun
  obtain ⟨image, hdone, hlast⟩ := hrun
  exact ⟨image, ⟨first, hstart, hdone⟩, by simpa using hlast⟩

/-- In every run that maps only pages of user space. -/
theorem Reaches.underway {s : Paging.System} {file : Bytes} {done : List Access} {image : Image}
    (hgood : s.Good) (hlive : s.live.length < PhysicalFrames.maxRef)
    (huser : ∀ page ∈ pagesOf done, userPlace page ≠ none) (h : Reaches s file done image) :
    Underway s file done image := by
  induction done using List.reverseRecOn generalizing image with
  | nil =>
      obtain ⟨first, hstart, hrun⟩ := h
      obtain rfl : first = image := by simpa using hrun
      exact Underway.start hgood hlive hstart
  | append_singleton done a ih =>
      obtain ⟨before, hbefore, heq⟩ := h.last
      refine (ih (fun page hpage => huser page (by simp [hpage])) hbefore).step ?_ heq
      intro page hpage
      refine huser page ?_
      rw [pagesOf_append]
      exact List.mem_append_right _ (by simp [pagesOf, Option.mem_def.mp hpage])

end Nyan.Elf
