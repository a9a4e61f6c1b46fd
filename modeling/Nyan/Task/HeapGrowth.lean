import Nyan.Task.ImageAgreement
import Nyan.Task.PageFill
import Nyan.Task.ProcessImage

/-!
What `brk` does to memory that is not the heap's. The pages are allocated before the
areas are looked at, each over whatever is there; then the area of the heap is
inserted or extended, and the result of `insert` is not looked at. A break that has
moved is good news only if nothing was in the way, and a break that has not moved has
cost nothing only if no page was wanted.
-/

namespace Nyan.Task

open Paging Paging.RangeManager Library Allocator

theorem pte_eq_none {s : Paging.System} {k : Nat} {page : VirtualAddress} {place : UserLoc × Fin 1024}
    (hplace : userPlace page = some place) :
    pte s k page = none ↔ s.mapping (k, place) = none := by
  rw [pte_eq hplace, Paging.System.mapping, Memory.mapping, Option.map_eq_none_iff]

section Space

variable {space : VMSpace}

theorem findName_some {name : String} {i : Nat} (h : space.findName name = some i) :
    ∃ vma, space[i]? = some vma ∧ vma.name = name := by
  obtain ⟨hi', hname, _⟩ := List.findIdx?_eq_some_iff_getElem.mp h
  exact ⟨space[i], List.getElem?_eq_getElem hi', by simpa using hname⟩

theorem findName_none {name : String} (h : space.findName name = none) :
    ∀ vma ∈ space, vma.name ≠ name := by
  simpa using List.findIdx?_eq_none_iff.mp h

/-- The first area of a name stays the first when it is changed. -/
theorem findName_set {name : String} {i : Nat} {vma : VMA} (h : space.findName name = some i)
    (hname : vma.name = name) : VMSpace.findName (space.set i vma) name = some i := by
  obtain ⟨hi', _, hfirst⟩ := List.findIdx?_eq_some_iff_getElem.mp h
  refine List.findIdx?_eq_some_iff_getElem.mpr ⟨by simpa using hi', by simp [hname], ?_⟩
  intro j hj
  rw [List.getElem_set_ne (by omega)]
  exact hfirst j hj

/-- Only the last sentinel has addresses from `Top` on. -/
theorem lt_top_of_named (hordered : Interval.Ordered lo hi space)
    (hlast : space.getLast? = some (RangeEntry.make VMSpace.Top 0xFFFFF000#32)) {vma : VMA}
    (hvma : vma ∈ space) (hname : vma.name ≠ "") : hi vma ≤ VMSpace.Top.toNat := by
  obtain ⟨front, rfl⟩ := List.getLast?_eq_some_iff.mp hlast
  rcases List.mem_append.mp hvma with hfront | hend
  · have hle := (Interval.ordered_append.mp hordered).2.2 vma hfront _ (List.mem_singleton_self _)
    simpa [lo] using hle
  · rw [List.mem_singleton.mp hend] at hname
    exact absurd rfl hname

/-- An area is extended up to the next one. -/
theorem extend_ordered (hordered : Interval.Ordered lo hi space) {i : Nat} {vma : VMA}
    {upper : VirtualAddress} (hvma : space[i]? = some vma) (hproper : lo vma ≤ upper.toNat)
    (hnext : ∀ next, space[i + 1]? = some next → upper ≤ next.beginAddr) :
    Interval.Ordered lo hi (space.set i { vma with endAddr := upper }) := by
  refine hordered.set hproper ?_ ?_
  · intro j a hj ha
    have hlo : lo { vma with endAddr := upper } = lo vma := by
      simp only [lo, RangeEntry.beginAddr]
    rw [hlo]
    exact hordered.le_of_lt hj ha hvma
  · intro j b hj hb
    have hlen : i + 1 < space.length := by
      have hlt := (List.getElem?_eq_some_iff.mp hb).1
      omega
    have hget := List.getElem?_eq_getElem hlen
    have hfirst := BitVec.le_def.mp (hnext _ hget)
    rcases Nat.lt_or_eq_of_le (Nat.succ_le_of_lt hj) with hlt | rfl
    · have hafter := hordered.le_of_lt hlt hget hb
      have hproper := hordered.proper _ (List.getElem_mem hlen)
      exact hfirst.trans (hproper.trans hafter)
    · exact BitVec.le_def.mp (hnext b hb)

end Space

/-- The area that `brk` takes for the heap. -/
def InHeap (space : VMSpace) (page : VirtualAddress) : Prop :=
  ∃ i vma, space.findName "brk" = some i ∧ space[i]? = some vma ∧
    lo vma ≤ page.toNat ∧ page.toNat < hi vma

/-- A page of the heap that is present. -/
def HeapMapped (m : Machine) (k : Nat) (process : Process) (page : VirtualAddress) : Prop :=
  InHeap process.vmSpace page ∧ pte m.system k page ≠ none

/-- A page that is present and has only zeros. -/
def ZeroPage (s : Paging.System) (k : Nat) (page : VirtualAddress) : Prop :=
  ∃ place frame writable, userPlace page = some place ∧
    s.mapping (k, place) = some (frame, zeroPage writable)

/-- The heap has grown to `addr` and nothing else has changed: a page of the new
addresses that was not the heap's was absent and is now a page of zeros in the area of
the heap, that area is apart from the others and below `Top`, and every page that was
present is what it was. -/
structure HeapGrown (m m' : Machine) (k : Nat) (process process' : Process)
    (addr : VirtualAddress) : Prop where
  pages : ∀ page, PageAligned page → process.brkAddr.toNat < page.toNat + 4096 →
    page.toNat < addr.toNat → ¬ HeapMapped m k process page →
      pte m.system k page = none ∧ ZeroPage m'.system k page ∧ InHeap process'.vmSpace page
  apart : ∀ i vma x, process'.vmSpace.findName "brk" = some i → process'.vmSpace[i]? = some vma →
    lo vma ≤ x → x < hi vma → x < VMSpace.Top.toNat ∧
      ∀ j other, j ≠ i → process'.vmSpace[j]? = some other → ¬ (lo other ≤ x ∧ x < hi other)
  kept : ∀ q frame page, m.system.mapping q = some (frame, page) →
    m'.system.mapping q = some (frame, page)

/-- There is room for the heap: the address is not above `Top`, the pages to be
allocated are absent, and an area of the heap begins at or below the page of the old
break and has that page if the break is inside it, or there is no area of the heap yet,
the break is the end of a page, and the range to be inserted is free. -/
def HeapRoom (m : Machine) (k : Nat) (process : Process) (addr : VirtualAddress) : Prop :=
  addr ≤ VMSpace.Top ∧
  (∀ page, PageAligned page → process.brkAddr ≤ page → page < addr →
    pte m.system k page = none) ∧
  (∀ i vma, process.vmSpace.findName "brk" = some i → process.vmSpace[i]? = some vma →
    vma.beginAddr ≤ thisPage process.brkAddr ∧
      (¬ PageAligned process.brkAddr → thisPage process.brkAddr < vma.endAddr ∧
        pte m.system k (thisPage process.brkAddr) ≠ none)) ∧
  (process.vmSpace.findName "brk" = none →
    PageAligned process.brkAddr ∧ process.brkBase ≤ process.brkAddr ∧
      ∀ vma ∈ process.vmSpace,
        vma.endAddr ≤ process.brkBase ∨ nextPage (lastPage addr) ≤ vma.beginAddr)

/-- How a call of `brk` above the break ends once its pages are allocated. -/
inductive BrkEnds (m : Machine) (k : Nat) (process : Process) (addr : VirtualAddress)
    (system : Paging.System) : Except Errno VirtualAddress → Machine → Prop where
  | insert {ok : Bool} {vmSpace : VMSpace} : process.vmSpace.findName "brk" = none →
      RangeManager.insert process.vmSpace
        (Machine.brkArea process.brkBase (nextPage (lastPage addr))) = some (ok, vmSpace) →
      BrkEnds m k process addr system (.ok addr)
        { system, processes := m.processes.set k { process with vmSpace, brkAddr := addr } }
  | extend {i : Nat} {vma : VMA} : process.vmSpace.findName "brk" = some i →
      process.vmSpace[i]? = some vma →
      (∀ next, process.vmSpace[i + 1]? = some next → nextPage (lastPage addr) ≤ next.beginAddr) →
      BrkEnds m k process addr system (.ok addr)
        { system, processes := m.processes.set k { process with
            vmSpace := process.vmSpace.set i { vma with endAddr := nextPage (lastPage addr) }
            brkAddr := addr } }
  | full {i : Nat} {next : VMA} : process.vmSpace.findName "brk" = some i →
      process.vmSpace[i + 1]? = some next → next.beginAddr < nextPage (lastPage addr) →
      BrkEnds m k process addr system (.error .ENOMEM) { m with system }

namespace Machine

variable {m m' : Machine} {k : Nat} {process : Process} {addr : VirtualAddress}
  {result : Except Errno VirtualAddress} {pages : List VirtualAddress} {system : Paging.System}

theorem lastPage_of_lt {brkAddr : VirtualAddress} (h : brkAddr < addr) :
    (lastPage addr).toNat = (addr.toNat - 1) - (addr.toNat - 1) % 4096 := by
  refine lastPage_toNat ?_
  rintro rfl
  simp [BitVec.lt_def] at h

theorem brk_cases (hprocess : m.processes[k]? = some process) (hmore : process.brkAddr < addr)
    (h : m.brk k addr = some (result, m')) :
    ∃ pages system, pagesBetween (lastPage process.brkAddr) (lastPage addr) = some pages ∧
      allocAll m.system k true (pages.map nextPage) = some system ∧
      BrkEnds m k process addr system result m' := by
  have hearly : ¬ (addr = 0#32 ∨ addr ≤ process.brkAddr) := by
    rw [BitVec.lt_def] at hmore
    rintro (rfl | hle)
    · simp at hmore
    · rw [BitVec.le_def] at hle
      omega
  simp only [brk, hprocess, Option.bind_eq_bind, Option.bind_some, if_neg hearly,
    ← show ∀ a, lastPage a = thisPage (a - 1#32) from fun _ => rfl,
    Option.bind_eq_some_iff] at h
  obtain ⟨pages, hpages, system, halloc, h⟩ := h
  refine ⟨pages, system, hpages, halloc, ?_⟩
  cases hname : process.vmSpace.findName "brk" with
  | none =>
      simp only [hname, Option.bind_eq_some_iff, Option.pure_def, Prod.exists] at h
      obtain ⟨ok, vmSpace, hinsert, h⟩ := h
      obtain ⟨rfl, rfl⟩ := Prod.mk.inj (Option.some.inj h)
      exact .insert hname hinsert
  | some i =>
      simp only [hname, Option.bind_eq_some_iff] at h
      obtain ⟨vma, hvma, h⟩ := h
      split at h
      · rename_i hfull
        obtain ⟨rfl, rfl⟩ := Prod.mk.inj (Option.some.inj h)
        obtain ⟨next, hnext, hlt⟩ := (Option.any_eq_true ..).mp hfull
        exact .full hname hnext (of_decide_eq_true hlt)
      · rename_i hroom
        obtain ⟨rfl, rfl⟩ := Prod.mk.inj (Option.some.inj h)
        refine .extend hname hvma fun next hnext => ?_
        simpa [hnext] using hroom

/-- The pages that `brk` allocates are those that begin in the new addresses. -/
theorem mem_heapPages (hmore : process.brkAddr < addr) (htop : addr ≤ VMSpace.Top)
    (h : pagesBetween (lastPage process.brkAddr) (lastPage addr) = some pages)
    (page : VirtualAddress) :
    page ∈ pages.map nextPage ↔
      PageAligned page ∧ process.brkAddr.toNat ≤ page.toNat ∧ page.toNat < addr.toNat := by
  have hTop : VMSpace.Top.toNat = 0xC0000000 := by decide
  have hwant := lastPage_aligned addr
  have hwantValue := lastPage_of_lt hmore
  rw [BitVec.lt_def] at hmore
  rw [BitVec.le_def] at htop
  by_cases hzero : process.brkAddr = 0#32
  · -- The page before a break at zero is the last page of all, and the loop wraps.
    rw [hzero] at h ⊢
    have hlast : lastPage 0#32 = 0xFFFFF000#32 := by decide
    have hne : (0xFFFFF000#32 : VirtualAddress) ≠ lastPage addr := by
      intro heq
      have hvalue := congrArg BitVec.toNat heq
      have hnumber : (0xFFFFF000#32 : VirtualAddress).toNat = 0xFFFFF000 := by decide
      omega
    have hlimit : walkLimit = 2 ^ 20 + 1 := rfl
    have hwrap : nextPage 0xFFFFF000#32 = 0#32 := by decide
    rw [pagesBetween, hlast, hlimit, walk, if_neg (by simpa using hne), hwrap,
      Option.map_eq_some_iff] at h
    obtain ⟨rest, hrest, rfl⟩ := h
    have hstart : PageAligned 0#32 := by decide
    obtain ⟨_, hmem⟩ := walk_after hstart hwant (Nat.zero_le _) hrest
    rw [List.map_cons, hwrap, List.mem_cons, hmem]
    constructor
    · rintro (rfl | ⟨haligned, _, hhigh⟩)
      · refine ⟨hstart, le_rfl, ?_⟩
        change 0 < addr.toNat
        omega
      · exact ⟨haligned, Nat.zero_le _, by omega⟩
    · rintro ⟨haligned, _, hhigh⟩
      have haligned' := (pageAligned_iff page).mp haligned
      by_cases hfirst : page = 0#32
      · exact Or.inl hfirst
      · have hpos : page.toNat ≠ 0 := fun heq => hfirst (BitVec.eq_of_toNat_eq heq)
        refine Or.inr ⟨haligned, ?_, by omega⟩
        change 0 < page.toNat
        omega
  · have hcurrent := lastPage_toNat hzero
    have hpos : process.brkAddr.toNat ≠ 0 := fun heq => hzero (BitVec.eq_of_toNat_eq heq)
    obtain ⟨_, hmem⟩ := pagesBetween_after (lastPage_aligned _) hwant (by omega) h
    rw [hmem]
    refine and_congr_right fun haligned => ?_
    have haligned' := (pageAligned_iff page).mp haligned
    omega

/-- The allocation replaces these pages and no others. -/
theorem brk_fills (hsafe : m.system.Safe) (hmore : process.brkAddr < addr)
    (htop : addr ≤ VMSpace.Top)
    (hpages : pagesBetween (lastPage process.brkAddr) (lastPage addr) = some pages)
    (halloc : allocAll m.system k true (pages.map nextPage) = some system) :
    system.Safe ∧ Fills k (pages.map nextPage) true m.system system := by
  refine allocAll_fills hsafe (fun page hpage => ?_) halloc
  obtain ⟨haligned, _, hhigh⟩ := (mem_heapPages hmore htop hpages page).mp hpage
  rw [BitVec.le_def] at htop
  exact Option.ne_none_iff_exists'.mpr
    (userPlace_of_user ⟨haligned, BitVec.lt_def.mpr (by omega)⟩)

/-- A page that was present and is not replaced was not one of the new ones. -/
theorem absent_of_kept (hsafe : m.system.Safe)
    (hfills : Fills k (pages.map nextPage) true m.system system) {page : VirtualAddress}
    (huser : UserPageAddr page) (hpage : page ∈ pages.map nextPage)
    (hkept : ∀ q frame page, m.system.mapping q = some (frame, page) →
      system.mapping q = some (frame, page)) : pte m.system k page = none := by
  obtain ⟨place, hplace⟩ := userPlace_of_user huser
  rw [pte_eq_none hplace]
  cases hbefore : m.system.mapping (k, place) with
  | none => rfl
  | some old =>
      obtain ⟨frame, hfree, hnew⟩ := hfills.fresh page hpage place hplace
      have hsame := (hkept (k, place) old.1 old.2 hbefore).symm.trans hnew
      have hframe : old.1 = frame := (Prod.mk.inj (Option.some.inj hsame)).1
      exact absurd hfree (hframe ▸ hsafe.not_free hbefore)

/-- A page that is not one of the new ones is what it was. -/
theorem kept_of_not_mem (hfills : Fills k (pages.map nextPage) true m.system system)
    (haligned : ∀ page ∈ pages.map nextPage, PageAligned page) {page : VirtualAddress}
    (hpage : PageAligned page) (hnot : page ∉ pages.map nextPage) {place : UserLoc × Fin 1024}
    (hplace : userPlace page = some place) :
    system.mapping (k, place) = m.system.mapping (k, place) := by
  refine hfills.kept (k, place) fun _ other hother hsame => hnot ?_
  rwa [userPlace_inj hpage (haligned other hother) hplace hsame]

end Machine

open Machine

section Grown

variable {m m' : Machine} {k : Nat} {process : Process} {addr : VirtualAddress}
  {pages : List VirtualAddress} {system : Paging.System}

/-- A break above `Top` cannot have a heap below it. -/
theorem HeapGrown.le_top {process' : Process}
    (hordered : Interval.Ordered lo hi process.vmSpace)
    (hlast : process.vmSpace.getLast? = some (RangeEntry.make VMSpace.Top 0xFFFFF000#32))
    (hmore : process.brkAddr < addr) (h : HeapGrown m m' k process process' addr) :
    addr ≤ VMSpace.Top := by
  by_contra habove
  have hTop : VMSpace.Top.toNat = 0xC0000000 := by decide
  have hvalue := lastPage_of_lt hmore
  rw [BitVec.le_def] at habove
  rw [BitVec.lt_def] at hmore
  have hnot : ¬ HeapMapped m k process (lastPage addr) := by
    rintro ⟨⟨i, vma, hname, hvma, _, hhigh⟩, _⟩
    obtain ⟨found, hfound, hbrk⟩ := findName_some hname
    obtain rfl := Option.some.inj (hvma.symm.trans hfound)
    have hbelow := lt_top_of_named hordered hlast (List.mem_of_getElem? hvma) (by simp [hbrk])
    omega
  obtain ⟨_, _, i, vma, hname, hvma, hlow, hhigh⟩ :=
    h.pages (lastPage addr) (lastPage_aligned addr) (by omega) (by omega) hnot
  have hbelow := (h.apart i vma _ hname hvma hlow hhigh).1
  omega

section Room

variable (hsafe : m.system.Safe) (hmore : process.brkAddr < addr) (htop : addr ≤ VMSpace.Top)
  (hpages : pagesBetween (lastPage process.brkAddr) (lastPage addr) = some pages)
  (halloc : allocAll m.system k true (pages.map nextPage) = some system)
include hsafe hmore htop hpages halloc

/-- The page of a break inside a page is not allocated, so it has to be the heap's. -/
theorem HeapGrown.breakPage {process' : Process} {processes : List Process}
    (h : HeapGrown m { system, processes } k process process' addr)
    (hinside : ¬ PageAligned process.brkAddr) :
    HeapMapped m k process (thisPage process.brkAddr) := by
  by_contra hnot
  have hTop : VMSpace.Top.toNat = 0xC0000000 := by decide
  obtain ⟨_, hfills⟩ := brk_fills hsafe hmore htop hpages halloc
  have hmem := mem_heapPages hmore htop hpages
  rw [BitVec.lt_def] at hmore
  rw [BitVec.le_def] at htop
  have hthis := thisPage_toNat process.brkAddr
  rw [pageAligned_iff] at hinside
  have haligned : PageAligned (thisPage process.brkAddr) := (pageAligned_iff _).mpr (by omega)
  obtain ⟨habsent, ⟨place, frame, writable, hplace, hzero⟩, _⟩ :=
    h.pages (thisPage process.brkAddr) haligned (by omega) (by omega) hnot
  have hkept := kept_of_not_mem hfills (fun page hpage => ((hmem page).mp hpage).1) haligned
    (fun hin => by have := ((hmem _).mp hin).2.1; omega) hplace
  rw [pte_eq_none hplace] at habsent
  rw [hkept, habsent] at hzero
  cases hzero

theorem HeapGrown.absent {process' : Process} {processes : List Process}
    (h : HeapGrown m { system, processes } k process process' addr) {page : VirtualAddress}
    (haligned : PageAligned page) (hlow : process.brkAddr ≤ page) (hhigh : page < addr) :
    pte m.system k page = none := by
  obtain ⟨_, hfills⟩ := brk_fills hsafe hmore htop hpages halloc
  have hmem := (mem_heapPages hmore htop hpages page).mpr
    ⟨haligned, BitVec.le_def.mp hlow, BitVec.lt_def.mp hhigh⟩
  refine absent_of_kept hsafe hfills ⟨haligned, ?_⟩ hmem h.kept
  rw [BitVec.lt_def] at hhigh ⊢
  rw [BitVec.le_def] at htop
  omega

/-- With room for it, the heap has grown as soon as its area is there and reaches from
the page of the old break to the new one. -/
theorem heapGrown_of_room {process' : Process} {processes : List Process} {i : Nat} {vma : VMA}
    (hroom : HeapRoom m k process addr)
    (hspace : Interval.Ordered lo hi process'.vmSpace)
    (hname : process'.vmSpace.findName "brk" = some i) (hvma : process'.vmSpace[i]? = some vma)
    (hbegin : lo vma ≤ (thisPage process.brkAddr).toNat)
    (hend : vma.endAddr = nextPage (lastPage addr)) :
    HeapGrown m { system, processes } k process process' addr := by
  have hTop : VMSpace.Top.toNat = 0xC0000000 := by decide
  obtain ⟨_, hfills⟩ := brk_fills hsafe hmore htop hpages halloc
  have hmem := mem_heapPages hmore htop hpages
  have hvalue := lastPage_of_lt hmore
  rw [BitVec.lt_def] at hmore
  rw [BitVec.le_def] at htop
  have hthis := thisPage_toNat process.brkAddr
  have hhi : hi vma = (lastPage addr).toNat + 4096 := by
    change vma.endAddr.toNat = _
    rw [hend, nextPage_toNat]
    omega
  obtain ⟨_, habsent, hextend, hinsert⟩ := hroom
  have huser : ∀ {page}, PageAligned page → page.toNat < addr.toNat → UserPageAddr page :=
    fun haligned hhigh => ⟨haligned, BitVec.lt_def.mpr (by omega)⟩
  refine ⟨?_, ?_, ?_⟩
  · intro page haligned hoverlap hhigh hnot
    have haligned' := (pageAligned_iff page).mp haligned
    by_cases hlow : process.brkAddr.toNat ≤ page.toNat
    · obtain ⟨place, hplace⟩ := userPlace_of_user (huser haligned hhigh)
      obtain ⟨frame, _, hnew⟩ :=
        hfills.fresh page ((hmem page).mpr ⟨haligned, hlow, hhigh⟩) place hplace
      exact ⟨habsent page haligned (BitVec.le_def.mpr hlow) (BitVec.lt_def.mpr hhigh),
        ⟨place, frame, true, hplace, hnew⟩, i, vma, hname, hvma, by omega, by omega⟩
    · have hpage : page = thisPage process.brkAddr := BitVec.eq_of_toNat_eq (by omega)
      have hinside : ¬ PageAligned process.brkAddr := by
        rw [pageAligned_iff]
        omega
      cases hold : process.vmSpace.findName "brk" with
      | none => exact absurd (hinsert hold).1 hinside
      | some j =>
          obtain ⟨old, hold', _⟩ := findName_some hold
          obtain ⟨hlower, hmapped⟩ := hextend j old hold hold'
          obtain ⟨hupper, hpresent⟩ := hmapped hinside
          refine absurd ⟨⟨j, old, hold, hold', ?_, ?_⟩, ?_⟩ hnot
          · rw [hpage]
            exact BitVec.le_def.mp hlower
          · rw [hpage]
            exact BitVec.lt_def.mp hupper
          · rwa [hpage]
  · intro i' vma' x hname' hvma' hlow hhigh
    obtain rfl := Option.some.inj (hname.symm.trans hname')
    obtain rfl := Option.some.inj (hvma.symm.trans hvma')
    exact ⟨by omega, fun j other hj hother => hspace.apart (Ne.symm hj) hvma hother ⟨hlow, hhigh⟩⟩
  · intro q frame page hq
    refine (hfills.kept q ?_).trans hq
    rintro hk other hother hplace
    obtain ⟨haligned, hlow, hhigh⟩ := (hmem other).mp hother
    have hnone := habsent other haligned (BitVec.le_def.mpr hlow) (BitVec.lt_def.mpr hhigh)
    rw [pte_eq_none hplace, ← hk] at hnone
    cases hq.symm.trans hnone

end Room

/-- The page of the old break is one of the pages in question. -/
theorem HeapGrown.inHeap {process' : Process} (hmore : process.brkAddr < addr)
    (h : HeapGrown m m' k process process' addr) :
    HeapMapped m k process (thisPage process.brkAddr) ∨
      InHeap process'.vmSpace (thisPage process.brkAddr) := by
  by_cases hmapped : HeapMapped m k process (thisPage process.brkAddr)
  · exact Or.inl hmapped
  · rw [BitVec.lt_def] at hmore
    have hthis := thisPage_toNat process.brkAddr
    exact Or.inr (h.pages _ ((pageAligned_iff _).mpr (by omega)) (by omega) (by omega) hmapped).2.2

/-- The case in which `brk` inserts the area of the heap. -/
theorem heapGrown_insert_iff (hsafe : m.system.Safe)
    (hordered : Interval.Ordered lo hi process.vmSpace) (hmore : process.brkAddr < addr)
    (htop : addr ≤ VMSpace.Top)
    (hpages : pagesBetween (lastPage process.brkAddr) (lastPage addr) = some pages)
    (halloc : allocAll m.system k true (pages.map nextPage) = some system)
    (hname : process.vmSpace.findName "brk" = none) {ok : Bool} {vmSpace : VMSpace}
    (hinsert : insert process.vmSpace (brkArea process.brkBase (nextPage (lastPage addr))) =
      some (ok, vmSpace)) {processes : List Process} :
    HeapGrown m { system, processes } k process { process with vmSpace, brkAddr := addr } addr ↔
      HeapRoom m k process addr := by
  have hnotHeap : ∀ page, ¬ HeapMapped m k process page := by
    rintro page ⟨⟨i, vma, hsome, _⟩, _⟩
    cases hname.symm.trans hsome
  constructor
  · intro h
    have haligned : PageAligned process.brkAddr := by
      by_contra hinside
      exact hnotHeap _ (h.breakPage hsafe hmore htop hpages halloc hinside)
    obtain ⟨i, vma, hname', hvma, hlow, _⟩ := (h.inHeap hmore).resolve_left (hnotHeap _)
    obtain ⟨found, hfound, hbrk⟩ := findName_some hname'
    obtain rfl := Option.some.inj (hvma.symm.trans hfound)
    obtain ⟨rfl, rfl⟩ :=
      ((mem_of_insert hinsert vma).mp (List.mem_of_getElem? hvma)).resolve_left
        fun hold => findName_none hname vma hold hbrk
    refine ⟨htop, fun page => h.absent hsafe hmore htop hpages halloc, ?_, fun _ =>
      ⟨haligned, ?_, fun e he => ?_⟩⟩
    · intro j old hsome
      cases hname.symm.trans hsome
    · rw [show thisPage process.brkAddr = process.brkAddr from haligned] at hlow
      exact BitVec.le_def.mpr hlow
    · rw [BitVec.le_def, BitVec.le_def]
      exact insert_apart hordered hinsert e he
  · intro hroom
    obtain ⟨haligned, hbase, hfree⟩ := hroom.2.2.2 hname
    have hthis : thisPage process.brkAddr = process.brkAddr := haligned
    have hTop : VMSpace.Top.toNat = 0xC0000000 := by decide
    have hproper : lo (brkArea process.brkBase (nextPage (lastPage addr))) <
        hi (brkArea process.brkBase (nextPage (lastPage addr))) := by
      have hvalue := lastPage_of_lt hmore
      rw [BitVec.lt_def] at hmore
      rw [BitVec.le_def] at hbase htop
      change process.brkBase.toNat < (nextPage (lastPage addr)).toNat
      rw [nextPage_toNat]
      omega
    obtain rfl : ok = true := insert_ok hordered hproper (fun e he => by
      have hapart := hfree e he
      rwa [BitVec.le_def, BitVec.le_def] at hapart) hinsert
    obtain ⟨i, hi'⟩ := List.mem_iff_getElem?.mp
      ((mem_of_insert hinsert (brkArea process.brkBase (nextPage (lastPage addr)))).mpr
        (Or.inr ⟨rfl, rfl⟩))
    obtain ⟨j, hj⟩ : ∃ j, VMSpace.findName vmSpace "brk" = some j := by
      cases hfind : VMSpace.findName vmSpace "brk" with
      | some j => exact ⟨j, rfl⟩
      | none => exact absurd rfl (findName_none hfind _ (List.mem_of_getElem? hi'))
    obtain ⟨vma, hvma, hbrk⟩ := findName_some hj
    obtain ⟨_, rfl⟩ := ((mem_of_insert hinsert vma).mp (List.mem_of_getElem? hvma)).resolve_left
      fun hold => findName_none hname vma hold hbrk
    refine heapGrown_of_room hsafe hmore htop hpages halloc hroom
      (insert_ordered hordered hproper.le hinsert) hj hvma ?_ rfl
    rw [hthis]
    exact BitVec.le_def.mp hbase

/-- The case in which `brk` extends the area of the heap. -/
theorem heapGrown_extend_iff (hsafe : m.system.Safe)
    (hordered : Interval.Ordered lo hi process.vmSpace) (hmore : process.brkAddr < addr)
    (htop : addr ≤ VMSpace.Top)
    (hpages : pagesBetween (lastPage process.brkAddr) (lastPage addr) = some pages)
    (halloc : allocAll m.system k true (pages.map nextPage) = some system) {i : Nat} {vma : VMA}
    (hname : process.vmSpace.findName "brk" = some i) (hvma : process.vmSpace[i]? = some vma)
    (hnext : ∀ next, process.vmSpace[i + 1]? = some next →
      nextPage (lastPage addr) ≤ next.beginAddr) {processes : List Process} :
    HeapGrown m { system, processes } k process { process with
        vmSpace := process.vmSpace.set i { vma with endAddr := nextPage (lastPage addr) }
        brkAddr := addr } addr ↔ HeapRoom m k process addr := by
  obtain ⟨found, hfound, hbrk⟩ := findName_some hname
  obtain rfl := Option.some.inj (hvma.symm.trans hfound)
  have hi' : i < process.vmSpace.length := (List.getElem?_eq_some_iff.mp hvma).1
  have hname' : VMSpace.findName
      (process.vmSpace.set i { vma with endAddr := nextPage (lastPage addr) }) "brk" = some i :=
    findName_set hname hbrk
  have hvma' : (process.vmSpace.set i { vma with endAddr := nextPage (lastPage addr) })[i]? =
      some { vma with endAddr := nextPage (lastPage addr) } := List.getElem?_set_self hi'
  constructor
  · intro h
    refine ⟨htop, fun page => h.absent hsafe hmore htop hpages halloc, ?_, fun hnone => ?_⟩
    · intro j old hsome hold
      obtain rfl := Option.some.inj (hname.symm.trans hsome)
      obtain rfl := Option.some.inj (hvma.symm.trans hold)
      refine ⟨?_, fun hinside => ?_⟩
      · rcases h.inHeap hmore with ⟨⟨j, old, hsome', hold', hlow, _⟩, _⟩ |
          ⟨j, new, hsome', hnew, hlow, _⟩
        · obtain rfl := Option.some.inj (hname.symm.trans hsome')
          obtain rfl := Option.some.inj (hvma.symm.trans hold')
          exact BitVec.le_def.mpr hlow
        · obtain rfl := Option.some.inj (hname'.symm.trans hsome')
          obtain rfl := Option.some.inj (hvma'.symm.trans hnew)
          exact BitVec.le_def.mpr hlow
      · obtain ⟨⟨j, old, hsome', hold', _, hhigh⟩, hpresent⟩ :=
          h.breakPage hsafe hmore htop hpages halloc hinside
        obtain rfl := Option.some.inj (hname.symm.trans hsome')
        obtain rfl := Option.some.inj (hvma.symm.trans hold')
        exact ⟨BitVec.lt_def.mpr hhigh, hpresent⟩
    · cases hname.symm.trans hnone
  · intro hroom
    have hbegin := BitVec.le_def.mp (hroom.2.2.1 i vma hname hvma).1
    have hTop : VMSpace.Top.toNat = 0xC0000000 := by decide
    have hvalue := lastPage_of_lt hmore
    have hthis := thisPage_toNat process.brkAddr
    have hend : (nextPage (lastPage addr)).toNat = (lastPage addr).toNat + 4096 := by
      rw [BitVec.le_def] at htop
      rw [nextPage_toNat]
      omega
    have hspace : Interval.Ordered lo hi
        (process.vmSpace.set i { vma with endAddr := nextPage (lastPage addr) }) := by
      refine extend_ordered hordered hvma ?_ hnext
      rw [BitVec.lt_def] at hmore
      change vma.beginAddr.toNat ≤ (nextPage (lastPage addr)).toNat
      omega
    exact heapGrown_of_room hsafe hmore htop hpages halloc hroom hspace hname' hvma' hbegin rfl

end Grown

namespace Machine

/-- A break that has moved up has left other memory alone, and has put all it needed
into the heap, if and only if there was room for the heap before the call. -/
theorem brk_grown_iff {m m' : Machine} {k : Nat} {process : Process} {addr : VirtualAddress}
    (hsafe : m.system.Safe) (hprocess : m.processes[k]? = some process)
    (hordered : Interval.Ordered lo hi process.vmSpace)
    (hlast : process.vmSpace.getLast? = some (RangeEntry.make VMSpace.Top 0xFFFFF000#32))
    (hmore : process.brkAddr < addr) (hbrk : m.brk k addr = some (.ok addr, m')) :
    ∃ process', m'.processes[k]? = some process' ∧
      (HeapGrown m m' k process process' addr ↔ HeapRoom m k process addr) := by
  have hk : k < m.processes.length := (List.getElem?_eq_some_iff.mp hprocess).1
  obtain ⟨pages, system, hpages, halloc, hends⟩ := brk_cases hprocess hmore hbrk
  obtain ⟨result, hresult⟩ : ∃ result, result = (.ok addr : Except Errno VirtualAddress) :=
    ⟨_, rfl⟩
  rw [← hresult] at hends
  cases hends with
  | insert hname hinsert =>
      refine ⟨_, List.getElem?_set_self hk, ⟨fun h => ?_, fun hroom => ?_⟩⟩
      · exact (heapGrown_insert_iff hsafe hordered hmore (h.le_top hordered hlast hmore) hpages
          halloc hname hinsert).mp h
      · exact (heapGrown_insert_iff hsafe hordered hmore hroom.1 hpages halloc hname
          hinsert).mpr hroom
  | extend hname hvma hnext =>
      refine ⟨_, List.getElem?_set_self hk, ⟨fun h => ?_, fun hroom => ?_⟩⟩
      · exact (heapGrown_extend_iff hsafe hordered hmore (h.le_top hordered hlast hmore) hpages
          halloc hname hvma hnext).mp h
      · exact (heapGrown_extend_iff hsafe hordered hmore hroom.1 hpages halloc hname hvma
          hnext).mpr hroom
  | full _ _ _ => cases hresult

/-- A fresh image without segments, whose first break is one page up. -/
theorem brk_grown_iff_first_page :
    ∃ (m m' : Machine) (process process' : Process), m.processes[0]? = some process ∧
      m.brk 0 0x401000#32 = some (.ok 0x401000#32, m') ∧ m'.processes[0]? = some process' ∧
      HeapGrown m m' 0 process process' 0x401000#32 := by
  obtain ⟨m, hexec, process, hprocess, hspace, hbase, haddr, habsent, ⟨result, m'⟩, hbrk, hok⟩ :
      ∃ m ∈ (boot 0x40 (by decide) (fun _ _ => 0#32) fun _ => 0#32).step
          (.exec (fun _ => 0#8) []),
        ∃ process ∈ m.processes[0]?, process.vmSpace = VMSpace.stackOnly ∧
          process.brkBase = 0x400000#32 ∧ process.brkAddr = 0x400000#32 ∧
          pte m.system 0 0x400000#32 = none ∧
          ∃ out ∈ m.brk 0 0x401000#32, out.1 = .ok 0x401000#32 := by
    decide
  obtain rfl : result = .ok 0x401000#32 := hok
  have hproper : (boot 0x40 (by decide) (fun _ _ => 0#32) fun _ => 0#32).Proper
      (.exec (fun _ => 0#8) []) := by decide
  have hsound := step_sound (boot_sound 0x40 (by decide) (fun _ _ => 0#32) fun _ => 0#32)
    hproper hexec
  obtain ⟨process', hprocess', hiff⟩ := brk_grown_iff (hsound.good.safe hsound.bounded) hprocess
    (hsound.agree 0 process hprocess).repInv.ordered (by rw [hspace]; decide)
    (by rw [haddr]; decide) hbrk
  refine ⟨m, m', process, process', hprocess, hbrk, hprocess', hiff.mpr ⟨by decide, ?_, ?_, ?_⟩⟩
  · intro page haligned hlow hhigh
    rw [pageAligned_iff] at haligned
    rw [haddr] at hlow
    obtain rfl : page = 0x400000#32 := by
      refine BitVec.eq_of_toNat_eq ?_
      have hlow' : 0x400000 ≤ page.toNat := hlow
      have hhigh' : page.toNat < 0x401000 := hhigh
      change page.toNat = 0x400000
      omega
    exact habsent
  · intro i vma hname
    rw [hspace] at hname
    cases hname
  · intro _
    rw [hspace, hbase, haddr]
    decide

/-- A page mapped where the heap begins is lost to the first break: the break moves,
the page has another frame, and the heap has no area. -/
theorem brk_replaces_mapped_page :
    ∃ (m m' : Machine) (process process' : Process),
      Run Machine.step anyStep (boot 0x40 (by decide) (fun _ _ => 0#32) fun _ => 0#32)
        [.exec (fun _ => 0#8) [],
          .request 0 (.mmap 0x400000#32 0x1000#32 (PROT_READ ||| PROT_WRITE) MAP_PRIVATE)] m ∧
      m.processes[0]? = some process ∧ process.brkAddr < 0x400001#32 ∧
      m.brk 0 0x400001#32 = some (.ok 0x400001#32, m') ∧ m'.processes[0]? = some process' ∧
      ¬ HeapGrown m m' 0 process process' 0x400001#32 := by
  obtain ⟨m, hrun, process, hprocess, hnone, haddr, hpresent, ⟨result, m'⟩, hbrk, hok, process',
      hprocess'⟩ :
      ∃ m ∈ [Call.exec (fun _ => 0#8) [],
          .request 0 (.mmap 0x400000#32 0x1000#32 (PROT_READ ||| PROT_WRITE) MAP_PRIVATE)].foldlM
          (guardedStep Machine.step anyStep)
          (boot 0x40 (by decide) (fun _ _ => 0#32) fun _ => 0#32),
        ∃ process ∈ m.processes[0]?, process.vmSpace.findName "brk" = none ∧
          process.brkAddr = 0x400000#32 ∧ pte m.system 0 0x400000#32 ≠ none ∧
          ∃ out ∈ m.brk 0 0x400001#32, out.1 = .ok 0x400001#32 ∧
            ∃ process' ∈ out.2.processes[0]?, True := by
    decide
  obtain rfl : result = .ok 0x400001#32 := hok
  refine ⟨m, m', process, process', Run.of_foldlM hrun, hprocess, by rw [haddr]; decide, hbrk,
    hprocess'.1, fun hgrown => hpresent ?_⟩
  refine (hgrown.pages 0x400000#32 (by decide) (by rw [haddr]; decide) (by decide) ?_).1
  rintro ⟨⟨i, vma, hname, _⟩, _⟩
  cases hnone.symm.trans hname

end Machine

/-- Nothing has happened: the areas and breaks of the processes, the directories and
page tables, and the counters of the frames are what they were. -/
structure Unchanged (m m' : Machine) : Prop where
  processes : m'.processes = m.processes
  dir : ∀ k, m'.system.dir k = m.system.dir k
  tables : ∀ k dir, m.system.dir k = some dir →
    m'.system.memory.page dir = m.system.memory.page dir
  entries : ∀ k page, pte m'.system k page = pte m.system k page
  counts : ∀ offset < m.system.memory.frames.pool.frameCount,
    m'.system.memory.frames.info offset = m.system.memory.frames.info offset

theorem Unchanged.refl (m : Machine) : Unchanged m m :=
  ⟨rfl, fun _ => rfl, fun _ _ _ => rfl, fun _ _ => rfl, fun _ _ => rfl⟩

namespace Machine

variable {m m' : Machine} {k : Nat} {process : Process} {addr : VirtualAddress}

/-- Only a break above the old one can fail. -/
theorem brk_error_lt (hprocess : m.processes[k]? = some process)
    (hbrk : m.brk k addr = some (.error .ENOMEM, m')) : process.brkAddr < addr := by
  by_contra hle
  have hearly : addr = 0#32 ∨ addr ≤ process.brkAddr := by
    right
    rw [BitVec.le_def]
    rw [BitVec.lt_def] at hle
    omega
  simp [brk, hprocess, hearly] at hbrk

/-- A break that fails has changed nothing if and only if it needed no page: the old
break and the address asked for are in the same page. -/
theorem brk_failed_iff (hsafe : m.system.Safe) (hprocess : m.processes[k]? = some process)
    (hbrk : m.brk k addr = some (.error .ENOMEM, m')) :
    Unchanged m m' ↔ lastPage process.brkAddr = lastPage addr := by
  obtain ⟨pages, system, hpages, halloc, hends⟩ :=
    brk_cases hprocess (brk_error_lt hprocess hbrk) hbrk
  obtain ⟨result, hresult⟩ :
      ∃ result, result = (.error .ENOMEM : Except Errno VirtualAddress) := ⟨_, rfl⟩
  rw [← hresult] at hends
  cases hends with
  | insert _ _ => cases hresult
  | extend _ _ _ => cases hresult
  | full _ _ _ =>
      constructor
      · intro h
        by_contra hne
        have hsome : pages.map nextPage ≠ [] := by
          rintro hnil
          obtain rfl := List.map_eq_nil_iff.mp hnil
          exact hne (pagesBetween_nil hpages)
        obtain ⟨count, htracks, _⟩ := hsafe.covers
        obtain ⟨offset, hoffset, hcount⟩ := ((allocAll_draws halloc).2 hsome).info_ne htracks
        exact hcount (h.counts offset hoffset)
      · intro hsame
        rw [hsame, pagesBetween_self] at hpages
        obtain rfl := Option.some.inj hpages
        obtain rfl : m.system = system := by simpa [allocAll] using halloc
        exact Unchanged.refl m

/-- The heap has lost its second page to another mapping, and the break moves inside
that page. -/
theorem brk_failed_iff_same_page :
    ∃ m m' : Machine, m.brk 0 0x401801#32 = some (.error .ENOMEM, m') ∧ Unchanged m m' := by
  obtain ⟨m, hrun, process, hprocess, haddr, ⟨result, m'⟩, hbrk, herror⟩ :
      ∃ m ∈ [Call.exec (fun _ => 0#8) [], .brk 0 0x401800#32,
          .request 0 (.munmap 0x401000#32 0x1000#32),
          .request 0 (.mmap 0x401000#32 0x1000#32 PROT_READ MAP_PRIVATE)].foldlM
          (guardedStep Machine.step Machine.Proper)
          (boot 0x40 (by decide) (fun _ _ => 0#32) fun _ => 0#32),
        ∃ process ∈ m.processes[0]?, process.brkAddr = 0x401800#32 ∧
          ∃ out ∈ m.brk 0 0x401801#32, out.1 = .error .ENOMEM := by
    decide +kernel
  obtain rfl : result = .error .ENOMEM := herror
  have hsound : m.Sound := (Run.of_foldlM hrun).invariant
    (fun _ _ _ hsound hproper hstep => step_sound hsound hproper hstep)
    (boot_sound 0x40 (by decide) (fun _ _ => 0#32) fun _ => 0#32)
  refine ⟨m, m', hbrk, ?_⟩
  refine (brk_failed_iff (hsound.good.safe hsound.bounded) hprocess hbrk).mpr ?_
  rw [haddr]
  decide

/-- A mapping right above the heap: the break fails, and the page of the mapping has
been replaced. -/
theorem brk_failed_replaces_page :
    ∃ m m' : Machine,
      Run Machine.step anyStep (boot 0x40 (by decide) (fun _ _ => 0#32) fun _ => 0#32)
        [.exec (fun _ => 0#8) [], .brk 0 0x401000#32,
          .request 0 (.mmap 0x401000#32 0x1000#32 PROT_READ MAP_PRIVATE)] m ∧
      m.brk 0 0x402000#32 = some (.error .ENOMEM, m') ∧
      pte m'.system 0 0x401000#32 ≠ pte m.system 0 0x401000#32 ∧ ¬ Unchanged m m' := by
  obtain ⟨m, hrun, ⟨result, m'⟩, hbrk, herror, hpte⟩ :
      ∃ m ∈ [Call.exec (fun _ => 0#8) [], .brk 0 0x401000#32,
          .request 0 (.mmap 0x401000#32 0x1000#32 PROT_READ MAP_PRIVATE)].foldlM
          (guardedStep Machine.step anyStep)
          (boot 0x40 (by decide) (fun _ _ => 0#32) fun _ => 0#32),
        ∃ out ∈ m.brk 0 0x402000#32, out.1 = .error .ENOMEM ∧
          pte out.2.system 0 0x401000#32 ≠ pte m.system 0 0x401000#32 := by
    decide +kernel
  obtain rfl : result = .error .ENOMEM := herror
  exact ⟨m, m', Run.of_foldlM hrun, hbrk, hpte, fun h => hpte (h.entries 0 0x401000#32)⟩

end Machine

end Nyan.Task
