import Nyan.Task.HeapGrowth

/-!
The loops over the pages of an area. `VMA::alloc` and `__release_range` go from the
begin to the end in steps of a page and stop only when they meet the end exactly, so
they end after the right number of rounds as long as both bounds are multiples of the
page size and the begin is not above the end. Every call keeps areas in that form with
three exceptions: a mapping without `MAP_FIXED` that gets the unaligned address it
asked for, a break above the last page but one, and an image with a segment that wraps.
-/

namespace Nyan.Task

open Paging Paging.RangeManager Syscall Library

/-- A loop from `lower` to `upper` goes over whole pages, ends after one round for
each of them, and stays between its bounds. -/
structure PageLoop (lower upper : VirtualAddress) : Prop where
  alignedLower : PageAligned lower
  alignedUpper : PageAligned upper
  le : lower ≤ upper
  ends : ∃ pages, pagesBetween lower upper = some pages ∧
    pages.length = (upper.toNat - lower.toNat) / 4096 ∧
    ∀ page ∈ pages, lower ≤ page ∧ page < upper

theorem PageLoop.of_aligned {lower upper : VirtualAddress} (hlower : PageAligned lower)
    (hupper : PageAligned upper) (hle : lower.toNat ≤ upper.toNat) : PageLoop lower upper := by
  obtain ⟨pages, hpages, hlength⟩ := pagesBetween_defined hlower hupper hle
  refine ⟨hlower, hupper, BitVec.le_def.mpr hle, pages, hpages, hlength, fun page hpage => ?_⟩
  obtain ⟨_, hlow, hhigh⟩ := ((walk_up hlower hupper hle hpages).2 page).mp hpage
  exact ⟨BitVec.le_def.mpr hlow, BitVec.lt_def.mpr hhigh⟩

/-- Areas of whole pages, one after the other. -/
structure Paved (space : VMSpace) : Prop where
  ordered : Interval.Ordered lo hi space
  aligned : ∀ vma ∈ space, PageAligned vma.beginAddr ∧ PageAligned vma.endAddr

namespace Paved

variable {space space' : VMSpace} {vma : VMA}

theorem pageLoop (h : Paved space) (hvma : vma ∈ space) : PageLoop vma.beginAddr vma.endAddr :=
  .of_aligned (h.aligned vma hvma).1 (h.aligned vma hvma).2 (h.ordered.proper vma hvma)

theorem insert (h : Paved space) (haligned : PageAligned vma.beginAddr ∧ PageAligned vma.endAddr)
    (hproper : lo vma ≤ hi vma) {ok : Bool}
    (hinsert : RangeManager.insert space vma = some (ok, space')) : Paved space' := by
  refine ⟨insert_ordered h.ordered hproper hinsert, fun e he => ?_⟩
  rcases (mem_of_insert hinsert e).mp he with he | ⟨_, rfl⟩
  · exact h.aligned e he
  · exact haligned

theorem set (h : Paved space) {i : Nat}
    (haligned : PageAligned vma.beginAddr ∧ PageAligned vma.endAddr)
    (hordered : Interval.Ordered lo hi (space.set i vma)) : Paved (space.set i vma) := by
  refine ⟨hordered, fun e he => ?_⟩
  rcases List.mem_or_eq_of_mem_set he with he | rfl
  · exact h.aligned e he
  · exact haligned

end Paved

/-- A process whose areas are paved and whose heap ends with the page of the break. -/
structure Tidy (process : Process) : Prop where
  paved : Paved process.vmSpace
  base : PageAligned process.brkBase
  pos : 0 < process.brkBase.toNat
  le : process.brkBase.toNat ≤ process.brkAddr.toNat
  heap : ∀ vma ∈ process.vmSpace, vma.name = "brk" →
    hi vma ≤ (lastPage process.brkAddr).toNat + 4096

/-- The calls that keep areas of whole pages: the segments of an image do not wrap, the
page after the break is not zero, and a mapping that is placed at its hint has a hint
that is the begin of a page. -/
def Machine.Orderly (m : Machine) : Call → Prop
  | .exec _ headers => ∀ header ∈ headers, header.Loads → header.lowerPage ≤ header.upperPage
  | .brk _ addr => addr ≤ 0xFFFFF000#32
  | .request k (.mmap addr length _ flags) =>
      ∀ process ∈ m.processes[k]?, flags &&& MAP_FIXED = 0#32 → flags &&& MAP_PRIVATE ≠ 0#32 →
        length ≠ 0#32 → process.vmSpace.findFree (alignUp length) addr = some (some addr) →
          PageAligned addr
  | .request _ (.munmap _ _) => True
  | .checkStack _ _ => True
  | .fork _ => True

namespace Machine

variable {m m' : Machine} {k : Nat} {process : Process}

section Exec

variable {file : BitVec 32 → BitVec 8} {headers : List ProgramHeader} {image image' : Image}

/-- What is built while the segments are loaded. -/
structure Laid (image : Image) : Prop where
  paved : Paved image.vmSpace
  unnamed : ∀ vma ∈ image.vmSpace, vma.name ≠ "brk"
  aligned : PageAligned image.brkAddr
  pos : 0 < image.brkAddr.toNat

theorem area_aligned (header : ProgramHeader) :
    PageAligned header.area.beginAddr ∧ PageAligned header.area.endAddr := by
  constructor
  · rw [pageAligned_iff]
    change (alignDown header.vaddr).toNat % 4096 = 0
    rw [alignDown_toNat]
    omega
  · rw [pageAligned_iff]
    exact alignUp_aligned _

theorem Laid.segment {header : ProgramHeader} (h : Laid image)
    (hle : header.Loads → header.lowerPage ≤ header.upperPage)
    (heq : loadSegment file k image header = some image') : Laid image' := by
  unfold loadSegment at heq
  split at heq
  · obtain rfl := Option.some.inj heq
    exact h
  rename_i hloads
  simp only [Option.bind_eq_bind, Option.bind_eq_some_iff, Option.pure_def, Prod.exists] at heq
  obtain ⟨pages, _, system, _, ok, vmSpace, hinsert, heq⟩ := heq
  obtain rfl := Option.some.inj heq
  have haligned := area_aligned header
  refine ⟨h.paved.insert haligned (BitVec.le_def.mp (hle (not_not.mp hloads))) hinsert, ?_, ?_, ?_⟩
  · intro vma hvma
    rcases (mem_of_insert hinsert vma).mp hvma with hvma | ⟨_, rfl⟩
    · exact h.unnamed vma hvma
    · simp [ProgramHeader.area]
  · dsimp only
    split
    · exact haligned.2
    · exact h.aligned
  · dsimp only
    split
    · rename_i hless
      exact Nat.zero_lt_of_lt (BitVec.lt_def.mp hless)
    · exact h.pos

theorem Laid.segments (h : Laid image)
    (hle : ∀ header ∈ headers, header.Loads → header.lowerPage ≤ header.upperPage)
    (heq : headers.foldlM (loadSegment file k) image = some image') : Laid image' := by
  induction headers generalizing image with
  | nil =>
      obtain rfl : image = image' := by simpa using heq
      exact h
  | cons header rest ih =>
      simp only [List.foldlM_cons, Option.bind_eq_bind, Option.bind_eq_some_iff] at heq
      obtain ⟨next, hnext, heq⟩ := heq
      exact ih (h.segment (hle header List.mem_cons_self) hnext)
        (fun other hother => hle other (List.mem_cons_of_mem _ hother)) heq

theorem execTask_tidy (h : ∀ process ∈ m.processes, Tidy process)
    (horderly : m.Orderly (.exec file headers)) (heq : m.execTask file headers = some m') :
    ∀ process ∈ m'.processes, Tidy process := by
  simp only [execTask, loadElf, Option.bind_eq_bind, Option.bind_eq_some_iff, Option.pure_def,
    Prod.exists] at heq
  obtain ⟨image, ⟨s₁, _, hload⟩, ok, vmSpace, hinsert, system, _, heq⟩ := heq
  obtain rfl := Option.some.inj heq
  have haligned : ∀ vma ∈ VMSpace.init, PageAligned vma.beginAddr ∧ PageAligned vma.endAddr := by
    decide
  have hunnamed : ∀ vma ∈ VMSpace.init, vma.name ≠ "brk" := by decide
  have hbrk : PageAligned 0x400000#32 ∧ 0 < (0x400000#32).toNat := by decide
  have hinit : Laid { system := s₁, vmSpace := VMSpace.init, brkAddr := 0x400000#32 } :=
    ⟨⟨init_space_repInv.ordered, haligned⟩, hunnamed, hbrk.1, hbrk.2⟩
  have hlaid := hinit.segments horderly hload
  intro other hother
  rcases List.mem_append.mp hother with hold | hnew
  · exact h other hold
  · obtain rfl := List.mem_singleton.mp hnew
    refine ⟨hlaid.paved.insert (by decide) (by decide) hinsert, hlaid.aligned, hlaid.pos, le_rfl,
      fun vma hvma hname => ?_⟩
    rcases (mem_of_insert hinsert vma).mp hvma with hvma | ⟨_, rfl⟩
    · exact absurd hname (hlaid.unnamed vma hvma)
    · simp [VMSpace.stackArea] at hname

end Exec

/-- One process changes, in what the invariant is about or not. -/
theorem tidy_set (h : ∀ process ∈ m.processes, Tidy process) (hprocess : Tidy process) :
    ∀ other ∈ m.processes.set k process, Tidy other := by
  intro other hother
  rcases List.mem_or_eq_of_mem_set hother with hold | rfl
  · exact h other hold
  · exact hprocess

theorem brk_tidy (h : ∀ process ∈ m.processes, Tidy process) {addr : VirtualAddress}
    {result : Except Errno VirtualAddress} (horderly : m.Orderly (.brk k addr))
    (heq : m.brk k addr = some (result, m')) : ∀ process ∈ m'.processes, Tidy process := by
  obtain ⟨process, hprocess⟩ : ∃ process, m.processes[k]? = some process := by
    simp only [brk, Option.bind_eq_bind, Option.bind_eq_some_iff] at heq
    obtain ⟨process, hprocess, _⟩ := heq
    exact ⟨process, hprocess⟩
  have htidy := h process (List.mem_of_getElem? hprocess)
  by_cases hmore : process.brkAddr < addr
  swap
  · have hearly : addr = 0#32 ∨ addr ≤ process.brkAddr := Or.inr (BitVec.not_lt.mp hmore)
    simp only [brk, hprocess, Option.bind_eq_bind, Option.bind_some, if_pos hearly] at heq
    obtain ⟨_, rfl⟩ := Prod.mk.inj (Option.some.inj heq)
    exact h
  obtain ⟨pages, system, _, _, hends⟩ := brk_cases hprocess hmore heq
  have hvalue := lastPage_of_lt hmore
  have hmore' := BitVec.lt_def.mp hmore
  have hlimit : addr.toNat ≤ 0xFFFFF000 := BitVec.le_def.mp horderly
  have hbase := htidy.le
  have hpos := htidy.pos
  have hnonzero : process.brkAddr ≠ 0#32 := by
    intro hzero
    rw [hzero] at hbase
    exact absurd hbase (Nat.not_le.mpr hpos)
  have hold := lastPage_toNat hnonzero
  have hend : (nextPage (lastPage addr)).toNat = (lastPage addr).toNat + 4096 := by
    rw [nextPage_toNat]
    omega
  have haligned : PageAligned (nextPage (lastPage addr)) := (pageAligned_iff _).mpr (by omega)
  cases hends with
  | insert hname hinsert =>
      have hnew : PageAligned (brkArea process.brkBase (nextPage (lastPage addr))).beginAddr ∧
          PageAligned (brkArea process.brkBase (nextPage (lastPage addr))).endAddr :=
        ⟨htidy.base, haligned⟩
      have hproper : lo (brkArea process.brkBase (nextPage (lastPage addr))) ≤
          hi (brkArea process.brkBase (nextPage (lastPage addr))) := by
        change process.brkBase.toNat ≤ (nextPage (lastPage addr)).toNat
        omega
      refine tidy_set h ⟨htidy.paved.insert hnew hproper hinsert, htidy.base, hpos,
        hbase.trans hmore'.le, fun vma hvma hbrk => ?_⟩
      rcases (mem_of_insert hinsert vma).mp hvma with hvma | ⟨_, rfl⟩
      · exact absurd hbrk (findName_none hname vma hvma)
      · exact hend.le
  | @extend i vma hname hvma hnext =>
      obtain ⟨found, hfound, hbrk⟩ := findName_some hname
      obtain rfl := Option.some.inj (hvma.symm.trans hfound)
      have hmem := List.mem_of_getElem? hvma
      have hheap := htidy.heap vma hmem hbrk
      have hproper := htidy.paved.ordered.proper vma hmem
      refine tidy_set h ⟨htidy.paved.set ⟨(htidy.paved.aligned vma hmem).1, haligned⟩ ?_,
        htidy.base, hpos, hbase.trans hmore'.le, fun other hother hbrk' => ?_⟩
      · exact extend_ordered htidy.paved.ordered hvma (by omega) hnext
      · rcases List.mem_or_eq_of_mem_set hother with hother | rfl
        · have := htidy.heap other hother hbrk'
          change _ ≤ (lastPage addr).toNat + 4096
          omega
        · exact hend.le
  | full _ _ _ => exact h

theorem checkStack_tidy (h : ∀ process ∈ m.processes, Tidy process) {targetAddr : VirtualAddress}
    {grown : Bool} (heq : m.checkStack k targetAddr = some (grown, m')) :
    ∀ process ∈ m'.processes, Tidy process := by
  simp only [checkStack, Option.bind_eq_bind, Option.bind_eq_some_iff] at heq
  obtain ⟨process, hprocess, pos, hpos, left, hleft, heq⟩ := heq
  split at heq
  · obtain ⟨_, rfl⟩ := Prod.ext_iff.mp (Option.some.inj heq)
    exact h
  rename_i huser
  simp only [not_or, BitVec.not_lt, BitVec.not_le] at huser
  simp only [Option.bind_eq_some_iff] at heq
  obtain ⟨vma, hvma, heq⟩ := heq
  split at heq
  swap
  · obtain ⟨_, rfl⟩ := Prod.ext_iff.mp (Option.some.inj heq)
    exact h
  rename_i hgrow
  simp only [Option.bind_eq_some_iff] at heq
  obtain ⟨pages, _, system, _, heq⟩ := heq
  obtain ⟨_, rfl⟩ := Prod.ext_iff.mp (Option.some.inj heq)
  have htidy := h process (List.mem_of_getElem? hprocess)
  have hmem := List.mem_of_getElem? hvma
  have hthis := thisPage_toNat targetAddr
  have hproper : vma.beginAddr.toNat ≤ vma.endAddr.toNat :=
    htidy.paved.ordered.proper vma hmem
  have hbelow := BitVec.lt_def.mp hgrow.1
  have hend := (pageAligned_iff _).mp (htidy.paved.aligned left (List.mem_of_getElem? hleft)).2
  have hleftEnd : left.endAddr.toNat ≤ targetAddr.toNat := BitVec.le_def.mp huser.2.2
  have hstart : PageAligned (thisPage targetAddr) := (pageAligned_iff _).mpr (by omega)
  refine tidy_set h ⟨htidy.paved.set ⟨hstart, (htidy.paved.aligned vma hmem).2⟩ ?_, htidy.base,
    htidy.pos, htidy.le, fun other hother hbrk => ?_⟩
  · refine htidy.paved.ordered.set ?_ ?_ ?_
    · change (thisPage targetAddr).toNat ≤ vma.endAddr.toNat
      omega
    · intro j a hj ha
      change _ ≤ (thisPage targetAddr).toNat
      have hlast : hi left = left.endAddr.toNat := rfl
      rcases Nat.lt_or_eq_of_le (Nat.le_of_lt_succ hj) with hlt | rfl
      · have hle := htidy.paved.ordered.le_of_lt hlt ha hleft
        have hle' := htidy.paved.ordered.proper left (List.mem_of_getElem? hleft)
        omega
      · obtain rfl := Option.some.inj (hleft.symm.trans ha)
        omega
    · intro j b hj hb
      have hhi : hi { vma with beginAddr := thisPage targetAddr } = hi vma := by
        simp only [hi, RangeEntry.endAddr]
      rw [hhi]
      exact htidy.paved.ordered.le_of_lt hj hvma hb
  · rcases List.mem_or_eq_of_mem_set hother with hother | rfl
    · exact htidy.heap other hother hbrk
    · exact htidy.heap vma hmem hbrk

section Requests

variable {r : Request} {out : MapOutcome}

/-- A new area is one of whole pages. -/
theorem fresh_pageLoop (hprocess : m.processes[k]? = some process)
    (hpaved : Paved process.vmSpace) (horderly : m.Orderly (.request k r))
    (hout : r.perform process.vmSpace = some out) {vma : VMA} (hfresh : out.fresh = some vma) :
    PageLoop vma.beginAddr vma.endAddr := by
  have hproper : lo vma ≤ hi vma := by
    have hextends : ∃ fixed space released, Extends fixed space released out := by
      rcases perform_spec hout with ⟨_, hextends⟩ | ⟨_, _, _, _, _, hextends⟩
      · exact ⟨_, _, _, hextends⟩
      · exact ⟨_, _, _, hextends⟩
    obtain ⟨_, _, _, ⟨_, _, hnone⟩ | ⟨_, _, _, _, _, hplace, _, hmap⟩⟩ := hextends
    · cases hnone.symm.trans hfresh
    · obtain ⟨ok, _, _, hnew⟩ := insertMapping_spec hmap
      cases ok with
      | false => cases hnew.symm.trans hfresh
      | true =>
          obtain rfl := Option.some.inj (hnew.symm.trans hfresh)
          exact mmapArea_proper hplace
  obtain ⟨addr, length, prot, flags, place, rfl, hlength, rfl, hplace⟩ :=
    perform_place hout hfresh
  suffices hbegin : PageAligned place from
    .of_aligned hbegin (PageAligned.add hbegin (alignUp_aligned length)) hproper
  rcases hplace with ⟨rfl, haddr⟩ | ⟨⟨hfixed, hprivate⟩, hfind⟩
  · exact haddr
  · rcases findFree_place hfind with rfl | rfl | ⟨e, he, rfl⟩
    · decide
    · exact horderly process hprocess hfixed hprivate hlength hfind
    · exact (hpaved.aligned e he).2

/-- The ranges that are released are whole pages of areas. -/
theorem released_pageLoop (hpaved : Paved process.vmSpace)
    (hout : r.perform process.vmSpace = some out) {range : VirtualAddress × VirtualAddress}
    (hrange : range ∈ out.released) :
    PageLoop range.1 range.2 ∧
      ∃ vma ∈ process.vmSpace, vma.beginAddr ≤ range.1 ∧ range.2 ≤ vma.endAddr := by
  rcases perform_spec hout with ⟨_, hextends⟩ | ⟨addr, size, erased, herases, herase, hextends⟩
  · rw [hextends.released] at hrange
    cases hrange
  · rw [hextends.released] at hrange
    obtain ⟨haddr, hsize⟩ := erases_aligned herases
    obtain ⟨⟨hlower, hupper⟩, hle, _, e, he, hlow, hhigh⟩ :=
      (erase_aligned hpaved.ordered hpaved.aligned haddr hsize herase).2 range hrange
    exact ⟨.of_aligned hlower hupper hle, e, he, BitVec.le_def.mpr hlow, BitVec.le_def.mpr hhigh⟩

/-- What follows the erasure of a request keeps the areas paved and the heap as it is. -/
theorem extends_tidy {fixed : Option VirtualAddress} {space : VMSpace}
    {released : List (VirtualAddress × VirtualAddress)}
    (hextends : Extends fixed space released out)
    (hfresh : ∀ vma, out.fresh = some vma → PageLoop vma.beginAddr vma.endAddr)
    (htidy : Tidy { process with vmSpace := space }) :
    Tidy { process with vmSpace := out.space } := by
  rcases hextends with ⟨hspace, _, _⟩ | ⟨hint, place, length, prot, flags, _, _, hmap⟩
  · rwa [hspace]
  · obtain ⟨ok, hinsert, _, hnew⟩ := insertMapping_spec hmap
    cases ok with
    | false =>
        rcases insert_spec hinsert with ⟨_, hspace⟩ | ⟨hok, _⟩
        · rwa [hspace]
        · cases hok
    | true =>
        have hloop := hfresh _ hnew
        refine ⟨htidy.paved.insert ⟨hloop.alignedLower, hloop.alignedUpper⟩
          (BitVec.le_def.mp hloop.le) hinsert, htidy.base, htidy.pos, htidy.le,
          fun vma hvma hbrk => ?_⟩
        rcases (mem_of_insert hinsert vma).mp hvma with hvma | ⟨_, rfl⟩
        · exact htidy.heap vma hvma hbrk
        · simp [mmapArea] at hbrk

theorem mapRequest_tidy (h : ∀ process ∈ m.processes, Tidy process)
    {result : Except Errno VirtualAddress} (horderly : m.Orderly (.request k r))
    (heq : m.mapRequest k r = some (result, m')) : ∀ process ∈ m'.processes, Tidy process := by
  simp only [mapRequest, Option.bind_eq_bind, Option.bind_eq_some_iff] at heq
  obtain ⟨process, hprocess, out, hout, s₁, _, s₂, _, heq⟩ := heq
  obtain ⟨_, rfl⟩ := Prod.ext_iff.mp (Option.some.inj heq)
  have htidy := h process (List.mem_of_getElem? hprocess)
  have hfresh : ∀ vma, out.fresh = some vma → PageLoop vma.beginAddr vma.endAddr :=
    fun vma => fresh_pageLoop hprocess htidy.paved horderly hout
  refine tidy_set h ?_
  rcases perform_spec hout with ⟨_, hextends⟩ | ⟨addr, size, erased, herases, herase, hextends⟩
  · exact extends_tidy hextends hfresh htidy
  · obtain ⟨haddr, hsize⟩ := erases_aligned herases
    obtain ⟨hparts, _⟩ :=
      erase_aligned htidy.paved.ordered htidy.paved.aligned haddr hsize herase
    refine extends_tidy hextends hfresh ⟨⟨erase_ordered VMSpace.splitRange_keepsBounds
      htidy.paved.ordered herase, fun p hp => (hparts p hp).1⟩, htidy.base, htidy.pos, htidy.le,
      fun p hp hbrk => ?_⟩
    obtain ⟨_, e, he, hname, hle⟩ := hparts p hp
    exact hle.trans (htidy.heap e he (hname.symm.trans hbrk))

end Requests

/-- Every orderly call keeps the areas of all processes paved. -/
theorem step_tidy (h : ∀ process ∈ m.processes, Tidy process) {call : Call}
    (horderly : m.Orderly call) (heq : m.step call = some m') :
    ∀ process ∈ m'.processes, Tidy process := by
  cases call with
  | exec file headers => exact execTask_tidy h horderly heq
  | brk k addr =>
      obtain ⟨⟨_, _⟩, hcall, rfl⟩ := Option.map_eq_some_iff.mp heq
      exact brk_tidy h horderly hcall
  | request k r =>
      obtain ⟨⟨_, _⟩, hcall, rfl⟩ := Option.map_eq_some_iff.mp heq
      exact mapRequest_tidy h horderly hcall
  | checkStack k targetAddr =>
      obtain ⟨⟨_, _⟩, hcall, rfl⟩ := Option.map_eq_some_iff.mp heq
      exact checkStack_tidy h hcall
  | fork k =>
      simp only [step, forkTask, Option.bind_eq_bind, Option.bind_eq_some_iff,
        Option.pure_def] at heq
      obtain ⟨process, hprocess, system, _, heq⟩ := heq
      obtain rfl := Option.some.inj heq
      intro other hother
      rcases List.mem_append.mp hother with hold | hnew
      · exact h other hold
      · obtain rfl := List.mem_singleton.mp hnew
        exact h other (List.mem_of_getElem? hprocess)

/-- In every state that orderly calls lead to, every area of every process is one of
whole pages, and the loops that allocate or release the pages of an area, or of what the
next orderly request inserts and removes, end after one round for each page and touch
no page outside. -/
theorem run_pageLoops {size : Nat} {hsize : size ≤ 0x7FC0} {page : PhysicalAddress → Page}
    {kernel : Page} {calls : List Call}
    (hrun : Run Machine.step Machine.Orderly (boot size hsize page kernel) calls m) :
    ∀ k process, m.processes[k]? = some process →
      (∀ vma ∈ process.vmSpace, PageLoop vma.beginAddr vma.endAddr) ∧
      ∀ r out, m.Orderly (.request k r) → r.perform process.vmSpace = some out →
        (∀ vma, out.fresh = some vma → PageLoop vma.beginAddr vma.endAddr) ∧
        ∀ range ∈ out.released, PageLoop range.1 range.2 ∧
          ∃ vma ∈ process.vmSpace, vma.beginAddr ≤ range.1 ∧ range.2 ≤ vma.endAddr := by
  have htidy : ∀ process ∈ m.processes, Tidy process := hrun.invariant
    (fun _ _ _ htidy horderly hstep => step_tidy htidy horderly hstep) (by simp [boot])
  intro k process hprocess
  have hpaved := (htidy process (List.mem_of_getElem? hprocess)).paved
  refine ⟨fun vma => hpaved.pageLoop, fun r out horderly hout => ⟨fun vma => ?_, fun range => ?_⟩⟩
  · exact fresh_pageLoop hprocess hpaved horderly hout
  · exact released_pageLoop hpaved hout

instance (m : Machine) : (call : Call) → Decidable (m.Orderly call)
  | .exec _ headers => inferInstanceAs (Decidable (∀ header ∈ headers, _))
  | .brk _ addr => inferInstanceAs (Decidable (addr ≤ _))
  | .request k (.mmap _ _ _ _) =>
      inferInstanceAs (Decidable (∀ process ∈ m.processes[k]?, _))
  | .request _ (.munmap _ _) => isTrue trivial
  | .checkStack _ _ => isTrue trivial
  | .fork _ => isTrue trivial

/-- The calls of a program with one segment, among them a mapping with an unaligned
hint that is taken. -/
def orderlyCalls : List Call :=
  [.exec (fun _ => 0#8) [{ type := PHT_Load, offset := 0#32, vaddr := 0x400010#32
                           filesz := 0x10#32, memsz := 0x10#32, flags := 5#32
                           align := 0x1000#32 }],
    .request 0 (.mmap 0x400001#32 0x1001#32 PROT_READ MAP_PRIVATE),
    .brk 0 0x403800#32,
    .checkStack 0 0xBFFFE800#32,
    .request 0 (.munmap 0x401000#32 0x1000#32)]

theorem run_pageLoops_sample :
    ∃ m process, Run Machine.step Machine.Orderly
        (boot 0x40 (by decide) (fun _ _ => 0#32) fun _ => 0#32) orderlyCalls m ∧
      m.processes[0]? = some process ∧ process.vmSpace.length = 5 ∧
      ∀ vma ∈ process.vmSpace, PageLoop vma.beginAddr vma.endAddr := by
  obtain ⟨m, hrun, process, hprocess, hlength⟩ :
      ∃ m ∈ orderlyCalls.foldlM (guardedStep Machine.step Machine.Orderly)
        (boot 0x40 (by decide) (fun _ _ => 0#32) fun _ => 0#32),
        ∃ process ∈ m.processes[0]?, process.vmSpace.length = 5 := by
    decide
  have hrun' := Run.of_foldlM hrun
  exact ⟨m, process, hrun', hprocess, hlength, (run_pageLoops hrun' 0 process hprocess).1⟩

/-- A mapping of one page with an unaligned hint in free memory is placed at the hint.
The new area begins inside a page, and the loop over its pages never meets its end. -/
theorem mmap_unaligned_hint_loops :
    ∃ (m : Machine) (process : Process) (out : MapOutcome) (vma : VMA),
      Run Machine.step anyStep (boot 0x40 (by decide) (fun _ _ => 0#32) fun _ => 0#32)
        [.exec (fun _ => 0#8) []] m ∧
      m.processes[0]? = some process ∧
      (Request.mmap 0x500001#32 0x1000#32 PROT_READ MAP_PRIVATE).perform process.vmSpace =
        some out ∧
      vma ∈ out.space ∧ ¬ PageAligned vma.beginAddr ∧ out.fresh = some vma ∧
      pagesBetween vma.beginAddr vma.endAddr = none := by
  obtain ⟨m, hrun, process, hprocess, out, hout, vma, hfresh, hvma, hbegin, hend⟩ :
      ∃ m ∈ [Call.exec (fun _ => 0#8) []].foldlM (guardedStep Machine.step anyStep)
          (boot 0x40 (by decide) (fun _ _ => 0#32) fun _ => 0#32),
        ∃ process ∈ m.processes[0]?,
        ∃ out ∈ (Request.mmap 0x500001#32 0x1000#32 PROT_READ MAP_PRIVATE).perform
          process.vmSpace,
        ∃ vma ∈ out.fresh, vma ∈ out.space ∧ vma.beginAddr = 0x500001#32 ∧
          vma.endAddr = 0x501001#32 := by
    decide
  have hwalk : pagesBetween 0x500001#32 0x501001#32 = none := by
    cases hpages : pagesBetween 0x500001#32 0x501001#32 with
    | none => rfl
    | some pages => exact absurd (eq_of_walk (by decide) hpages) (by decide)
  refine ⟨m, process, out, vma, Run.of_foldlM hrun, hprocess, hout, hvma, ?_, hfresh, ?_⟩
  · rw [hbegin]
    decide
  · rw [hbegin, hend]
    exact hwalk

end Machine

end Nyan.Task
