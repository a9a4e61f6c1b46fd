import Nyan.Paging.FrameAccounting
import Nyan.Task.ImageAgreement

/-!
Every state that user processes reach from fresh images, as long as their calls are
proper: a page is present if and only if it lies in an area of the process, and it
may be written, now or after it has been copied, if and only if the area says so.
-/

namespace Nyan.Task

open Paging Paging.RangeManager Syscall Library Allocator

namespace Machine

variable {m m' : Machine} {k : Nat} {process : Process} {system : Paging.System}

/-- A new space with a process in it. -/
theorem Sound.append (h : m.Sound) {addr : PhysicalAddress}
    (hlive : m.system.live.length < PhysicalFrames.maxRef) (hgood : system.Good)
    (hspaces : system.spaces = m.system.spaces ++ [some addr])
    (hkept : ∀ l page, l ≠ m.system.spaces.length → UserPageAddr page →
      flag system l page = flag m.system l page)
    (hagree : Agree system m.system.spaces.length process.vmSpace) :
    Sound { system, processes := m.processes ++ [process] } := by
  refine ⟨hgood, ?_, ?_, ?_⟩
  · rw [Paging.System.live_append hspaces]
    exact hlive
  · simp [hspaces, h.count]
  · intro l other hother
    by_cases hl : l < m.processes.length
    · rw [List.getElem?_append_left hl] at hother
      have hne : l ≠ m.system.spaces.length := by
        rw [← h.count]
        omega
      exact (h.agree l other hother).transfer fun page hpage => hkept l page hne hpage
    · rw [List.getElem?_append_right (by omega)] at hother
      obtain ⟨hindex, hvalue⟩ := List.getElem?_eq_some_iff.mp hother
      have hzero : l - m.processes.length = 0 := by simpa using hindex
      obtain rfl : l = m.system.spaces.length := by
        rw [← h.count]
        omega
      obtain rfl : process = other := by simpa [hzero] using hvalue
      exact hagree

theorem forkTask_sound (h : m.Sound) (hproper : m.Proper (.fork k))
    (heq : m.forkTask k = some m') : m'.Sound := by
  simp only [forkTask, Option.bind_eq_bind, Option.bind_eq_some_iff, Option.pure_def] at heq
  obtain ⟨process, hprocess, system, hstep, heq⟩ := heq
  obtain rfl := Option.some.inj heq
  obtain ⟨hgood, ⟨addr, hspaces⟩, hcopies⟩ := Paging.System.forkCOW_spec h.good hstep
  refine h.append hproper hgood hspaces ?_ ?_
  · intro l page hl hpage
    obtain ⟨place, hplace⟩ := userPlace_of_user hpage
    rw [flag_eq hplace, flag_eq hplace, hcopies.kept (l, place) fun heq => absurd heq hl]
  · refine (h.agree k process hprocess).transfer fun page hpage => ?_
    obtain ⟨place, hplace⟩ := userPlace_of_user hpage
    rw [flag_eq hplace, flag_eq hplace, hcopies.copied place trivial]

section Exec

variable {file : BitVec 32 → BitVec 8} {headers : List ProgramHeader} {image image' : Image}

theorem writes_area (header : ProgramHeader) :
    writes header.area = decide (header.flags &&& PHF_Writable ≠ 0#32) := by
  by_cases hexec : header.flags &&& PHF_Executable = 0#32 <;>
    by_cases hwrite : header.flags &&& PHF_Writable = 0#32 <;>
    by_cases hread : header.flags &&& PHF_Readable = 0#32 <;>
    simp [writes, ProgramHeader.area, hexec, hwrite, hread, PROT_EXEC, PROT_WRITE, PROT_READ]

/-- The image while it is being loaded: what there is agrees, and it is apart from
what is still to come. -/
structure Loading (s : Paging.System) (k : Nat) (image : Image) (headers : List ProgramHeader) :
    Prop where
  good : image.system.Good
  touches : Touches k s image.system
  agree : Agree image.system k image.vmSpace
  apart : ∀ header ∈ headers, header.Loads → ∀ e ∈ image.vmSpace,
    hi e ≤ lo header.area ∨ hi header.area ≤ lo e
  stack : ∀ e ∈ image.vmSpace, hi e ≤ lo VMSpace.stackArea ∨ hi VMSpace.stackArea ≤ lo e

theorem Loading.segment {s : Paging.System} {header : ProgramHeader} (hbound : Bounded s.dir)
    (h : Loading s k image (header :: headers)) (hplaced : Placed (header :: headers))
    (heq : loadSegment file k image header = some image') : Loading s k image' headers := by
  have hrest : ∀ other ∈ headers, other.Loads → ∀ e ∈ image.vmSpace,
      hi e ≤ lo other.area ∨ hi other.area ≤ lo e :=
    fun other hother => h.apart other (List.mem_cons_of_mem _ hother)
  unfold loadSegment at heq
  split at heq
  · obtain rfl := Option.some.inj heq
    exact ⟨h.good, h.touches, h.agree, hrest, h.stack⟩
  rename_i hloads
  rw [not_not] at hloads
  simp only [Option.bind_eq_bind, Option.bind_eq_some_iff, Option.pure_def, Prod.exists] at heq
  obtain ⟨pages, hpages, system, hfold, ok, vmSpace, hinsert, heq⟩ := heq
  obtain rfl := Option.some.inj heq
  obtain ⟨hbase, hproper, htop⟩ := hplaced.1 header List.mem_cons_self hloads
  have hproper' : lo header.area ≤ hi header.area := BitVec.le_def.mp hproper
  have hbase' : VMSpace.Base.toNat ≤ lo header.area := BitVec.le_def.mp hbase
  have htop' : hi header.area ≤ 0xBFFFF000 := BitVec.le_def.mp htop
  have hTop : VMSpace.Top.toNat = 0xC0000000 := by decide
  have haligned : PageAligned header.area.beginAddr ∧ PageAligned header.area.endAddr := by
    constructor
    · rw [pageAligned_iff]
      change (alignDown header.vaddr).toNat % 4096 = 0
      rw [alignDown_toNat]
      omega
    · rw [pageAligned_iff]
      exact alignUp_aligned _
  have hapart := h.apart header List.mem_cons_self hloads
  have hbound' : Bounded image.system.dir := by
    rw [Paging.System.dir_congr h.touches.spaces]
    exact hbound
  obtain ⟨hgood, hassigns⟩ := h.agree.fill h.good hbound' haligned hproper' hbase' (by omega)
    hapart (fun _ _ _ hgood haddr habsent hload => by
      rw [writes_area]
      exact loadPage_assigns hgood haddr habsent hload) hpages hfold
  have hmem := mem_of_insert hinsert
  refine ⟨hgood, h.touches.trans hassigns.touches,
    h.agree.add haligned hproper' (by simp [ProgramHeader.area]) hapart hassigns hinsert, ?_, ?_⟩
  · intro other hother hothers e he
    rcases (hmem e).mp he with he | ⟨_, rfl⟩
    · exact hrest other hother hothers e he
    · have hpair := (List.pairwise_cons.mp hplaced.2).1 other hother hloads hothers
      exact hpair.imp BitVec.le_def.mp BitVec.le_def.mp
  · intro e he
    rcases (hmem e).mp he with he | ⟨_, rfl⟩
    · exact h.stack e he
    · exact Or.inl htop'

theorem Loading.segments {s : Paging.System} (hbound : Bounded s.dir) (h : Loading s k image headers)
    (hplaced : Placed headers)
    (heq : headers.foldlM (loadSegment file k) image = some image') :
    Loading s k image' [] := by
  induction headers generalizing image with
  | nil =>
      obtain rfl : image = image' := by simpa using heq
      exact h
  | cons header rest ih =>
      simp only [List.foldlM_cons, Option.bind_eq_bind, Option.bind_eq_some_iff] at heq
      obtain ⟨next, hnext, heq⟩ := heq
      refine ih (h.segment hbound hplaced hnext) ⟨?_, (List.pairwise_cons.mp hplaced.2).2⟩ heq
      exact fun other hother => hplaced.1 other (List.mem_cons_of_mem _ hother)

/-- A new space has the two sentinels and no page. -/
theorem Loading.init {s : Paging.System} {addr : VirtualAddress} (hgood : s.Good)
    (hnone : ∀ page, UserPageAddr page → flag s k page = none) (hplaced : Placed headers) :
    Loading s k { system := s, vmSpace := VMSpace.init, brkAddr := addr } headers := by
  have hBase : VMSpace.Base.toNat = 0x400000 := by decide
  have hTop : VMSpace.Top.toNat = 0xC0000000 := by decide
  have hmem : ∀ e ∈ VMSpace.init, hi e ≤ VMSpace.Base.toNat ∨ VMSpace.Top.toNat ≤ lo e := by
    decide
  have haligned : ∀ e ∈ VMSpace.init, PageAligned e.beginAddr ∧ PageAligned e.endAddr := by decide
  have hheap : ∀ e ∈ VMSpace.init, e.name = "brk" → writes e = true := by decide
  refine ⟨hgood, Touches.refl k s, ⟨init_space_repInv, haligned, hheap, ?_⟩, ?_, ?_⟩
  · intro page hpage hlow w
    rw [hnone page hpage]
    refine iff_of_false (by simp) ?_
    rintro ⟨e, he, hin, _⟩
    have hhigh := BitVec.lt_def.mp hpage.2
    rcases hmem e he with hle | hle <;> omega
  · intro header hheader hloads e he
    obtain ⟨hbase, hproper, htop⟩ := hplaced.1 header hheader hloads
    have hbase' : VMSpace.Base.toNat ≤ lo header.area := BitVec.le_def.mp hbase
    have htop' : hi header.area ≤ 0xBFFFF000 := BitVec.le_def.mp htop
    rcases hmem e he with hle | hle <;> omega
  · intro e he
    have hlo : lo VMSpace.stackArea = 0xBFFFF000 := by decide
    have hhi : hi VMSpace.stackArea = 0xC0000000 := by decide
    rcases hmem e he with hle | hle <;> omega

theorem execTask_sound (h : m.Sound) (hproper : m.Proper (.exec file headers))
    (heq : m.execTask file headers = some m') : m'.Sound := by
  simp only [execTask, loadElf, Option.bind_eq_bind, Option.bind_eq_some_iff, Option.pure_def,
    Prod.exists] at heq
  obtain ⟨image, ⟨s₁, hfork, hload⟩, ok, vmSpace, hinsert, system, halloc, heq⟩ := heq
  obtain rfl := Option.some.inj heq
  obtain ⟨hlive, hplaced⟩ := hproper
  obtain ⟨hgood₁, ⟨addr, hspaces⟩, hmapping⟩ := Paging.System.fork_spec h.good hfork
  have hbound₁ : Bounded s₁.dir := by
    refine Paging.System.bounded_of_live ?_
    rw [Paging.System.live_append hspaces]
    exact hlive
  have hnone : ∀ page, UserPageAddr page → flag s₁ m.system.spaces.length page = none := by
    intro page hpage
    rw [flag_of_mapping hmapping _ hpage]
    exact flag_no_dir m.system.dir_length page
  have hloaded := (Loading.init hgood₁ hnone hplaced).segments hbound₁ hplaced hload
  have hlo : lo VMSpace.stackArea = 0xBFFFF000 := by decide
  have hhi : hi VMSpace.stackArea = 0xC0000000 := by decide
  have hpage : prevPage 0xC0000000#32 = 0xBFFFF000#32 := by decide
  have hvalue : (0xBFFFF000#32).toNat = 0xBFFFF000 := rfl
  rw [hpage] at halloc
  have huser : UserPageAddr 0xBFFFF000#32 := ⟨by decide, by decide⟩
  have habsent : flag image.system m.system.spaces.length 0xBFFFF000#32 = none := by
    refine hloaded.agree.absent huser (by decide) fun e he => ?_
    rcases hloaded.stack e he with hle | hle <;> omega
  obtain ⟨hgood, hassigns⟩ := alloc_assigns hloaded.good huser habsent halloc
  have hstack : Assigns m.system.spaces.length
      (fun page => lo VMSpace.stackArea ≤ page.toNat ∧ page.toNat < hi VMSpace.stackArea)
      (some (writes VMSpace.stackArea)) image.system system := by
    refine hassigns.congr fun page huserPage => ?_
    have halign := (pageAligned_iff page).mp huserPage.1
    rw [hlo, hhi, ← BitVec.toNat_inj]
    omega
  have htouches := hloaded.touches.trans hassigns.touches
  refine h.append hlive hgood (htouches.spaces.trans hspaces) ?_
    (hloaded.agree.add (by decide) (by decide) (by decide) hloaded.stack hstack hinsert)
  intro l page hl huserPage
  rw [htouches.kept l page hl huserPage, flag_of_mapping hmapping l huserPage]

end Exec

/-- Every proper call keeps the areas and the page tables of all processes in
agreement. -/
theorem step_sound (h : m.Sound) {call : Call} (hproper : m.Proper call)
    (heq : m.step call = some m') : m'.Sound := by
  cases call with
  | exec file headers => exact execTask_sound h hproper heq
  | brk k addr =>
      obtain ⟨⟨_, _⟩, hcall, rfl⟩ := Option.map_eq_some_iff.mp heq
      exact brk_sound h hproper hcall
  | request k r =>
      obtain ⟨⟨_, _⟩, hcall, rfl⟩ := Option.map_eq_some_iff.mp heq
      exact mapRequest_sound h hproper hcall
  | checkStack k targetAddr =>
      obtain ⟨⟨_, _⟩, hcall, rfl⟩ := Option.map_eq_some_iff.mp heq
      exact checkStack_sound h hproper hcall
  | fork k => exact forkTask_sound h hproper heq

/-- No process yet. -/
def boot (size : Nat) (hsize : size ≤ 0x7FC0) (page : PhysicalAddress → Page) (kernel : Page) :
    Machine where
  system := Paging.System.boot size hsize page kernel
  processes := []

theorem boot_sound (size : Nat) (hsize : size ≤ 0x7FC0) (page : PhysicalAddress → Page)
    (kernel : Page) : (boot size hsize page kernel).Sound :=
  ⟨Paging.System.boot_good size hsize page kernel, by simp [boot, Paging.System.boot, Paging.System.live], rfl,
    by simp [boot]⟩

end Machine

namespace Machine

instance (m : Machine) : (call : Call) → Decidable (m.Proper call)
  | .exec _ headers => inferInstanceAs (Decidable (_ ∧ Placed headers))
  | .brk k addr => inferInstanceAs (Decidable (∀ process ∈ m.processes[k]?, HeapReady process addr))
  | .request _ r => inferInstanceAs (Decidable (Harmless r ∧ PlacedRequest r))
  | .checkStack k targetAddr =>
      inferInstanceAs (Decidable (∀ process ∈ m.processes[k]?, StackWritable process targetAddr))
  | .fork _ => inferInstanceAs (Decidable (_ < _))

end Machine

end Nyan.Task
