import Nyan.Library.Run
import Nyan.Paging.AddressSpace

/-!
The counters of physical frames over whole runs. With at most 256 live address
spaces, the limit on tasks, every counter is the number of directories, tables and
pages that name its frame, and the bitmap has the frames whose counter is not zero.
A space that is torn down gives back every frame that only it used.
-/

namespace Nyan.Paging

open Allocator Allocator.PoolManager Library

namespace System

variable {s s' : System} {k : Nat}

/-- `__max_task`. -/
def maxTask : Nat := 256

/-- The references to a frame: the directory of a live space, a present entry of a
directory below slot 768, a present entry of such a table. -/
def references (s : System) (frame : PhysicalAddress) : Set Slot := holders s.layout.slots frame

/-- Every counter is exact, and the bitmap marks the frames in use. -/
structure Accounted (s : System) : Prop where
  exact : ∀ offset < s.memory.frames.pool.frameCount,
    (s.references (pageAt offset)).encard = (s.memory.frames.info offset).toNat
  marked : ∀ offset < s.memory.frames.pool.frameCount,
    (s.memory.frames.pool.isSet offset = true ↔ 0 < (s.memory.frames.info offset).toNat)

theorem Good.accounted (h : s.Good) (hlive : s.live.length ≤ maxTask) : s.Accounted := by
  have hbound : ∀ count, Exact s.layout.slots count → ∀ frame, count frame ≤ maxTask := by
    intro count hexact frame
    refine (hexact.count_le Slot.space s.live.toFinset (fun x hx => ?_) fun x y hx hy hspace =>
      (h.shared x y frame hx hy).eq_of_space hspace).trans
        ((List.toFinset_card_le _).trans hlive)
    have hdir := h.represents.dir_of_slot hx
    rw [List.mem_toFinset]
    exact mem_live.mpr hdir
  obtain ⟨count, htracks, hexact⟩ := h.counted
  have hinfo : ∀ offset < s.memory.frames.pool.frameCount,
      (s.memory.frames.info offset).toNat = count (pageAt offset) := by
    intro offset hoffset
    have hle := hbound count hexact (pageAt offset)
    unfold maxTask at hle
    rw [htracks.info offset hoffset, BitVec.toNat_ofNat]
    omega
  refine ⟨fun offset hoffset => ?_, fun offset hoffset => ?_⟩
  · rw [hinfo offset hoffset]
    exact hexact (pageAt offset)
  · rw [hinfo offset hoffset, htracks.isSet offset hoffset, Nat.pos_iff_ne_zero]

theorem boot_good (size : Nat) (hsize : size ≤ 0x7FC0) (page : PhysicalAddress → Page)
    (kernel : Page) : (boot size hsize page kernel).Good := by
  have hdir : ∀ k, (boot size hsize page kernel).dir k = none := fun k => by simp [dir, boot]
  have hslots : ∀ x, (boot size hsize page kernel).layout.slots x = none := by
    intro x
    cases x <;> simp [Layout.slots, layout, hdir]
  refine ⟨⟨?_, ?_, ?_, ?_⟩, ?_, PhysicalFrames.Counted.load size hsize hslots, ?_⟩
  · intro k i addr hk
    cases (hdir k).symm.trans hk
  · intro k i j addr hp
    cases (hslots (.table (k, i))).symm.trans hp
  · exact fun k i _ => hslots (.table (k, i))
  · exact fun k i j _ => by simp [layout, hdir]
  · intro x y frame hx
    cases (hslots x).symm.trans hx
  · intro p q w w' hp
    simp [layout, hdir] at hp

/-- In every run the invariant holds, and the number of live spaces stays within
the limit. -/
theorem run_good {limit size : Nat} (hlimit : limit ≤ PhysicalFrames.maxRef)
    {hsize : size ≤ 0x7FC0} {page : PhysicalAddress → Page} {kernel : Page} {acts : List Action}
    (hrun : Run step (Allowed limit) (boot size hsize page kernel) acts s) :
    s.Good ∧ s.live.length ≤ limit := by
  refine hrun.invariant (P := fun s => s.Good ∧ s.live.length ≤ limit) ?_
    ⟨boot_good size hsize page kernel, Nat.zero_le _⟩
  rintro s a s' ⟨hgood, hlive⟩ hallowed heq
  obtain ⟨hgood', heffect⟩ := step_spec hgood hlimit hlive hallowed heq
  exact ⟨hgood', heffect.live hallowed hlive⟩

/-- Space `k` gives up references, and the others keep theirs. -/
structure Drops (k : Nat) (s s' : System) : Prop where
  kept : ∀ x, x.space ≠ k → s'.layout.slots x = s.layout.slots x
  old : ∀ x frame, s'.layout.slots x = some frame → s.layout.slots x = some frame

theorem Drops.trans {s'' : System} (h : Drops k s s') (h' : Drops k s' s'') : Drops k s s'' :=
  ⟨fun x hx => (h'.kept x hx).trans (h.kept x hx),
    fun x frame hx => h.old x frame (h'.old x frame hx)⟩

/-- `freeTask`: the pages of the areas are freed, then the tables, and the
directory is released. -/
def teardown (k : Nat) (pages : List VirtualAddress) : List Action :=
  pages.map (.freePage k) ++ [.freePageTables k, .release k]

section Teardown

variable (h : s.Good) (hbound : Bounded s.dir) {dir : PhysicalAddress} (hk : s.dir k = some dir)
include h hbound hk

theorem freePage_drops {addr : VirtualAddress} (huser : userPlace addr ≠ none) :
    ∃ s', s.step (.freePage k addr) = some s' ∧ s'.Good ∧ Drops k s s' ∧
      s'.spaces = s.spaces := by
  obtain ⟨place, hplace⟩ := Option.ne_none_iff_exists'.mp huser
  obtain ⟨hloc, _⟩ := userPlace_eq hplace
  obtain ⟨hinv, _⟩ := UserDirectory.freePage_spec h hbound hk hloc
  refine ⟨{ s with memory := UserDirectory.freePage s.memory dir addr }, by simp [step, hk],
    (good_keep hinv rfl).1, ?_, rfl⟩
  have hlayout := layout_keep hinv rfl
  constructor
  · intro x hx
    rw [hlayout, Layout.slots_setEntry, Function.update_of_ne]
    rintro rfl
    exact hx rfl
  · intro x frame hx
    rw [hlayout, Layout.slots_setEntry] at hx
    by_cases hpage : x = .page (k, place.1, tablePageLoc addr)
    · simp [hpage] at hx
    · rwa [Function.update_of_ne hpage] at hx

theorem freePageTables_drops :
    ∃ s', s.step (.freePageTables k) = some s' ∧ s'.Good ∧ Drops k s s' ∧ s'.spaces = s.spaces ∧
      ∀ i, s'.layout.table (k, i) = none := by
  obtain ⟨hinv, _⟩ := UserDirectory.freePageTables_spec h hbound hk
  have hlayout := layout_keep hinv rfl
  refine ⟨{ s with memory := UserDirectory.freePageTables s.memory dir },
    by simp only [step, hk, Option.bind_eq_bind, Option.bind_some, Option.pure_def],
    (good_keep hinv rfl).1, ?_, rfl, ?_⟩
  · constructor
    · intro x hx
      rw [hlayout]
      cases x with
      | directory l => rfl
      | table p =>
          have hp : p.1 ≠ k := hx
          simp [Layout.slots, Layout.without, hp]
      | page q =>
          have hq : q.1 ≠ k := hx
          simp [Layout.slots, Layout.without, hq]
    · intro x frame hx
      rw [hlayout] at hx
      exact Layout.slots_without hx
  · intro i
    rw [hlayout]
    simp [Layout.without]

theorem release_drops (hnone : ∀ i, s.layout.table (k, i) = none) :
    ∃ s', s.step (.release k) = some s' ∧ s'.Good ∧ Drops k s s' ∧
      s'.spaces = s.spaces.set k none := by
  have hinv := Inv.dropDir h (h.few hbound) hk hnone
  let s' : System :=
    { s with memory := s.memory.physicalFrameRelease dir, spaces := s.spaces.set k none }
  have hdir : (s.layout.setDir k none).dir = s'.dir := (dir_set rfl).symm
  have hlayout : s.layout.setDir k none = s'.layout := eq_layout hinv.represents hdir
  refine ⟨s', by simp [step, hk, s'], (good_of (s := s') hinv hdir).1, ?_, rfl⟩
  constructor
  · intro x hx
    rw [← hlayout, Layout.slots_setDir, Function.update_of_ne]
    rintro rfl
    exact hx rfl
  · intro x frame hx
    rw [← hlayout, Layout.slots_setDir] at hx
    by_cases hroot : x = .directory k
    · simp [hroot] at hx
    · rwa [Function.update_of_ne hroot] at hx

theorem freePages_drops {pages : List VirtualAddress}
    (huser : ∀ addr ∈ pages, userPlace addr ≠ none) :
    ∃ s', (pages.map (Action.freePage k)).foldlM step s = some s' ∧ s'.Good ∧ Drops k s s' ∧
      s'.spaces = s.spaces := by
  induction pages generalizing s with
  | nil => exact ⟨s, rfl, h, ⟨fun _ _ => rfl, fun _ _ => id⟩, rfl⟩
  | cons addr rest ih =>
      obtain ⟨s₁, hstep, h₁, hdrops₁, hspaces₁⟩ :=
        freePage_drops h hbound hk (huser addr (List.mem_cons_self ..))
      have hdir₁ := dir_congr hspaces₁
      obtain ⟨s₂, hrest, h₂, hdrops₂, hspaces₂⟩ := ih h₁ (by rwa [hdir₁]) (by rwa [hdir₁])
        fun addr' haddr => huser addr' (List.mem_cons_of_mem _ haddr)
      exact ⟨s₂, by simp [hstep, hrest], h₂, hdrops₁.trans hdrops₂, hspaces₂.trans hspaces₁⟩

/-- A torn down space has no references left, and the other spaces have all of
theirs. -/
theorem teardown_spec {pages : List VirtualAddress}
    (huser : ∀ addr ∈ pages, userPlace addr ≠ none) :
    ∃ s', (teardown k pages).foldlM step s = some s' ∧ s'.Good ∧
      s'.live.length ≤ s.live.length ∧
      ∀ frame, s'.references frame = {x ∈ s.references frame | x.space ≠ k} := by
  obtain ⟨s₁, hpages, h₁, hdrops₁, hspaces₁⟩ := freePages_drops h hbound hk huser
  have hdir₁ := dir_congr hspaces₁
  obtain ⟨s₂, htables, h₂, hdrops₂, hspaces₂, hnone⟩ :=
    freePageTables_drops h₁ (by rwa [hdir₁]) (by rwa [hdir₁])
  have hdir₂ := (dir_congr hspaces₂).trans hdir₁
  obtain ⟨s₃, hrelease, h₃, hdrops₃, hspaces₃⟩ :=
    release_drops h₂ (by rwa [hdir₂]) (by rwa [hdir₂]) hnone
  have hdrops := (hdrops₁.trans hdrops₂).trans hdrops₃
  have hspaces : s₃.spaces = s.spaces.set k none := by rw [hspaces₃, hspaces₂, hspaces₁]
  refine ⟨s₃, by simp [teardown, hpages, htables, hrelease], h₃, live_set_le hspaces,
    fun frame => ?_⟩
  ext x
  constructor
  · intro hx
    refine ⟨hdrops.old x frame hx, ?_⟩
    rintro rfl
    refine h₃.represents.dir_of_slot hx ?_
    exact (congrFun (dir_set hspaces) _).trans (Function.update_self ..)
  · rintro ⟨hx, hspace⟩
    exact (hdrops.kept x hspace).trans hx

end Teardown

/-- With at most 256 live spaces, every counter is exact in every state of every
run. A space that is torn down leaves the references of the other spaces and no
others, all counters are exact then too, and each frame that only this space
referred to is free again. -/
theorem run_accounted {size : Nat} {hsize : size ≤ 0x7FC0} {page : PhysicalAddress → Page}
    {kernel : Page} {acts : List Action}
    (hrun : Run step (Allowed maxTask) (boot size hsize page kernel) acts s) :
    s.Accounted ∧
    ∀ k pages, s.dir k ≠ none → (∀ addr ∈ pages, userPlace addr ≠ none) →
      ∃ s', (teardown k pages).foldlM step s = some s' ∧ s'.Accounted ∧
        (∀ frame, s'.references frame = {x ∈ s.references frame | x.space ≠ k}) ∧
        ∀ offset < s'.memory.frames.pool.frameCount,
          (∀ x ∈ s.references (pageAt offset), x.space = k) →
            s'.memory.frames.pool.isSet offset = false := by
  obtain ⟨hgood, hlive⟩ := run_good (by decide) hrun
  refine ⟨hgood.accounted hlive, fun k pages hk huser => ?_⟩
  obtain ⟨dir, hdir⟩ := Option.ne_none_iff_exists'.mp hk
  obtain ⟨s', hfold, hgood', hlive', href⟩ :=
    teardown_spec hgood (bounded_of_live (hlive.trans (by decide))) hdir huser
  have haccounted := hgood'.accounted (hlive'.trans hlive)
  refine ⟨s', hfold, haccounted, href, fun offset hoffset honly => ?_⟩
  have hempty : s'.references (pageAt offset) = ∅ := by
    rw [href]
    exact Set.eq_empty_iff_forall_notMem.mpr fun x hx => hx.2 (honly x hx.1)
  have hcount := haccounted.exact offset hoffset
  rw [hempty, Set.encard_empty] at hcount
  have hzero : (s'.memory.frames.info offset).toNat = 0 := by exact_mod_cast hcount.symm
  rw [← Bool.not_eq_true, haccounted.marked offset hoffset, hzero]
  exact Nat.lt_irrefl 0

/-- Two spaces with a page each; one page is written, the other freed. -/
theorem run_accounted_two_spaces :
    ∃ acts s, acts.length = 6 ∧ Run step (Allowed maxTask)
      (boot 1 (by decide) (fun _ _ => 0#32) fun _ => 0#32) acts s ∧
      s.live = [0, 1] ∧ s.Accounted := by
  let acts : List Action := [.fork, .alloc 0 0x400000#32 true, .fork, .alloc 1 0x400000#32 false,
    .write 0 0x400000#32 3 5#32 7#32, .freePage 1 0x400000#32]
  obtain ⟨s, hfold, hlive⟩ : ∃ s ∈ acts.foldlM (guardedStep step (Allowed maxTask))
      (boot 1 (by decide) (fun _ _ => 0#32) fun _ => 0#32), s.live = [0, 1] := by
    decide +kernel
  have hrun := Run.of_foldlM hfold
  exact ⟨acts, s, rfl, hrun, hlive, (run_accounted hrun).1⟩

end System

end Nyan.Paging
