import Nyan.Paging.AddressSpace

/-!
Pages that are allocated over whatever is there. `alloc` writes a new frame into an
entry without a look at what the entry holds, so an entry that was present loses its
frame: no entry names the frame any more, and its counter stays. The counters are
then no longer exact, as `Inv` has them, but they still are no less than the number
of references. That is `Guarded`, and it is enough for a new frame to be one that no
directory, table or page is in.
-/

namespace Nyan.Paging

open Allocator Library

variable {m m' : Memory} {L : Layout} {k : Nat} {i : UserLoc} {addr dir : PhysicalAddress}

structure Guarded (m : Memory) (L : Layout) : Prop where
  separate : Separate m L
  covers : m.frames.Covers L.slots

theorem Inv.guarded (h : Inv m L) (hbound : Bounded L.dir) : Guarded m L :=
  ⟨h.separate, h.counted.covers (h.few hbound)⟩

/-- A page of zeros. -/
def zeroPage (writable : Bool) : UserPage where
  content := fun _ => 0#32
  writable := writable

namespace UserDirectory

theorem ensure_guarded (h : Guarded m L) (hk : L.dir k = some dir) {attr : BitVec 16}
    (hattr : AttrOk attr) (hpresent : attr.getLsbD 0 = true)
    (heq : ensure m dir i.loc attr = some m') :
    ∃ L', Guarded m' L' ∧ L'.dir = L.dir ∧ m'.mapping L' = m.mapping L ∧
      L'.table (k, i) = some (entryAt (m'.page dir i.loc)) ∧
      ∀ frame, m'.frames.Free frame → m.frames.Free frame := by
  unfold ensure at heq
  split at heq
  · rename_i hold
    obtain rfl := Option.some.inj heq
    exact ⟨L, h, rfl, rfl, h.separate.represents.table_eq hk hold, fun _ => id⟩
  · rename_i hold
    simp only [Option.bind_eq_bind, Option.bind_eq_some_iff, Option.pure_def, Option.some_inj,
      Prod.exists] at heq
    obtain ⟨addr, m₁, halloc, rfl⟩ := heq
    obtain ⟨frames, hframes, rfl⟩ := Memory.physicalFrameAlloc_eq halloc
    obtain ⟨haligned, hunused, hcovers⟩ := h.covers.alloc hframes
    obtain ⟨hseparate, hmapping, hat⟩ := h.separate.newTable hk
      (h.separate.represents.table_none hk hold) ⟨haligned, hunused⟩ frames hattr hpresent
    refine ⟨_, ⟨hseparate, ?_⟩, rfl, hmapping, ?_, (PhysicalFrames.alloc_free hframes).2⟩
    · rw [Layout.slots_setTable]
      exact hcovers (.table (k, i))
    · rw [Memory.setWord_self, hat]
      exact Function.update_self ..

/-- The page is replaced by a new one, whether it was there or not. -/
theorem alloc_guarded (h : Guarded m L) (hk : L.dir k = some dir) {va : VirtualAddress}
    (hloc : tableLoc va = i.loc) {writable : Bool}
    (heq : alloc m dir va writable = some (addr, m')) :
    ∃ L', Guarded m' L' ∧ L'.dir = L.dir ∧ m.frames.Free addr ∧
      m'.mapping L' = Function.update (m.mapping L) (k, i, tablePageLoc va)
        (some (addr, zeroPage writable)) ∧
      ∀ frame, m'.frames.Free frame → m.frames.Free frame := by
  simp only [alloc, hloc, Table.alloc, Option.bind_eq_bind, Option.bind_eq_some_iff,
    Option.pure_def, Option.some_inj, Prod.exists, Prod.mk.injEq] at heq
  obtain ⟨m₁, hensure, _, _, ⟨f, m₂, halloc, rfl, rfl⟩, rfl, rfl⟩ := heq
  obtain ⟨L₁, h₁, hdir₁, hmapping₁, htable₁, hfree₁⟩ :=
    ensure_guarded h hk (by decide) (by decide) hensure
  obtain ⟨frames, hframes, rfl⟩ := Memory.physicalFrameAlloc_eq halloc
  obtain ⟨haligned, hunused, hcovers⟩ := h₁.covers.alloc hframes
  obtain ⟨hfree, hless⟩ := PhysicalFrames.alloc_free hframes
  have hfresh : L₁.Fresh f := ⟨haligned, hunused⟩
  obtain ⟨hat, hpresent, hwrite, hcow⟩ := pageAttr_flags haligned writable
  have hthis : thisPage f = f := haligned
  obtain ⟨hseparate, hmapping, honly⟩ := h₁.separate.setFresh htable₁ (tablePageLoc va) hfresh hat
    hpresent frames
  rw [hthis]
  refine ⟨_, ⟨hseparate.setPage hfresh.not_dir hfresh.not_table _, ?_⟩, hdir₁, hfree₁ f hfree,
    ?_, fun frame hframe => hfree₁ frame (hless frame hframe)⟩
  · rw [Layout.slots_setEntry, Option.map_some, hat]
    exact hcovers (.page (k, i, tablePageLoc va))
  · rw [Inv.mapping_store (Function.update_self ..) hat honly, hmapping, hmapping₁,
      Function.update_idem]
    simp [zeroPage, Memory.userPage, hwrite, hcow]

/-- Every allocation takes a frame, wherever the page is. -/
theorem alloc_takes {va : VirtualAddress} {writable : Bool}
    (heq : alloc m dir va writable = some (addr, m')) :
    PhysicalFrames.Draws m.frames m'.frames ∧ PhysicalFrames.Taken m.frames m'.frames := by
  simp only [alloc, Table.alloc, Option.bind_eq_bind, Option.bind_eq_some_iff,
    Option.pure_def, Option.some_inj, Prod.exists, Prod.mk.injEq] at heq
  obtain ⟨m₁, hensure, _, _, ⟨f, m₂, halloc, rfl, rfl⟩, rfl, rfl⟩ := heq
  have hfirst : PhysicalFrames.Draws m.frames m₁.frames := by
    unfold ensure at hensure
    split at hensure
    · obtain rfl := Option.some.inj hensure
      exact .refl _
    · simp only [Option.bind_eq_bind, Option.bind_eq_some_iff, Option.pure_def, Option.some_inj,
        Prod.exists] at hensure
      obtain ⟨_, _, htable, rfl⟩ := hensure
      obtain ⟨frames, hframes, rfl⟩ := Memory.physicalFrameAlloc_eq htable
      exact (PhysicalFrames.alloc_draws hframes).1
  obtain ⟨frames, hframes, rfl⟩ := Memory.physicalFrameAlloc_eq halloc
  obtain ⟨hdraws, htaken⟩ := PhysicalFrames.alloc_draws hframes
  exact ⟨hfirst.trans hdraws, .before hfirst htaken⟩

end UserDirectory

namespace System

variable {s s' : System} {k : Nat} {place : UserLoc × Fin 1024}

/-- No reference is missing from the counters. -/
def Safe (s : System) : Prop := Guarded s.memory s.layout

theorem Good.safe (h : s.Good) (hbound : Bounded s.dir) : s.Safe := Inv.guarded h hbound

theorem safe_of (h : Guarded s.memory L) (hdir : L.dir = s.dir) :
    s.Safe ∧ s.mapping = s.memory.mapping L := by
  obtain rfl := eq_layout h.separate.represents hdir
  exact ⟨h, rfl⟩

/-- A frame that is in use is not handed out. -/
theorem Safe.not_free (h : s.Safe) {q : Spot} {frame : PhysicalAddress} {page : UserPage}
    (hq : s.mapping q = some (frame, page)) : ¬ s.memory.frames.Free frame := by
  obtain ⟨word, hword, hframe⟩ := Option.map_eq_some_iff.mp hq
  refine h.covers.not_free (x := .page q) ?_
  simp [Layout.slots, hword, (Prod.mk.inj hframe).1]

/-- A page is replaced by zeros in a frame that was free. -/
theorem Safe.alloc (h : s.Safe) {addr : VirtualAddress} {writable : Bool}
    (hplace : userPlace addr = some place) (heq : s.step (.alloc k addr writable) = some s') :
    s'.Safe ∧ s'.spaces = s.spaces ∧
      (∃ frame, s.memory.frames.Free frame ∧ s'.mapping = Function.update s.mapping (k, place)
        (some (frame, zeroPage writable))) ∧
      ∀ frame, s'.memory.frames.Free frame → s.memory.frames.Free frame := by
  simp only [step, Option.bind_eq_bind, Option.bind_eq_some_iff, Option.pure_def, Option.some_inj,
    Prod.exists] at heq
  obtain ⟨dir, hk, frame, memory, halloc, rfl⟩ := heq
  obtain ⟨hloc, hpage⟩ := userPlace_eq hplace
  obtain ⟨L, hguarded, hdir, hfree, hmapping, hless⟩ :=
    UserDirectory.alloc_guarded h hk hloc halloc
  obtain ⟨hsafe, heq⟩ := safe_of (s := { s with memory }) hguarded hdir
  refine ⟨hsafe, rfl, ⟨frame, hfree, ?_⟩, hless⟩
  rw [hpage] at hmapping
  exact heq.trans hmapping

/-- A page that is filled through the kernel's mapping right after it was allocated. -/
theorem Safe.allocFilled (h : s.Safe) {addr : VirtualAddress} {writable : Bool}
    {dir frame : PhysicalAddress} {memory : Memory} (hplace : userPlace addr = some place)
    (hk : s.dir k = some dir)
    (halloc : UserDirectory.alloc s.memory dir addr writable = some (frame, memory))
    (content : Page) :
    ({ s with memory := memory.setPage frame content } : System).Safe ∧
      ({ s with memory := memory.setPage frame content } : System).mapping =
        Function.update s.mapping (k, place) (some (frame, ⟨content, writable⟩)) := by
  obtain ⟨hloc, hpage⟩ := userPlace_eq hplace
  obtain ⟨L, hguarded, hdir, hfree, hmapping, _⟩ := UserDirectory.alloc_guarded h hk hloc halloc
  rw [hpage] at hmapping
  have hself := congrFun hmapping (k, place)
  rw [Function.update_self] at hself
  obtain ⟨word, hentry, hword⟩ := Option.map_eq_some_iff.mp hself
  obtain ⟨hframe, huser⟩ := Prod.mk.inj hword
  have honly : ∀ q w, L.entry q = some w → entryAt w = frame → q = (k, place) := by
    intro q w hq hat
    by_contra hne
    have hother := congrFun hmapping q
    rw [Function.update_of_ne hne, Memory.mapping, hq, Option.map_some, hat] at hother
    exact h.not_free hother.symm hfree
  have hstored : Guarded (memory.setPage frame content) L :=
    ⟨hguarded.separate.setPage
      (fun l hl => hguarded.separate.dir_ne_page hl hentry hframe.symm)
      (fun p hp => hguarded.separate.table_ne_page hp hentry hframe.symm) _, hguarded.covers⟩
  obtain ⟨hsafe, hnew⟩ := safe_of
    (s := { s with memory := memory.setPage frame content }) hstored hdir
  refine ⟨hsafe, ?_⟩
  rw [hnew, Inv.mapping_store hentry hframe honly, hmapping, Function.update_idem, huser]
  rfl

end System

end Nyan.Paging
