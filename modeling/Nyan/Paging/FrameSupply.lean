import Nyan.Paging.FreshPages

/-!
What the allocation of a page costs and what it leaves alone. It takes one frame for
the page and one for the table if the directory has none there, it fails only for want
of frames, and it writes only to frames of the pool, which begins at `0x800000`.
-/

namespace Nyan.Paging

open Allocator Library

variable {m m' : Memory} {L : Layout} {k : Nat} {i : UserLoc} {addr dir : PhysicalAddress}

/-- The frames that `alloc` takes. -/
def allocCost (m : Memory) (dir : PhysicalAddress) (va : VirtualAddress) : Nat :=
  if isPresent (m.page dir (tableLoc va)) then 1 else 2

namespace PhysicalFrames

/-- The frames of the pool lie above the kernel. -/
theorem pool_of_free {frames : PhysicalFrames} (h : frames.Free addr) :
    0x800000 ≤ addr.toNat := by
  obtain ⟨offset, hoffset, rfl, _⟩ := h
  rw [PoolManager.pageAt_toNat hoffset]
  omega

theorem pool_of_held {X : Type} {frames : PhysicalFrames} {slots : X → Option PhysicalAddress}
    (h : frames.Covers slots) {x : X} (hx : slots x = some addr) : 0x800000 ≤ addr.toNat := by
  obtain ⟨count, htracks, hcount⟩ := h
  obtain ⟨offset, hoffset, rfl⟩ :=
    htracks.inPool addr (PhysicalFrames.Covers.count_pos (hcount addr).1 hx)
  rw [PoolManager.pageAt_toNat hoffset]
  omega

end PhysicalFrames

namespace UserDirectory

theorem physicalFrameAlloc_count (h : m.physicalFrameAlloc = some (addr, m')) :
    free m = free m' + 1 := by
  obtain ⟨frames, hframes, rfl⟩ := Memory.physicalFrameAlloc_eq h
  simp only [PhysicalFrames.physicalFrameAlloc, Option.bind_eq_bind, Option.bind_eq_some_iff,
    Option.pure_def, Option.some_inj, Prod.mk.injEq, Prod.exists] at hframes
  obtain ⟨offset, pool, hpool, rfl, rfl⟩ := hframes
  exact PoolManager.alloc_freeFrames hpool

theorem ensure_count {location : Fin 1024} {attr : BitVec 16}
    (h : ensure m dir location attr = some m') :
    free m = free m' + if isPresent (m.page dir location) then 0 else 1 := by
  unfold ensure at h
  split at h
  · rename_i hpresent
    obtain rfl := Option.some.inj h
    rw [if_pos hpresent, Nat.add_zero]
  · rename_i habsent
    simp only [Option.bind_eq_bind, Option.bind_eq_some_iff, Option.pure_def, Option.some_inj,
      Prod.exists] at h
    obtain ⟨addr, m₁, halloc, rfl⟩ := h
    have hcount := physicalFrameAlloc_count halloc
    rwa [if_neg habsent]

theorem alloc_count {va : VirtualAddress} {writable : Bool}
    (h : alloc m dir va writable = some (addr, m')) :
    free m = free m' + allocCost m dir va := by
  simp only [alloc, Table.alloc, Option.bind_eq_bind, Option.bind_eq_some_iff,
    Option.pure_def, Option.some_inj, Prod.exists, Prod.mk.injEq] at h
  obtain ⟨m₁, hensure, _, _, ⟨f, m₂, halloc, rfl, rfl⟩, rfl, rfl⟩ := h
  have hfirst := ensure_count hensure
  have hsecond := physicalFrameAlloc_count halloc
  change free m = free m₂ + _
  unfold allocCost
  split at hfirst <;> rename_i hpresent
  · rw [if_pos hpresent]
    omega
  · rw [if_neg hpresent]
    omega

/-- With enough frames a page is allocated. -/
theorem alloc_affordable (va : VirtualAddress) (writable : Bool)
    (h : allocCost m dir va ≤ free m) :
    ∃ addr m', alloc m dir va writable = some (addr, m') := by
  unfold allocCost at h
  by_cases hpresent : isPresent (m.page dir (tableLoc va)) = true
  · rw [if_pos hpresent] at h
    obtain ⟨f, m₁, halloc, _⟩ := physicalFrameAlloc_defined h
    refine ⟨f, (m₁.setWord (entryAt (m.page dir (tableLoc va))) (tablePageLoc va)
      (entryWord (thisPage f) (pageAttr writable))).setPage f fun _ => 0#32, ?_⟩
    simp only [alloc, ensure, if_pos hpresent, Table.alloc, halloc, Option.bind_eq_bind,
      Option.bind_some, Option.pure_def]
  · rw [if_neg hpresent] at h
    obtain ⟨f, m₁, halloc, _⟩ := alloc_defined dir h va writable
    exact ⟨f, m₁, halloc⟩

/-- What an operation on directory `dir` at a slot leaves alone. -/
structure Spares (dir : PhysicalAddress) (loc : Fin 1024) (m m' : Memory) : Prop where
  kernel : ∀ frame : PhysicalAddress, frame.toNat < 0x800000 → m'.page frame = m.page frame
  others : ∀ other, other ≠ loc → m'.page dir other = m.page dir other
  present : isPresent (m'.page dir loc) = true

theorem ensure_spares (h : Guarded m L) (hk : L.dir k = some dir)
    (heq : ensure m dir i.loc (PDE_Present ||| PDE_ReadWrite ||| PDE_User) = some m') :
    Spares dir i.loc m m' := by
  have hdir : 0x800000 ≤ dir.toNat :=
    PhysicalFrames.pool_of_held (x := .directory k) h.covers hk
  unfold ensure at heq
  split at heq
  · rename_i hpresent
    obtain rfl := Option.some.inj heq
    exact ⟨fun _ _ => rfl, fun _ _ => rfl, hpresent⟩
  · simp only [Option.bind_eq_bind, Option.bind_eq_some_iff, Option.pure_def, Option.some_inj,
      Prod.exists] at heq
    obtain ⟨addr, m₁, halloc, rfl⟩ := heq
    obtain ⟨frames, hframes, rfl⟩ := Memory.physicalFrameAlloc_eq halloc
    obtain ⟨haligned, hunused, _⟩ := h.covers.alloc hframes
    have hpool := PhysicalFrames.pool_of_free (PhysicalFrames.alloc_free hframes).1
    have hne : dir ≠ addr := fun heq => hunused (.directory k) (heq ▸ hk)
    refine ⟨fun frame hframe => ?_, fun other hother => ?_, ?_⟩
    · have hdir' : frame ≠ dir := by
        rintro rfl
        omega
      have haddr' : frame ≠ addr := by
        rintro rfl
        omega
      rw [Memory.setWord_of_ne hdir', Memory.setPage_of_ne haddr']
    · rw [Memory.setWord_index_ne hother, Memory.setPage_of_ne hne]
    · rw [Memory.setWord_self]
      exact (entryWord_flags haligned (by decide)).1.trans (by decide)

theorem alloc_spares (h : Guarded m L) (hk : L.dir k = some dir) {va : VirtualAddress}
    (hloc : tableLoc va = i.loc) {writable : Bool}
    (heq : alloc m dir va writable = some (addr, m')) : Spares dir i.loc m m' := by
  simp only [alloc, hloc, Table.alloc, Option.bind_eq_bind, Option.bind_eq_some_iff,
    Option.pure_def, Option.some_inj, Prod.exists, Prod.mk.injEq] at heq
  obtain ⟨m₁, hensure, _, _, ⟨f, m₂, halloc, rfl, rfl⟩, rfl, rfl⟩ := heq
  have hspares := ensure_spares h hk hensure
  obtain ⟨L₁, h₁, hdir₁, _, htable₁, _⟩ := ensure_guarded h hk (by decide) (by decide) hensure
  rw [← hdir₁] at hk
  set table := entryAt (m₁.page dir i.loc)
  obtain ⟨frames, hframes, rfl⟩ := Memory.physicalFrameAlloc_eq halloc
  obtain ⟨_, hunused, _⟩ := h₁.covers.alloc hframes
  have hpool := PhysicalFrames.pool_of_free (PhysicalFrames.alloc_free hframes).1
  have hpool' : 0x800000 ≤ table.toNat :=
    PhysicalFrames.pool_of_held (x := .table (k, i)) h₁.covers htable₁
  have hnew : dir ≠ f := fun heq => hunused (.directory k) (heq ▸ hk)
  have htable : dir ≠ table := h₁.separate.dir_ne_table hk htable₁
  have hpage : ∀ frame, frame ≠ f → frame ≠ table →
      ∀ word j zeros, (({ m₁ with frames }.setWord table j word).setPage f zeros).page frame =
        m₁.page frame := by
    intro frame hf ht word j zeros
    rw [Memory.setPage_of_ne hf, Memory.setWord_of_ne ht]
  refine ⟨fun frame hframe => ?_, fun other hother => ?_, ?_⟩
  · rw [hpage frame (by rintro rfl; omega) (by rintro rfl; omega)]
    exact hspares.kernel frame hframe
  · rw [hpage dir hnew htable]
    exact hspares.others other hother
  · rw [hpage dir hnew htable]
    exact hspares.present

end UserDirectory

end Nyan.Paging
