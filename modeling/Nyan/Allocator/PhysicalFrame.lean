import Mathlib.Data.BitVec
import Mathlib.Tactic
import Nyan.Library.RefCount
import Nyan.Paging.Address

/-!
The physical frames (`allocator/pool.cpp`, `allocator/mod.cpp`). The pool is the
memory above `0x800000`; a bitmap says which of its frames are in use, and each
frame has a reference counter of 16 bits. `Tracks` relates both to the true
number of references, which the counter has only modulo `2 ^ 16`.
-/

namespace Nyan.Allocator

open Paging Library

/-- `std::countr_one`: the number of set bits below the first clear one. -/
def countrOne (word : BitVec 32) : Nat := (List.range 32).findIdx fun pos => !word.getLsbD pos

/-- The bitmap has `size` words. Physical memory ends below 4 GiB, so every frame
has an address. -/
structure PoolManager where
  bitmap : Nat → BitVec 32
  size : Nat
  size_le : size ≤ 0x7FC0

namespace PoolManager

def pageAt (offset : Nat) : PhysicalAddress := 0x800000#32 + BitVec.ofNat 32 offset <<< 12

def pageFor (addr : PhysicalAddress) : Nat := ((addr - 0x800000#32) >>> 12).toNat

/-- The first clear bit is set; `none` is the fatal error "page not enough!". -/
def alloc (pool : PoolManager) : Option (Nat × PoolManager) := do
  let i ← (List.range pool.size).find? fun i => countrOne (pool.bitmap i) < 32
  let pos := countrOne (pool.bitmap i)
  return ((i <<< 5) ||| pos,
    { pool with bitmap := Function.update pool.bitmap i (pool.bitmap i ||| 1#32 <<< pos) })

def free (pool : PoolManager) (offset : Nat) : PoolManager :=
  { pool with
    bitmap := Function.update pool.bitmap (offset >>> 5)
      (pool.bitmap (offset >>> 5) &&& ~~~(1#32 <<< (offset &&& 31))) }

/-- The bit of a frame. -/
def isSet (pool : PoolManager) (offset : Nat) : Bool :=
  (pool.bitmap (offset >>> 5)).getLsbD (offset &&& 31)

/-- The frames of the pool have the offsets below this. -/
def frameCount (pool : PoolManager) : Nat := 32 * pool.size

variable {pool pool' : PoolManager} {offset : Nat}

theorem pageAt_toNat (h : offset < pool.frameCount) :
    (pageAt offset).toNat = 0x800000 + offset * 0x1000 := by
  have hsize := pool.size_le
  unfold frameCount at h
  simp only [pageAt, BitVec.toNat_add, BitVec.toNat_shiftLeft, BitVec.toNat_ofNat,
    Nat.shiftLeft_eq]
  omega

theorem pageFor_pageAt (h : offset < pool.frameCount) : pageFor (pageAt offset) = offset := by
  have hsize := pool.size_le
  have haddr := pageAt_toNat h
  unfold frameCount at h
  simp only [pageFor, BitVec.toNat_ushiftRight, BitVec.toNat_sub, Nat.shiftRight_eq_div_pow, haddr,
    BitVec.toNat_ofNat]
  omega

theorem pageAt_inj {other : Nat} (h : offset < pool.frameCount) (hother : other < pool.frameCount)
    (heq : pageAt offset = pageAt other) : offset = other := by
  rw [← pageFor_pageAt h, ← pageFor_pageAt hother, heq]

theorem pageAt_aligned (h : offset < pool.frameCount) : PageAligned (pageAt offset) := by
  rw [pageAligned_iff, pageAt_toNat h]
  omega

theorem shiftRight_five (n : Nat) : n >>> 5 = n / 32 := Nat.shiftRight_eq_div_pow n 5

theorem and_thirtyOne (n : Nat) : n &&& 31 = n % 32 := Nat.and_two_pow_sub_one_eq_mod n 5

theorem getLsbD_one_shiftLeft (pos k : Nat) (hk : k < 32) :
    (1#32 <<< pos).getLsbD k = decide (k = pos) := by
  simp only [BitVec.getLsbD_shiftLeft, BitVec.getLsbD_one, hk]
  by_cases h : k = pos
  · simp [h]
  · simp [h]
    omega

theorem getLsbD_countrOne {word : BitVec 32} (h : countrOne word < 32) :
    word.getLsbD (countrOne word) = false := by
  unfold countrOne at h ⊢
  have hlt : (List.range 32).findIdx (fun pos => !word.getLsbD pos) < (List.range 32).length := by
    simpa using h
  simpa using List.findIdx_getElem (w := hlt)

theorem countrOne_lt {word : BitVec 32} {pos : Nat} (hpos : pos < 32)
    (hclear : word.getLsbD pos = false) : countrOne word < 32 := by
  have hexists : ∃ pos ∈ List.range 32, (!word.getLsbD pos) = true :=
    ⟨pos, List.mem_range.mpr hpos, by simp [hclear]⟩
  simpa [countrOne] using List.findIdx_lt_length_of_exists hexists

/-- A frame that was free is marked, and nothing else changes. -/
theorem alloc_spec (h : pool.alloc = some (offset, pool')) :
    offset < pool.frameCount ∧ pool.isSet offset = false ∧ pool'.size = pool.size ∧
      ∀ other, pool'.isSet other = (pool.isSet other || decide (other = offset)) := by
  simp only [alloc, Option.bind_eq_bind, Option.bind_eq_some_iff, Option.pure_def,
    Option.some_inj, Prod.mk.injEq] at h
  obtain ⟨i, hfind, hoffset, rfl⟩ := h
  have hpos : countrOne (pool.bitmap i) < 32 := by simpa using List.find?_some hfind
  have hi : i < pool.size := List.mem_range.mp (List.mem_of_find?_eq_some hfind)
  rw [← Nat.shiftLeft_add_eq_or_of_lt (i := 5) hpos, Nat.shiftLeft_eq] at hoffset
  have hdiv : offset / 32 = i := by omega
  have hmod : offset % 32 = countrOne (pool.bitmap i) := by omega
  refine ⟨by unfold frameCount; omega, ?_, rfl, ?_⟩
  · rw [isSet, shiftRight_five, and_thirtyOne, hdiv, hmod]
    exact getLsbD_countrOne hpos
  · intro other
    simp only [isSet, shiftRight_five, and_thirtyOne]
    by_cases hword : other / 32 = i
    · rw [hword, Function.update_self, BitVec.getLsbD_or,
        getLsbD_one_shiftLeft _ _ (Nat.mod_lt _ (by decide))]
      have hsame : other % 32 = countrOne (pool.bitmap i) ↔ other = offset := by omega
      simp [hsame]
    · have hne : other ≠ offset := by
        rintro rfl
        exact hword hdiv
      simp [Function.update_of_ne hword, hne]

theorem alloc_isSome (h : offset < pool.frameCount) (hclear : pool.isSet offset = false) :
    pool.alloc.isSome := by
  unfold frameCount at h
  rw [isSet, shiftRight_five, and_thirtyOne] at hclear
  have hfound : ((List.range pool.size).find? fun i => countrOne (pool.bitmap i) < 32).isSome := by
    rw [List.find?_isSome]
    exact ⟨offset / 32, List.mem_range.mpr (by omega),
      by simpa using countrOne_lt (Nat.mod_lt _ (by decide)) hclear⟩
  obtain ⟨i, hi⟩ := Option.isSome_iff_exists.mp hfound
  simp [alloc, hi]

theorem isSet_free (other : Nat) :
    (pool.free offset).isSet other = (pool.isSet other && !decide (other = offset)) := by
  simp only [isSet, free, shiftRight_five, and_thirtyOne]
  by_cases hword : other / 32 = offset / 32
  · rw [hword, Function.update_self, BitVec.getLsbD_and, BitVec.getLsbD_not,
      getLsbD_one_shiftLeft _ _ (Nat.mod_lt _ (by decide))]
    have hsame : other % 32 = offset % 32 ↔ other = offset := by omega
    have hlt : other % 32 < 32 := Nat.mod_lt _ (by decide)
    simp [hsame, hlt]
  · have hne : other ≠ offset := by
      rintro rfl
      exact hword rfl
    simp [Function.update_of_ne hword, hne]

/-- The number of free frames. -/
def freeFrames (pool : PoolManager) : Nat :=
  ((Finset.range pool.frameCount).filter fun offset => pool.isSet offset = false).card

theorem alloc_freeFrames (h : pool.alloc = some (offset, pool')) :
    pool.freeFrames = pool'.freeFrames + 1 := by
  obtain ⟨hoffset, hclear, hsize, hset⟩ := alloc_spec h
  have hfree : (Finset.range pool'.frameCount).filter (fun other => pool'.isSet other = false) =
      ((Finset.range pool.frameCount).filter fun other => pool.isSet other = false).erase
        offset := by
    ext other
    simp only [Finset.mem_filter, Finset.mem_erase, Finset.mem_range, frameCount, hsize, hset,
      Bool.or_eq_false_iff, decide_eq_false_iff_not]
    tauto
  have hmem : offset ∈ (Finset.range pool.frameCount).filter fun other =>
      pool.isSet other = false := by
    simp [hoffset, hclear]
  rw [freeFrames, freeFrames, hfree, Finset.card_erase_add_one hmem]

theorem alloc_of_free (h : 0 < pool.freeFrames) : ∃ offset pool', pool.alloc = some (offset, pool') := by
  obtain ⟨offset, hoffset⟩ := Finset.card_pos.mp h
  rw [Finset.mem_filter, Finset.mem_range] at hoffset
  obtain ⟨⟨offset', pool'⟩, halloc⟩ :=
    Option.isSome_iff_exists.mp (alloc_isSome hoffset.1 hoffset.2)
  exact ⟨offset', pool', halloc⟩

end PoolManager

open PoolManager

/-- The pool, and `__physical_frame_manager->__info`. -/
structure PhysicalFrames where
  pool : PoolManager
  info : Nat → BitVec 16

namespace PhysicalFrames

def physicalFrameAlloc (frames : PhysicalFrames) : Option (PhysicalAddress × PhysicalFrames) := do
  let (offset, pool) ← frames.pool.alloc
  return (pageAt offset, { pool, info := Function.update frames.info offset 1#16 })

def physicalFrameRetain (frames : PhysicalFrames) (addr : PhysicalAddress) : PhysicalFrames :=
  let offset := pageFor addr
  { frames with info := Function.update frames.info offset (frames.info offset + 1#16) }

def physicalFrameRelease (frames : PhysicalFrames) (addr : PhysicalAddress) : PhysicalFrames :=
  let offset := pageFor addr
  let ref := frames.info offset - 1#16
  let info := Function.update frames.info offset ref
  if ref = 0#16 then { pool := frames.pool.free offset, info } else { frames with info }

def physicalFrameGetRef (frames : PhysicalFrames) (addr : PhysicalAddress) : BitVec 16 :=
  frames.info (pageFor addr)

/-- The state after `allocator::load`: every frame is free. -/
def load (size : Nat) (hsize : size ≤ 0x7FC0) : PhysicalFrames where
  pool := { bitmap := fun _ => 0#32, size, size_le := hsize }
  info _ := 0#16

theorem freeFrames_load (size : Nat) (hsize : size ≤ 0x7FC0) :
    (load size hsize).pool.freeFrames = 32 * size := by
  have hall : ∀ offset, (load size hsize).pool.isSet offset = false := by
    simp [load, PoolManager.isSet]
  simp only [freeFrames, hall, Finset.filter_true, Finset.card_range]
  rfl

/-- The counters have the number of references modulo `2 ^ 16`, and exactly the
frames with a reference are marked in the bitmap. -/
structure Tracks (frames : PhysicalFrames) (count : PhysicalAddress → Nat) : Prop where
  info : ∀ offset < frames.pool.frameCount,
    frames.info offset = BitVec.ofNat 16 (count (pageAt offset))
  isSet : ∀ offset < frames.pool.frameCount,
    (frames.pool.isSet offset = true ↔ count (pageAt offset) ≠ 0)
  inPool : ∀ addr, count addr ≠ 0 → ∃ offset < frames.pool.frameCount, addr = pageAt offset

/-- As many references as one counter can tell from none. -/
abbrev maxRef : Nat := 0x10000

variable {frames frames' : PhysicalFrames} {count : PhysicalAddress → Nat}
  {addr : PhysicalAddress}

theorem load_tracks (size : Nat) (hsize : size ≤ 0x7FC0) : (load size hsize).Tracks fun _ => 0 := by
  refine ⟨fun _ _ => rfl, fun offset _ => ?_, fun _ h => absurd rfl h⟩
  simp [load, PoolManager.isSet]

/-- A new frame had no reference, and has one. -/
theorem Tracks.alloc (h : frames.Tracks count)
    (halloc : frames.physicalFrameAlloc = some (addr, frames')) :
    count addr = 0 ∧ PageAligned addr ∧
      frames'.Tracks (Function.update count addr (count addr + 1)) := by
  simp only [physicalFrameAlloc, Option.bind_eq_bind, Option.bind_eq_some_iff, Option.pure_def,
    Option.some_inj, Prod.mk.injEq, Prod.exists] at halloc
  obtain ⟨offset, pool, hpool, rfl, rfl⟩ := halloc
  obtain ⟨hoffset, hclear, hsize, hset⟩ := alloc_spec hpool
  have hcount : count (pageAt offset) = 0 := by
    by_contra hne
    rw [(h.isSet offset hoffset).mpr hne] at hclear
    cases hclear
  have hframes : pool.frameCount = frames.pool.frameCount := by rw [frameCount, hsize, frameCount]
  refine ⟨hcount, pageAt_aligned hoffset, ?_, ?_, ?_⟩
  · intro other hother
    dsimp only at hother ⊢
    rw [hframes] at hother
    by_cases heq : other = offset
    · subst heq
      rw [Function.update_self, Function.update_self, hcount]
    · have hne : pageAt other ≠ pageAt offset := fun hpage =>
        heq (pageAt_inj hother hoffset hpage)
      rw [Function.update_of_ne heq, Function.update_of_ne hne, h.info other hother]
  · intro other hother
    dsimp only at hother ⊢
    rw [hframes] at hother
    by_cases heq : other = offset
    · subst heq
      simp [hset]
    · have hne : pageAt other ≠ pageAt offset := fun hpage =>
        heq (pageAt_inj hother hoffset hpage)
      simp [hset, heq, Function.update_of_ne hne, h.isSet other hother]
  · intro other hother
    dsimp only
    rw [hframes]
    by_cases heq : other = pageAt offset
    · exact ⟨offset, hoffset, heq⟩
    · rw [Function.update_of_ne heq] at hother
      exact h.inPool other hother

/-- A change of one counter, in step with the number of references. -/
theorem Tracks.update (h : frames.Tracks count) (href : count addr ≠ 0) {pool : PoolManager}
    {ref : BitVec 16} {n : Nat} (hinfo : ref = BitVec.ofNat 16 n)
    (hsize : pool.size = frames.pool.size)
    (hset : ∀ other, pool.isSet other =
      (frames.pool.isSet other && !decide (other = pageFor addr ∧ n = 0))) :
    Tracks { pool, info := Function.update frames.info (pageFor addr) ref }
      (Function.update count addr n) := by
  obtain ⟨offset, hoffset, rfl⟩ := h.inPool addr href
  have hframes : pool.frameCount = frames.pool.frameCount := by rw [frameCount, hsize, frameCount]
  rw [pageFor_pageAt hoffset] at hset ⊢
  refine ⟨?_, ?_, ?_⟩
  · intro other hother
    dsimp only at hother ⊢
    rw [hframes] at hother
    by_cases heq : other = offset
    · subst heq
      rw [Function.update_self, Function.update_self, hinfo]
    · have hne : pageAt other ≠ pageAt offset := fun hpage =>
        heq (pageAt_inj hother hoffset hpage)
      rw [Function.update_of_ne heq, Function.update_of_ne hne, h.info other hother]
  · intro other hother
    dsimp only at hother ⊢
    rw [hframes] at hother
    by_cases heq : other = offset
    · subst heq
      simp [hset, (h.isSet other hother).mpr href]
    · have hne : pageAt other ≠ pageAt offset := fun hpage =>
        heq (pageAt_inj hother hoffset hpage)
      simp [hset, heq, Function.update_of_ne hne, h.isSet other hother]
  · intro other hother
    dsimp only
    rw [hframes]
    by_cases heq : other = pageAt offset
    · exact ⟨offset, hoffset, heq⟩
    · rw [Function.update_of_ne heq] at hother
      exact h.inPool other hother

theorem Tracks.getRef (h : frames.Tracks count) (href : count addr ≠ 0) :
    frames.physicalFrameGetRef addr = BitVec.ofNat 16 (count addr) := by
  obtain ⟨offset, hoffset, rfl⟩ := h.inPool addr href
  rw [physicalFrameGetRef, pageFor_pageAt hoffset, h.info offset hoffset]

theorem Tracks.retain (h : frames.Tracks count) (href : count addr ≠ 0) :
    (frames.physicalFrameRetain addr).Tracks (Function.update count addr (count addr + 1)) := by
  refine h.update href ?_ rfl fun other => by simp
  have hinfo : frames.info (pageFor addr) = _ := h.getRef href
  rw [hinfo, BitVec.ofNat_add]

/-- The frame becomes free with its last reference, unless there are so many that
the counter wrapped. -/
theorem Tracks.release (h : frames.Tracks count) (href : count addr ≠ 0)
    (hmax : count addr ≤ maxRef) :
    (frames.physicalFrameRelease addr).Tracks (Function.update count addr (count addr - 1)) := by
  have hinfo : frames.info (pageFor addr) - 1#16 = BitVec.ofNat 16 (count addr - 1) := by
    have hold : frames.info (pageFor addr) = _ := h.getRef href
    rw [hold, BitVec.ofNat_sub_ofNat_of_le _ _ (by decide) (by omega)]
  have hzero : frames.info (pageFor addr) - 1#16 = 0#16 ↔ count addr - 1 = 0 := by
    unfold maxRef at hmax
    rw [hinfo, ← BitVec.toNat_inj, BitVec.toNat_ofNat, BitVec.toNat_ofNat]
    omega
  unfold physicalFrameRelease
  dsimp only
  split
  · rename_i hlast
    refine h.update href hinfo rfl fun other => ?_
    simp [isSet_free, hzero.mp hlast]
  · rename_i hmore
    refine h.update href hinfo rfl fun other => ?_
    simp [mt hzero.mpr hmore]

theorem Tracks.getRef_eq_one (h : frames.Tracks count) (href : count addr ≠ 0)
    (hmax : count addr ≤ maxRef) :
    frames.physicalFrameGetRef addr = 1#16 ↔ count addr = 1 := by
  unfold maxRef at hmax
  rw [h.getRef href, ← BitVec.toNat_inj, BitVec.toNat_ofNat, BitVec.toNat_ofNat]
  omega

/-- The counters count the slots that hold each frame. -/
def Counted {X : Type} (frames : PhysicalFrames) (slots : X → Option PhysicalAddress) : Prop :=
  ∃ count, frames.Tracks count ∧ Exact slots count

/-- No frame is held by more slots than its counter can tell. -/
def Few {X : Type} (slots : X → Option PhysicalAddress) : Prop :=
  ∀ addr, (holders slots addr).encard ≤ maxRef

namespace Counted

variable {X : Type} {slots : X → Option PhysicalAddress} {x y : X}

theorem count_le {count : PhysicalAddress → Nat} (hexact : Exact slots count) (hfew : Few slots)
    (addr : PhysicalAddress) : count addr ≤ maxRef := by
  have hle := hfew addr
  rw [hexact addr] at hle
  exact_mod_cast hle

theorem load (size : Nat) (hsize : size ≤ 0x7FC0) (hnone : ∀ x, slots x = none) :
    (load size hsize).Counted slots := by
  refine ⟨fun _ => 0, load_tracks size hsize, fun addr => ?_⟩
  have hempty : holders slots addr = ∅ := Set.eq_empty_iff_forall_notMem.mpr fun x hx => by
    rw [mem_holders, hnone x] at hx
    cases hx
  rw [hempty, Set.encard_empty]
  rfl

/-- The counter is one exactly for a frame with one holder. -/
theorem getRef (h : frames.Counted slots) (hfew : Few slots) (hx : slots x = some addr) :
    frames.physicalFrameGetRef addr = 1#16 ↔ ∀ y, slots y = some addr → y = x := by
  obtain ⟨count, htracks, hexact⟩ := h
  rw [htracks.getRef_eq_one (hexact.pos hx).ne' (count_le hexact hfew addr),
    hexact.eq_one_iff hx]

variable [DecidableEq X]

/-- A new frame is held by no slot, and can be put into any empty one. -/
theorem alloc (h : frames.Counted slots)
    (halloc : frames.physicalFrameAlloc = some (addr, frames')) :
    PageAligned addr ∧ (∀ x, slots x ≠ some addr) ∧
      ∀ x, slots x = none → frames'.Counted (Function.update slots x (some addr)) := by
  obtain ⟨count, htracks, hexact⟩ := h
  obtain ⟨hzero, haligned, htracks'⟩ := htracks.alloc halloc
  exact ⟨haligned, hexact.zero_iff.mp hzero, fun x hx => ⟨_, htracks', hexact.put hx addr⟩⟩

theorem retain (h : frames.Counted slots) (hx : slots x = none) (hy : slots y = some addr) :
    (frames.physicalFrameRetain addr).Counted (Function.update slots x (some addr)) := by
  obtain ⟨count, htracks, hexact⟩ := h
  exact ⟨_, htracks.retain (hexact.pos hy).ne', hexact.put hx addr⟩

theorem release (h : frames.Counted slots) (hfew : Few slots) (hx : slots x = some addr) :
    (frames.physicalFrameRelease addr).Counted (Function.update slots x none) := by
  obtain ⟨count, htracks, hexact⟩ := h
  exact ⟨_, htracks.release (hexact.pos hx).ne' (count_le hexact hfew addr), hexact.drop hx⟩

/-- A slot gets a new frame in the place of its old one. -/
theorem replace (h : frames.Counted slots) (hfew : Few slots) (hx : slots x = some addr)
    {new : PhysicalAddress} (halloc : frames.physicalFrameAlloc = some (new, frames')) :
    (frames'.physicalFrameRelease addr).Counted (Function.update slots x (some new)) := by
  obtain ⟨count, htracks, hexact⟩ := h
  obtain ⟨hzero, _, htracks'⟩ := htracks.alloc halloc
  have hpos := (hexact.pos hx).ne'
  have hne : addr ≠ new := by
    rintro rfl
    exact hpos hzero
  have hold : Function.update count new (count new + 1) addr = count addr :=
    Function.update_of_ne hne ..
  have hrelease := htracks'.release (hold.trans_ne hpos)
    (hold.trans_le (count_le hexact hfew addr))
  rw [hold] at hrelease
  exact ⟨_, hrelease, hexact.replace hx hne.symm⟩

end Counted

/-- A frame of the pool that is not in use. -/
def Free (frames : PhysicalFrames) (addr : PhysicalAddress) : Prop :=
  ∃ offset < frames.pool.frameCount, addr = pageAt offset ∧ frames.pool.isSet offset = false

/-- The frame handed out was free, and no other frame becomes free. -/
theorem alloc_free (halloc : frames.physicalFrameAlloc = some (addr, frames')) :
    frames.Free addr ∧ ∀ other, frames'.Free other → frames.Free other := by
  simp only [physicalFrameAlloc, Option.bind_eq_bind, Option.bind_eq_some_iff, Option.pure_def,
    Option.some_inj, Prod.mk.injEq, Prod.exists] at halloc
  obtain ⟨offset, pool, hpool, rfl, rfl⟩ := halloc
  obtain ⟨hoffset, hclear, hsize, hset⟩ := alloc_spec hpool
  refine ⟨⟨offset, hoffset, rfl, hclear⟩, ?_⟩
  rintro _ ⟨other, hother, rfl, hfree⟩
  rw [hset, Bool.or_eq_false_iff] at hfree
  rw [frameCount, hsize] at hother
  exact ⟨other, hother, rfl, hfree.1⟩

/-- Frames are only taken: those in use stay in use, with their counters. -/
structure Draws (frames frames' : PhysicalFrames) : Prop where
  size : frames'.pool.size = frames.pool.size
  isSet : ∀ offset, frames.pool.isSet offset = true → frames'.pool.isSet offset = true
  info : ∀ offset, frames.pool.isSet offset = true → frames'.info offset = frames.info offset

theorem Draws.refl (frames : PhysicalFrames) : Draws frames frames :=
  ⟨rfl, fun _ => id, fun _ _ => rfl⟩

theorem Draws.trans {frames'' : PhysicalFrames} (h : Draws frames frames')
    (h' : Draws frames' frames'') : Draws frames frames'' :=
  ⟨h'.size.trans h.size, fun offset hset => h'.isSet offset (h.isSet offset hset),
    fun offset hset => (h'.info offset (h.isSet offset hset)).trans (h.info offset hset)⟩

/-- A frame that was not in use has got its first reference. -/
def Taken (frames frames' : PhysicalFrames) : Prop :=
  ∃ offset < frames.pool.frameCount, frames.pool.isSet offset = false ∧
    frames'.pool.isSet offset = true ∧ frames'.info offset = 1#16

theorem alloc_draws (halloc : frames.physicalFrameAlloc = some (addr, frames')) :
    Draws frames frames' ∧ Taken frames frames' := by
  simp only [physicalFrameAlloc, Option.bind_eq_bind, Option.bind_eq_some_iff, Option.pure_def,
    Option.some_inj, Prod.mk.injEq, Prod.exists] at halloc
  obtain ⟨offset, pool, hpool, rfl, rfl⟩ := halloc
  obtain ⟨hoffset, hclear, hsize, hset⟩ := alloc_spec hpool
  refine ⟨⟨hsize, fun other hother => by simp [hset, hother], fun other hother => ?_⟩,
    offset, hoffset, hclear, by simp [hset], Function.update_self ..⟩
  refine Function.update_of_ne ?_ ..
  rintro rfl
  rw [hclear] at hother
  cases hother

theorem Taken.after {frames'' : PhysicalFrames} (h : Taken frames frames')
    (h' : Draws frames' frames'') : Taken frames frames'' := by
  obtain ⟨offset, hoffset, hclear, hset, hinfo⟩ := h
  exact ⟨offset, hoffset, hclear, h'.isSet offset hset, (h'.info offset hset).trans hinfo⟩

theorem Taken.before {frames'' : PhysicalFrames} (h : Draws frames frames')
    (h' : Taken frames' frames'') : Taken frames frames'' := by
  obtain ⟨offset, hoffset, hclear, hset, hinfo⟩ := h'
  refine ⟨offset, by rwa [frameCount, ← h.size], ?_, hset, hinfo⟩
  rw [← Bool.not_eq_true]
  intro hbefore
  rw [h.isSet offset hbefore] at hclear
  cases hclear

/-- A frame that is taken changes a counter. -/
theorem Taken.info_ne (h : Taken frames frames') (htracks : frames.Tracks count) :
    ∃ offset < frames.pool.frameCount, frames'.info offset ≠ frames.info offset := by
  obtain ⟨offset, hoffset, hclear, _, hinfo⟩ := h
  have hzero : count (pageAt offset) = 0 := by
    by_contra hne
    rw [(htracks.isSet offset hoffset).mpr hne] at hclear
    cases hclear
  refine ⟨offset, hoffset, ?_⟩
  rw [hinfo, htracks.info offset hoffset, hzero]
  decide

/-- No counter is less than the number of slots that hold its frame, and none has
wrapped. A counter is greater when a slot was overwritten and its frame lost. -/
def Covers {X : Type} (frames : PhysicalFrames) (slots : X → Option PhysicalAddress) : Prop :=
  ∃ count, frames.Tracks count ∧
    ∀ addr, (holders slots addr).encard ≤ count addr ∧ count addr ≤ maxRef

theorem Counted.covers {X : Type} {slots : X → Option PhysicalAddress}
    (h : frames.Counted slots) (hfew : Few slots) : frames.Covers slots := by
  obtain ⟨count, htracks, hexact⟩ := h
  exact ⟨count, htracks, fun addr => ⟨(hexact addr).le, Counted.count_le hexact hfew addr⟩⟩

namespace Covers

variable {X : Type} {slots : X → Option PhysicalAddress} {x : X}

theorem count_pos {count : PhysicalAddress → Nat}
    (hcount : (holders slots addr).encard ≤ count addr) (hx : slots x = some addr) :
    count addr ≠ 0 := by
  intro hzero
  have hempty : holders slots addr = ∅ := by simpa [hzero] using hcount
  have hmem : x ∈ holders slots addr := hx
  simp [hempty] at hmem

theorem not_free (h : frames.Covers slots) (hx : slots x = some addr) : ¬ frames.Free addr := by
  rintro ⟨offset, hoffset, rfl, hclear⟩
  obtain ⟨count, htracks, hcount⟩ := h
  have hset := (htracks.isSet offset hoffset).mpr (count_pos (hcount _).1 hx)
  rw [hset] at hclear
  cases hclear

variable [DecidableEq X]

/-- A new frame can be put into any slot, also into one that holds another. -/
theorem alloc (h : frames.Covers slots)
    (halloc : frames.physicalFrameAlloc = some (addr, frames')) :
    PageAligned addr ∧ (∀ x, slots x ≠ some addr) ∧
      ∀ x, frames'.Covers (Function.update slots x (some addr)) := by
  have hunused : ∀ x, slots x ≠ some addr := fun x hx => h.not_free hx (alloc_free halloc).1
  obtain ⟨count, htracks, hcount⟩ := h
  obtain ⟨hzero, haligned, htracks'⟩ := htracks.alloc halloc
  refine ⟨haligned, hunused, fun x => ⟨_, htracks', fun other => ?_⟩⟩
  by_cases hother : other = addr
  · subst hother
    have hsub : holders (Function.update slots x (some other)) other ⊆ {x} := by
      intro y hy
      rcases held_of_put hy with ⟨rfl, _⟩ | hy
      · rfl
      · exact absurd hy (hunused y)
    rw [Function.update_self, hzero]
    exact ⟨(Set.encard_le_encard hsub).trans (Set.encard_singleton x).le, by decide⟩
  · have hsub : holders (Function.update slots x (some addr)) other ⊆ holders slots other := by
      intro y hy
      rcases held_of_put hy with ⟨_, heq⟩ | hy
      · exact absurd heq hother
      · exact hy
    rw [Function.update_of_ne hother]
    exact ⟨(Set.encard_le_encard hsub).trans (hcount other).1, (hcount other).2⟩

end Covers

end PhysicalFrames

end Nyan.Allocator
