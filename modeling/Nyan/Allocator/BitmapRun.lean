import Nyan.Allocator.Frame
import Nyan.Library.Run

/-!
The two bitmap allocators over any sequence of allocations and frees of live slots. In every
state the set bits are the live slots, so an allocation takes the least slot that is not live,
and there is none exactly when all are. The pool has slots for whole words of its bitmap only:
the last pages of a region whose size is no multiple of 32 pages have none.
-/

namespace Nyan.Allocator

open Paging Library

namespace PoolManager

/-- The constructor, for the region that `allocator::load` gives it. -/
def ofUpper (upper : BitVec 32) (hupper : 0x800000#32 ≤ upper) : PoolManager where
  bitmap _ := 0#32
  size := (((upper - 0x800000#32) >>> 12) >>> 5).toNat
  size_le := by
    have hlt := upper.isLt
    have hsub : (upper - 0x800000#32).toNat = upper.toNat - 0x800000 :=
      BitVec.toNat_sub_of_le hupper
    simp only [BitVec.toNat_ushiftRight, Nat.shiftRight_eq_div_pow, hsub]
    omega

variable {pool pool' : PoolManager} {offset : Nat}

theorem getLsbD_of_lt_countrOne {word : BitVec 32} {pos : Nat} (h : pos < countrOne word) :
    word.getLsbD pos = true := by
  have hlength : (List.range 32).findIdx (fun pos => !word.getLsbD pos) ≤ 32 := by
    simpa using (List.range 32).findIdx_le_length
  unfold countrOne at h
  simpa using List.not_of_lt_findIdx h

/-- The slots below the one that is given are taken. -/
theorem alloc_least (h : pool.alloc = some (offset, pool')) {k : Nat} (hk : k < offset) :
    pool.isSet k = true := by
  simp only [alloc, Option.bind_eq_bind, Option.bind_eq_some_iff, Option.pure_def,
    Option.some_inj, Prod.mk.injEq] at h
  obtain ⟨i, hfind, hoffset, _⟩ := h
  have hpos : countrOne (pool.bitmap i) < 32 := by simpa using List.find?_some hfind
  rw [← Nat.shiftLeft_add_eq_or_of_lt (i := 5) hpos, Nat.shiftLeft_eq] at hoffset
  have hi : i < pool.size := List.mem_range.mp (List.mem_of_find?_eq_some hfind)
  rw [isSet, shiftRight_five, and_thirtyOne]
  by_cases hword : k / 32 = i
  · rw [hword]
    exact getLsbD_of_lt_countrOne (by omega)
  · have hfull : ¬ countrOne (pool.bitmap (k / 32)) < 32 := by
      have hbefore := (List.find?_range_eq_some.mp hfind).2.2 (k / 32) (by omega)
      simpa using hbefore
    by_contra hclear
    exact hfull (countrOne_lt (Nat.mod_lt _ (by decide)) (by simpa using hclear))

end PoolManager

/-- An allocation, or the free of a slot. -/
inductive SlotMove where
  | alloc
  | free (offset : Nat)
  deriving DecidableEq, Repr

/-- A bitmap allocator with the slots that are live. A panic, and the free of another slot, have
no successor. -/
def slotStep {σ : Type} (alloc : σ → Option (Nat × σ)) (free : σ → Nat → σ) :
    σ × List Nat → SlotMove → Option (σ × List Nat)
  | (m, live), .alloc => (alloc m).map fun (offset, m') => (m', offset :: live)
  | (m, live), .free offset =>
      if offset ∈ live then some (free m offset, live.erase offset) else none

/-- The set bits are the live slots. -/
structure SlotInv (pool : PoolManager) (live : List Nat) : Prop where
  nodup : live.Nodup
  below : ∀ offset ∈ live, offset < pool.frameCount
  isSet : ∀ offset, pool.isSet offset = true ↔ offset ∈ live

/-- What the next allocation and the next free do: the least slot that is not live is taken, a
panic says that all are live, and one bit changes. -/
structure HandsOut {σ : Type} (alloc : σ → Option (Nat × σ)) (free : σ → Nat → σ)
    (isSet : σ → Nat → Bool) (size : Nat) (m : σ) (live : List Nat) : Prop where
  taken : ∀ offset m', alloc m = some (offset, m') →
    offset < 32 * size ∧ offset ∉ live ∧ isSet m offset = false ∧
      (∀ k < offset, isSet m k = true) ∧
      ∀ other, isSet m' other = (isSet m other || decide (other = offset))
  panics : alloc m = none ↔ ∀ offset < 32 * size, offset ∈ live
  freed : ∀ offset ∈ live, ∀ other,
    isSet (free m offset) other = (isSet m other && !decide (other = offset))

namespace SlotInv

variable {pool pool' : PoolManager} {live : List Nat} {offset : Nat}

theorem alloc (h : SlotInv pool live) (halloc : pool.alloc = some (offset, pool')) :
    SlotInv pool' (offset :: live) := by
  obtain ⟨hoffset, hclear, hsize, hset⟩ := PoolManager.alloc_spec halloc
  have hnot : offset ∉ live := by
    rw [← h.isSet offset, hclear]
    decide
  have hcount : pool'.frameCount = pool.frameCount := by
    rw [PoolManager.frameCount, hsize, PoolManager.frameCount]
  refine ⟨List.nodup_cons.mpr ⟨hnot, h.nodup⟩, ?_, fun other => ?_⟩
  · rw [hcount]
    exact List.forall_mem_cons.mpr ⟨hoffset, h.below⟩
  · rw [hset, Bool.or_eq_true, h.isSet, decide_eq_true_eq, List.mem_cons, or_comm]

theorem free (h : SlotInv pool live) :
    SlotInv (pool.free offset) (live.erase offset) := by
  refine ⟨h.nodup.erase _, fun other hother => h.below other (List.mem_of_mem_erase hother),
    fun other => ?_⟩
  rw [PoolManager.isSet_free, Bool.and_eq_true, h.isSet, h.nodup.mem_erase_iff]
  simp [and_comm]

theorem handsOut (h : SlotInv pool live) :
    HandsOut PoolManager.alloc PoolManager.free PoolManager.isSet pool.size pool live := by
  refine ⟨fun offset pool' halloc => ?_, ?_, fun offset _ other => PoolManager.isSet_free other⟩
  · obtain ⟨hoffset, hclear, _, hset⟩ := PoolManager.alloc_spec halloc
    refine ⟨hoffset, ?_, hclear, fun k => PoolManager.alloc_least halloc, hset⟩
    rw [← h.isSet offset, hclear]
    decide
  · constructor
    · intro hnone offset hoffset
      by_contra hnot
      have hclear : pool.isSet offset = false := by
        rw [← Bool.not_eq_true, h.isSet]
        exact hnot
      have hsome := PoolManager.alloc_isSome hoffset hclear
      rw [hnone] at hsome
      cases hsome
    · intro hall
      rw [Option.eq_none_iff_forall_not_mem]
      rintro ⟨offset, pool'⟩ halloc
      obtain ⟨hoffset, hclear, _⟩ := PoolManager.alloc_spec halloc
      rw [(h.isSet offset).mpr (hall offset hoffset)] at hclear
      cases hclear

theorem step (h : SlotInv pool live) {live' : List Nat} {move : SlotMove}
    (hstep : slotStep PoolManager.alloc PoolManager.free (pool, live) move = some (pool', live')) :
    SlotInv pool' live' ∧ pool'.size = pool.size := by
  cases move with
  | alloc =>
      obtain ⟨⟨offset, next⟩, halloc, heq⟩ := Option.map_eq_some_iff.mp hstep
      obtain ⟨rfl, rfl⟩ := Prod.mk.inj heq
      exact ⟨h.alloc halloc, (PoolManager.alloc_spec halloc).2.2.1⟩
  | free offset =>
      simp only [slotStep] at hstep
      split at hstep
      · obtain ⟨rfl, rfl⟩ := Prod.mk.inj (Option.some.inj hstep)
        exact ⟨h.free, rfl⟩
      · cases hstep

theorem zero {size : Nat} {hsize : size ≤ 0x7FC0} : SlotInv ⟨fun _ => 0#32, size, hsize⟩ [] :=
  ⟨List.nodup_nil, by simp, by simp [PoolManager.isSet]⟩

end SlotInv

/-- The addresses of the whole pages between two addresses. -/
def pagesBetween (low high : Nat) : Set (BitVec 32) :=
  { addr | PageAligned addr ∧ low ≤ addr.toNat ∧ addr.toNat + 4096 ≤ high }

/-- The slots and the pages of a region, one for one, with conversions that do not overflow. -/
structure Converts (base count : Nat) (pageAt : Nat → BitVec 32) (pageFor : BitVec 32 → Nat) :
    Prop where
  toNat : ∀ offset < count, (pageAt offset).toNat = base + offset * 4096
  bijOn : Set.BijOn pageAt (Set.Iio count) (pagesBetween base (base + count * 4096))
  invOn : Set.InvOn pageFor pageAt (Set.Iio count) (pagesBetween base (base + count * 4096))

theorem converts_of_toNat {base count : Nat} {pageAt : Nat → BitVec 32}
    {pageFor : BitVec 32 → Nat} (hbase : base % 4096 = 0)
    (hat : ∀ offset < count, (pageAt offset).toNat = base + offset * 4096)
    (hfor : ∀ addr : BitVec 32, base ≤ addr.toNat → pageFor addr = (addr.toNat - base) / 4096) :
    Converts base count pageAt pageFor := by
  have hmaps : Set.MapsTo pageAt (Set.Iio count) (pagesBetween base (base + count * 4096)) := by
    intro offset hoffset
    have hlt : offset < count := hoffset
    refine ⟨?_, ?_, ?_⟩
    · rw [pageAligned_iff, hat offset hlt]
      omega
    · rw [hat offset hlt]
      omega
    · rw [hat offset hlt]
      omega
  have hback : Set.MapsTo pageFor (pagesBetween base (base + count * 4096)) (Set.Iio count) := by
    rintro addr ⟨_, hlow, hhigh⟩
    rw [Set.mem_Iio, hfor addr hlow]
    omega
  have hinv : Set.InvOn pageFor pageAt (Set.Iio count)
      (pagesBetween base (base + count * 4096)) := by
    constructor
    · intro offset hoffset
      rw [hfor _ (hmaps hoffset).2.1, hat offset hoffset]
      omega
    · intro addr haddr
      apply BitVec.eq_of_toNat_eq
      rw [hat _ (hback haddr), hfor addr haddr.2.1]
      have haligned := (pageAligned_iff addr).mp haddr.1
      have hlow := haddr.2.1
      omega
  exact ⟨hat, hinv.bijOn hmaps hback, hinv⟩

theorem PoolManager.converts (pool : PoolManager) :
    Converts 0x800000 (32 * pool.size) pageAt pageFor := by
  refine converts_of_toNat (by decide) (fun offset => pageAt_toNat) fun addr haddr => ?_
  have hsub : (addr - 0x800000#32).toNat = addr.toNat - 0x800000 := BitVec.toNat_sub_of_le haddr
  rw [pageFor, BitVec.toNat_ushiftRight, hsub, Nat.shiftRight_eq_div_pow]

theorem PoolManager.ofUpper_size (upper : BitVec 32) (hupper : 0x800000#32 ≤ upper) :
    (ofUpper upper hupper).size = (upper.toNat - 0x800000) / 4096 / 32 := by
  have hsub : (upper - 0x800000#32).toNat = upper.toNat - 0x800000 :=
    BitVec.toNat_sub_of_le hupper
  simp only [ofUpper, BitVec.toNat_ushiftRight, Nat.shiftRight_eq_div_pow, hsub]

namespace FrameManager

def isSet (m : FrameManager) (offset : Nat) : Bool := m.words.isSet offset

variable {m m' : FrameManager} {live live' : List Nat}

theorem converts : Converts 0xC0800000 frameCount frameAt frameFor := by
  refine converts_of_toNat (by decide) (fun offset => frameAt_toNat) fun addr haddr => ?_
  have hsub : (addr - 0xC0800000#32).toNat = addr.toNat - 0xC0800000 :=
    BitVec.toNat_sub_of_le haddr
  rw [frameFor, BitVec.toNat_ushiftRight, hsub, Nat.shiftRight_eq_div_pow]

theorem words_alloc {offset : Nat} (h : m.alloc = some (offset, m')) :
    m.words.alloc = some (offset, m'.words) := by
  simp only [alloc, Option.bind_eq_bind, Option.bind_eq_some_iff, Option.pure_def,
    Option.some_inj, Prod.mk.injEq, Prod.exists] at h
  obtain ⟨offset', next, hnext, rfl, rfl⟩ := h
  have hsize : next.size = m.words.size := (PoolManager.alloc_spec hnext).2.2.1
  have hsame : words ⟨next.bitmap⟩ = next := by
    obtain ⟨bitmap, size, hle⟩ := next
    cases hsize
    rfl
  rw [hnext, hsame]

theorem words_step {move : SlotMove}
    (h : slotStep alloc free (m, live) move = some (m', live')) :
    slotStep PoolManager.alloc PoolManager.free (m.words, live) move =
      some (m'.words, live') := by
  cases move with
  | alloc =>
      rw [slotStep, Option.map_eq_some_iff] at h
      obtain ⟨⟨offset, next⟩, halloc, heq⟩ := h
      obtain ⟨rfl, rfl⟩ := Prod.mk.inj heq
      rw [slotStep, words_alloc halloc]
      rfl
  | free offset =>
      simp only [slotStep] at h ⊢
      split at h
      · rename_i hmem
        obtain ⟨rfl, rfl⟩ := Prod.mk.inj (Option.some.inj h)
        rw [if_pos hmem]
        rfl
      · cases h

theorem handsOut (h : SlotInv m.words live) : HandsOut alloc free isSet 0x7C0 m live := by
  have hwords : HandsOut PoolManager.alloc PoolManager.free PoolManager.isSet 0x7C0 m.words live :=
    h.handsOut
  refine ⟨fun offset m' halloc => hwords.taken offset m'.words (words_alloc halloc), ?_,
    hwords.freed⟩
  rw [← hwords.panics, alloc]
  cases m.words.alloc <;> simp

end FrameManager

/-- In every run the allocators hand out the least slot that is not live, and panic only when
all are live. The slots of the frames are all their pages; those of the pool are the pages of
the whole words of its bitmap, which leaves fewer than 32 pages below `upper` without a slot. -/
theorem bitmaps_hand_out_each_slot_once (upper : BitVec 32) (hupper : 0x800000#32 ≤ upper) :
    ((∀ acts pool live,
        Run (slotStep PoolManager.alloc PoolManager.free) anyStep
          (PoolManager.ofUpper upper hupper, []) acts (pool, live) →
        HandsOut PoolManager.alloc PoolManager.free PoolManager.isSet
          (PoolManager.ofUpper upper hupper).size pool live) ∧
      Converts 0x800000 (32 * (PoolManager.ofUpper upper hupper).size) PoolManager.pageAt
        PoolManager.pageFor ∧
      0x800000 + 32 * (PoolManager.ofUpper upper hupper).size * 4096 ≤ upper.toNat ∧
      upper.toNat < 0x800000 + 32 * ((PoolManager.ofUpper upper hupper).size + 1) * 4096) ∧
    (∀ acts m live,
        Run (slotStep FrameManager.alloc FrameManager.free) anyStep
          (FrameManager.init, []) acts (m, live) →
        HandsOut FrameManager.alloc FrameManager.free FrameManager.isSet 0x7C0 m live) ∧
      Converts 0xC0800000 (32 * 0x7C0) FrameManager.frameAt FrameManager.frameFor ∧
      0xC0800000 + 32 * 0x7C0 * 4096 = 0xD0000000 := by
  refine ⟨⟨fun acts pool live hrun => ?_, PoolManager.converts _, ?_⟩,
    fun acts m live hrun => ?_, FrameManager.converts, rfl⟩
  · have hinv : SlotInv pool live ∧ pool.size = (PoolManager.ofUpper upper hupper).size := by
      refine Run.invariant (P := fun s => SlotInv s.1 s.2 ∧
        s.1.size = (PoolManager.ofUpper upper hupper).size)
        (fun s move t hs _ hstep => ?_) hrun ⟨SlotInv.zero, rfl⟩
      obtain ⟨hnext, hsize⟩ := hs.1.step hstep
      exact ⟨hnext, hsize.trans hs.2⟩
    rw [← hinv.2]
    exact hinv.1.handsOut
  · have hlow : 0x800000 ≤ upper.toNat := hupper
    rw [PoolManager.ofUpper_size]
    omega
  · apply FrameManager.handsOut
    exact Run.invariant (P := fun s => SlotInv s.1.words s.2)
      (fun s move t hs _ hstep => (hs.step (FrameManager.words_step hstep)).1) hrun SlotInv.zero

/-- Two pages are taken, and the first is given back. -/
theorem bitmaps_hand_out_after_free :
    ∃ pool live, Run (slotStep PoolManager.alloc PoolManager.free) anyStep
        (PoolManager.ofUpper 0x8A0000#32 (by decide), []) [.alloc, .alloc, .free 0] (pool, live) ∧
      HandsOut PoolManager.alloc PoolManager.free PoolManager.isSet
        (PoolManager.ofUpper 0x8A0000#32 (by decide)).size pool live := by
  obtain ⟨⟨pool, live⟩, hrun⟩ : ∃ t, Run (slotStep PoolManager.alloc PoolManager.free) anyStep
      (PoolManager.ofUpper 0x8A0000#32 (by decide), []) [.alloc, .alloc, .free 0] t :=
    ⟨_, Run.of_foldlM rfl⟩
  exact ⟨pool, live, hrun, (bitmaps_hand_out_each_slot_once _ _).1.1 _ pool live hrun⟩

/-- A region of one page has no slot, so its page is not handed out. -/
theorem pool_leaves_page_without_slot :
    ¬ ∀ (upper : BitVec 32) (hupper : 0x800000#32 ≤ upper),
      Set.BijOn PoolManager.pageAt (Set.Iio (32 * (PoolManager.ofUpper upper hupper).size))
        (pagesBetween 0x800000 upper.toNat) := by
  intro hall
  have hbij := hall 0x801000#32 (by decide)
  have hpage : 0x800000#32 ∈ pagesBetween 0x800000 (0x801000#32).toNat := by
    refine ⟨?_, by decide, by decide⟩
    decide
  obtain ⟨offset, hoffset, _⟩ := hbij.surjOn hpage
  have hnone : (PoolManager.ofUpper 0x801000#32 (by decide)).size = 0 := by decide
  rw [hnone] at hoffset
  exact absurd hoffset (Nat.not_lt_zero offset)

end Nyan.Allocator
