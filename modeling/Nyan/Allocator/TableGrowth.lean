import Nyan.Allocator.Heap
import Nyan.Library.Outcome
import Nyan.Library.Run
import Nyan.Paging.FirstFit

/-!
The storage of `__addrs`, the vector of the large frames. The vector takes its storage from
`operator new`, that is from `autoAlloc`, and keeps at most 512 entries in one frame. To hold
more, it asks for 8192 bytes, which are a large frame: `alloc` calls itself with the vector as
it was, and so on for ever.
-/

namespace Nyan.Allocator

open Paging Library RangeManager

/-- The vector `__addrs` and its capacity. -/
structure LargeTable where
  addrs : LargeFrameManager
  capacity : Nat

/-- Why a call does not return: it calls itself more often than was allowed, the kernel has
stopped, or the vector has been changed during its own `insert`. -/
inductive Failure where
  | tooDeep
  | fatal
  | undefined
  deriving DecidableEq

namespace LargeTable

/-- The table after the constructor, which pushes two entries. -/
def init : LargeTable := ⟨LargeFrameManager.init, 2⟩

/-- `sizeof(LFEntry)`. -/
def entrySize : Nat := 8

/-- The capacity a full vector grows to for one more entry. -/
def recommend (t : LargeTable) : Nat := max (2 * t.capacity) (t.addrs.length + 1)

/-- `LargeFrameManager::alloc`, with at most `fuel` calls of itself one inside the other. Of
the requests for chunks and frames, `stock` tells which can be met; the others are fatal. -/
def alloc (stock : Nat → Bool) : Nat → LargeTable → Nat →
    Except Failure (Option VirtualAddress × LargeTable)
  | 0, _, _ => .error .tooDeep
  | fuel + 1, t, page =>
      match t.addrs.alloc page with
      | none => .error .undefined
      | some none => .ok (none, t)
      | some (some (addr, addrs)) =>
          if t.addrs.length < t.capacity then
            .ok (some addr, { t with addrs })
          else
            let bytes := t.recommend * entrySize
            match subAllocator bytes with
            | .slab | .frame =>
                if stock bytes then .ok (some addr, ⟨addrs, t.recommend⟩) else .error .fatal
            | .largeFrame =>
                match alloc stock fuel t (Heap.pageCount bytes) with
                | .ok (some _, _) => .error .undefined
                | .ok (none, _) => .error .fatal
                | .error failure => .error failure

/-- Where the call returns an address, it does what `alloc` does on a vector that is not in the
heap. -/
theorem alloc_refines {stock : Nat → Bool} {fuel page : Nat} {t t' : LargeTable}
    {addr : VirtualAddress} (hok : alloc stock fuel t page = .ok (some addr, t')) :
    t.addrs.alloc page = some (some (addr, t'.addrs)) := by
  cases fuel with
  | zero => cases hok
  | succ fuel =>
      unfold alloc at hok
      split at hok
      · cases hok
      · cases hok
      · rename_i found addrs halloc
        rw [halloc]
        split at hok
        · cases hok
          rfl
        · dsimp only at hok
          split at hok
          · split at hok <;> cases hok
            rfl
          · split at hok <;> cases hok
            rfl
          · split at hok <;> cases hok

/-- `LargeFrameManager::free`; the vector keeps its storage. -/
def free (t : LargeTable) (addr : VirtualAddress) : Option (Nat × LargeTable) := do
  let (page, addrs) ← t.addrs.free addr
  return (page, { t with addrs })

end LargeTable

namespace LargeFrameManager

/-- `find_free` finds a range of so many pages, and it passes the test of `insert`. -/
def Places (m : LargeFrameManager) (page : Nat) : Prop :=
  ∃ addr m', findFree Base Top m (BitVec.ofNat 32 (page <<< 12)) Base = some (some addr) ∧
    RangeManager.insert m (⟨addr, addr + BitVec.ofNat 32 (page <<< 12)⟩ : LFEntry) =
      some (true, m')

theorem alloc_eq_some {m m' : LargeFrameManager} {page : Nat} {addr : VirtualAddress} :
    m.alloc page = some (some (addr, m')) ↔
      findFree Base Top m (BitVec.ofNat 32 (page <<< 12)) Base = some (some addr) ∧
      RangeManager.insert m (⟨addr, addr + BitVec.ofNat 32 (page <<< 12)⟩ : LFEntry) =
        some (true, m') := by
  constructor
  · intro halloc
    simp only [alloc, Option.bind_eq_bind, Option.bind_eq_some_iff] at halloc
    obtain ⟨found, hfound, halloc⟩ := halloc
    cases found with
    | none => cases halloc
    | some place =>
        simp only [Option.bind_eq_some_iff, Option.pure_def, Option.some_inj, Prod.exists] at halloc
        obtain ⟨ok, m₁, hinsert, halloc⟩ := halloc
        cases ok with
        | false => cases halloc
        | true =>
            rw [if_pos rfl, Option.some_inj, Prod.mk.injEq] at halloc
            obtain ⟨rfl, rfl⟩ := halloc
            exact ⟨hfound, hinsert⟩
  · rintro ⟨hfound, hinsert⟩
    simp [alloc, hfound, hinsert]

theorem places_iff {m : LargeFrameManager} {page : Nat} :
    m.Places page ↔ ∃ addr m', m.alloc page = some (some (addr, m')) := by
  simp only [Places, alloc_eq_some]

theorem alloc_length {m m' : LargeFrameManager} {page : Nat} {addr : VirtualAddress}
    (h : m.alloc page = some (some (addr, m'))) : m'.length = m.length + 1 := by
  rcases insert_spec (alloc_eq_some.mp h).2 with
    ⟨hfalse, _⟩ | ⟨_, before, left, right, after, rfl, rfl, _⟩
  · cases hfalse
  · simp
    omega

theorem mem_of_insert {m m' : LargeFrameManager} {entry e : LFEntry}
    (h : RangeManager.insert m entry = some (true, m')) (he : e ∈ m') : e = entry ∨ e ∈ m := by
  rcases insert_spec h with ⟨hfalse, _⟩ | ⟨_, before, left, right, after, rfl, rfl, _⟩
  · cases hfalse
  · rcases List.mem_append.mp he with he | he
    · exact Or.inr (List.mem_append_left _ he)
    · exact (List.mem_cons.mp he).imp_right (List.mem_append_right _)

theorem free_length {m m' : LargeFrameManager} {page : Nat} {addr : VirtualAddress}
    (h : m.free addr = some (page, m')) : m'.length ≤ m.length := by
  unfold free at h
  split at h
  · cases h
  simp only [Option.bind_eq_bind, Option.bind_eq_some_iff] at h
  obtain ⟨loc, _, entry, _, h⟩ := h
  split at h
  · cases h
  · obtain ⟨_, rfl⟩ := Prod.mk.inj (Option.some.inj h)
    exact List.length_eraseIdx_le ..

end LargeFrameManager

/-! ### The capacity -/

namespace LargeTable

variable {t t' : LargeTable} {stock : Nat → Bool} {page : Nat}

/-- The entries have room, and the capacity has been doubled a few times. -/
structure Shape (t : LargeTable) : Prop where
  length : t.addrs.length ≤ t.capacity
  capacity : ∃ k, 1 ≤ k ∧ k ≤ 9 ∧ t.capacity = 2 ^ k

theorem Shape.init : Shape init := ⟨le_rfl, 1, by decide, by decide, rfl⟩

theorem Shape.length_le (h : Shape t) : t.addrs.length ≤ 512 := by
  obtain ⟨k, _, hk, hcapacity⟩ := h.capacity
  have hpow : 2 ^ k ≤ 2 ^ 9 := Nat.pow_le_pow_right (by decide) hk
  exact h.length.trans (by omega)

/-- A vector of fewer than 512 entries finds storage without a large frame. -/
theorem Shape.grows (h : Shape t) (hfull : ¬ t.addrs.length < t.capacity)
    (hsmall : t.addrs.length < 512) : ∃ k, 1 ≤ k ∧ k ≤ 9 ∧ t.recommend = 2 ^ k ∧
      t.addrs.length < t.recommend ∧ subAllocator (t.recommend * entrySize) ≠ .largeFrame := by
  obtain ⟨k, hk, _, hcapacity⟩ := h.capacity
  have hlength : t.addrs.length = 2 ^ k := by
    have := h.length
    omega
  have hk' : k < 9 := by
    by_contra hlarge
    have hpow : 2 ^ 9 ≤ 2 ^ k := Nat.pow_le_pow_right (by decide) (Nat.le_of_not_lt hlarge)
    omega
  have hdouble : t.recommend = 2 ^ (k + 1) := by
    have hpos : 0 < 2 ^ k := Nat.two_pow_pos k
    rw [recommend, hlength, hcapacity, pow_succ]
    omega
  have hpow : 2 ^ (k + 1) ≤ 2 ^ 9 := Nat.pow_le_pow_right (by decide) hk'
  refine ⟨k + 1, by omega, hk', hdouble, ?_, ?_⟩
  · rw [hdouble, hlength, pow_succ]
    have hpos : 0 < 2 ^ k := Nat.two_pow_pos k
    omega
  · rw [Ne, subAllocator_large, entrySize]
    omega

/-- A full vector of 512 entries asks for two pages. -/
theorem Shape.full (h : Shape t) (hlength : t.addrs.length = 512) :
    ¬ t.addrs.length < t.capacity ∧ subAllocator (t.recommend * entrySize) = .largeFrame ∧
      Heap.pageCount (t.recommend * entrySize) = 2 := by
  obtain ⟨k, _, hk, hcapacity⟩ := h.capacity
  have hpow : 2 ^ k ≤ 2 ^ 9 := Nat.pow_le_pow_right (by decide) hk
  have hcap : t.capacity = 512 := by
    have := h.length
    omega
  have hrecommend : t.recommend = 1024 := by
    rw [recommend, hlength, hcap]
    rfl
  rw [hrecommend, hcap, hlength]
  exact ⟨by decide, by decide, by decide⟩

/-- Up to 511 entries the vector never asks for a large frame, and it keeps its shape. -/
theorem Shape.alloc (h : Shape t) (hsmall : t.addrs.length < 512) (stock : Nat → Bool)
    (fuel page : Nat) :
    Ensures (· ≠ .tooDeep) (fun r => Shape r.2) (alloc stock (fuel + 1) t page) := by
  unfold LargeTable.alloc
  split
  · simp
  · exact h
  · rename_i addr addrs halloc
    have hlength := LargeFrameManager.alloc_length halloc
    split
    · rename_i hroom
      exact ⟨by simp only; omega, h.capacity⟩
    · rename_i hfull
      obtain ⟨k, hk, hk', hrecommend, hroom, hserved⟩ := h.grows hfull hsmall
      dsimp only
      split
      · split
        · exact ⟨by simp only; omega, k, hk, hk', hrecommend⟩
        · simp
      · split
        · exact ⟨by simp only; omega, k, hk, hk', hrecommend⟩
        · simp
      · rename_i hlarge
        exact absurd hlarge hserved

/-- With enough memory the range that was found is returned. -/
theorem Shape.alloc_returns (h : Shape t) (hsmall : t.addrs.length < 512) {addr : VirtualAddress}
    {addrs : LargeFrameManager} (halloc : t.addrs.alloc page = some (some (addr, addrs)))
    (fuel : Nat) : ∃ t', LargeTable.alloc (fun _ => true) (fuel + 1) t page = .ok (some addr, t') ∧
      t'.addrs = addrs := by
  rw [LargeTable.alloc]
  simp only [halloc]
  split
  · exact ⟨_, rfl, rfl⟩
  · rename_i hfull
    obtain ⟨_, _, _, _, _, hserved⟩ := h.grows hfull hsmall
    cases hsub : subAllocator (t.recommend * entrySize) with
    | slab => exact ⟨_, rfl, rfl⟩
    | frame => exact ⟨_, rfl, rfl⟩
    | largeFrame => exact absurd hsub hserved

/-- A vector of 512 entries is the same in every call of `alloc` by itself. -/
theorem Shape.alloc_full (h : Shape t) (hlength : t.addrs.length = 512)
    (hplaces : t.addrs.Places page) (fuel : Nat) :
    LargeTable.alloc stock (fuel + 1) t page =
      match LargeTable.alloc stock fuel t 2 with
      | .ok (some _, _) => .error .undefined
      | .ok (none, _) => .error .fatal
      | .error failure => .error failure := by
  obtain ⟨addr, addrs, halloc⟩ := LargeFrameManager.places_iff.mp hplaces
  obtain ⟨hfull, hlarge, hpages⟩ := h.full hlength
  rw [LargeTable.alloc]
  simp only [halloc, if_neg hfull, hlarge, hpages]

/-- Where no range is found, `alloc` returns at once. -/
theorem alloc_of_not_places (hplaces : ¬ t.addrs.Places page) (stock : Nat → Bool)
    (fuel : Nat) :
    LargeTable.alloc stock (fuel + 1) t page = .error .undefined ∨
      LargeTable.alloc stock (fuel + 1) t page = .ok (none, t) := by
  rw [LargeTable.alloc]
  cases halloc : t.addrs.alloc page with
  | none => exact Or.inl rfl
  | some found =>
      cases found with
      | none => exact Or.inr rfl
      | some result => exact absurd (LargeFrameManager.places_iff.mpr ⟨_, _, halloc⟩) hplaces

theorem Shape.recurses (h : Shape t) (hlength : t.addrs.length = 512)
    (hplaces : t.addrs.Places page) (htwo : t.addrs.Places 2) (fuel : Nat) :
    LargeTable.alloc stock fuel t page = .error .tooDeep := by
  induction fuel generalizing page with
  | zero => rfl
  | succ fuel ih => rw [h.alloc_full hlength hplaces, ih htwo]

/-- Some depth of recursion suffices. -/
def Terminates (stock : Nat → Bool) (t : LargeTable) (page : Nat) : Prop :=
  ∃ fuel, LargeTable.alloc stock fuel t page ≠ .error .tooDeep

theorem Shape.terminates_iff (h : Shape t) : Terminates stock t page ↔
    t.addrs.length < 512 ∨ ¬ t.addrs.Places page ∨ ¬ t.addrs.Places 2 := by
  constructor
  · rintro ⟨fuel, hreturns⟩
    by_contra hnot
    simp only [not_or, not_not] at hnot
    obtain ⟨hlength, hplaces, htwo⟩ := hnot
    have hfull := h.length_le
    exact hreturns (h.recurses (by omega) hplaces htwo fuel)
  · intro hcases
    by_cases hsmall : t.addrs.length < 512
    · refine ⟨1, fun hdeep => ?_⟩
      have hspec := h.alloc hsmall stock 0 page
      rw [hdeep] at hspec
      exact hspec rfl
    by_cases hplaces : t.addrs.Places page
    · have htwo := (hcases.resolve_left hsmall).resolve_left (not_not.mpr hplaces)
      have hlength : t.addrs.length = 512 := by
        have := h.length_le
        omega
      refine ⟨2, ?_⟩
      rw [h.alloc_full hlength hplaces]
      rcases alloc_of_not_places htwo stock 0 with halloc | halloc <;> simp [halloc]
    · refine ⟨1, ?_⟩
      rcases alloc_of_not_places hplaces stock 0 with halloc | halloc <;> simp [halloc]

end LargeTable

/-- The calls of the table; each `alloc` with any depth and any supply of memory. -/
inductive LargeMove where
  | alloc (stock : Nat → Bool) (fuel page : Nat)
  | free (addr : VirtualAddress)

namespace LargeTable

variable {t t' : LargeTable} {stock : Nat → Bool} {page : Nat}

def step (t : LargeTable) : LargeMove → Option LargeTable
  | .alloc stock fuel page => do return (← (t.alloc stock fuel page).toOption).2
  | .free addr => do return (← t.free addr).2

theorem Shape.alloc_ok (h : Shape t) {fuel : Nat} {r : Option VirtualAddress × LargeTable}
    (hok : t.alloc stock fuel page = .ok r) : Shape r.2 := by
  cases fuel with
  | zero => cases hok
  | succ fuel =>
      by_cases hsmall : t.addrs.length < 512
      · exact (h.alloc hsmall stock fuel page).of_ok hok
      by_cases hplaces : t.addrs.Places page
      · have hlength : t.addrs.length = 512 := by
          have := h.length_le
          omega
        rw [h.alloc_full hlength hplaces] at hok
        split at hok <;> cases hok
      · rcases alloc_of_not_places hplaces stock fuel with halloc | halloc
        · rw [halloc] at hok
          cases hok
        · obtain rfl := Except.ok.inj (halloc.symm.trans hok)
          exact h

theorem Shape.step {move : LargeMove} (h : Shape t) (hstep : t.step move = some t') :
    Shape t' := by
  cases move with
  | alloc stock fuel page =>
      simp only [LargeTable.step, Option.bind_eq_bind, Option.bind_eq_some_iff] at hstep
      obtain ⟨r, hok, hr⟩ := hstep
      obtain rfl := Option.some.inj hr
      cases halloc : t.alloc stock fuel page with
      | error failure => simp [halloc, Except.toOption] at hok
      | ok r' =>
          obtain rfl : r' = r := by simpa [halloc, Except.toOption] using hok
          exact h.alloc_ok halloc
  | free addr =>
      simp only [LargeTable.step, LargeTable.free, Option.bind_eq_bind, Option.bind_eq_some_iff]
        at hstep
      obtain ⟨_, ⟨⟨count, addrs⟩, hfree, hfreed⟩, hr⟩ := hstep
      obtain rfl := Option.some.inj hfreed
      obtain rfl := Option.some.inj hr
      exact ⟨(LargeFrameManager.free_length hfree).trans h.length, h.capacity⟩

/-- In every state of every run, `alloc` terminates if and only if fewer than 510 large frames
are live, or there is no place for the frame or for the two pages of the grown vector. -/
theorem run_terminates_iff {moves : List LargeMove} (hrun : Run step anyStep init moves t)
    (stock : Nat → Bool) (page : Nat) : Terminates stock t page ↔
      t.addrs.length < 510 + 2 ∨ ¬ t.addrs.Places page ∨ ¬ t.addrs.Places 2 :=
  (hrun.invariant (fun _ _ _ h _ hstep => h.step hstep) Shape.init).terminates_iff

/-! ### A full table -/

/-- The first `n` pairs of pages of the window are the only ones that are taken. -/
structure Packed (n : Nat) (t : LargeTable) : Prop where
  shape : Shape t
  regular : Regular LargeFrameManager.Base LargeFrameManager.Top t.addrs
  length : t.addrs.length = n + 2
  below : ∀ x, Mapped t.addrs x → x < 0xD0000000 + n * 8192 ∨ 0xFFFFF000 ≤ x

theorem Packed.init : Packed 0 init where
  shape := Shape.init
  regular := ⟨init_repInv (by decide) (by decide), by simp [LargeTable.init,
    LargeFrameManager.init, RangeManager.init]⟩
  length := rfl
  below x := by
    rintro ⟨e, he, hlo, hhi⟩
    have hends : e ∈ ([⟨0#32, LargeFrameManager.Base⟩, ⟨LargeFrameManager.Top, 0xFFFFF000#32⟩] :
        List LFEntry) := he
    simp only [List.mem_cons, List.not_mem_nil, or_false] at hends
    rcases hends with rfl | rfl
    · exact Or.inl hhi
    · exact Or.inr hlo

/-- The next pair of pages can be taken. -/
theorem Packed.alloc {n : Nat} (h : Packed n t) (hn : n < 98303) : ∃ addr addrs,
    t.addrs.alloc 2 = some (some (addr, addrs)) ∧
      ∀ t' : LargeTable, t'.addrs = addrs → Shape t' → Packed (n + 1) t' := by
  have hbase : LargeFrameManager.Base.toNat = 0xD0000000 := rfl
  have htop : LargeFrameManager.Top.toNat = 0xFFFFF000 := rfl
  have hsize : (BitVec.ofNat 32 (2 <<< 12)).toNat = 8192 := rfl
  have hmore : 0xD0000000 + n * 8192 ≤ 0xD0000000 + (n + 1) * 8192 := by omega
  obtain ⟨place, hplace⟩ : ∃ place : VirtualAddress, place.toNat = 0xD0000000 + n * 8192 :=
    ⟨BitVec.ofNat 32 (0xD0000000 + n * 8192), by rw [BitVec.toNat_ofNat]; omega⟩
  have hfits : Fits LargeFrameManager.Base LargeFrameManager.Top t.addrs
      (BitVec.ofNat 32 (2 <<< 12)) LargeFrameManager.Base place := by
    refine ⟨BitVec.le_def.mpr (by omega), BitVec.le_def.mpr (by omega), by omega, ?_⟩
    intro x hx hx' hmapped
    have hbelow := h.below x hmapped
    omega
  obtain ⟨found, hfound, hsome, hnone⟩ :=
    h.regular.findFree_least (show BitVec.ofNat 32 (2 <<< 12) ≠ 0#32 by decide)
      LargeFrameManager.Base
  cases found with
  | none => exact absurd hfits (hnone rfl place)
  | some addr =>
      obtain ⟨hleast, hmin⟩ := hsome addr rfl
      have hle := BitVec.le_def.mp (hmin hfits)
      have hge := BitVec.le_def.mp hleast.base_le
      obtain ⟨entry, hentry⟩ : ∃ entry : LFEntry,
        entry = ⟨addr, addr + BitVec.ofNat 32 (2 <<< 12)⟩ := ⟨_, rfl⟩
      have hlo : lo entry = addr.toNat := by rw [hentry]; rfl
      have hhi : hi entry = addr.toNat + 8192 := by
        rw [hentry]
        change (addr + BitVec.ofNat 32 (2 <<< 12)).toNat = _
        rw [BitVec.toNat_add, hsize]
        omega
      have hend : hi entry ≤ 0xD0000000 + (n + 1) * 8192 := by omega
      obtain ⟨ok, addrs, hinsert, hok⟩ :=
        h.regular.insert_iff (show _ ≤ lo entry by omega) (by omega) (by omega)
      obtain rfl : ok = true := hok.mpr (by
        rw [hlo, hhi]
        exact hleast.unmapped)
      have halloc := LargeFrameManager.alloc_eq_some.mpr ⟨hfound, hentry ▸ hinsert⟩
      refine ⟨addr, addrs, halloc, fun t' haddrs hshape => ⟨hshape, ?_, ?_, ?_⟩⟩
      · rw [haddrs]
        exact h.regular.insert (by omega) hinsert
      · rw [haddrs, LargeFrameManager.alloc_length halloc, h.length]
      · rintro x ⟨e, he, hxlo, hxhi⟩
        rw [haddrs] at he
        rcases LargeFrameManager.mem_of_insert hinsert he with rfl | hmem
        · exact Or.inl (hxhi.trans_le hend)
        · rcases h.below x ⟨e, hmem, hxlo, hxhi⟩ with hbelow | habove
          · exact Or.inl (hbelow.trans_le hmore)
          · exact Or.inr habove

/-- 510 allocations of two pages each return. -/
theorem packed_run {n : Nat} (hn : n ≤ 510) : ∃ t,
    Run step anyStep init (List.replicate n (.alloc (fun _ => true) 1 2)) t ∧ Packed n t := by
  induction n with
  | zero => exact ⟨init, Run.nil _, Packed.init⟩
  | succ n ih =>
      obtain ⟨t, hrun, hpacked⟩ := ih (by omega)
      obtain ⟨addr, addrs, halloc, hnext⟩ := hpacked.alloc (by omega)
      have hsmall : t.addrs.length < 512 := by
        rw [hpacked.length]
        omega
      obtain ⟨t', hok, haddrs⟩ := hpacked.shape.alloc_returns hsmall halloc 0
      have hshape := hpacked.shape.alloc_ok hok
      have hstep : t.step (.alloc (fun _ => true) 1 2) = some t' := by
        simp [step, hok, Except.toOption]
      refine ⟨t', ?_, hnext t' haddrs hshape⟩
      rw [List.replicate_succ']
      exact hrun.snoc trivial hstep

/-- The second large frame. -/
theorem run_terminates_iff_second : ∃ t,
    Run step anyStep init [.alloc (fun _ => true) 1 2] t ∧ Terminates (fun _ => true) t 2 := by
  obtain ⟨t, hrun, hpacked⟩ := packed_run (show 1 ≤ 510 by decide)
  refine ⟨t, hrun, (run_terminates_iff hrun _ 2).mpr (Or.inl ?_)⟩
  rw [hpacked.length]
  decide

/-- With 510 large frames of two pages, the next call of `alloc` never returns. -/
theorem alloc_never_returns : ∃ moves t, Run step anyStep init moves t ∧
    t.addrs.length = 510 + 2 ∧ ∀ stock fuel, t.alloc stock fuel 2 = .error .tooDeep := by
  obtain ⟨t, hrun, hpacked⟩ := packed_run le_rfl
  obtain ⟨addr, addrs, halloc, _⟩ := hpacked.alloc (by decide)
  have hplaces := LargeFrameManager.places_iff.mpr ⟨addr, addrs, halloc⟩
  exact ⟨_, t, hrun, hpacked.length, fun stock fuel =>
    hpacked.shape.recurses hpacked.length hplaces hplaces fuel⟩

end LargeTable

end Nyan.Allocator
