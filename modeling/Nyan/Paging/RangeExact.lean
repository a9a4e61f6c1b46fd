import Nyan.Paging.VMA

/-!
`__erase` inside the window of the manager is exact. For a vector without empty
entries the parts that remain are not empty either, and the release callback gets
the overlap of every entry that the range meets, once. So the addresses of the range
go, each that was covered is released once, and all others keep their area, but for
the growing of the low part of an area that the range splits.
-/

namespace Nyan.Paging

open Library

namespace RangeManager

open RangeEntry

variable {E : Type} [RangeEntry E] {base top : VirtualAddress} {addrs : List E}
  {split : E → E → E} {lower upper : VirtualAddress}

theorem Regular.lo_lt_hi (h : Regular base top addrs) (hbase : 0 < base.toNat)
    (htop : top < 0xFFFFF000#32) {e : E} (he : e ∈ addrs) : lo e < hi e := by
  rcases h.kind he with rfl | hnonempty | rfl
  · simpa [lo, hi] using hbase
  · exact hnonempty
  · simpa [lo, hi, BitVec.lt_def] using htop

theorem regular_of_nonempty (h : RepInv base top addrs) (hnonempty : ∀ e ∈ addrs, lo e < hi e) :
    Regular base top addrs :=
  ⟨h, fun e he => hnonempty e (List.mem_of_mem_tail (List.mem_of_mem_dropLast he))⟩

/-- The parts that a cut leaves of an entry are not empty. -/
theorem lo_lt_hi_of_cut (hsplit : KeepsBounds split) {entry p : E} (hentry : lo entry < hi entry)
    (hp : p ∈ cutEntry split lower upper entry) : lo p < hi p := by
  obtain ⟨hbegin, hend⟩ := hsplit (make (beginAddr entry) lower) entry
  unfold cutEntry at hp
  split_ifs at hp with houter hlow hhigh hhigh <;>
    simp only [List.mem_cons, List.not_mem_nil, or_false] at hp
  · rw [hp]
    exact hentry
  · rw [hp]
    simpa [lo, hi, BitVec.le_def] using hhigh
  · rw [hp]
    simpa [lo, hi, BitVec.le_def] using hlow
  · rcases hp with rfl | rfl
    · simpa [lo, hi, hbegin, hend, BitVec.le_def] using hlow
    · simpa [lo, hi, BitVec.le_def] using hhigh

theorem CutOrDrop.eq_cut {entry : E} {parts : List E}
    (h : CutOrDrop split lower upper entry parts) (hentry : lo entry < hi entry) :
    parts = cutEntry split lower upper entry := by
  rcases h with heq | ⟨hempty, _⟩
  · exact heq
  · omega

theorem eraseOne_ok (split : E → E → E) (addrs : List E) (index : Nat) (entry : E)
    (lower upper : VirtualAddress) : (eraseOne split addrs index entry lower upper).ok = true := by
  unfold eraseOne
  split_ifs <;> rfl

theorem Meets.ok {result : Erased E} (h : Meets split lower upper addrs result) :
    result.ok = true := by
  cases h with
  | nothing _ => rfl
  | one _ _ _ _ _ => exact eraseOne_ok ..
  | many hsplit _ _ _ _ => rw [hsplit, eraseMany_eq]

/-- The range has addresses of an entry between its bounds, or splits the entry. -/
def Touches (lower upper : VirtualAddress) (entry : E) : Prop :=
  lo entry < upper.toNat ∧ lower.toNat < hi entry

instance (lower upper : VirtualAddress) (entry : E) : Decidable (Touches lower upper entry) :=
  inferInstanceAs (Decidable (_ ∧ _))

theorem filter_touches_before {before : List E} (h : ∀ e ∈ before, hi e ≤ lower.toNat) :
    before.filter (Touches lower upper ·) = [] := by
  rw [List.filter_eq_nil_iff]
  intro e he htouch
  have hend := h e he
  have hlower := (of_decide_eq_true htouch).2
  omega

theorem filter_touches_after {after : List E} (h : ∀ e ∈ after, upper.toNat ≤ lo e) :
    after.filter (Touches lower upper ·) = [] := by
  rw [List.filter_eq_nil_iff]
  intro e he htouch
  have hbegin := h e he
  have hupper := (of_decide_eq_true htouch).1
  omega

/-- The callbacks of the branch over several entries, in another order. -/
theorem eraseMany_released_perm {between : List E} (before after : List E)
    (leftEntry rightEntry : E) (hleft : hi leftEntry ≤ upper.toNat)
    (hright : lower.toNat ≤ lo rightEntry)
    (hinner : ∀ e ∈ between, lower.toNat ≤ lo e ∧ hi e ≤ upper.toNat) :
    (eraseMany (before ++ leftEntry :: (between ++ rightEntry :: after)) before.length
        (before.length + (between.length + 1)) leftEntry rightEntry lower upper).released.Perm
      ((leftEntry :: (between ++ [rightEntry])).map (overlap lower upper)) := by
  have hbetween : between.map (overlap lower upper) =
      between.map fun e => (beginAddr e, endAddr e) := by
    refine List.map_congr_left fun e he => ?_
    obtain ⟨hlow, hhigh⟩ := hinner e he
    have hbegin : ¬ beginAddr e < lower := by simpa [BitVec.lt_def, lo] using hlow
    rw [overlap_low hhigh, if_neg hbegin]
  rw [List.map_cons, List.map_append, hbetween, List.map_singleton, overlap_low hleft,
    overlap_high hright, eraseMany_eq]
  by_cases htrimLeft : beginAddr leftEntry < lower <;>
    by_cases htrimRight : upper < endAddr rightEntry <;>
    simp only [htrimLeft, htrimRight, if_true, if_false, List.nil_append, List.append_nil,
      List.cons_append, List.map_append, List.map_cons, List.map_nil,
      List.Perm.refl]
  · exact (List.perm_append_singleton _ _).symm.cons _
  · exact (List.Perm.swap _ _ _).trans ((List.perm_append_singleton _ _).symm.cons _)

/-- The callback gets the overlap of every entry that the range touches, once. -/
theorem Meets.released_perm {result : Erased E} (hordered : Interval.Ordered lo hi addrs)
    (hnonempty : ∀ e ∈ addrs, lo e < hi e) (h : Meets split lower upper addrs result) :
    result.released.Perm
      ((addrs.filter (Touches lower upper ·)).map (overlap lower upper)) := by
  cases h with
  | nothing houter =>
      have hnone : addrs.filter (Touches lower upper ·) = [] := by
        rw [List.filter_eq_nil_iff]
        intro e he htouch
        obtain ⟨hlow, hhigh⟩ := of_decide_eq_true htouch
        rcases houter e he with h | h <;> omega
      rw [hnone]
      exact List.Perm.refl _
  | @one before after entry hsplit hbefore hafter hend hbegin =>
      have hentry := hnonempty entry (by simp [hsplit])
      have htouch : Touches lower upper entry := ⟨by omega, hend⟩
      rw [eraseOne_released, hsplit, List.filter_append, List.filter_cons_of_pos (by simpa),
        filter_touches_before hbefore, filter_touches_after hafter]
      exact List.Perm.refl _
  | @many before between after leftEntry rightEntry hsplit hbefore hafter hend hbegin =>
      subst hsplit
      obtain ⟨_, hrest, _⟩ := Interval.ordered_append.mp hordered
      obtain ⟨_, hrest, hleftCross⟩ := Interval.ordered_cons.mp hrest
      obtain ⟨_, _, hbetweenCross⟩ := Interval.ordered_append.mp hrest
      have hleftEntry := hnonempty leftEntry (by simp)
      have hrightEntry := hnonempty rightEntry (by simp)
      have hleftRight := hleftCross rightEntry (by simp)
      have hinner : ∀ e ∈ between, lower.toNat ≤ lo e ∧ hi e ≤ upper.toNat := by
        intro e he
        have hlow := hleftCross e (by simp [he])
        have hhigh := hbetweenCross e he rightEntry (by simp)
        exact ⟨by omega, by omega⟩
      have hbetween : between.filter (Touches lower upper ·) = between := by
        rw [List.filter_eq_self]
        intro e he
        have hentry := hnonempty e (by simp [he])
        have hin := hinner e he
        exact decide_eq_true ⟨by omega, by omega⟩
      have hleftTouch : Touches lower upper leftEntry := ⟨by omega, hend⟩
      have hrightTouch : Touches lower upper rightEntry := ⟨by omega, by omega⟩
      rw [List.filter_append, filter_touches_before hbefore, List.nil_append,
        List.filter_cons_of_pos (by simpa), List.filter_append, hbetween,
        List.filter_cons_of_pos (by simpa), filter_touches_after hafter]
      exact eraseMany_released_perm before after leftEntry rightEntry (by omega) (by omega) hinner

theorem mem_overlap {entry : E} (x : Nat) :
    (overlap lower upper entry).1.toNat ≤ x ∧ x < (overlap lower upper entry).2.toNat ↔
      (lo entry ≤ x ∧ x < hi entry) ∧ lower.toNat ≤ x ∧ x < upper.toNat := by
  simp only [overlap, lo, hi]
  split_ifs with hbegin hend hend <;> simp only [BitVec.lt_def] at * <;> omega

/-- The number of callbacks that release an address. -/
def releasedAt (released : List (VirtualAddress × VirtualAddress)) (x : Nat) : Nat :=
  released.countP fun range => range.1.toNat ≤ x ∧ x < range.2.toNat

open Classical in
theorem Meets.releasedAt {result : Erased E} (hordered : Interval.Ordered lo hi addrs)
    (hnonempty : ∀ e ∈ addrs, lo e < hi e) (h : Meets split lower upper addrs result) (x : Nat) :
    releasedAt result.released x =
      if Mapped addrs x ∧ lower.toNat ≤ x ∧ x < upper.toNat then 1 else 0 := by
  rw [RangeManager.releasedAt, (h.released_perm hordered hnonempty).countP_eq, List.countP_map,
    List.countP_filter]
  by_cases hx : lower.toNat ≤ x ∧ x < upper.toNat
  · have hcount := hordered.countP_mem x
    simp only [hx, and_true, Mapped]
    rw [← hcount]
    refine List.countP_congr fun e _ => ?_
    simp only [Function.comp_apply, Bool.and_eq_true, decide_eq_true_eq, mem_overlap, hx,
      and_true]
    unfold Touches
    omega
  · rw [if_neg fun hall => hx hall.2, List.countP_eq_zero]
    intro e _
    simp only [Function.comp_apply, Bool.and_eq_true, decide_eq_true_eq, mem_overlap]
    exact fun hall => hx hall.1.2

theorem Meets.nonempty {result : Erased E} (hsplit : KeepsBounds split)
    (hordered : Interval.Ordered lo hi addrs) (hnonempty : ∀ e ∈ addrs, lo e < hi e)
    (h : Meets split lower upper addrs result) : ∀ p ∈ result.addrs, lo p < hi p := by
  intro p hp
  obtain ⟨e, he, parts, hparts, hpe⟩ := (h.pieces hordered).origin p hp
  rw [hparts.eq_cut (hnonempty e he)] at hpe
  exact lo_lt_hi_of_cut hsplit (hnonempty e he) hpe

theorem Meets.mapped {result : Erased E} (hsplit : KeepsBounds split)
    (hordered : Interval.Ordered lo hi addrs) (h : Meets split lower upper addrs result) (x : Nat) :
    Mapped result.addrs x ↔ Mapped addrs x ∧ ¬ (lower.toNat ≤ x ∧ x < upper.toNat) := by
  constructor
  · rintro ⟨p, hp, hx⟩
    obtain ⟨e, he, parts, hparts, hpe⟩ := (h.pieces hordered).origin p hp
    obtain ⟨hin, hout⟩ := (hparts.covers hsplit x).mp ⟨p, hpe, hx⟩
    exact ⟨⟨e, he, hin⟩, hout⟩
  · rintro ⟨⟨e, he, hin⟩, hout⟩
    obtain ⟨parts, hparts, hmem⟩ := (h.pieces hordered).parts e he
    obtain ⟨p, hp, hx⟩ := (hparts.covers hsplit x).mpr ⟨hin, hout⟩
    exact ⟨p, hmem p hp, hx⟩

end RangeManager

namespace VMSpace

open RangeManager

variable {space : VMSpace} {addr : VirtualAddress} {size : BitVec 32}

/-- An area after an erasure has the attributes of an area before it. The low part of
an area that the range splits does not grow. -/
def SameArea (lower upper : Nat) (before after : VMA) : Prop :=
  after.protect = before.protect ∧ after.name = before.name ∧
    (after.flags = before.flags ∨
      after.flags = before.flags &&& ~~~MAP_GROWSDOWN ∧
        lo before < lower ∧ upper < hi before ∧ hi after = lower)

theorem sameArea_of_cut {lower upper : VirtualAddress} {e p : VMA}
    (hp : p ∈ cutEntry splitRange lower upper e) : SameArea lower.toNat upper.toNat e p := by
  unfold cutEntry at hp
  split_ifs at hp with houter hlow hhigh hhigh <;>
    simp only [List.mem_cons, List.not_mem_nil, or_false] at hp
  · rw [hp]
    exact ⟨rfl, rfl, Or.inl rfl⟩
  · rw [hp]
    exact ⟨rfl, rfl, Or.inl rfl⟩
  · rw [hp]
    exact ⟨rfl, rfl, Or.inl rfl⟩
  · rcases hp with rfl | rfl
    · refine ⟨rfl, rfl, Or.inr ⟨rfl, ?_, ?_, rfl⟩⟩
      · simpa [lo, BitVec.le_def] using hlow
      · simpa [hi, BitVec.le_def] using hhigh
    · exact ⟨rfl, rfl, Or.inl rfl⟩

/-- What `__erase` does to the areas for the addresses from `lower` up to `upper`. -/
structure ErasesExactly (space : VMSpace) (lower upper : Nat) (result : RangeManager.Erased VMA) : Prop where
  ok : result.ok = true
  regular : Regular Base Top result.addrs
  mapped : ∀ x, Mapped result.addrs x ↔ Mapped space x ∧ ¬ (lower ≤ x ∧ x < upper)
  same : ∀ x, ∀ before ∈ space, ∀ after ∈ result.addrs, lo before ≤ x → x < hi before →
    lo after ≤ x → x < hi after → SameArea lower upper before after
  once : ∀ x, Mapped space x → lower ≤ x → x < upper → releasedAt result.released x = 1
  others : ∀ x, ¬ (Mapped space x ∧ lower ≤ x ∧ x < upper) → releasedAt result.released x = 0

/-- Every range inside the window is accepted and erased exactly. -/
theorem erase_exact (h : Regular Base Top space) (hlow : Base ≤ addr) (hhigh : addr < Top)
    (hend : addr.toNat + size.toNat ≤ Top.toNat) :
    ∃ result, space.erase addr size = some result ∧
      ErasesExactly space addr.toNat (addr.toNat + size.toNat) result := by
  have hnonempty : ∀ e ∈ space, lo e < hi e :=
    fun e he => h.lo_lt_hi (by decide) (by decide) he
  have haccept : Accepts Top addr size := ⟨BitVec.lt_def.mp hhigh, hend⟩
  obtain ⟨result, herase⟩ : ∃ result, space.erase addr size = some result :=
    erase_defined h.locate_defined splitRange addr size
  have hmeets := erase_meets h.ordered haccept herase
  have hinv := erase_repInv splitRange_keepsBounds (by decide) (by decide) h.toRepInv hlow herase
  have hreleased := hmeets.releasedAt h.ordered hnonempty
  have hmapped := hmeets.mapped splitRange_keepsBounds h.ordered
  rw [haccept.upper_toNat] at hreleased hmapped
  refine ⟨result, herase, hmeets.ok,
    regular_of_nonempty hinv (hmeets.nonempty splitRange_keepsBounds h.ordered hnonempty),
    hmapped, ?_, ?_, ?_⟩
  · intro x before hbefore after hafter hlo hhi hlo' hhi'
    obtain ⟨e, he, parts, hparts, hpe⟩ := (hmeets.pieces h.ordered).origin after hafter
    have hrange : addr.toNat ≤ (addr + size).toNat := by
      rw [haccept.upper_toNat]
      omega
    have hinside := (hparts.within splitRange_keepsBounds hrange
      (h.ordered.proper e he)).inside after hpe
    obtain rfl := h.ordered.eq_of_mem hbefore he ⟨hlo, hhi⟩ ⟨by omega, by omega⟩
    rw [hparts.eq_cut (hnonempty before he)] at hpe
    have hsame := sameArea_of_cut hpe
    rwa [haccept.upper_toNat] at hsame
  · intro x hx hlo hhi
    rw [hreleased x, if_pos ⟨hx, hlo, hhi⟩]
  · intro x hx
    rw [hreleased x, if_neg hx]

theorem stackOnly_regular : Regular Base Top stackOnly := by
  refine ⟨⟨⟨?_, ?_⟩, [stackArea], rfl⟩, ?_⟩
  · unfold stackOnly
    decide
  · unfold stackOnly
    decide
  · unfold stackOnly
    decide

/-- A quarter of the stack page goes, and leaves two areas. -/
theorem erase_exact_stack_page :
    ∃ result, VMSpace.erase stackOnly 0xBFFFF400#32 0x400#32 = some result ∧
      ErasesExactly stackOnly 0xBFFFF400 0xBFFFF800 result ∧
      releasedAt result.released 0xBFFFF400 = 1 := by
  have hend : (0xBFFFF400#32).toNat + (0x400#32).toNat ≤ Top.toNat := by decide
  obtain ⟨result, herase, hexact⟩ :=
    erase_exact stackOnly_regular (by decide) (by decide) hend
  have hmapped : Mapped stackOnly 0xBFFFF400 := ⟨stackArea, by decide, by decide, by decide⟩
  exact ⟨result, herase, hexact, hexact.once _ hmapped (by decide) (by decide)⟩

end VMSpace

end Nyan.Paging
