import Nyan.Paging.RangeInvariant

/-!
What `RangeManager::__erase` does to the vector. An accepted range is cut out of
every entry: the entries it covers go, those it overlaps are trimmed or split,
and the callback is called with exactly the overlaps. The order of the vector
is always kept. The sentinels are kept when the range does not start below
`Base`, and `erase_unchanged` names the other ranges that do no harm.
-/

namespace Nyan.Paging.RangeManager

open RangeEntry Library

variable {E : Type} [RangeEntry E] {base top : VirtualAddress} {addrs : List E}

/-- What a split callback may change: everything except the bounds. -/
def KeepsBounds (split : E → E → E) : Prop :=
  ∀ entry source, beginAddr (split entry source) = beginAddr entry ∧
    endAddr (split entry source) = endAddr entry

/-- The parts of an entry that remain when the addresses from `lower` up to
`upper` are taken out of it. -/
def cutEntry (split : E → E → E) (lower upper : VirtualAddress) (entry : E) : List E :=
  if endAddr entry ≤ lower ∨ upper ≤ beginAddr entry then
    [entry]
  else if lower ≤ beginAddr entry then
    if endAddr entry ≤ upper then [] else [setBegin entry upper]
  else if endAddr entry ≤ upper then
    [setEnd entry lower]
  else
    [split (make (beginAddr entry) lower) entry, setBegin entry upper]

/-- `__erase` cuts every entry, except that it may also drop an empty entry
that lies on a bound of the range. -/
def CutOrDrop (split : E → E → E) (lower upper : VirtualAddress) (entry : E)
    (parts : List E) : Prop :=
  parts = cutEntry split lower upper entry ∨ lo entry = hi entry ∧ parts = []

theorem cutEntry_untouched {split : E → E → E} {lower upper : VirtualAddress} {entry : E}
    (h : hi entry ≤ lower.toNat ∨ upper.toNat ≤ lo entry) :
    cutEntry split lower upper entry = [entry] := by
  unfold cutEntry
  rw [if_pos (by simpa [BitVec.le_def, lo, hi] using h)]

theorem eraseLeft_spec (hordered : Interval.Ordered lo hi addrs) {addr : VirtualAddress}
    {left : Nat} (h : eraseLeft addrs addr = some left) :
    (∀ entry ∈ addrs.take left, hi entry ≤ addr.toNat) ∧
      ∀ entry, addrs[left]? = some entry → addr.toNat < hi entry := by
  simp only [eraseLeft, Option.bind_eq_bind, Option.bind_eq_some_iff, Option.pure_def,
    Option.some.injEq] at h
  obtain ⟨found, hfound, foundEntry, hfoundEntry, rfl⟩ := h
  obtain ⟨⟨entry, hentry, hlow⟩, hnext⟩ := locate_spec hfound
  obtain rfl : foundEntry = entry := Option.some.inj (hfoundEntry.symm.trans hentry)
  obtain ⟨before, after, rfl, rfl⟩ := Interval.split_at hentry
  have hbefore : ∀ e ∈ before, hi e ≤ lo foundEntry := fun e he =>
    (Interval.ordered_append.mp hordered).2.2 e he foundEntry (by simp)
  have hlow' : lo foundEntry ≤ addr.toNat := BitVec.le_def.mp hlow
  by_cases hcontains : Contains foundEntry addr
  · rw [if_pos hcontains]
    refine ⟨?_, ?_⟩
    · intro e he
      have hle := hbefore e (by simpa using he)
      omega
    · intro e he
      obtain rfl : foundEntry = e := by simpa using he
      exact BitVec.lt_def.mp hcontains.2
  · rw [if_neg hcontains]
    have hend : hi foundEntry ≤ addr.toNat := by
      simpa [Contains, hlow, BitVec.lt_def, hi] using hcontains
    refine ⟨?_, ?_⟩
    · intro e he
      rw [List.take_append] at he
      simp only [Nat.add_sub_cancel_left, List.take_succ_cons, List.take_zero, List.mem_append,
        List.mem_singleton] at he
      rcases he with he | rfl
      · have hle := hbefore e (List.mem_of_mem_take he)
        omega
      · exact hend
    · intro e he
      have hlt : addr.toNat < lo e := BitVec.lt_def.mp (hnext e he)
      have hproper := hordered.proper e (List.mem_of_getElem? he)
      omega

theorem eraseRight_spec (hordered : Interval.Ordered lo hi addrs) {upper : VirtualAddress}
    {right : Option Nat} (h : eraseRight addrs upper = some right) :
    (∀ entry ∈ addrs.drop (right.elim 0 (· + 1)), upper.toNat ≤ lo entry) ∧
      ∀ n entry, right = some n → addrs[n]? = some entry →
        lo entry < upper.toNat ∨ hi entry ≤ upper.toNat := by
  simp only [eraseRight, Option.bind_eq_bind, Option.bind_eq_some_iff, Option.pure_def,
    Option.some.injEq] at h
  obtain ⟨found, hfound, foundEntry, hfoundEntry, rfl⟩ := h
  obtain ⟨⟨entry, hentry, hlow⟩, hnext⟩ := locate_spec hfound
  obtain rfl : foundEntry = entry := Option.some.inj (hfoundEntry.symm.trans hentry)
  obtain ⟨before, after, rfl, rfl⟩ := Interval.split_at hentry
  obtain ⟨_, hrest, hbefore⟩ := Interval.ordered_append.mp hordered
  obtain ⟨hproper, _, hafter⟩ := Interval.ordered_cons.mp hrest
  have hlow' : lo foundEntry ≤ upper.toNat := BitVec.le_def.mp hlow
  by_cases hbegin : upper ≤ beginAddr foundEntry
  · have hbegin' : upper.toNat ≤ lo foundEntry := BitVec.le_def.mp hbegin
    have hfrom : ∀ e ∈ foundEntry :: after, upper.toNat ≤ lo e := by
      intro e he
      rcases List.mem_cons.mp he with rfl | he
      · exact hbegin'
      · have hle := hafter e he
        omega
    rw [if_pos hbegin]
    by_cases hzero : before.length = 0
    · obtain rfl : before = [] := List.length_eq_zero_iff.mp hzero
      simpa using hfrom
    · rw [if_neg hzero]
      refine ⟨?_, ?_⟩
      · rw [Option.elim_some, Nat.sub_add_cancel (by omega), List.drop_left]
        exact hfrom
      · rintro n e hn he
        obtain rfl : before.length - 1 = n := Option.some.inj hn
        rw [List.getElem?_append_left (by omega)] at he
        have hle := hbefore e (List.mem_of_getElem? he) foundEntry (by simp)
        right
        omega
  · rw [if_neg hbegin]
    refine ⟨?_, ?_⟩
    · intro e he
      rw [Option.elim_some, ← List.drop_drop, List.drop_left] at he
      have he : e ∈ after := by simpa using he
      obtain ⟨next, rest, rfl⟩ := List.exists_cons_of_ne_nil (List.ne_nil_of_mem he)
      have hlt : upper.toNat < lo next := BitVec.lt_def.mp (hnext next (by simp))
      have hsorted := (Interval.ordered_cons.mp hrest).2.1.sorted
      rcases List.mem_cons.mp he with rfl | he
      · exact hlt.le
      · have hle : lo next ≤ lo e := (List.pairwise_cons.mp hsorted).1 e he
        omega
    · rintro n e hn he
      obtain rfl : before.length = n := Option.some.inj hn
      obtain rfl : foundEntry = e := by simpa using he
      left
      simpa [lo, BitVec.le_def] using hbegin

/-- The three ways an accepted range meets the vector: no entry, one entry, or
a first and a last entry with others between them. -/
inductive Meets (split : E → E → E) (lower upper : VirtualAddress) (addrs : List E) :
    Erased E → Prop where
  | nothing : (∀ e ∈ addrs, hi e ≤ lower.toNat ∨ upper.toNat ≤ lo e) →
      Meets split lower upper addrs ⟨true, addrs, []⟩
  | one {before after : List E} {entry : E} : addrs = before ++ entry :: after →
      (∀ e ∈ before, hi e ≤ lower.toNat) → (∀ e ∈ after, upper.toNat ≤ lo e) →
      lower.toNat < hi entry → (lo entry < upper.toNat ∨ hi entry ≤ upper.toNat) →
      Meets split lower upper addrs (eraseOne split addrs before.length entry lower upper)
  | many {before between after : List E} {leftEntry rightEntry : E} :
      addrs = before ++ leftEntry :: (between ++ rightEntry :: after) →
      (∀ e ∈ before, hi e ≤ lower.toNat) → (∀ e ∈ after, upper.toNat ≤ lo e) →
      lower.toNat < hi leftEntry → (lo rightEntry < upper.toNat ∨ hi rightEntry ≤ upper.toNat) →
      Meets split lower upper addrs
        (eraseMany addrs before.length (before.length + (between.length + 1)) leftEntry rightEntry
          lower upper)

/-- A range `__erase` accepts. -/
def Accepts (top addr : VirtualAddress) (size : BitVec 32) : Prop :=
  addr.toNat < top.toNat ∧ addr.toNat + size.toNat ≤ top.toNat

theorem accepts_iff {addr : VirtualAddress} {size : BitVec 32} :
    Accepts top addr size ↔
      ¬ (top ≤ addr ∨ 2 ^ 32 ≤ addr.toNat + size.toNat ∨ top < addr + size) := by
  have htop := top.isLt
  rw [Accepts, BitVec.le_def, BitVec.lt_def, BitVec.toNat_add]
  constructor
  · rintro ⟨hbelow, hend⟩
    rw [Nat.mod_eq_of_lt (by omega)]
    omega
  · intro h
    rw [not_or, not_or] at h
    obtain ⟨hbelow, hnowrap, hend⟩ := h
    rw [Nat.mod_eq_of_lt (by omega)] at hend
    omega

theorem Accepts.upper_toNat {addr : VirtualAddress} {size : BitVec 32}
    (h : Accepts top addr size) : (addr + size).toNat = addr.toNat + size.toNat := by
  have htop := top.isLt
  obtain ⟨_, hend⟩ := h
  rw [BitVec.toNat_add, Nat.mod_eq_of_lt (by omega)]

theorem erase_rejected {split : E → E → E} {addr : VirtualAddress} {size : BitVec 32}
    (h : ¬ Accepts top addr size) :
    erase top split addrs addr size = some ⟨false, addrs, []⟩ := by
  rw [accepts_iff, not_not] at h
  rw [erase, if_pos h]

theorem erase_meets {split : E → E → E} (hordered : Interval.Ordered lo hi addrs)
    {addr : VirtualAddress} {size : BitVec 32} (haccept : Accepts top addr size)
    {result : Erased E} (h : erase top split addrs addr size = some result) :
    Meets split addr (addr + size) addrs result := by
  rw [erase, if_neg (accepts_iff.mp haccept)] at h
  simp only [Option.bind_eq_bind, Option.bind_eq_some_iff] at h
  obtain ⟨left, hleft, h⟩ := h
  obtain ⟨hbefore, hleftEnd⟩ := eraseLeft_spec hordered hleft
  split at h
  · rename_i hlength
    cases h
    refine Meets.nothing fun e he => Or.inl (hbefore e ?_)
    rwa [hlength, List.take_length]
  simp only [Option.bind_eq_some_iff] at h
  obtain ⟨right, hright, h⟩ := h
  obtain ⟨hafter, hrightBegin⟩ := eraseRight_spec hordered hright
  have hnothing : right.elim 0 (· + 1) ≤ left →
      Meets split addr (addr + size) addrs ⟨true, addrs, []⟩ := by
    intro hle
    refine Meets.nothing fun e he => ?_
    rw [← List.take_append_drop left addrs, List.mem_append] at he
    rcases he with he | he
    · exact Or.inl (hbefore e he)
    · exact Or.inr (hafter e (List.drop_subset_drop_left addrs hle he))
  cases right with
  | none =>
      obtain rfl := Option.some.inj h
      exact hnothing (Nat.zero_le _)
  | some right =>
      simp only [Option.elim_some] at hafter hnothing h
      split at h
      · rename_i hlt
        obtain rfl := Option.some.inj h
        exact hnothing hlt
      rename_i hle
      simp only [Option.bind_eq_some_iff] at h
      obtain ⟨leftEntry, hleftEntry, rightEntry, hrightEntry, h⟩ := h
      have hend := hleftEnd leftEntry hleftEntry
      have hbegin := hrightBegin right rightEntry rfl hrightEntry
      obtain ⟨before, rest, hsplit, rfl⟩ := Interval.split_at hleftEntry
      have hbefore' : ∀ e ∈ before, hi e ≤ addr.toNat := by
        intro e he
        exact hbefore e (by simpa [hsplit] using he)
      split at h
      · rename_i hsame
        obtain rfl := Option.some.inj h
        rw [← hsame] at hafter hrightEntry
        obtain rfl := Option.some.inj (hleftEntry.symm.trans hrightEntry)
        refine Meets.one hsplit hbefore' ?_ hend hbegin
        intro e he
        exact hafter e (by simpa [hsplit] using he)
      · rename_i hne
        obtain rfl := Option.some.inj h
        obtain ⟨offset, rfl⟩ : ∃ offset, right = before.length + (offset + 1) :=
          ⟨right - before.length - 1, by omega⟩
        have hrest : rest[offset]? = some rightEntry := by
          rw [hsplit, List.getElem?_append_right (by omega)] at hrightEntry
          simpa using hrightEntry
        obtain ⟨between, after, rfl, rfl⟩ := Interval.split_at hrest
        refine Meets.many hsplit hbefore' ?_ hend hbegin
        intro e he
        refine hafter e ?_
        rw [hsplit, Nat.add_assoc, ← List.drop_drop, List.drop_left]
        simpa using he

theorem eraseOne_addrs {split : E → E → E} {before after : List E} {entry : E}
    {lower upper : VirtualAddress} (hend : lower.toNat < hi entry)
    (hbegin : lo entry < upper.toNat) :
    (eraseOne split (before ++ entry :: after) before.length entry lower upper).addrs =
      before ++ cutEntry split lower upper entry ++ after := by
  have houter : ¬ (endAddr entry ≤ lower ∨ upper ≤ beginAddr entry) := by
    rw [BitVec.le_def, BitVec.le_def]
    simp only [lo, hi] at hend hbegin
    omega
  unfold eraseOne cutEntry
  rw [if_neg houter]
  split
  · split
    · simp [List.eraseIdx_append_of_length_le]
    · simp
  · split
    · simp
    · have hinsert := Interval.insertIdx_length before (setBegin entry upper :: after)
        (split (make (beginAddr entry) lower) entry)
      simp [hinsert]

/-- Removing a range over several entries leaves at most the low part of the
first and the high part of the last, and releases the rest. -/
theorem eraseMany_eq (before between after : List E) (leftEntry rightEntry : E)
    (lower upper : VirtualAddress) :
    eraseMany (before ++ leftEntry :: (between ++ rightEntry :: after)) before.length
        (before.length + (between.length + 1)) leftEntry rightEntry lower upper =
      ⟨true,
        before ++ ((if beginAddr leftEntry < lower then [setEnd leftEntry lower] else []) ++
          ((if upper < endAddr rightEntry then [setBegin rightEntry upper] else []) ++ after)),
        (if beginAddr leftEntry < lower then [(lower, endAddr leftEntry)] else []) ++
        (if upper < endAddr rightEntry then [(beginAddr rightEntry, upper)] else []) ++
        ((if beginAddr leftEntry < lower then [] else [leftEntry]) ++ between ++
          (if upper < endAddr rightEntry then [] else [rightEntry])).map
            fun entry => (beginAddr entry, endAddr entry)⟩ := by
  have hleft : ∀ x : E, (before ++ leftEntry :: (between ++ rightEntry :: after)).set
      before.length x = before ++ x :: (between ++ rightEntry :: after) := by
    intro x
    simp
  have hright : ∀ x y : E, (before ++ x :: (between ++ rightEntry :: after)).set
      (before.length + (between.length + 1)) y = before ++ x :: (between ++ y :: after) := by
    intro x y
    rw [List.set_append_right _ _ (by omega)]
    simp
  have htake : ∀ x y : E, (before ++ x :: (between ++ y :: after)).take (before.length + 1) =
      before ++ [x] := by
    intro x y
    rw [List.take_length_add_append]
    simp
  have htakeBetween : ∀ x y : E, (before ++ x :: (between ++ y :: after)).take
      (before.length + (between.length + 1)) = before ++ x :: between := by
    intro x y
    rw [List.take_length_add_append]
    simp
  have htakeRight : ∀ x y : E, (before ++ x :: (between ++ y :: after)).take
      (before.length + (between.length + 1) + 1) = before ++ x :: (between ++ [y]) := by
    intro x y
    rw [Nat.add_assoc, List.take_length_add_append, List.take_succ_cons,
      List.take_length_add_append]
    simp
  have hdropRight : ∀ x y : E, (before ++ x :: (between ++ y :: after)).drop
      (before.length + (between.length + 1)) = y :: after := by
    intro x y
    rw [List.drop_length_add_append]
    simp
  have hdrop : ∀ x y : E, (before ++ x :: (between ++ y :: after)).drop
      (before.length + (between.length + 1) + 1) = after := by
    intro x y
    rw [← List.drop_drop, hdropRight]
    simp
  unfold eraseMany
  by_cases htrimLeft : beginAddr leftEntry < lower <;>
    by_cases htrimRight : upper < endAddr rightEntry <;>
    simp only [htrimLeft, htrimRight, if_true, if_false, hleft, hright]
  · by_cases hempty : between = []
    · subst hempty
      simp
    · have hpos : 0 < between.length := List.length_pos_iff.mpr hempty
      rw [if_pos (by omega), htake, Nat.sub_add_cancel (by omega), hdropRight, htakeBetween,
        List.drop_length_add_append]
      simp
  · rw [if_pos (by omega), htake, hdrop, htakeRight, List.drop_length_add_append]
    simp
  · rw [if_pos (by omega), List.take_left, Nat.sub_add_cancel (by omega), hdropRight,
      htakeBetween, List.drop_left]
    simp
  · rw [if_pos (by omega), List.take_left, hdrop, htakeRight, List.drop_left]
    simp

/-- The part of an entry that lies in the range. -/
def overlap (lower upper : VirtualAddress) (entry : E) : VirtualAddress × VirtualAddress :=
  (if beginAddr entry < lower then lower else beginAddr entry,
    if upper < endAddr entry then upper else endAddr entry)

theorem eraseOne_released (split : E → E → E) (addrs : List E) (index : Nat) (entry : E)
    (lower upper : VirtualAddress) :
    (eraseOne split addrs index entry lower upper).released = [overlap lower upper entry] := by
  unfold eraseOne overlap
  by_cases hbegin : lower ≤ beginAddr entry <;> by_cases hend : endAddr entry ≤ upper
  · simp [hbegin, hend, BitVec.not_lt.mpr hbegin, BitVec.not_lt.mpr hend]
  · simp [hbegin, hend, BitVec.not_lt.mpr hbegin, BitVec.not_le.mp hend]
  · simp [hbegin, hend, BitVec.not_le.mp hbegin, BitVec.not_lt.mpr hend]
  · simp [hbegin, hend, BitVec.not_le.mp hbegin, BitVec.not_le.mp hend]

section Cuts

variable {split : E → E → E} {lower upper : VirtualAddress}

theorem cutOrDrop_untouched {entry : E} (h : hi entry ≤ lower.toNat ∨ upper.toNat ≤ lo entry) :
    CutOrDrop split lower upper entry [entry] :=
  Or.inl (cutEntry_untouched h).symm

/-- A non-empty entry that the range does not reach stays as it is. -/
theorem CutOrDrop.eq_singleton {entry : E} {parts : List E}
    (h : CutOrDrop split lower upper entry parts) (hproper : lo entry < hi entry)
    (houter : hi entry ≤ lower.toNat ∨ upper.toNat ≤ lo entry) : parts = [entry] := by
  rcases h with rfl | ⟨hempty, _⟩
  · exact cutEntry_untouched houter
  · omega

/-- An entry that ends inside the range keeps the part below it. -/
theorem cutOrDrop_low (split : E → E → E) {entry : E} (hproper : lo entry ≤ hi entry)
    (hlower : lower.toNat < hi entry) (hupper : hi entry ≤ upper.toNat) :
    CutOrDrop split lower upper entry
      (if beginAddr entry < lower then [setEnd entry lower] else []) := by
  by_cases houter : upper ≤ beginAddr entry
  · have hempty : lo entry = hi entry := by
      rw [BitVec.le_def] at houter
      simp only [lo] at hproper ⊢
      omega
    refine Or.inr ⟨hempty, if_neg ?_⟩
    simp only [lo, BitVec.lt_def] at hempty ⊢
    omega
  · left
    have hnotLow : ¬ endAddr entry ≤ lower := by simpa [BitVec.le_def, hi] using hlower
    have hend : endAddr entry ≤ upper := BitVec.le_def.mpr hupper
    by_cases hbegin : lower ≤ beginAddr entry
    · simp [cutEntry, hnotLow, houter, hend, hbegin, BitVec.not_lt.mpr hbegin]
    · simp [cutEntry, hnotLow, houter, hend, hbegin, BitVec.not_le.mp hbegin]

/-- An entry that begins inside the range keeps the part above it. -/
theorem cutOrDrop_high (split : E → E → E) {entry : E} (hproper : lo entry ≤ hi entry)
    (hlower : lower.toNat < lo entry) (hupper : lo entry < upper.toNat ∨ hi entry ≤ upper.toNat) :
    CutOrDrop split lower upper entry
      (if upper < endAddr entry then [setBegin entry upper] else []) := by
  by_cases houter : upper ≤ beginAddr entry
  · have houter' : upper.toNat ≤ lo entry := BitVec.le_def.mp houter
    refine Or.inr ⟨by omega, if_neg ?_⟩
    rw [BitVec.lt_def]
    simp only [hi] at hproper hupper
    omega
  · left
    have hnotLow : ¬ endAddr entry ≤ lower := by
      rw [BitVec.le_def]
      simp only [hi] at hproper
      omega
    have hbegin : lower ≤ beginAddr entry := BitVec.le_def.mpr hlower.le
    by_cases hend : endAddr entry ≤ upper
    · simp [cutEntry, hnotLow, houter, hend, hbegin, BitVec.not_lt.mpr hend]
    · simp [cutEntry, hnotLow, houter, hend, hbegin, BitVec.not_le.mp hend]

/-- An entry inside the range goes. -/
theorem cutOrDrop_inner {entry : E} (hproper : lo entry ≤ hi entry)
    (hlower : lower.toNat < lo entry) (hupper : hi entry ≤ upper.toNat) :
    CutOrDrop split lower upper entry [] := by
  have hhigh := cutOrDrop_high split hproper hlower (Or.inr hupper)
  rwa [if_neg (by simpa [BitVec.lt_def, hi] using hupper)] at hhigh

theorem overlap_low {entry : E} (hupper : hi entry ≤ upper.toNat) :
    overlap lower upper entry =
      (if beginAddr entry < lower then lower else beginAddr entry, endAddr entry) := by
  have hend : ¬ upper < endAddr entry := by simpa [BitVec.lt_def, hi] using hupper
  simp [overlap, hend]

theorem overlap_high {entry : E} (hlower : lower.toNat ≤ lo entry) :
    overlap lower upper entry =
      (beginAddr entry, if upper < endAddr entry then upper else endAddr entry) := by
  rw [overlap, if_neg (by simpa [BitVec.lt_def, lo] using hlower)]

/-- Cutting the middle of the vector when the range reaches neither the entries
before it nor those after it. -/
theorem pieces_between {before middle middle' after : List E}
    (hbefore : ∀ e ∈ before, hi e ≤ lower.toNat) (hafter : ∀ e ∈ after, upper.toNat ≤ lo e)
    (h : Interval.Pieces (CutOrDrop split lower upper) middle middle') :
    Interval.Pieces (CutOrDrop split lower upper) (before ++ (middle ++ after))
      (before ++ (middle' ++ after)) :=
  (Interval.Pieces.refl fun e he => cutOrDrop_untouched (Or.inl (hbefore e he))).append
    (h.append (Interval.Pieces.refl fun e he => cutOrDrop_untouched (Or.inr (hafter e he))))

theorem Meets.pieces {result : Erased E} (hordered : Interval.Ordered lo hi addrs)
    (h : Meets split lower upper addrs result) :
    Interval.Pieces (CutOrDrop split lower upper) addrs result.addrs := by
  cases h with
  | nothing houter => exact Interval.Pieces.refl fun e he => cutOrDrop_untouched (houter e he)
  | @one before after entry hsplit hbefore hafter hend hbegin =>
      subst hsplit
      by_cases hlow : lo entry < upper.toNat
      · rw [eraseOne_addrs hend hlow]
        simpa using pieces_between hbefore hafter (Interval.Pieces.single (Or.inl rfl))
      · -- The range stops where an empty entry lies, and the entry is removed.
        have hproper := hordered.proper entry (by simp)
        have hhigh : hi entry ≤ upper.toNat := hbegin.resolve_left hlow
        have hlower : lower ≤ beginAddr entry := by
          rw [BitVec.le_def]
          simp only [lo] at hproper hlow
          omega
        have haddrs : (eraseOne split (before ++ entry :: after) before.length entry
            lower upper).addrs = before ++ ([] ++ after) := by
          simp [eraseOne, hlower, BitVec.le_def.mpr hhigh, List.eraseIdx_append_of_length_le]
        have hparts : Interval.Pieces (CutOrDrop split lower upper) [entry] [] :=
          Interval.Pieces.single (Or.inr ⟨by omega, rfl⟩)
        rw [haddrs]
        exact pieces_between hbefore hafter hparts
  | @many before between after leftEntry rightEntry hsplit hbefore hafter hend hbegin =>
      subst hsplit
      rw [eraseMany_eq]
      obtain ⟨_, hrest, _⟩ := Interval.ordered_append.mp hordered
      obtain ⟨hproperLeft, hrest, hleftCross⟩ := Interval.ordered_cons.mp hrest
      obtain ⟨hbetween, hright, hbetweenCross⟩ := Interval.ordered_append.mp hrest
      have hproperRight := hright.proper rightEntry (by simp)
      have hleftRight := hleftCross rightEntry (by simp)
      have hmiddle : Interval.Pieces (CutOrDrop split lower upper) between [] := by
        refine Interval.Pieces.removeAll fun e he => ?_
        have hlow := hleftCross e (by simp [he])
        have hhigh := hbetweenCross e he rightEntry (by simp)
        have hproper := hbetween.proper e he
        exact cutOrDrop_inner hproper (by omega) (by omega)
      have hparts := (Interval.Pieces.single (cutOrDrop_low split hproperLeft hend
        (by omega))).append (hmiddle.append (Interval.Pieces.single
          (cutOrDrop_high split hproperRight (by omega) hbegin)))
      simpa using pieces_between hbefore hafter hparts

theorem mem_eraseMany_released {between : List E} (before after : List E)
    (leftEntry rightEntry : E) (hleft : hi leftEntry ≤ upper.toNat) (hright : lower.toNat ≤ lo rightEntry)
    (hinner : ∀ e ∈ between, lower.toNat < lo e ∧ lo e ≤ hi e ∧ hi e ≤ upper.toNat)
    (range : VirtualAddress × VirtualAddress) :
    range ∈ (eraseMany (before ++ leftEntry :: (between ++ rightEntry :: after)) before.length
        (before.length + (between.length + 1)) leftEntry rightEntry lower upper).released ↔
      range = overlap lower upper leftEntry ∨
        (∃ e ∈ between, range = overlap lower upper e) ∨
        range = overlap lower upper rightEntry := by
  have hbetween : (∃ e ∈ between, (beginAddr e, endAddr e) = range) ↔
      ∃ e ∈ between, range = overlap lower upper e := by
    refine exists_congr fun e => and_congr_right fun he => ?_
    obtain ⟨hlow, _, hhigh⟩ := hinner e he
    have hbegin : ¬ beginAddr e < lower := by
      rw [BitVec.lt_def]
      simp only [lo] at hlow
      omega
    rw [overlap_low hhigh, if_neg hbegin]
    exact eq_comm
  rw [eraseMany_eq, overlap_low hleft, overlap_high hright, ← hbetween]
  by_cases htrimLeft : beginAddr leftEntry < lower <;>
    by_cases htrimRight : upper < endAddr rightEntry <;>
    simp only [htrimLeft, htrimRight, if_true, if_false, List.mem_append, List.mem_map,
      List.mem_singleton, exists_eq_left, or_and_right, exists_or, List.append_nil,
      List.nil_append, @eq_comm _ range, or_comm, or_left_comm, or_assoc]

/-- The callback is called with the overlap of every entry the range meets, and
with nothing else. -/
structure Releases (lower upper : VirtualAddress) (addrs : List E)
    (released : List (VirtualAddress × VirtualAddress)) : Prop where
  sound : ∀ range ∈ released, ∃ e ∈ addrs, range = overlap lower upper e ∧
    lo e ≤ upper.toNat ∧ lower.toNat ≤ hi e
  complete : ∀ e ∈ addrs, lo e < upper.toNat → lower.toNat < hi e →
    overlap lower upper e ∈ released

theorem Meets.releases {result : Erased E} (hordered : Interval.Ordered lo hi addrs)
    (h : Meets split lower upper addrs result) :
    Releases lower upper addrs result.released := by
  cases h with
  | nothing houter =>
      refine ⟨by simp, ?_⟩
      intro e he hlow hhigh
      rcases houter e he with h | h <;> omega
  | @one before after entry hsplit hbefore hafter hend hbegin =>
      have hproper := hordered.proper entry (by simp [hsplit])
      rw [eraseOne_released]
      refine ⟨?_, ?_⟩
      · intro range hrange
        exact ⟨entry, by simp [hsplit], by simpa using hrange, by omega, by omega⟩
      · intro e he hlow hhigh
        rw [hsplit, List.mem_append, List.mem_cons] at he
        rcases he with he | rfl | he
        · have hle := hbefore e he
          omega
        · simp
        · have hle := hafter e he
          omega
  | @many before between after leftEntry rightEntry hsplit hbefore hafter hend hbegin =>
      subst hsplit
      obtain ⟨_, hrest, _⟩ := Interval.ordered_append.mp hordered
      obtain ⟨hproperLeft, hrest, hleftCross⟩ := Interval.ordered_cons.mp hrest
      obtain ⟨hbetween, hright, hbetweenCross⟩ := Interval.ordered_append.mp hrest
      have hproperRight := hright.proper rightEntry (by simp)
      have hleftRight := hleftCross rightEntry (by simp)
      have hinner : ∀ e ∈ between, lower.toNat < lo e ∧ lo e ≤ hi e ∧ hi e ≤ upper.toNat := by
        intro e he
        have hlow := hleftCross e (by simp [he])
        have hhigh := hbetweenCross e he rightEntry (by simp)
        exact ⟨by omega, hbetween.proper e he, by omega⟩
      have hmem := mem_eraseMany_released before after leftEntry rightEntry (by omega) (by omega) hinner
      refine ⟨?_, ?_⟩
      · intro range hrange
        rcases (hmem range).mp hrange with rfl | ⟨e, he, rfl⟩ | rfl
        · exact ⟨leftEntry, by simp, rfl, by omega, by omega⟩
        · obtain ⟨hlow, hproper, hhigh⟩ := hinner e he
          exact ⟨e, by simp [he], rfl, by omega, by omega⟩
        · exact ⟨rightEntry, by simp, rfl, by omega, by omega⟩
      · intro e he hlow hhigh
        simp only [List.mem_append, List.mem_cons] at he
        rcases he with he | rfl | he | rfl | he
        · have hle := hbefore e he
          omega
        · exact (hmem _).mpr (Or.inl rfl)
        · exact (hmem _).mpr (Or.inr (Or.inl ⟨e, he, rfl⟩))
        · exact (hmem _).mpr (Or.inr (Or.inr rfl))
        · have hle := hafter e he
          omega

theorem CutOrDrop.within (hsplit : KeepsBounds split) {entry : E} {parts : List E}
    (hrange : lower.toNat ≤ upper.toNat) (hproper : lo entry ≤ hi entry)
    (h : CutOrDrop split lower upper entry parts) : Interval.Within lo hi entry parts := by
  rcases h with rfl | ⟨_, rfl⟩
  swap
  · exact Interval.within_nil entry
  unfold cutEntry
  split
  · exact Interval.within_singleton hproper le_rfl le_rfl
  rename_i houter
  rw [BitVec.le_def, BitVec.le_def] at houter
  split
  · split
    · exact Interval.within_nil entry
    · apply Interval.within_singleton <;>
        simp only [lo, hi, beginAddr_setBegin, endAddr_setBegin, BitVec.le_def] at * <;> omega
  · split
    · apply Interval.within_singleton <;>
        simp only [lo, hi, beginAddr_setEnd, endAddr_setEnd, BitVec.le_def] at * <;> omega
    · obtain ⟨hbegin, hend⟩ := hsplit (make (beginAddr entry) lower) entry
      apply Interval.within_pair <;>
        simp only [lo, hi, hbegin, hend, beginAddr_make, endAddr_make, beginAddr_setBegin,
          endAddr_setBegin, BitVec.le_def] at * <;> omega

/-- The parts cover the points of the entry outside the range. -/
theorem CutOrDrop.covers (hsplit : KeepsBounds split) {entry : E} {parts : List E}
    (h : CutOrDrop split lower upper entry parts) (x : Nat) :
    (∃ p ∈ parts, lo p ≤ x ∧ x < hi p) ↔
      (lo entry ≤ x ∧ x < hi entry) ∧ ¬ (lower.toNat ≤ x ∧ x < upper.toNat) := by
  rcases h with rfl | ⟨hempty, rfl⟩
  swap
  · simp only [List.not_mem_nil, false_and, exists_false, false_iff]
    omega
  obtain ⟨hbegin, hend⟩ := hsplit (make (beginAddr entry) lower) entry
  unfold cutEntry
  split_ifs with houter hlow hhigh hhigh <;>
    simp only [List.mem_cons, List.not_mem_nil, or_false, exists_eq_left, exists_eq_or_imp,
      false_and, exists_false, false_iff, lo, hi, hbegin, hend, beginAddr_make, endAddr_make,
      beginAddr_setBegin, endAddr_setBegin, beginAddr_setEnd, endAddr_setEnd,
      BitVec.le_def] at * <;> omega

end Cuts

section Erase

variable {split : E → E → E} {addr : VirtualAddress} {size : BitVec 32} {result : Erased E}

/-- An accepted range is cut out of every entry. -/
theorem erase_pieces (hordered : Interval.Ordered lo hi addrs) (haccept : Accepts top addr size)
    (h : erase top split addrs addr size = some result) :
    Interval.Pieces (CutOrDrop split addr (addr + size)) addrs result.addrs :=
  (erase_meets hordered haccept h).pieces hordered

theorem erase_releases (hordered : Interval.Ordered lo hi addrs)
    (haccept : Accepts top addr size) (h : erase top split addrs addr size = some result) :
    Releases addr (addr + size) addrs result.released :=
  (erase_meets hordered haccept h).releases hordered

theorem erase_ordered (hsplit : KeepsBounds split) (hordered : Interval.Ordered lo hi addrs)
    (h : erase top split addrs addr size = some result) :
    Interval.Ordered lo hi result.addrs := by
  by_cases haccept : Accepts top addr size
  · have hrange : addr.toNat ≤ (addr + size).toNat := by
      rw [haccept.upper_toNat]
      omega
    refine (erase_pieces hordered haccept h).ordered ?_ hordered
    intro e he parts hparts
    exact hparts.within hsplit hrange (hordered.proper e he)
  · rw [erase_rejected haccept] at h
    obtain rfl := Option.some.inj h
    exact hordered

/-- An accepted range ends at or below `Top`, so it does not reach the last
sentinel. -/
theorem CutOrDrop.last_sentinel (htop : top < 0xFFFFF000#32) (haccept : Accepts top addr size)
    {parts : List E} (h : CutOrDrop split addr (addr + size) (make top 0xFFFFF000#32) parts) :
    parts = [make top 0xFFFFF000#32] := by
  apply h.eq_singleton
  · simpa [lo, hi, BitVec.lt_def] using htop
  · right
    simpa [lo, haccept.upper_toNat] using haccept.2

/-- Both sentinels survive when the range does not start below `Base`. -/
theorem erase_repInv (hsplit : KeepsBounds split) (hbase : 0 < base.toNat)
    (htop : top < 0xFFFFF000#32) (hinv : RepInv base top addrs) (hlow : base ≤ addr)
    (h : erase top split addrs addr size = some result) : RepInv base top result.addrs := by
  refine ⟨erase_ordered hsplit hinv.ordered h, ?_⟩
  by_cases haccept : Accepts top addr size
  · have hpieces := erase_pieces hinv.ordered haccept h
    obtain ⟨interior, hshape⟩ := hinv.sentinels
    rw [hshape, Interval.pieces_append] at hpieces
    obtain ⟨front, back, hfront, hpieces, hback⟩ := hpieces
    rw [Interval.pieces_singleton] at hback
    cases hpieces with
    | @cons _ first _ interior' hfirst _ =>
        have hfirst' := hfirst.eq_singleton (by simpa [lo, hi] using hbase)
          (Or.inl (by simpa [hi, BitVec.le_def] using hlow))
        exact ⟨interior', by simp [hfront, hfirst', hback.last_sentinel htop haccept]⟩
  · rw [erase_rejected haccept] at h
    obtain rfl := Option.some.inj h
    exact hinv.sentinels

/-- No part of the first sentinel is the whole sentinel once the range has
reached into it or has split it. -/
theorem CutOrDrop.sentinel_lost (hsplit : KeepsBounds split) {upper : VirtualAddress}
    {parts : List E} (hbase : addr < base) (hreach : 0 < upper.toNat)
    (hcut : CutOrDrop split addr upper (make 0#32 base) parts) :
    ∀ p ∈ parts, ¬ (lo p = 0 ∧ hi p = base.toNat) := by
  rw [BitVec.lt_def] at hbase
  rcases hcut with rfl | ⟨hempty, rfl⟩
  swap
  · simp
  obtain ⟨hbegin, hend⟩ := hsplit (make 0#32 addr) (make 0#32 base)
  unfold cutEntry
  split_ifs with houter hlow hhigh hhigh <;>
    simp only [List.mem_cons, List.not_mem_nil, or_false, forall_eq_or_imp, forall_eq, lo, hi,
      hbegin, hend, beginAddr_make, endAddr_make, beginAddr_setBegin, endAddr_setBegin,
      beginAddr_setEnd, endAddr_setEnd, BitVec.le_def, BitVec.toNat_ofNat, Nat.zero_mod,
      false_imp_iff, implies_true] at * <;> omega

/-- Every other accepted range that starts below `Base` destroys the first
sentinel. -/
theorem erase_not_repInv (hsplit : KeepsBounds split) (hinv : RepInv base top addrs)
    (haccept : Accepts top addr size) (hlow : addr < base)
    (hharm : ¬ (addr = 0#32 ∧ size = 0#32))
    (h : erase top split addrs addr size = some result) : ¬ RepInv base top result.addrs := by
  intro hinv'
  have hpieces := erase_pieces hinv.ordered haccept h
  have hupper := haccept.upper_toNat
  have hreach : 0 < (addr + size).toNat := by
    rw [hupper]
    by_contra hzero
    refine hharm ⟨BitVec.eq_of_toNat_eq ?_, BitVec.eq_of_toNat_eq ?_⟩ <;> simp <;> omega
  have hordered := hinv.ordered
  obtain ⟨interior, hshape⟩ := hinv.sentinels
  obtain ⟨interior', hshape'⟩ := hinv'.sentinels
  obtain ⟨e, he, parts, hparts, hmem⟩ := hpieces.origin (make 0#32 base) (by simp [hshape'])
  rw [BitVec.lt_def] at hlow
  have hwithin := (hparts.within hsplit (by omega) (hordered.proper e he)).inside _ hmem
  have hfirst : e = make 0#32 base := by
    rw [hshape, List.cons_append] at he hordered
    rcases List.mem_cons.mp he with rfl | he
    · rfl
    · have hle := (Interval.ordered_cons.mp hordered).2.2 e he
      simp only [lo, hi, beginAddr_make, endAddr_make, BitVec.toNat_ofNat, Nat.zero_mod] at *
      omega
  subst hfirst
  exact hparts.sentinel_lost hsplit (BitVec.lt_def.mpr hlow) hreach _ hmem (by simp [lo, hi])

theorem eraseLeft_le {left : Nat} (h : eraseLeft addrs addr = some left) :
    left ≤ addrs.length := by
  simp only [eraseLeft, Option.bind_eq_bind, Option.bind_eq_some_iff, Option.pure_def,
    Option.some.injEq] at h
  obtain ⟨found, hfound, _, _, rfl⟩ := h
  have hlt := locate_lt hfound
  split <;> omega

theorem eraseRight_lt {upper : VirtualAddress} {right : Nat}
    (h : eraseRight addrs upper = some (some right)) : right < addrs.length := by
  simp only [eraseRight, Option.bind_eq_bind, Option.bind_eq_some_iff, Option.pure_def,
    Option.some.injEq] at h
  obtain ⟨found, hfound, _, _, h⟩ := h
  have hlt := locate_lt hfound
  split at h
  · split at h
    · cases h
    · obtain rfl := Option.some.inj h
      omega
  · obtain rfl := Option.some.inj h
    exact hlt

/-- Every access of `__erase` is defined when `__locate` is. -/
theorem erase_defined (hlocate : ∀ a, ∃ n, locate addrs a = some n) (split : E → E → E)
    (addr : VirtualAddress) (size : BitVec 32) :
    ∃ result, erase top split addrs addr size = some result := by
  by_cases haccept : Accepts top addr size
  swap
  · exact ⟨_, erase_rejected haccept⟩
  obtain ⟨left, hleft⟩ : ∃ left, eraseLeft addrs addr = some left := by
    obtain ⟨found, hfound⟩ := hlocate addr
    obtain ⟨⟨entry, hentry, _⟩, _⟩ := locate_spec hfound
    simp [eraseLeft, hfound, hentry]
  obtain ⟨right, hright⟩ : ∃ right, eraseRight addrs (addr + size) = some right := by
    obtain ⟨found, hfound⟩ := hlocate (addr + size)
    obtain ⟨⟨entry, hentry, _⟩, _⟩ := locate_spec hfound
    simp [eraseRight, hfound, hentry]
  have hleftLe := eraseLeft_le hleft
  rw [erase, if_neg (accepts_iff.mp haccept)]
  simp only [hleft, hright, Option.bind_eq_bind, Option.bind_some]
  split
  · exact ⟨_, rfl⟩
  cases right with
  | none => exact ⟨_, rfl⟩
  | some right =>
      have hrightLt := eraseRight_lt hright
      have hleftLt : left < addrs.length := by omega
      simp only [List.getElem?_eq_getElem hleftLt, List.getElem?_eq_getElem hrightLt,
        Option.bind_some]
      split
      · exact ⟨_, rfl⟩
      · split
        · exact ⟨_, rfl⟩
        · exact ⟨_, rfl⟩

/-- A rejected range and the empty range at address zero change nothing. -/
theorem erase_unchanged (hharmless : ¬ Accepts top addr size ∨ addr = 0#32 ∧ size = 0#32)
    (h : erase top split addrs addr size = some result) : result.addrs = addrs := by
  by_cases haccept : Accepts top addr size
  swap
  · rw [erase_rejected haccept] at h
    obtain rfl := Option.some.inj h
    rfl
  obtain ⟨rfl, rfl⟩ := hharmless.resolve_left (not_not.mpr haccept)
  rw [erase, if_neg (accepts_iff.mp haccept), BitVec.add_zero] at h
  simp only [Option.bind_eq_bind, Option.bind_eq_some_iff] at h
  obtain ⟨left, hleft, h⟩ := h
  split at h
  · obtain rfl := Option.some.inj h
    rfl
  simp only [Option.bind_eq_some_iff] at h
  obtain ⟨right, hright, h⟩ := h
  have hbelow : ∀ n, right = some n → n < left := by
    simp only [eraseLeft, eraseRight, Option.bind_eq_bind, Option.bind_eq_some_iff,
      Option.pure_def, Option.some.injEq] at hleft hright
    obtain ⟨found, hfound, foundEntry, _, hleft⟩ := hleft
    obtain ⟨_, hfound', _, _, hright⟩ := hright
    obtain rfl := Option.some.inj (hfound.symm.trans hfound')
    rw [if_pos (by simp [BitVec.le_def])] at hright
    have hge : found ≤ left := by
      split at hleft <;> omega
    intro n hn
    rw [hn] at hright
    split at hright
    · cases hright
    · obtain rfl := Option.some.inj hright
      omega
  cases right with
  | none =>
      obtain rfl := Option.some.inj h
      rfl
  | some right =>
      simp only [if_pos (hbelow right rfl)] at h
      obtain rfl := Option.some.inj h
      rfl

end Erase

end Nyan.Paging.RangeManager
