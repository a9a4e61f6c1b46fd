import Mathlib.Data.List.TakeWhile
import Nyan.Library.Interval
import Nyan.Paging.Range

/-!
The representation invariant of `RangeManager`: the vector starts with the
sentinel `[0, Base)`, ends with the sentinel that begins at `Top`, and its
entries follow each other without overlap. Under it `__locate`, `insert` and
`find_free` access only entries of the vector, and `insert` keeps it.
-/

namespace Nyan.Paging.RangeManager

open RangeEntry Library

variable {E : Type} [RangeEntry E]

/-- The bounds of an entry as natural numbers. -/
def lo (entry : E) : Nat := (beginAddr entry).toNat

def hi (entry : E) : Nat := (endAddr entry).toNat

/-- The vector is ordered and still starts and ends with the two entries the
constructor put there. -/
structure RepInv (base top : VirtualAddress) (addrs : List E) : Prop where
  ordered : Interval.Ordered lo hi addrs
  sentinels : ∃ interior : List E,
    addrs = make 0#32 base :: interior ++ [make top 0xFFFFF000#32]

/-- The invariant for a vector whose entries between the sentinels are not empty. -/
structure Regular (base top : VirtualAddress) (addrs : List E) : Prop
    extends RepInv base top addrs where
  nonempty : ∀ e ∈ addrs.tail.dropLast, lo e < hi e

/-- The vector covers an address. -/
def Mapped (addrs : List E) (x : Nat) : Prop := ∃ e ∈ addrs, lo e ≤ x ∧ x < hi e

variable {base top : VirtualAddress} {addrs : List E}

theorem locate_spec {addr : VirtualAddress} {n : Nat}
    (h : locate addrs addr = some n) :
    (∃ entry, addrs[n]? = some entry ∧ beginAddr entry ≤ addr) ∧
      ∀ entry, addrs[n + 1]? = some entry → addr < beginAddr entry := by
  unfold locate at h
  split at h
  · cases h
  · rename_i k hk
    cases h
    set p : E → Bool := fun entry => decide (beginAddr entry ≤ addr)
    have hsplit : addrs = addrs.takeWhile p ++ addrs.dropWhile p :=
      List.takeWhile_append_dropWhile.symm
    constructor
    · have hn : n < (addrs.takeWhile p).length := by omega
      refine ⟨(addrs.takeWhile p)[n], ?_, ?_⟩
      · conv_lhs => rw [hsplit, List.getElem?_append_left hn]
        exact List.getElem?_eq_getElem hn
      · have hp := List.mem_takeWhile_imp (List.getElem_mem hn)
        simpa [p] using hp
    · intro entry hentry
      rw [hsplit, List.getElem?_append_right (by omega)] at hentry
      rw [hk, Nat.sub_self] at hentry
      have hfirst := List.head?_dropWhile_not p addrs
      rw [← List.head?_eq_getElem?] at hentry
      rw [hentry] at hfirst
      simpa [p, BitVec.not_le] using hfirst

theorem locate_lt {addr : VirtualAddress} {n : Nat}
    (h : locate addrs addr = some n) : n < addrs.length := by
  obtain ⟨⟨entry, hentry, _⟩, _⟩ := locate_spec h
  exact (List.getElem?_eq_some_iff.mp hentry).1

/-- `__locate` finds the entry that contains the address. -/
theorem locate_unique (hordered : Interval.Ordered lo hi addrs) {addr : VirtualAddress}
    {n i : Nat} {entry : E} (hn : locate addrs addr = some n) (hi' : addrs[i]? = some entry)
    (hbegin : lo entry ≤ addr.toNat) (hend : addr.toNat < hi entry) : i = n := by
  obtain ⟨⟨found, hfound, hlow⟩, hnext⟩ := locate_spec hn
  have hlow : lo found ≤ addr.toNat := BitVec.le_def.mp hlow
  rcases Nat.lt_trichotomy i n with hlt | heq | hgt
  · have hbelow := hordered.le_of_lt hlt hi' hfound
    omega
  · exact heq
  · have hlen : n + 1 < addrs.length := by
      have hlen := (List.getElem?_eq_some_iff.mp hi').1
      omega
    have hnth := List.getElem?_eq_getElem hlen
    have habove : addr.toNat < lo addrs[n + 1] := BitVec.lt_def.mp (hnext _ hnth)
    rcases Nat.lt_or_eq_of_le (Nat.succ_le_of_lt hgt) with hlt | heq
    · have hbelow := hordered.le_of_lt hlt hnth hi'
      have hproper := hordered.proper _ (List.getElem_mem hlen)
      omega
    · subst heq
      obtain rfl := Option.some.inj (hnth.symm.trans hi')
      omega

/-- An address in the gap before the next entry can only be in what replaces that entry. -/
theorem mem_set_next (hordered : Interval.Ordered lo hi addrs) {addr : VirtualAddress} {n : Nat}
    {left new other : E} (hn : locate addrs addr = some n) (hleft : addrs[n]? = some left)
    (hend : hi left ≤ addr.toNat) (hother : other ∈ addrs.set (n + 1) new)
    (hlow : lo other ≤ addr.toNat) (hhigh : addr.toNat < hi other) : other = new := by
  obtain ⟨i, hi'⟩ := List.mem_iff_getElem?.mp hother
  by_cases hsame : i = n + 1
  · subst hsame
    rw [List.getElem?_set] at hi'
    simp only [if_true] at hi'
    split at hi'
    · exact (Option.some.inj hi').symm
    · cases hi'
  · rw [List.getElem?_set_ne (Ne.symm hsame)] at hi'
    obtain rfl := locate_unique hordered hn hi' hlow hhigh
    obtain rfl := Option.some.inj (hleft.symm.trans hi')
    omega

/-- `__locate` is defined as soon as the first entry begins at or below the
address, in particular under the sentinel that begins at zero. -/
theorem locate_defined {first : E} {rest : List E} {addr : VirtualAddress}
    (h : beginAddr first ≤ addr) : ∃ n, locate (first :: rest) addr = some n := by
  unfold locate
  simp [h]

theorem RepInv.locate_defined (h : RepInv base top addrs) (addr : VirtualAddress) :
    ∃ n, locate addrs addr = some n := by
  obtain ⟨interior, rfl⟩ := h.sentinels
  apply RangeManager.locate_defined
  simp [BitVec.le_def]

theorem init_repInv (hbase : base ≤ top) (htop : top ≤ 0xFFFFF000#32) :
    RepInv base top (init base top : List E) := by
  rw [BitVec.le_def] at hbase htop
  refine ⟨?_, [], rfl⟩
  simp only [init, Interval.ordered_cons, Interval.ordered_nil, lo, hi]
  simpa using ⟨htop, hbase⟩

theorem RepInv.getLast? (h : RepInv base top addrs) :
    addrs.getLast? = some (make top 0xFFFFF000#32) := by
  obtain ⟨interior, rfl⟩ := h.sentinels
  simp [List.getLast?_cons]

/-- What an entry is: the first sentinel, an entry that is not empty, or the last. -/
theorem Regular.kind (h : Regular base top addrs) {e : E} (he : e ∈ addrs) :
    e = make 0#32 base ∨ lo e < hi e ∨ e = make top 0xFFFFF000#32 := by
  have hnonempty := h.nonempty
  obtain ⟨interior, rfl⟩ := h.sentinels
  rw [List.cons_append, List.tail_cons, List.dropLast_concat] at hnonempty
  simp only [List.cons_append, List.mem_cons, List.mem_append, List.not_mem_nil, or_false] at he
  rcases he with rfl | he | rfl
  · exact Or.inl rfl
  · exact Or.inr (Or.inl (hnonempty e he))
  · exact Or.inr (Or.inr rfl)

/-- No entry begins above the last sentinel. -/
theorem RepInv.lo_le_top (h : RepInv base top addrs) {entry : E} (hentry : entry ∈ addrs) :
    lo entry ≤ top.toNat := by
  have hsorted := h.ordered.sorted
  obtain ⟨interior, rfl⟩ := h.sentinels
  rcases List.mem_append.mp hentry with hbefore | hlast
  · have hle := (List.pairwise_append.mp hsorted).2.2 entry hbefore _ (List.mem_singleton_self _)
    simpa [lo] using hle
  · obtain rfl := List.mem_singleton.mp hlast
    simp [lo]

/-- A successful insertion puts the entry between two neighbours it fits
between; a failed one changes nothing. -/
theorem insert_spec {entry : E} {ok : Bool} {addrs' : List E}
    (h : insert addrs entry = some (ok, addrs')) :
    (ok = false ∧ addrs' = addrs) ∨
      ok = true ∧ ∃ before left right after,
        addrs = (before ++ [left]) ++ right :: after ∧
        addrs' = (before ++ [left]) ++ entry :: right :: after ∧
        hi left ≤ lo entry ∧ hi entry ≤ lo right := by
  simp only [insert, Option.bind_eq_bind, Option.bind_eq_some_iff] at h
  obtain ⟨pos, _, left, hleft, fits, hfits, h⟩ := h
  cases fits with
  | false =>
      simp only [Bool.false_eq_true, if_false, Option.pure_def, Option.some.injEq,
        Prod.mk.injEq] at h
      exact Or.inl ⟨h.1.symm, h.2.symm⟩
  | true =>
      simp only [if_true, Option.pure_def, Option.some.injEq, Prod.mk.injEq] at h
      unfold bounds at hfits
      split at hfits
      · rename_i hbelow
        obtain ⟨right, hright, hfit⟩ := Option.map_eq_some_iff.mp hfits
        obtain ⟨before, rest, rfl, hlength⟩ := Interval.split_at hleft
        have hrest : rest[0]? = some right := by
          rw [List.getElem?_append_right (by omega)] at hright
          simpa [hlength] using hright
        cases rest with
        | nil => simp at hrest
        | cons right' after =>
            obtain rfl : right' = right := by simpa using hrest
            refine Or.inr ⟨h.1.symm, before, left, right', after, by simp, ?_, ?_, ?_⟩
            · have hinsert := Interval.insertIdx_length (before ++ [left]) (right' :: after) entry
              rw [← h.2, ← hinsert]
              simp [hlength]
            · simpa [hi, lo, BitVec.le_def] using hbelow
            · simpa [hi, lo, BitVec.le_def] using hfit
      · cases hfits

theorem insert_ordered {entry : E} {ok : Bool} {addrs' : List E}
    (hordered : Interval.Ordered lo hi addrs) (hproper : lo entry ≤ hi entry)
    (h : insert addrs entry = some (ok, addrs')) : Interval.Ordered lo hi addrs' := by
  rcases insert_spec h with ⟨_, rfl⟩ | ⟨_, before, left, right, after, rfl, rfl, hleft, hright⟩
  · exact hordered
  · obtain ⟨hl, hr, _⟩ := Interval.ordered_append.mp hordered
    apply hordered.insert hproper
    · intro a ha
      obtain ⟨_, _, hcross⟩ := Interval.ordered_append.mp hl
      rcases List.mem_append.mp ha with ha | ha
      · have hproperLeft := hl.proper left (by simp)
        have hbefore := hcross a ha left (by simp)
        omega
      · obtain rfl := List.mem_singleton.mp ha
        exact hleft
    · intro b hb
      obtain ⟨hproperRight, _, hafter⟩ := Interval.ordered_cons.mp hr
      rcases List.mem_cons.mp hb with rfl | hb
      · exact hright
      · have hlast := hafter b hb
        omega

/-- A successful insertion fits between all entries. -/
theorem insert_apart {entry : E} {addrs' : List E} (hordered : Interval.Ordered lo hi addrs)
    (h : insert addrs entry = some (true, addrs')) :
    ∀ e ∈ addrs, hi e ≤ lo entry ∨ hi entry ≤ lo e := by
  rcases insert_spec h with ⟨hfalse, _⟩ | ⟨_, before, left, right, after, rfl, _, hleft, hright⟩
  · cases hfalse
  · obtain ⟨hl, hr, _⟩ := Interval.ordered_append.mp hordered
    obtain ⟨_, hlast, hcross⟩ := Interval.ordered_append.mp hl
    obtain ⟨hproper, _, hafter⟩ := Interval.ordered_cons.mp hr
    have hproperLeft := hlast.proper left (by simp)
    intro e he
    simp only [List.mem_append, List.mem_cons, List.not_mem_nil, or_false] at he
    rcases he with (he | rfl) | rfl | he
    · have hle := hcross e he left (by simp)
      omega
    · exact Or.inl hleft
    · exact Or.inr hright
    · have hle := hafter e he
      omega

/-- An interval that is not empty and meets no entry is inserted. -/
theorem insert_ok {entry : E} {ok : Bool} {addrs' : List E}
    (hordered : Interval.Ordered lo hi addrs) (hproper : lo entry < hi entry)
    (hapart : ∀ e ∈ addrs, hi e ≤ lo entry ∨ hi entry ≤ lo e)
    (h : insert addrs entry = some (ok, addrs')) : ok = true := by
  simp only [insert, Option.bind_eq_bind, Option.bind_eq_some_iff] at h
  obtain ⟨pos, hpos, left, hleft, fits, hfits, h⟩ := h
  obtain ⟨⟨found, hfound, hbegin⟩, hnext⟩ := locate_spec hpos
  obtain rfl := Option.some.inj (hleft.symm.trans hfound)
  have hbegin' : lo left ≤ lo entry := BitVec.le_def.mp hbegin
  have hbelow : hi left ≤ lo entry := by
    rcases hapart left (List.mem_of_getElem? hleft) with hle | hle <;> omega
  unfold bounds at hfits
  rw [if_pos (BitVec.le_def.mpr hbelow)] at hfits
  obtain ⟨right, hright, hfit⟩ := Option.map_eq_some_iff.mp hfits
  have hmem : right ∈ addrs := List.mem_of_getElem? hright
  have hafter : lo entry < lo right := BitVec.lt_def.mp (hnext right hright)
  have habove : hi entry ≤ lo right := by
    have hle := hordered.proper right hmem
    rcases hapart right hmem with hle' | hle' <;> omega
  obtain rfl : fits = true := by
    rw [← hfit]
    exact decide_eq_true (BitVec.le_def.mpr habove)
  simpa using (Prod.ext_iff.mp (Option.some.inj h)).1.symm

theorem mem_of_insert {entry : E} {ok : Bool} {addrs' : List E}
    (h : insert addrs entry = some (ok, addrs')) (e : E) :
    e ∈ addrs' ↔ e ∈ addrs ∨ ok = true ∧ e = entry := by
  rcases insert_spec h with ⟨rfl, rfl⟩ | ⟨rfl, before, left, right, after, rfl, rfl, _⟩
  · simp
  · simp only [List.mem_append, List.mem_cons, true_and]
    tauto

/-- The sentinels survive any change strictly between them. -/
theorem RepInv.replace {before middle middle' after : List E}
    (h : RepInv base top (before ++ middle ++ after)) (hbefore : before ≠ [])
    (hafter : after ≠ []) (hordered : Interval.Ordered lo hi (before ++ middle' ++ after)) :
    RepInv base top (before ++ middle' ++ after) := by
  obtain ⟨interior, hshape⟩ := h.sentinels
  exact ⟨hordered, Interval.ends_of_replace hshape.symm hbefore hafter⟩

theorem insert_repInv {entry : E} {ok : Bool} {addrs' : List E}
    (hinv : RepInv base top addrs) (hproper : lo entry ≤ hi entry)
    (h : insert addrs entry = some (ok, addrs')) : RepInv base top addrs' := by
  have hordered := insert_ordered hinv.ordered hproper h
  rcases insert_spec h with ⟨_, rfl⟩ | ⟨_, before, left, right, after, rfl, rfl, _⟩
  · exact hinv
  · have hinv' : RepInv base top ((before ++ [left]) ++ [] ++ right :: after) := by
      simpa using hinv
    have hordered' : Interval.Ordered lo hi ((before ++ [left]) ++ [entry] ++ right :: after) := by
      simpa using hordered
    simpa using hinv'.replace (by simp) (by simp) hordered'

/-- Whatever is inserted, the sentinels stay at both ends. -/
theorem insert_sentinels {entry : E} {ok : Bool} {addrs' : List E}
    (hends : ∃ interior : List E, addrs = make 0#32 base :: interior ++ [make top 0xFFFFF000#32])
    (h : insert addrs entry = some (ok, addrs')) :
    ∃ interior : List E, addrs' = make 0#32 base :: interior ++ [make top 0xFFFFF000#32] := by
  rcases insert_spec h with ⟨_, rfl⟩ | ⟨_, before, left, right, after, rfl, rfl, _⟩
  · exact hends
  · obtain ⟨interior, hshape⟩ := hends
    have hshape' : make 0#32 base :: interior ++ [make top 0xFFFFF000#32] =
        (before ++ [left]) ++ [] ++ right :: after := by simpa using hshape.symm
    have hnew : ∃ interior', (before ++ [left]) ++ [entry] ++ right :: after =
        make 0#32 base :: interior' ++ [make top 0xFFFFF000#32] :=
      Interval.ends_of_replace hshape' (by simp) (by simp)
    simpa using hnew

/-- `insert` reads past the last entry only for a range that begins at or
above the end of the last sentinel. -/
theorem insert_defined_of_ends
    (hends : ∃ interior : List E, addrs = make 0#32 base :: interior ++ [make top 0xFFFFF000#32])
    (entry : E) (hbelow : beginAddr entry < 0xFFFFF000#32) :
    ∃ result, insert addrs entry = some result := by
  obtain ⟨pos, hpos⟩ : ∃ pos, locate addrs (beginAddr entry) = some pos := by
    obtain ⟨interior, rfl⟩ := hends
    exact RangeManager.locate_defined (by simp [BitVec.le_def])
  obtain ⟨⟨left, hleft, _⟩, _⟩ := locate_spec hpos
  have hfits : ∃ fits, bounds left addrs[pos + 1]? entry = some fits := by
    unfold bounds
    split
    · rename_i hend
      rcases hright : addrs[pos + 1]? with _ | right
      · have hlast : pos + 1 = addrs.length := by
          have hlt := locate_lt hpos
          have hge := List.getElem?_eq_none_iff.mp hright
          omega
        have hgetLast : addrs.getLast? = some (make top 0xFFFFF000#32) := by
          obtain ⟨interior, rfl⟩ := hends
          simp [List.getLast?_cons]
        rw [List.getLast?_eq_getElem?, ← hlast, Nat.add_sub_cancel, hleft] at hgetLast
        obtain rfl := Option.some.inj hgetLast
        rw [endAddr_make, BitVec.le_def] at hend
        rw [BitVec.lt_def] at hbelow
        omega
      · simp
    · exact ⟨false, rfl⟩
  obtain ⟨fits, hfits⟩ := hfits
  simp only [insert, hpos, hleft, hfits, Option.bind_eq_bind, Option.bind_some]
  split
  · exact ⟨_, rfl⟩
  · exact ⟨_, rfl⟩

/-- It does so for a range that begins right there. -/
theorem insert_past {entry : E}
    (hends : ∃ interior : List E, addrs = make 0#32 base :: interior ++ [make top 0xFFFFF000#32])
    (hbegins : ∀ e ∈ addrs, beginAddr e ≤ 0xFFFFF000#32)
    (hentry : beginAddr entry = 0xFFFFF000#32) : insert addrs entry = none := by
  have hall : addrs.takeWhile (fun e => decide (beginAddr e ≤ beginAddr entry)) = addrs := by
    rw [List.takeWhile_eq_self_iff]
    intro e he
    rw [hentry]
    exact decide_eq_true (hbegins e he)
  obtain ⟨interior, rfl⟩ := hends
  have hlocate : locate (make 0#32 base :: interior ++ [make top 0xFFFFF000#32])
      (beginAddr entry) = some (interior.length + 1) := by
    unfold locate
    rw [hall]
    simp
  have hbounds : bounds (make top 0xFFFFF000#32) none entry = none := by
    unfold bounds
    rw [endAddr_make, hentry, if_pos (BitVec.le_refl _)]
    rfl
  have hleft : (make 0#32 base :: interior ++ [make top 0xFFFFF000#32])[interior.length + 1]? =
      some (make top 0xFFFFF000#32 : E) := by simp
  have hright : (make 0#32 base :: interior ++ [make top 0xFFFFF000#32] : List E)[
      interior.length + 1 + 1]? = none := by simp
  rw [insert, hlocate, Option.bind_eq_bind, Option.bind_some, hleft, hright,
    Option.bind_eq_bind, Option.bind_some, hbounds]
  rfl

theorem insert_defined (hinv : RepInv base top addrs) (entry : E)
    (hbelow : beginAddr entry < 0xFFFFF000#32) : ∃ result, insert addrs entry = some result :=
  insert_defined_of_ends hinv.sentinels entry hbelow

theorem findFree_defined (hinv : RepInv base top addrs) (size : BitVec 32)
    (hint : VirtualAddress) : ∃ result, findFree base top addrs size hint = some result := by
  unfold findFree
  split
  · exact ⟨none, rfl⟩
  · obtain ⟨pos, hpos⟩ := hinv.locate_defined (if hint < base then base else hint)
    obtain ⟨⟨entry, hentry, _⟩, _⟩ := locate_spec hpos
    simp [hpos, hentry]

/-- The range found by the search loop starts at or above the hint, does not
wrap, and ends at or below the begin of an entry of the vector. -/
theorem findFreeFrom_spec {size hint : BitVec 32} {pos : E} {rest : List E}
    {place : VirtualAddress} (h : findFreeFrom size hint pos rest = some place) :
    hint.toNat ≤ place.toNat ∧ ∃ right ∈ rest, place.toNat + size.toNat ≤ lo right := by
  induction rest generalizing pos with
  | nil => cases h
  | cons right rest ih =>
      simp only [findFreeFrom] at h
      set lower := if endAddr pos < hint then hint else endAddr pos with hlower
      split at h
      · cases h
      rename_i hnowrap
      split at h
      · rename_i hfits
        obtain rfl : lower = place := Option.some.inj h
        have hend := BitVec.le_def.mp hfits.2
        rw [BitVec.toNat_add, Nat.mod_eq_of_lt (by omega)] at hend
        refine ⟨?_, right, by simp, hend⟩
        rw [hlower]
        split
        · exact le_rfl
        · rename_i hle
          simpa [BitVec.lt_def] using hle
      · obtain ⟨hhint, next, hnext, hend⟩ := ih h
        exact ⟨hhint, next, by simp [hnext], hend⟩

/-- The place found is the hint or the end of an entry. -/
theorem findFreeFrom_place {size hint : BitVec 32} {pos : E} {rest : List E}
    {place : VirtualAddress} (h : findFreeFrom size hint pos rest = some place) :
    place = hint ∨ ∃ e ∈ pos :: rest, place = endAddr e := by
  induction rest generalizing pos with
  | nil => cases h
  | cons right rest ih =>
      simp only [findFreeFrom] at h
      set lower := if endAddr pos < hint then hint else endAddr pos with hlower
      split at h
      · cases h
      split at h
      · obtain rfl : lower = place := Option.some.inj h
        rw [hlower]
        split
        · exact Or.inl rfl
        · exact Or.inr ⟨pos, by simp, rfl⟩
      · rcases ih h with heq | ⟨e, he, heq⟩
        · exact Or.inl heq
        · exact Or.inr ⟨e, List.mem_cons_of_mem _ he, heq⟩

theorem findFree_place {size : BitVec 32} {hint place : VirtualAddress}
    (h : findFree base top addrs size hint = some (some place)) :
    place = base ∨ place = hint ∨ ∃ e ∈ addrs, place = endAddr e := by
  unfold findFree at h
  split at h
  · cases h
  simp only [Option.bind_eq_bind, Option.bind_eq_some_iff, Option.pure_def,
    Option.some.injEq] at h
  obtain ⟨pos, _, entry, hentry, h⟩ := h
  rcases findFreeFrom_place h with heq | ⟨e, he, heq⟩
  · split at heq
    · exact Or.inl heq
    · exact Or.inr (Or.inl heq)
  · refine Or.inr (Or.inr ⟨e, ?_, heq⟩)
    rcases List.mem_cons.mp he with rfl | he
    · exact List.mem_of_getElem? hentry
    · exact List.mem_of_mem_drop he

theorem findFree_spec {size : BitVec 32} {hint place : VirtualAddress}
    (h : findFree base top addrs size hint = some (some place)) :
    base.toNat ≤ place.toNat ∧ hint.toNat ≤ place.toNat ∧
      ∃ right ∈ addrs, place.toNat + size.toNat ≤ lo right := by
  unfold findFree at h
  split at h
  · cases h
  simp only [Option.bind_eq_bind, Option.bind_eq_some_iff, Option.pure_def,
    Option.some.injEq] at h
  obtain ⟨pos, _, entry, _, h⟩ := h
  obtain ⟨hhint, right, hright, hend⟩ := findFreeFrom_spec h
  refine ⟨?_, ?_, right, List.mem_of_mem_drop hright, hend⟩
  all_goals
    split at hhint
    · rename_i hlow
      rw [BitVec.lt_def] at hlow
      omega
    · rename_i hlow
      rw [BitVec.lt_def] at hlow
      omega

/-- The range found does not wrap. -/
theorem findFree_end_toNat {size : BitVec 32} {hint place : VirtualAddress}
    (h : findFree base top addrs size hint = some (some place)) :
    (place + size).toNat = place.toNat + size.toNat := by
  obtain ⟨_, _, right, _, hend⟩ := findFree_spec h
  have hlt : lo right < 2 ^ 32 := (beginAddr right).isLt
  rw [BitVec.toNat_add, Nat.mod_eq_of_lt (by omega)]

theorem RepInv.findFree_le_top (hinv : RepInv base top addrs) {size : BitVec 32}
    {hint place : VirtualAddress}
    (h : findFree base top addrs size hint = some (some place)) :
    place.toNat + size.toNat ≤ top.toNat := by
  obtain ⟨_, _, right, hright, hend⟩ := findFree_spec h
  exact hend.trans (hinv.lo_le_top hright)

end Nyan.Paging.RangeManager
