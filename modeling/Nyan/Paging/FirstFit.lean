import Nyan.Paging.RangeExact

/-!
`find_free` is a first fit, and `insert` accepts exactly what fits. The search starts
at the entry that `__locate` finds for the hint and never looks back, and it gives up
when the sum of a candidate and the size wraps. Neither loses a place: everything
before the start ends at or below the hint, and every later candidate is greater.

The last sentinel of the kernel's large frames is empty, so only the entries between
the sentinels are taken not to be.
-/

namespace Nyan.Paging.RangeManager

open RangeEntry Library

variable {E : Type} [RangeEntry E] {base top : VirtualAddress} {addrs : List E}
  {size : BitVec 32} {hint : VirtualAddress}

/-- The addresses from `a` on are a place for `size` bytes: at or above the hint,
inside the window, which is below `2 ^ 32`, and in no entry. -/
structure Fits (base top : VirtualAddress) (addrs : List E) (size : BitVec 32)
    (hint a : VirtualAddress) : Prop where
  hint_le : hint ≤ a
  base_le : base ≤ a
  end_le : a.toNat + size.toNat ≤ top.toNat
  unmapped : ∀ x, a.toNat ≤ x → x < a.toNat + size.toNat → ¬ Mapped addrs x

/-- What the search loop still looks for: a place above the entry `pos` that no later
entry has addresses of. -/
structure Remains (top : VirtualAddress) (size : BitVec 32) (hint : VirtualAddress) (pos : E)
    (rest : List E) (a : VirtualAddress) : Prop where
  hint_le : hint.toNat ≤ a.toNat
  above : hi pos ≤ a.toNat
  end_le : a.toNat + size.toNat ≤ top.toNat
  unmapped : ∀ x, a.toNat ≤ x → x < a.toNat + size.toNat → ¬ Mapped rest x

/-- A place that reaches into an entry that is not empty lies above it. -/
theorem Remains.skip {pos right : E} {rest : List E} {a : VirtualAddress}
    (h : Remains top size hint pos (right :: rest) a)
    (hkind : lo right < hi right ∨ top.toNat ≤ lo right) (hsize : 0 < size.toNat)
    (hreach : lo right < a.toNat + size.toNat) : Remains top size hint right rest a := by
  have hend := h.end_le
  refine ⟨h.hint_le, ?_, hend, fun x hx hx' => ?_⟩
  · by_contra hbelow
    have hright : lo right < hi right := hkind.resolve_right (by omega)
    refine h.unmapped (max a.toNat (lo right)) (by omega) (by omega) ?_
    exact ⟨right, by simp, by omega, by omega⟩
  · rintro ⟨e, he, hin⟩
    exact h.unmapped x hx hx' ⟨e, List.mem_cons_of_mem _ he, hin⟩

theorem Remains.back {pos right : E} {rest : List E} {a : VirtualAddress}
    (h : Remains top size hint right rest a) (hpos : hi pos ≤ lo right)
    (hproper : lo right ≤ hi right) : Remains top size hint pos (right :: rest) a := by
  have habove := h.above
  refine ⟨h.hint_le, by omega, h.end_le, ?_⟩
  rintro x hx hx' ⟨e, he, hlo, hhi⟩
  rcases List.mem_cons.mp he with rfl | he
  · omega
  · exact h.unmapped x hx hx' ⟨e, he, hlo, hhi⟩

/-- The loop finds the least place that remains, if there is one. -/
theorem findFreeFrom_least (hint : VirtualAddress) (hsize : 0 < size.toNat) {pos : E}
    {rest : List E}
    (hordered : Interval.Ordered lo hi (pos :: rest))
    (hkind : ∀ e ∈ rest, lo e < hi e ∨ top.toNat ≤ lo e)
    (hbelow : ∀ e ∈ rest, lo e ≤ top.toNat)
    (hlast : ∀ e, (pos :: rest).getLast? = some e → top.toNat ≤ lo e) :
    (∀ a, findFreeFrom size hint pos rest = some a →
      Remains top size hint pos rest a ∧ ∀ b, Remains top size hint pos rest b → a ≤ b) ∧
    (findFreeFrom size hint pos rest = none → ∀ b, ¬ Remains top size hint pos rest b) := by
  induction rest generalizing pos with
  | nil =>
      refine ⟨by simp [findFreeFrom], fun _ b hb => ?_⟩
      have htop := hlast pos rfl
      have hproper := hordered.proper pos (by simp)
      have habove := hb.above
      have hend := hb.end_le
      omega
  | cons right rest ih =>
      obtain ⟨_, hrest, hcross⟩ := Interval.ordered_cons.mp hordered
      obtain ⟨hproper, _, hafter⟩ := Interval.ordered_cons.mp hrest
      have hpos := hcross right (by simp)
      have htop := hbelow right (by simp)
      obtain ⟨lower, hlower⟩ :
        ∃ lower, lower = if endAddr pos < hint then hint else endAddr pos := ⟨_, rfl⟩
      have hmax : lower.toNat = max hint.toNat (hi pos) := by
        rw [hlower]
        split <;> rename_i hlt <;> simp only [BitVec.lt_def, hi] at * <;> omega
      have hleast : ∀ b, Remains top size hint pos (right :: rest) b → lower.toNat ≤ b.toNat := by
        intro b hb
        have hhint := hb.hint_le
        have habove := hb.above
        omega
      simp only [findFreeFrom, ← hlower]
      split
      · rename_i hwraps
        refine ⟨by simp, fun _ b hb => ?_⟩
        have hb' := hleast b hb
        have hend := hb.end_le
        have := top.isLt
        omega
      rename_i hnowrap
      have hsum : (lower + size).toNat = lower.toNat + size.toNat := by
        rw [BitVec.toNat_add, Nat.mod_eq_of_lt (by omega)]
      split
      · rename_i hfits
        have hfit : lower.toNat + size.toNat ≤ lo right := by
          rw [← hsum]
          exact BitVec.le_def.mp hfits.2
        refine ⟨fun a ha => ?_, by simp⟩
        obtain rfl := Option.some.inj ha
        refine ⟨⟨by omega, by omega, by omega, ?_⟩, fun b hb => BitVec.le_def.mpr (hleast b hb)⟩
        rintro x hx hx' ⟨e, he, hlo, _⟩
        rcases List.mem_cons.mp he with rfl | he
        · omega
        · have hle := hafter e he
          omega
      · rename_i hnofit
        have hreach : lo right < lower.toNat + size.toNat := by
          by_contra hle
          refine hnofit ⟨BitVec.le_def.mpr ?_, BitVec.le_def.mpr ?_⟩
          · change hi pos ≤ lower.toNat
            omega
          · rw [hsum]
            exact Nat.le_of_not_lt hle
        have hskip : ∀ b, Remains top size hint pos (right :: rest) b →
            Remains top size hint right rest b := by
          intro b hb
          have hb' := hleast b hb
          exact hb.skip (hkind right (by simp)) hsize (by omega)
        obtain ⟨hsome, hnone⟩ := ih hrest (fun e he => hkind e (List.mem_cons_of_mem _ he))
          (fun e he => hbelow e (List.mem_cons_of_mem _ he))
          (fun e he => hlast e (by rwa [List.getLast?_cons_cons]))
        refine ⟨fun a ha => ?_, fun ha b hb => hnone ha b (hskip b hb)⟩
        obtain ⟨hremains, hmin⟩ := hsome a ha
        exact ⟨hremains.back hpos hproper, fun b hb => hmin b (hskip b hb)⟩

/-- The entries after the first are not empty or the last sentinel. -/
theorem Regular.kind_of_drop (h : Regular base top addrs) {n : Nat} {e : E}
    (he : e ∈ addrs.drop (n + 1)) : lo e < hi e ∨ top.toNat ≤ lo e := by
  have hnonempty := h.nonempty
  obtain ⟨interior, rfl⟩ := h.sentinels
  rw [List.cons_append, List.tail_cons, List.dropLast_concat] at hnonempty
  rw [List.cons_append, List.drop_succ_cons] at he
  rcases List.mem_append.mp (List.mem_of_mem_drop he) with hin | hlast
  · exact Or.inl (hnonempty e hin)
  · rw [List.mem_singleton.mp hlast]
    exact Or.inr (by simp [lo])

/-- From the located entry on, the loop looks for what the search is for. -/
theorem Regular.remains_iff (h : Regular base top addrs) (hsize : 0 < size.toNat)
    {start : VirtualAddress} (hstart : start = if hint < base then base else hint) {pos : Nat}
    {entry : E} (hpos : locate addrs start = some pos) (hentry : addrs[pos]? = some entry)
    (a : VirtualAddress) :
    Remains top size start entry (addrs.drop (pos + 1)) a ↔ Fits base top addrs size hint a := by
  have hmax : start.toNat = max hint.toNat base.toNat := by
    rw [hstart]
    split <;> rename_i hlt <;> simp only [BitVec.lt_def] at hlt <;> omega
  obtain ⟨⟨found, hfound, hbegin⟩, _⟩ := locate_spec hpos
  obtain rfl := Option.some.inj (hentry.symm.trans hfound)
  have hlow : lo entry ≤ start.toNat := BitVec.le_def.mp hbegin
  obtain ⟨before, after, hsplit, hlength⟩ := Interval.split_at hentry
  have hdrop : addrs.drop (pos + 1) = after := by
    rw [hsplit, ← hlength, ← List.drop_drop, List.drop_left]
    rfl
  have hordered := h.ordered
  rw [hsplit] at hordered
  obtain ⟨_, hright, hcross⟩ := Interval.ordered_append.mp hordered
  rw [hdrop]
  constructor
  · rintro ⟨hhint, habove, hend, hfree⟩
    refine ⟨BitVec.le_def.mpr (by omega), BitVec.le_def.mpr (by omega), hend, ?_⟩
    rintro x hx hx' ⟨e, he, hlo, hhi⟩
    rw [hsplit] at he
    rcases List.mem_append.mp he with he | he
    · have hle := hcross e he entry (by simp)
      omega
    · rcases List.mem_cons.mp he with rfl | he
      · omega
      · exact hfree x hx hx' ⟨e, he, hlo, hhi⟩
  · rintro ⟨hhint, hbase, hend, hfree⟩
    rw [BitVec.le_def] at hhint hbase
    refine ⟨by omega, ?_, hend, fun x hx hx' hin => hfree x hx hx' ?_⟩
    · have hmem : entry ∈ addrs := List.mem_of_getElem? hentry
      rcases h.kind hmem with hfirst | hproper | hlast
      · rw [hfirst, hi, endAddr_make]
        exact hbase
      · by_contra hbelow
        exact hfree a.toNat le_rfl (by omega) ⟨entry, hmem, by omega, by omega⟩
      · rw [hlast, lo, beginAddr_make] at hlow
        omega
    · obtain ⟨e, he, hin⟩ := hin
      exact ⟨e, by simp [hsplit, he], hin⟩

/-- The search finds the least place that fits, and nothing if none does. -/
theorem Regular.findFree_least (h : Regular base top addrs) (hsize : size ≠ 0#32)
    (hint : VirtualAddress) :
    ∃ found, findFree base top addrs size hint = some found ∧
      (∀ a, found = some a → IsLeast {a | Fits base top addrs size hint a} a) ∧
      (found = none → ∀ a, ¬ Fits base top addrs size hint a) := by
  have hpositive : 0 < size.toNat := by
    rw [Nat.pos_iff_ne_zero]
    exact fun hzero => hsize (BitVec.eq_of_toNat_eq hzero)
  unfold findFree
  split
  · rename_i hhigh
    refine ⟨none, rfl, nofun, fun _ a ha => ?_⟩
    have hhint := BitVec.le_def.mp ha.hint_le
    have hend := ha.end_le
    rw [BitVec.le_def] at hhigh
    omega
  · obtain ⟨start, hstart⟩ : ∃ start, start = if hint < base then base else hint := ⟨_, rfl⟩
    obtain ⟨pos, hpos⟩ := h.locate_defined start
    obtain ⟨⟨entry, hentry, _⟩, _⟩ := locate_spec hpos
    have hiff := h.remains_iff hpositive hstart hpos hentry
    have htail : entry :: addrs.drop (pos + 1) = addrs.drop pos := by
      obtain ⟨hlt, rfl⟩ := List.getElem?_eq_some_iff.mp hentry
      exact (List.drop_eq_getElem_cons hlt).symm
    have hordered : Interval.Ordered lo hi (entry :: addrs.drop (pos + 1)) := by
      have hall := h.ordered
      rw [← List.take_append_drop pos addrs] at hall
      rw [htail]
      exact (Interval.ordered_append.mp hall).2.1
    have hlast : ∀ e, (entry :: addrs.drop (pos + 1)).getLast? = some e → top.toNat ≤ lo e := by
      intro e he
      have hend := h.getLast?
      rw [← List.take_append_drop pos addrs, List.getLast?_append_of_ne_nil _ (by simp [← htail]),
        ← htail, he] at hend
      rw [Option.some.inj hend]
      simp [lo]
    obtain ⟨hsome, hnone⟩ := findFreeFrom_least start hpositive hordered
      (fun e he => h.kind_of_drop he)
      (fun e he => h.lo_le_top (List.mem_of_mem_drop he)) hlast
    refine ⟨findFreeFrom size start entry (addrs.drop (pos + 1)), ?_, fun a ha => ?_, fun ha a => ?_⟩
    · simp only [← hstart, hpos, hentry, Option.bind_eq_bind, Option.bind_some, Option.pure_def]
    · obtain ⟨hremains, hmin⟩ := hsome a ha
      exact ⟨(hiff a).mp hremains, fun b hb => hmin b ((hiff b).mpr hb)⟩
    · rw [← hiff a]
      exact hnone ha a

/-- Inside the window, an interval that is not empty has no address of an entry exactly
if it lies apart from all of them. -/
theorem Regular.apart_iff (h : Regular base top addrs) {entry : E} (hbase : base.toNat ≤ lo entry)
    (hproper : lo entry < hi entry) (htop : hi entry ≤ top.toNat) :
    (∀ e ∈ addrs, hi e ≤ lo entry ∨ hi entry ≤ lo e) ↔
      ∀ x, lo entry ≤ x → x < hi entry → ¬ Mapped addrs x := by
  constructor
  · rintro hapart x hx hx' ⟨e, he, hlo, hhi⟩
    rcases hapart e he with hle | hle <;> omega
  · intro hfree e he
    rcases h.kind he with rfl | hnonempty | rfl
    · exact Or.inl (by simpa [hi] using hbase)
    · by_contra hmeet
      exact hfree (max (lo entry) (lo e)) (by omega) (by omega) ⟨e, he, by omega, by omega⟩
    · exact Or.inr (by simpa [lo] using htop)

/-- `insert` accepts an interval of the window exactly if no entry has addresses of it. -/
theorem Regular.insert_iff (h : Regular base top addrs) {entry : E}
    (hbase : base.toNat ≤ lo entry) (hproper : lo entry < hi entry)
    (htop : hi entry ≤ top.toNat) :
    ∃ ok addrs', insert addrs entry = some (ok, addrs') ∧
      (ok = true ↔ ∀ x, lo entry ≤ x → x < hi entry → ¬ Mapped addrs x) := by
  have hlast : top.toNat ≤ (0xFFFFF000#32).toNat := by
    have hle := h.ordered.proper _ (List.mem_of_getLast? h.getLast?)
    simpa [lo, hi] using hle
  obtain ⟨⟨ok, addrs'⟩, hinsert⟩ := insert_defined h.toRepInv entry (by
    rw [BitVec.lt_def]
    change lo entry < _
    omega)
  refine ⟨ok, addrs', hinsert, ?_⟩
  rw [← h.apart_iff hbase hproper htop]
  constructor
  · rintro rfl
    exact insert_apart h.ordered hinsert
  · exact fun hapart => insert_ok h.ordered hproper hapart hinsert

theorem Regular.insert (h : Regular base top addrs) {entry : E} (hproper : lo entry < hi entry)
    {ok : Bool} {addrs' : List E} (hinsert : insert addrs entry = some (ok, addrs')) :
    Regular base top addrs' := by
  refine ⟨insert_repInv h.toRepInv hproper.le hinsert, fun e he => ?_⟩
  rcases insert_spec hinsert with ⟨_, rfl⟩ | ⟨_, before, left, right, after, rfl, rfl, _⟩
  · exact h.nonempty e he
  · rcases Interval.mem_interior_insert he with rfl | he
    · exact hproper
    · exact h.nonempty e he

/-- `find_free` is defined and finds the least place that fits, if there is one; an
entry for that place is then inserted, and the invariant kept; and an entry of the
window that is not empty is inserted if and only if no entry has addresses of it. -/
theorem findFree_firstFit (h : Regular base top addrs) (hsize : size ≠ 0#32)
    (hint : VirtualAddress) :
    ∃ found, findFree base top addrs size hint = some found ∧
      (∀ a, found = some a ↔ IsLeast {a | Fits base top addrs size hint a} a) ∧
      (found = none ↔ ¬ ∃ a, Fits base top addrs size hint a) ∧
      (∀ a, found = some a → ∀ entry : E, beginAddr entry = a → endAddr entry = a + size →
        ∃ addrs', insert addrs entry = some (true, addrs') ∧ Regular base top addrs') ∧
      ∀ entry : E, base ≤ beginAddr entry → beginAddr entry < endAddr entry →
        endAddr entry ≤ top →
        ∃ ok addrs', insert addrs entry = some (ok, addrs') ∧
          (ok = true ↔ ∀ x, lo entry ≤ x → x < hi entry → ¬ Mapped addrs x) := by
  obtain ⟨found, hfound, hsome, hnone⟩ := h.findFree_least hsize hint
  refine ⟨found, hfound, fun a => ⟨hsome a, fun hleast => ?_⟩, ⟨?_, fun habsent => ?_⟩, ?_, ?_⟩
  · cases hcase : found with
    | none => exact absurd hleast.1 (hnone hcase a)
    | some b =>
        have hother := hsome b hcase
        exact congrArg some (BitVec.le_antisymm (hother.2 hleast.1) (hleast.2 hother.1))
  · rintro hcase ⟨a, ha⟩
    exact hnone hcase a ha
  · cases hcase : found with
    | none => rfl
    | some b => exact absurd ⟨b, (hsome b hcase).1⟩ habsent
  · rintro a rfl entry hbegin hend
    have hfits := (hsome a rfl).1
    have hlo : lo entry = a.toNat := by rw [lo, hbegin]
    have hhi : hi entry = a.toNat + size.toNat := by
      rw [hi, hend, BitVec.toNat_add, Nat.mod_eq_of_lt]
      have hle := hfits.end_le
      have := top.isLt
      omega
    have hpositive : size.toNat ≠ 0 := fun hzero => hsize (BitVec.eq_of_toNat_eq hzero)
    have hproper : lo entry < hi entry := by omega
    have hbase : base.toNat ≤ lo entry := by
      rw [hlo]
      exact BitVec.le_def.mp hfits.base_le
    have htop : hi entry ≤ top.toNat := by
      rw [hhi]
      exact hfits.end_le
    obtain ⟨ok, addrs', hinsert, hok⟩ := h.insert_iff hbase hproper htop
    obtain rfl : ok = true := hok.mpr (by rw [hlo, hhi]; exact hfits.unmapped)
    exact ⟨addrs', hinsert, h.insert hproper hinsert⟩
  · intro entry hbase hproper htop
    exact h.insert_iff (BitVec.le_def.mp hbase) (BitVec.lt_def.mp hproper) (BitVec.le_def.mp htop)

/-- The lowest page of the window is free next to a stack. -/
theorem findFree_firstFit_stackOnly :
    findFree VMSpace.Base VMSpace.Top VMSpace.stackOnly 0x1000#32 0#32 =
        some (some VMSpace.Base) ∧
      IsLeast {a | Fits VMSpace.Base VMSpace.Top VMSpace.stackOnly 0x1000#32 0#32 a}
        VMSpace.Base := by
  have hfree : findFree VMSpace.Base VMSpace.Top VMSpace.stackOnly 0x1000#32 0#32 =
      some (some VMSpace.Base) := by decide
  have hsize : 0x1000#32 ≠ 0#32 := by decide
  obtain ⟨found, hfound, hleast, _⟩ := findFree_firstFit VMSpace.stackOnly_regular hsize 0#32
  exact ⟨hfree, (hleast VMSpace.Base).mp (Option.some.inj (hfound.symm.trans hfree))⟩

end Nyan.Paging.RangeManager
