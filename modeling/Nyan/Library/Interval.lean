import Mathlib.Data.List.Basic
import Mathlib.Order.Basic
import Mathlib.Tactic

/-!
Lists of half-open intervals in ascending order. An entry `e` of any type is
read as the interval from `lo e` up to but excluding `hi e`. Empty intervals
are allowed. Removing a range of points from all entries replaces each entry
by parts of it; the list stays ordered and covers the points that it covered
outside the range, whatever the way the parts are written down.
-/

namespace Nyan.Library.Interval

section Lists

variable {E : Type*} {entries : List E}

theorem split_at {n : Nat} {e : E} (h : entries[n]? = some e) :
    ∃ before after, entries = before ++ e :: after ∧ before.length = n := by
  obtain ⟨hn, rfl⟩ := List.getElem?_eq_some_iff.mp h
  refine ⟨entries.take n, entries.drop (n + 1), ?_, by simp; omega⟩
  rw [← List.drop_eq_getElem_cons hn, List.take_append_drop]

theorem insertIdx_length (before after : List E) (e : E) :
    (before ++ after).insertIdx before.length e = before ++ e :: after := by
  induction before with
  | nil => simp
  | cons x rest ih => simp [ih]

/-- A list with a first and a last element keeps both when the stretch between
a non-empty front and a non-empty back is replaced. -/
theorem ends_of_replace {first last : E} {interior before middle middle' after : List E}
    (h : first :: interior ++ [last] = before ++ middle ++ after)
    (hbefore : before ≠ []) (hafter : after ≠ []) :
    ∃ interior', before ++ middle' ++ after = first :: interior' ++ [last] := by
  obtain ⟨x, front, rfl⟩ := List.exists_cons_of_ne_nil hbefore
  obtain ⟨back, y, rfl⟩ : ∃ back y, after = back ++ [y] :=
    ⟨after.dropLast, after.getLast hafter, (List.dropLast_append_getLast hafter).symm⟩
  have hfirst : first = x := by simpa using congrArg List.head? h
  have hlast : last = y := by
    have h' : (first :: interior) ++ [last] = (x :: front ++ middle ++ back) ++ [y] := by
      simpa using h
    exact List.singleton_inj.mp (List.append_inj_right' h' rfl)
  subst hfirst hlast
  exact ⟨front ++ middle' ++ back, by simp⟩

/-- What is between the ends of a list after an insertion between them. -/
theorem mem_interior_insert {before after : List E} {left entry right e : E}
    (he : e ∈ ((before ++ [left]) ++ entry :: right :: after).tail.dropLast) :
    e = entry ∨ e ∈ ((before ++ [left]) ++ right :: after).tail.dropLast := by
  cases before with
  | nil => simpa using he
  | cons b rest =>
      simp only [List.cons_append, List.tail_cons, List.append_assoc, List.nil_append] at he ⊢
      rw [List.dropLast_append_of_ne_nil (by simp)] at he ⊢
      simp only [List.dropLast_cons_cons, List.mem_append, List.mem_cons] at he ⊢
      tauto

end Lists

variable {E α : Type*} [LinearOrder α] (lo hi : E → α)

/-- Every entry is a proper interval and ends before the later ones begin. -/
structure Ordered (entries : List E) : Prop where
  proper : ∀ e ∈ entries, lo e ≤ hi e
  chain : entries.Pairwise fun a b => hi a ≤ lo b

/-- The entries begin in ascending order. -/
def Sorted (entries : List E) : Prop :=
  entries.Pairwise fun a b => lo a ≤ lo b

/-- No point lies in two entries. -/
def Disjoint (entries : List E) : Prop :=
  entries.Pairwise fun a b => ∀ x, ¬ ((lo a ≤ x ∧ x < hi a) ∧ (lo b ≤ x ∧ x < hi b))

/-- `parts` are ordered intervals inside `e`. -/
structure Within (e : E) (parts : List E) : Prop where
  ordered : Ordered lo hi parts
  inside : ∀ p ∈ parts, lo e ≤ lo p ∧ hi p ≤ hi e

/-- The second list replaces each entry `e` of the first by some `parts` with
`R e parts`. -/
inductive Pieces (R : E → List E → Prop) : List E → List E → Prop where
  | nil : Pieces R [] []
  | cons {e : E} {parts rest rest' : List E} :
      R e parts → Pieces R rest rest' → Pieces R (e :: rest) (parts ++ rest')

variable {lo hi}

theorem ordered_nil : Ordered lo hi ([] : List E) := ⟨by simp, by simp⟩

theorem ordered_singleton {e : E} (h : lo e ≤ hi e) : Ordered lo hi [e] :=
  ⟨by simpa using h, by simp⟩

theorem ordered_append {first second : List E} :
    Ordered lo hi (first ++ second) ↔
      Ordered lo hi first ∧ Ordered lo hi second ∧
        ∀ a ∈ first, ∀ b ∈ second, hi a ≤ lo b := by
  constructor
  · rintro ⟨hproper, hchain⟩
    obtain ⟨hfirst, hsecond, hcross⟩ := List.pairwise_append.mp hchain
    refine ⟨⟨?_, hfirst⟩, ⟨?_, hsecond⟩, hcross⟩
    · exact fun e he => hproper e (List.mem_append_left _ he)
    · exact fun e he => hproper e (List.mem_append_right _ he)
  · rintro ⟨hfirst, hsecond, hcross⟩
    refine ⟨?_, List.pairwise_append.mpr ⟨hfirst.chain, hsecond.chain, hcross⟩⟩
    intro e he
    rcases List.mem_append.mp he with h | h
    · exact hfirst.proper e h
    · exact hsecond.proper e h

theorem ordered_cons {e : E} {entries : List E} :
    Ordered lo hi (e :: entries) ↔
      lo e ≤ hi e ∧ Ordered lo hi entries ∧ ∀ b ∈ entries, hi e ≤ lo b := by
  rw [← List.singleton_append, ordered_append]
  constructor
  · rintro ⟨hsingle, hrest, hcross⟩
    exact ⟨hsingle.proper e (by simp), hrest, hcross e (by simp)⟩
  · rintro ⟨hproper, hrest, hcross⟩
    exact ⟨ordered_singleton hproper, hrest, by simpa using hcross⟩

theorem Ordered.sorted {entries : List E} (h : Ordered lo hi entries) :
    Sorted lo entries := by
  refine h.chain.imp_of_mem ?_
  intro a b ha _ hab
  exact (h.proper a ha).trans hab

theorem Ordered.disjoint {entries : List E} (h : Ordered lo hi entries) :
    Disjoint lo hi entries := by
  refine h.chain.imp ?_
  rintro a b hab x ⟨⟨_, hxa⟩, hbx, _⟩
  exact absurd (hxa.trans_le (hab.trans hbx)) (lt_irrefl x)

/-- Entries in the order of their places. -/
theorem Ordered.le_of_lt {entries : List E} (h : Ordered lo hi entries) {i j : Nat} {a b : E}
    (hij : i < j) (ha : entries[i]? = some a) (hb : entries[j]? = some b) : hi a ≤ lo b := by
  obtain ⟨hi', rfl⟩ := List.getElem?_eq_some_iff.mp ha
  obtain ⟨hj, rfl⟩ := List.getElem?_eq_some_iff.mp hb
  exact List.pairwise_iff_getElem.mp h.chain i j hi' hj hij

/-- Entries at two places have no point in common. -/
theorem Ordered.apart {entries : List E} (h : Ordered lo hi entries) {i j : Nat} {a b : E}
    (hij : i ≠ j) (ha : entries[i]? = some a) (hb : entries[j]? = some b) {x : α}
    (hxa : lo a ≤ x ∧ x < hi a) : ¬ (lo b ≤ x ∧ x < hi b) := by
  rintro ⟨hbx, hxb⟩
  rcases Nat.lt_or_gt_of_ne hij with hlt | hgt
  · exact absurd (hxa.2.trans_le ((h.le_of_lt hlt ha hb).trans hbx)) (lt_irrefl x)
  · exact absurd (hxb.trans_le ((h.le_of_lt hgt hb ha).trans hxa.1)) (lt_irrefl x)

/-- An entry is replaced by one that fits between the others. -/
theorem Ordered.set {entries : List E} (h : Ordered lo hi entries) {i : Nat} {e : E}
    (hproper : lo e ≤ hi e) (hleft : ∀ j a, j < i → entries[j]? = some a → hi a ≤ lo e)
    (hright : ∀ j b, i < j → entries[j]? = some b → hi e ≤ lo b) :
    Ordered lo hi (entries.set i e) := by
  constructor
  · intro a ha
    rcases List.mem_or_eq_of_mem_set ha with ha | rfl
    · exact h.proper a ha
    · exact hproper
  · rw [List.pairwise_iff_getElem]
    intro j l hj hl hjl
    rw [List.length_set] at hj hl
    rw [List.getElem_set, List.getElem_set]
    split_ifs with hij hil hil
    · omega
    · exact hright l _ (by omega) (List.getElem?_eq_getElem hl)
    · exact hleft j _ (by omega) (List.getElem?_eq_getElem hj)
    · exact List.pairwise_iff_getElem.mp h.chain j l hj hl hjl

/-- No point lies in two entries of an ordered list. -/
theorem Ordered.eq_of_mem {entries : List E} (h : Ordered lo hi entries) {a b : E}
    (ha : a ∈ entries) (hb : b ∈ entries) {x : α} (hxa : lo a ≤ x ∧ x < hi a)
    (hxb : lo b ≤ x ∧ x < hi b) : a = b := by
  obtain ⟨i, hi'⟩ := List.mem_iff_getElem?.mp ha
  obtain ⟨j, hj⟩ := List.mem_iff_getElem?.mp hb
  by_cases hij : i = j
  · subst hij
    exact Option.some.inj (hi'.symm.trans hj)
  · exact absurd hxb (h.apart hij hi' hj hxa)

/-- A point that the list covers lies in one entry. -/
theorem Ordered.countP_mem {entries : List E} (h : Ordered lo hi entries) (x : α) :
    entries.countP (fun e => lo e ≤ x ∧ x < hi e) =
      if ∃ e ∈ entries, lo e ≤ x ∧ x < hi e then 1 else 0 := by
  induction entries with
  | nil => simp
  | cons e rest ih =>
      obtain ⟨_, hrest, hcross⟩ := ordered_cons.mp h
      rw [List.countP_cons, ih hrest]
      by_cases hx : lo e ≤ x ∧ x < hi e
      · have hnone : ¬ ∃ b ∈ rest, lo b ≤ x ∧ x < hi b := by
          rintro ⟨b, hb, hbx, _⟩
          exact absurd (hx.2.trans_le ((hcross b hb).trans hbx)) (lt_irrefl x)
        simp [hx, hnone]
      · simp [hx]

/-- An interval that fits between the two halves of an ordered list. -/
theorem Ordered.insert {first second : List E} {e : E}
    (h : Ordered lo hi (first ++ second)) (hproper : lo e ≤ hi e)
    (hfirst : ∀ a ∈ first, hi a ≤ lo e) (hsecond : ∀ b ∈ second, hi e ≤ lo b) :
    Ordered lo hi (first ++ e :: second) := by
  obtain ⟨hl, hr, hcross⟩ := ordered_append.mp h
  refine ordered_append.mpr ⟨hl, ordered_cons.mpr ⟨hproper, hr, hsecond⟩, ?_⟩
  intro a ha b hb
  rcases List.mem_cons.mp hb with rfl | hb
  · exact hfirst a ha
  · exact hcross a ha b hb

theorem within_nil (e : E) : Within lo hi e [] := ⟨ordered_nil, by simp⟩

theorem within_singleton {e p : E} (hproper : lo p ≤ hi p) (hlo : lo e ≤ lo p)
    (hhi : hi p ≤ hi e) : Within lo hi e [p] :=
  ⟨ordered_singleton hproper, by simpa using ⟨hlo, hhi⟩⟩

theorem within_pair {e p q : E} (hp : lo p ≤ hi p) (hq : lo q ≤ hi q)
    (hlo : lo e ≤ lo p) (hpq : hi p ≤ lo q) (hhi : hi q ≤ hi e) :
    Within lo hi e [p, q] := by
  refine ⟨ordered_cons.mpr ⟨hp, ordered_singleton hq, by simpa using hpq⟩, ?_⟩
  intro r hr
  simp only [List.mem_cons, List.not_mem_nil, or_false] at hr
  rcases hr with rfl | rfl
  · exact ⟨hlo, hpq.trans (hq.trans hhi)⟩
  · exact ⟨hlo.trans (hp.trans hpq), hhi⟩

section Pieces

variable {R : E → List E → Prop} {entries entries' : List E}

theorem Pieces.append {a a' b b' : List E} (ha : Pieces R a a') (hb : Pieces R b b') :
    Pieces R (a ++ b) (a' ++ b') := by
  induction ha with
  | nil => exact hb
  | cons hparts _ ih =>
      rw [List.cons_append, List.append_assoc]
      exact Pieces.cons hparts ih

theorem Pieces.single {e : E} {parts : List E} (h : R e parts) : Pieces R [e] parts := by
  simpa using Pieces.cons h Pieces.nil

theorem Pieces.refl (h : ∀ e ∈ entries, R e [e]) : Pieces R entries entries := by
  induction entries with
  | nil => exact Pieces.nil
  | cons e rest ih =>
      exact Pieces.cons (h e (by simp)) (ih fun x hx => h x (by simp [hx]))

theorem Pieces.removeAll (h : ∀ e ∈ entries, R e []) : Pieces R entries [] := by
  induction entries with
  | nil => exact Pieces.nil
  | cons e rest ih =>
      exact Pieces.cons (h e (by simp)) (ih fun x hx => h x (by simp [hx]))

theorem pieces_append {a b entries' : List E} :
    Pieces R (a ++ b) entries' ↔
      ∃ a' b', entries' = a' ++ b' ∧ Pieces R a a' ∧ Pieces R b b' := by
  constructor
  · intro h
    induction a generalizing entries' with
    | nil => exact ⟨[], entries', rfl, Pieces.nil, h⟩
    | cons e rest ih =>
        cases h with
        | @cons _ parts _ rest' hparts hrest =>
            obtain ⟨a', b', rfl, ha, hb⟩ := ih hrest
            exact ⟨parts ++ a', b', by simp, Pieces.cons hparts ha, hb⟩
  · rintro ⟨a', b', rfl, ha, hb⟩
    exact ha.append hb

theorem pieces_singleton {e : E} {parts : List E} : Pieces R [e] parts ↔ R e parts := by
  constructor
  · intro h
    cases h with
    | cons hparts hrest =>
        cases hrest
        simpa using hparts
  · exact Pieces.single

/-- Every interval of the new list is a part of an entry of the old one. -/
theorem Pieces.origin (h : Pieces R entries entries') :
    ∀ p ∈ entries', ∃ e ∈ entries, ∃ parts, R e parts ∧ p ∈ parts := by
  induction h with
  | nil => simp
  | cons hparts _ ih =>
      intro p hp
      rcases List.mem_append.mp hp with hp | hp
      · exact ⟨_, List.mem_cons_self, _, hparts, hp⟩
      · obtain ⟨e, he, hin⟩ := ih p hp
        exact ⟨e, List.mem_cons_of_mem _ he, hin⟩

/-- Every entry of the old list has its parts in the new one. -/
theorem Pieces.parts (h : Pieces R entries entries') :
    ∀ e ∈ entries, ∃ parts, R e parts ∧ ∀ p ∈ parts, p ∈ entries' := by
  induction h with
  | nil => simp
  | @cons e parts rest rest' hparts _ ih =>
      intro x hx
      rcases List.mem_cons.mp hx with rfl | hx
      · exact ⟨parts, hparts, fun p hp => List.mem_append_left _ hp⟩
      · obtain ⟨parts', hparts', hmem⟩ := ih x hx
        exact ⟨parts', hparts', fun p hp => List.mem_append_right _ (hmem p hp)⟩

theorem Pieces.ordered (hwithin : ∀ e ∈ entries, ∀ parts, R e parts → Within lo hi e parts)
    (h : Pieces R entries entries') (hordered : Ordered lo hi entries) :
    Ordered lo hi entries' := by
  induction h with
  | nil => exact ordered_nil
  | @cons e parts rest rest' hparts hrest ih =>
      obtain ⟨_, hrestOrdered, hcross⟩ := ordered_cons.mp hordered
      have hinside := hwithin e (by simp) parts hparts
      have hwithin' : ∀ x ∈ rest, ∀ parts, R x parts → Within lo hi x parts :=
        fun x hx => hwithin x (by simp [hx])
      refine ordered_append.mpr ⟨hinside.ordered, ih hwithin' hrestOrdered, ?_⟩
      intro a ha b hb
      obtain ⟨x, hx, parts', hparts', hb'⟩ := hrest.origin b hb
      have hbx := (hwithin' x hx parts' hparts').inside b hb'
      exact (hinside.inside a ha).2.trans ((hcross x hx).trans hbx.1)

/-- Points covered after the replacement, when the parts of each entry cover
the points of the entry that satisfy `keep` and carry the entry's attribute. -/
theorem Pieces.covered {β : Type*} {attr : E → β} {keep : α → Prop}
    (hcut : ∀ e ∈ entries, ∀ parts, R e parts →
      (∀ p ∈ parts, attr p = attr e) ∧
      ∀ x, (∃ p ∈ parts, lo p ≤ x ∧ x < hi p) ↔ (lo e ≤ x ∧ x < hi e) ∧ keep x)
    (h : Pieces R entries entries') (x : α) (b : β) :
    (∃ p ∈ entries', (lo p ≤ x ∧ x < hi p) ∧ attr p = b) ↔
      (∃ e ∈ entries, (lo e ≤ x ∧ x < hi e) ∧ attr e = b) ∧ keep x := by
  constructor
  · rintro ⟨p, hp, hx, hattr⟩
    obtain ⟨e, he, parts, hparts, hpe⟩ := h.origin p hp
    obtain ⟨hsame, hcover⟩ := hcut e he parts hparts
    obtain ⟨hin, hkeep⟩ := (hcover x).mp ⟨p, hpe, hx⟩
    exact ⟨⟨e, he, hin, (hsame p hpe).symm.trans hattr⟩, hkeep⟩
  · rintro ⟨⟨e, he, hx, hattr⟩, hkeep⟩
    obtain ⟨parts, hparts, hmem⟩ := h.parts e he
    obtain ⟨hsame, hcover⟩ := hcut e he parts hparts
    obtain ⟨p, hp, hin⟩ := (hcover x).mpr ⟨hx, hkeep⟩
    exact ⟨p, hmem p hp, hin, (hsame p hp).trans hattr⟩

end Pieces

end Nyan.Library.Interval
