import Mathlib.Data.Set.Card
import Mathlib.Tactic

/-!
Reference counting. A store has slots, each of which is empty or holds one
object, and a counter for each object. The counters are exact when each is the
number of slots that hold the object; the slots may be infinitely many, but then
only finitely many hold any one object.
-/

namespace Nyan.Library

variable {X F : Type*}

/-- The slots that hold an object. -/
def holders (slots : X → Option F) (object : F) : Set X := {x | slots x = some object}

@[simp] theorem mem_holders {slots : X → Option F} {object : F} {x : X} :
    x ∈ holders slots object ↔ slots x = some object := Iff.rfl

/-- What a slot holds after one slot was filled. -/
theorem held_of_put [DecidableEq X] {slots : X → Option F} {x y : X} {object other : F}
    (h : Function.update slots x (some object) y = some other) :
    (y = x ∧ other = object) ∨ slots y = some other := by
  by_cases hy : y = x
  · rw [hy, Function.update_self] at h
    exact Or.inl ⟨hy, (Option.some.inj h).symm⟩
  · rw [Function.update_of_ne hy] at h
    exact Or.inr h

/-- Every counter is the number of slots that hold its object. -/
def Exact (slots : X → Option F) (count : F → Nat) : Prop :=
  ∀ object, (holders slots object).encard = count object

namespace Exact

variable {slots : X → Option F} {count : F → Nat} {object : F} {x y : X}

theorem zero_iff (h : Exact slots count) : count object = 0 ↔ ∀ x, slots x ≠ some object := by
  have hcard := h object
  constructor
  · intro hzero x hx
    rw [hzero, Nat.cast_zero, Set.encard_eq_zero] at hcard
    have hmem : x ∈ holders slots object := hx
    simp [hcard] at hmem
  · intro hnone
    have hempty : holders slots object = ∅ := Set.eq_empty_iff_forall_notMem.mpr hnone
    rw [hempty, Set.encard_empty] at hcard
    exact_mod_cast hcard.symm

theorem pos (h : Exact slots count) (hx : slots x = some object) : 0 < count object := by
  refine Nat.pos_of_ne_zero fun hzero => ?_
  exact h.zero_iff.mp hzero x hx

/-- A counter that is one belongs to an object held by one slot. -/
theorem eq_one_iff (h : Exact slots count) (hx : slots x = some object) :
    count object = 1 ↔ ∀ y, slots y = some object → y = x := by
  have hcard := h object
  constructor
  · intro hone y hy
    rw [hone, Nat.cast_one, Set.encard_eq_one] at hcard
    obtain ⟨z, hz⟩ := hcard
    have hxz : x ∈ holders slots object := hx
    have hyz : y ∈ holders slots object := hy
    rw [hz, Set.mem_singleton_iff] at hxz hyz
    rw [hxz, hyz]
  · intro honly
    have hsingle : holders slots object = {x} := by
      ext y
      exact ⟨honly y, fun hy => by rw [Set.mem_singleton_iff.mp hy]; exact hx⟩
    rw [hsingle, Set.encard_singleton] at hcard
    exact_mod_cast hcard.symm

/-- The holders of an object are no more than the owners they can have. -/
theorem count_le {Y : Type*} (h : Exact slots count) (owner : X → Y) (owners : Finset Y)
    (howner : ∀ x, slots x = some object → owner x ∈ owners)
    (hinj : ∀ x y, slots x = some object → slots y = some object → owner x = owner y → x = y) :
    count object ≤ owners.card := by
  have hinjOn : Set.InjOn owner (holders slots object) := fun x hx y hy => hinj x y hx hy
  have himage : Set.image owner (holders slots object) ⊆ owners := by
    rintro _ ⟨x, hx, rfl⟩
    exact howner x hx
  have hle := Set.encard_le_encard himage
  rw [hinjOn.encard_image, h object, Set.encard_coe_eq_coe_finsetCard] at hle
  exact_mod_cast hle

variable [DecidableEq X] [DecidableEq F]

/-- An empty slot takes an object. -/
theorem put (h : Exact slots count) (hx : slots x = none) (object : F) :
    Exact (Function.update slots x (some object))
      (Function.update count object (count object + 1)) := by
  intro other
  by_cases hother : other = object
  · subst hother
    have hinsert : holders (Function.update slots x (some other)) other =
        insert x (holders slots other) := by
      ext y
      by_cases hy : y = x
      · simp [hy]
      · simp [hy]
    have hnot : x ∉ holders slots other := by simp [hx]
    rw [hinsert, Set.encard_insert_of_notMem hnot, h other, Function.update_self]
    push_cast
    rfl
  · have hsame : holders (Function.update slots x (some object)) other = holders slots other := by
      ext y
      by_cases hy : y = x
      · simp [hy, hx, Ne.symm hother]
      · simp [Function.update_of_ne hy]
    rw [hsame, Function.update_of_ne hother, h other]

/-- A slot lets go of its object. -/
theorem drop (h : Exact slots count) (hx : slots x = some object) :
    Exact (Function.update slots x none)
      (Function.update count object (count object - 1)) := by
  intro other
  by_cases hother : other = object
  · subst hother
    have hremove : holders slots other =
        insert x (holders (Function.update slots x none) other) := by
      ext y
      by_cases hy : y = x
      · simp [hy, hx]
      · simp [hy]
    have hnot : x ∉ holders (Function.update slots x none) other := by simp
    have hcard := h other
    have hpos := h.pos hx
    rw [hremove, Set.encard_insert_of_notMem hnot] at hcard
    obtain ⟨n, hn⟩ : ∃ n, count other = n + 1 := ⟨count other - 1, by omega⟩
    rw [hn] at hcard
    push_cast at hcard
    rw [Function.update_self, hn, Nat.add_sub_cancel]
    exact ENat.add_left_injective_of_ne_top ENat.one_ne_top hcard
  · have hsame : holders (Function.update slots x none) other = holders slots other := by
      ext y
      by_cases hy : y = x
      · simp [hy, hx, Ne.symm hother]
      · simp [Function.update_of_ne hy]
    rw [hsame, Function.update_of_ne hother, h other]

/-- A slot takes another object than the one it held. -/
theorem replace (h : Exact slots count) (hx : slots x = some object) {other : F}
    (hother : other ≠ object) :
    Exact (Function.update slots x (some other))
      (Function.update (Function.update count other (count other + 1)) object
        (count object - 1)) := by
  have hput := (h.drop hx).put (Function.update_self x none slots) other
  rw [Function.update_idem, Function.update_of_ne hother] at hput
  rwa [Function.update_comm hother]

end Exact

/-- Slots that hold the same object are related. -/
def SharedBy (r : X → X → Prop) (slots : X → Option F) : Prop :=
  ∀ x y object, slots x = some object → slots y = some object → r x y

namespace SharedBy

variable {r : X → X → Prop} {slots slots' : X → Option F} {object : F} {x : X}

theorem mono (h : SharedBy r slots) (hsub : ∀ x object, slots' x = some object →
    slots x = some object) : SharedBy r slots' :=
  fun x y object hx hy => h x y object (hsub x object hx) (hsub y object hy)

variable [DecidableEq X]

/-- A slot may take an object that only related slots hold. -/
theorem put [Std.Refl r] [Std.Symm r] (h : SharedBy r slots)
    (hshare : ∀ y, slots y = some object → r x y) :
    SharedBy r (Function.update slots x (some object)) := by
  intro y z other hy hz
  by_cases hyx : y = x
  · subst hyx
    obtain rfl : object = other := by simpa using hy
    by_cases hzy : z = y
    · rw [hzy]
      exact Std.Refl.refl y
    · exact hshare z (by rwa [Function.update_of_ne hzy] at hz)
  · rw [Function.update_of_ne hyx] at hy
    by_cases hzx : z = x
    · subst hzx
      obtain rfl : object = other := by simpa using hz
      exact Std.Symm.symm z y (hshare y hy)
    · rw [Function.update_of_ne hzx] at hz
      exact h y z other hy hz

theorem drop (h : SharedBy r slots) (x : X) : SharedBy r (Function.update slots x none) := by
  refine h.mono fun y object hy => ?_
  by_cases hyx : y = x
  · simp [hyx] at hy
  · rwa [Function.update_of_ne hyx] at hy

end SharedBy

end Nyan.Library
