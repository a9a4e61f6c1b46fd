import Mathlib.Logic.Relation

/-!
Relations without cycles. Dropping pairs keeps a relation free of cycles, and so
does one new pair that does not lead back.
-/

namespace Nyan.Library

open Relation

variable {α : Type*} {r r' : α → α → Prop} {a b x y : α}

/-- Nothing leads to itself. -/
def Acyclic (r : α → α → Prop) : Prop := ∀ x, ¬ TransGen r x x

theorem Acyclic.mono (h : Acyclic r) (hsub : ∀ x y, r' x y → r x y) : Acyclic r' :=
  fun x hcycle => h x (TransGen.mono hsub x x hcycle)

/-- A path in a relation with one more pair avoids the new pair, or goes to its
first part and on from its second. -/
theorem transGen_insert (hinsert : ∀ x y, r' x y → r x y ∨ x = a ∧ y = b)
    (h : TransGen r' x y) : TransGen r x y ∨ ReflTransGen r x a ∧ ReflTransGen r b y := by
  induction h with
  | single hlast =>
      rcases hinsert _ _ hlast with hlast | ⟨rfl, rfl⟩
      · exact Or.inl (.single hlast)
      · exact Or.inr ⟨.refl, .refl⟩
  | tail _ hlast ih =>
      rcases hinsert _ _ hlast with hlast | ⟨rfl, rfl⟩
      · rcases ih with hold | ⟨hto, hfrom⟩
        · exact Or.inl (hold.tail hlast)
        · exact Or.inr ⟨hto, hfrom.tail hlast⟩
      · rcases ih with hold | ⟨hto, _⟩
        · exact Or.inr ⟨hold.to_reflTransGen, .refl⟩
        · exact Or.inr ⟨hto, .refl⟩

theorem Acyclic.insert (h : Acyclic r) (hinsert : ∀ x y, r' x y → r x y ∨ x = a ∧ y = b)
    (hback : ¬ ReflTransGen r b a) : Acyclic r' := by
  intro x hcycle
  rcases transGen_insert hinsert hcycle with hold | ⟨hto, hfrom⟩
  · exact h x hold
  · exact hback (hfrom.trans hto)

end Nyan.Library
