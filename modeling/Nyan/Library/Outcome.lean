import Mathlib.Logic.Basic

/-!
Pre- and postconditions for computations that may stop with an error. Some
errors are legitimate ends of a computation, others must never occur; the
predicate `allowed` tells them apart.
-/

namespace Nyan.Library

variable {ε α β : Type} {allowed : ε → Prop}

/-- The computation ends with a value that satisfies `post`, or with an error
that is allowed. -/
def Ensures (allowed : ε → Prop) (post : α → Prop) : Except ε α → Prop
  | .ok a => post a
  | .error e => allowed e

@[simp] theorem ensures_ok {post : α → Prop} {a : α} :
    Ensures allowed post (.ok a : Except ε α) ↔ post a := Iff.rfl

@[simp] theorem ensures_error {post : α → Prop} {e : ε} :
    Ensures allowed post (.error e : Except ε α) ↔ allowed e := Iff.rfl

theorem Ensures.bind {post : α → Prop} {post' : β → Prop} {r : Except ε α}
    {next : α → Except ε β} (h : Ensures allowed post r)
    (hnext : ∀ a, post a → Ensures allowed post' (next a)) :
    Ensures allowed post' (r >>= next) := by
  cases r with
  | ok a => exact hnext a h
  | error e => exact h

theorem Ensures.mono {post post' : α → Prop} {r : Except ε α} (h : Ensures allowed post r)
    (himp : ∀ a, post a → post' a) : Ensures allowed post' r := by
  cases r with
  | ok a => exact himp a h
  | error e => exact h

theorem Ensures.allow {allowed' : ε → Prop} {post : α → Prop} {r : Except ε α}
    (h : Ensures allowed post r) (himp : ∀ e, allowed e → allowed' e) :
    Ensures allowed' post r := by
  cases r with
  | ok a => exact h
  | error e => exact himp e h

theorem Ensures.and {allowed' : ε → Prop} {post post' : α → Prop} {r : Except ε α}
    (h : Ensures allowed post r) (h' : Ensures allowed' post' r) :
    Ensures allowed (fun a => post a ∧ post' a) r := by
  cases r with
  | ok a => exact ⟨h, h'⟩
  | error e => exact h

theorem bind_eq_ok {r : Except ε α} {next : α → Except ε β} {b : β} :
    (r >>= next) = .ok b ↔ ∃ a, r = .ok a ∧ next a = .ok b := by
  cases r with
  | ok a => exact ⟨fun h => ⟨a, rfl, h⟩, fun ⟨_, ha, h⟩ => Except.ok.inj ha ▸ h⟩
  | error e => exact ⟨nofun, fun ⟨_, ha, _⟩ => nomatch ha⟩

theorem Ensures.of_ok {post : α → Prop} {r : Except ε α} {a : α} (h : Ensures allowed post r)
    (hr : r = .ok a) : post a := by
  rwa [hr] at h

end Nyan.Library
