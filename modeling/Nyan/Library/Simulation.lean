import Mathlib.Data.List.Induction

/-!
A machine that answers every action, beside a reference for it. The machine may
have no successor, as in `Run`; the reference always answers. The machine conforms
to the reference on a run if it gives the same answers and its state still stands
in a given relation to that of the reference.
-/

namespace Nyan.Library

variable {σ τ α ρ : Type*}

/-- The answers to `acts`, performed in order, and the last state. -/
def answers (step : σ → α → Option (ρ × σ)) : σ → List α → Option (List ρ × σ)
  | s, [] => some ([], s)
  | s, a :: rest => do
      let (r, t) ← step s a
      let (rs, u) ← answers step t rest
      return (r :: rs, u)

/-- A reference as a machine. -/
def always (ref : τ → α → ρ × τ) (s : τ) (a : α) : Option (ρ × τ) := some (ref s a)

variable {step : σ → α → Option (ρ × σ)} {ref : τ → α → ρ × τ} {rel : σ → τ → Prop}

theorem answers_cons {s t : σ} {a : α} {r : ρ} (h : step s a = some (r, t)) (rest : List α) :
    answers step s (a :: rest) = (answers step t rest).map fun (rs, u) => (r :: rs, u) := by
  simp only [answers, h, Option.bind_eq_bind, Option.bind_some]
  cases answers step t rest <;> rfl

theorem answers_append {s t : σ} {acts : List α} {rs : List ρ}
    (h : answers step s acts = some (rs, t)) (more : List α) :
    answers step s (acts ++ more) = (answers step t more).map fun (rs', u) => (rs ++ rs', u) := by
  induction acts generalizing s rs with
  | nil =>
      obtain ⟨rfl, rfl⟩ := Prod.mk.inj (Option.some.inj h)
      rw [List.nil_append]
      cases answers step s more <;> rfl
  | cons a rest ih =>
      simp only [answers, Option.bind_eq_bind, Option.bind_eq_some_iff, Prod.exists] at h
      obtain ⟨r, next, hnext, rs', _, hrest, heq⟩ := h
      obtain ⟨rfl, rfl⟩ := Prod.mk.inj (Option.some.inj heq)
      rw [List.cons_append, answers_cons hnext, ih hrest, Option.map_map]
      rfl

theorem answers_append_fst {s t : σ} {acts : List α} {rs : List ρ}
    (h : answers step s acts = some (rs, t)) (more : List α) :
    (answers step s (acts ++ more)).map Prod.fst =
      ((answers step t more).map Prod.fst).map (rs ++ ·) := by
  rw [answers_append h, Option.map_map, Option.map_map]
  rfl

variable (step ref rel) in
/-- The machine answers `acts` as the reference does and ends in a related state. -/
def Conforms (s : σ) (s' : τ) (acts : List α) : Prop :=
  ∃ rs t t', answers step s acts = some (rs, t) ∧
    answers (always ref) s' acts = some (rs, t') ∧ rel t t'

variable (step ref rel) in
/-- One action is answered alike and leaves related states. -/
def ConformsStep (s : σ) (s' : τ) (a : α) : Prop :=
  ∃ r t t', step s a = some (r, t) ∧ ref s' a = (r, t') ∧ rel t t'

theorem conformsStep_always {f : σ → α → ρ × σ} {s : σ} {s' : τ} {a : α} :
    ConformsStep (always f) ref rel s s' a ↔
      (f s a).1 = (ref s' a).1 ∧ rel (f s a).2 (ref s' a).2 := by
  constructor
  · rintro ⟨r, t, t', hstep, href, hrel⟩
    rw [Option.some.inj hstep, href]
    exact ⟨rfl, hrel⟩
  · rintro ⟨hanswer, hrel⟩
    exact ⟨_, _, _, rfl, Prod.ext hanswer.symm rfl, hrel⟩

/-- What every action keeps between two machines is kept along a run, whatever they
answer. -/
theorem answers_related {f : σ → α → ρ × σ}
    (hstep : ∀ s s' a, rel s s' → rel (f s a).2 (ref s' a).2) {s : σ} {s' : τ} (h : rel s s')
    (acts : List α) :
    ∃ rs t rs' t', answers (always f) s acts = some (rs, t) ∧
      answers (always ref) s' acts = some (rs', t') ∧ rel t t' := by
  induction acts generalizing s s' with
  | nil => exact ⟨[], s, [], s', rfl, rfl, h⟩
  | cons a rest ih =>
      obtain ⟨rs, t, rs', t', hrun, hrun', hrel⟩ := ih (hstep s s' a h)
      have hcode : always f s a = some ((f s a).1, (f s a).2) := rfl
      have href : always ref s' a = some ((ref s' a).1, (ref s' a).2) := rfl
      refine ⟨(f s a).1 :: rs, t, (ref s' a).1 :: rs', t', ?_, ?_, hrel⟩
      · rw [answers_cons hcode, hrun, Option.map_some]
      · rw [answers_cons href, hrun', Option.map_some]

theorem Conforms.nil {s : σ} {s' : τ} (h : rel s s') : Conforms step ref rel s s' [] :=
  ⟨[], s, s', rfl, rfl, h⟩

theorem conforms_cons {s t : σ} {s' t' : τ} {a : α} {r : ρ} (hstep : step s a = some (r, t))
    (href : ref s' a = (r, t')) {rest : List α} :
    Conforms step ref rel s s' (a :: rest) ↔ Conforms step ref rel t t' rest := by
  have href' : always ref s' a = some (r, t') := congrArg some href
  simp only [Conforms, answers_cons hstep, answers_cons href', Option.map_eq_some_iff,
    Prod.exists, Prod.mk.injEq]
  constructor
  · rintro ⟨_, _, _, ⟨rs, _, hrun, rfl, rfl⟩, ⟨rs', _, hrun', heq, rfl⟩, hrel⟩
    obtain ⟨_, rfl⟩ := List.cons.inj heq
    exact ⟨rs', _, _, hrun, hrun', hrel⟩
  · rintro ⟨rs, u, u', hrun, hrun', hrel⟩
    exact ⟨r :: rs, u, u', ⟨rs, u, hrun, rfl, rfl⟩, ⟨rs, u', hrun', rfl, rfl⟩, hrel⟩

theorem Conforms.first {s : σ} {s' : τ} {a : α} (h : Conforms step ref rel s s' [a]) :
    ConformsStep step ref rel s s' a := by
  obtain ⟨rs, u, u', hrun, hrun', hrel⟩ := h
  simp only [answers, Option.bind_eq_bind, Option.bind_eq_some_iff, Prod.exists, Option.pure_def,
    Option.some_inj, Prod.mk.injEq] at hrun hrun'
  obtain ⟨r, _, hstep, _, _, ⟨rfl, rfl⟩, rfl, rfl⟩ := hrun
  obtain ⟨r', _, href, _, _, ⟨rfl, rfl⟩, heq, rfl⟩ := hrun'
  obtain ⟨rfl, _⟩ := List.cons.inj heq
  exact ⟨r', _, _, hstep, Option.some.inj href, hrel⟩

/-- Every action meets the guard in the state where it is performed, as far as the run
goes. -/
def Guarded (step : σ → α → Option (ρ × σ)) (ok : σ → α → Prop) : σ → List α → Prop
  | _, [] => True
  | s, a :: rest => ok s a ∧ ∀ r t, step s a = some (r, t) → Guarded step ok t rest

theorem guarded_always {f : σ → α → ρ × σ} {ok : σ → α → Prop} {s : σ} {a : α} {rest : List α} :
    Guarded (always f) ok s (a :: rest) ↔ ok s a ∧ Guarded (always f) ok (f s a).2 rest := by
  simp [Guarded, always, Prod.ext_iff]

theorem Guarded.take {ok : σ → α → Prop} {s : σ} {acts : List α} (h : Guarded step ok s acts)
    (n : Nat) : Guarded step ok s (acts.take n) := by
  induction acts generalizing s n with
  | nil => simpa using h
  | cons a rest ih =>
      cases n with
      | zero => trivial
      | succ n => exact ⟨h.1, fun r t hstep => ih (h.2 r t hstep) n⟩

/-- What the actions of a run preserve where they meet their guard holds at its end. -/
theorem Guarded.invariant {ok : σ → α → Prop} {inv : σ → Prop} {among : α → Prop}
    (hstep : ∀ s a r t, inv s → ok s a → among a → step s a = some (r, t) → inv t)
    {s t : σ} {acts : List α} {rs : List ρ} (hok : Guarded step ok s acts)
    (hamong : ∀ a ∈ acts, among a) (h : inv s) (hrun : answers step s acts = some (rs, t)) :
    inv t := by
  induction acts generalizing s rs with
  | nil =>
      obtain ⟨_, rfl⟩ := Prod.mk.inj (Option.some.inj hrun)
      exact h
  | cons a rest ih =>
      simp only [answers, Option.bind_eq_bind, Option.bind_eq_some_iff, Prod.exists] at hrun
      obtain ⟨r, next, hnext, rs', _, hrest, heq⟩ := hrun
      obtain ⟨_, rfl⟩ := Prod.mk.inj (Option.some.inj heq)
      exact ih (hok.2 r next hnext) (fun a ha => hamong a (List.mem_cons_of_mem _ ha))
        (hstep s a r next h hok.1 (hamong a List.mem_cons_self) hnext) hrest

/-- When an action that meets a guard is answered alike, the machine conforms along every
run whose actions meet the guard. -/
theorem conforms_of_guarded {ok : σ → α → Prop}
    (hstep : ∀ s s' a, rel s s' → ok s a → ConformsStep step ref rel s s' a)
    {s : σ} {s' : τ} (h : rel s s') {acts : List α} (hok : Guarded step ok s acts) (n : Nat) :
    Conforms step ref rel s s' (acts.take n) := by
  induction acts generalizing s s' n with
  | nil => simpa using Conforms.nil h
  | cons a rest ih =>
      cases n with
      | zero => exact Conforms.nil h
      | succ n =>
          obtain ⟨r, next, next', hnext, href, hrel⟩ := hstep s s' a h hok.1
          exact (conforms_cons hnext href).mpr (ih hrel (hok.2 r next hnext) n)

/-- When an action is answered alike exactly under a guard on the state, the machine
conforms along a run iff every action meets the guard where it is performed. -/
theorem conforms_iff {ok : σ → α → Prop}
    (hstep : ∀ s s' a, rel s s' → (ok s a ↔ ConformsStep step ref rel s s' a))
    {s : σ} {s' : τ} (h : rel s s') (acts : List α) :
    (∀ n, Conforms step ref rel s s' (acts.take n)) ↔ Guarded step ok s acts := by
  refine ⟨fun hall => ?_, conforms_of_guarded (fun s s' a h => (hstep s s' a h).mp) h⟩
  induction acts generalizing s s' with
  | nil => trivial
  | cons a rest ih =>
      have hfirst : ConformsStep step ref rel s s' a := (hall 1).first
      refine ⟨(hstep s s' a h).mpr hfirst, fun r next hnext => ?_⟩
      obtain ⟨r', _, next', hnext', href, hrel⟩ := hfirst
      obtain ⟨rfl, rfl⟩ := Prod.mk.inj (Option.some.inj (hnext'.symm.trans hnext))
      exact ih hrel fun m => (conforms_cons hnext href).mp (hall (m + 1))

end Nyan.Library
