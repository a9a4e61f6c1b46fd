import Mathlib.Data.List.Induction

/-!
Runs of a partial step function. An action either takes the state to its
successor or has no successor, which is how a halt, an undefined access or a
loop that never ends is represented. A run may be restricted to the steps that
meet a guard on the state before the step; safety results are proved once for
one guarded step and lifted here to every state of every run.
-/

namespace Nyan.Library

variable {σ α : Type*}

/-- `Run step ok s acts t`: performing `acts` in order takes `s` to `t`, and
each action met the guard `ok` in the state where it was performed. -/
inductive Run (step : σ → α → Option σ) (ok : σ → α → Prop) :
    σ → List α → σ → Prop where
  | nil (s : σ) : Run step ok s [] s
  | snoc {s t u : σ} {acts : List α} {a : α} :
      Run step ok s acts t → ok t a → step t a = some u →
      Run step ok s (acts ++ [a]) u

/-- The guard of an unrestricted run. -/
def anyStep (_ : σ) (_ : α) : Prop := True

instance (s : σ) (a : α) : Decidable (anyStep s a) := isTrue trivial

variable {step : σ → α → Option σ} {ok : σ → α → Prop}

/-- A property of the first state that every guarded step preserves holds at
the end of every guarded run, hence in every state the run goes through. -/
theorem Run.invariant {P : σ → Prop}
    (hstep : ∀ s a t, P s → ok s a → step s a = some t → P t)
    {s t : σ} {acts : List α} (hrun : Run step ok s acts t) (hs : P s) : P t := by
  induction hrun with
  | nil => exact hs
  | snoc _ hok hnext ih => exact hstep _ _ _ ih hok hnext

theorem Run.mono {weaker : σ → α → Prop} (hweaker : ∀ s a, ok s a → weaker s a) {s t : σ}
    {acts : List α} (hrun : Run step ok s acts t) : Run step weaker s acts t := by
  induction hrun with
  | nil => exact Run.nil _
  | snoc _ hok hnext ih => exact ih.snoc (hweaker _ _ hok) hnext

theorem run_snoc_iff {s u : σ} {acts : List α} {a : α} :
    Run step ok s (acts ++ [a]) u ↔ ∃ t, Run step ok s acts t ∧ ok t a ∧ step t a = some u := by
  constructor
  · intro hrun
    generalize hacts : acts ++ [a] = all at hrun
    cases hrun with
    | nil => simp at hacts
    | snoc hrun hok hstep =>
        obtain ⟨rfl, heq⟩ := List.append_inj' hacts rfl
        obtain rfl := List.singleton_inj.mp heq
        exact ⟨_, hrun, hok, hstep⟩
  · rintro ⟨t, hrun, hok, hstep⟩
    exact hrun.snoc hok hstep

theorem run_nil_iff {s t : σ} : Run step ok s [] t ↔ s = t := by
  constructor
  · intro hrun
    generalize hacts : [] = acts at hrun
    cases hrun with
    | nil => rfl
    | snoc => simp at hacts
  · rintro rfl
    exact Run.nil s

/-- The acts determine the state they lead to. -/
theorem Run.unique {ok' : σ → α → Prop} {s t t' : σ} {acts : List α}
    (hrun : Run step ok s acts t) (hrun' : Run step ok' s acts t') : t = t' := by
  induction hrun generalizing t' with
  | nil => exact run_nil_iff.mp hrun'
  | snoc _ _ hstep ih =>
      obtain ⟨u, hu, _, hstep'⟩ := run_snoc_iff.mp hrun'
      obtain rfl := ih hu
      exact Option.some.inj (hstep.symm.trans hstep')

/-- Where a condition on a step says whether the step leads to a good state again, the runs
through good states are those in which every step meets the condition. -/
theorem Run.good_iff {P good : σ → Prop} {careful : σ → α → Prop}
    (hP : ∀ s a t, P s → ok s a → careful s a → step s a = some t → P t)
    (hstep : ∀ s a t, P s → good s → ok s a → step s a = some t → (good t ↔ careful s a))
    {s t : σ} {acts : List α} (hrun : Run step ok s acts t) (hs : P s) (hgood : good s) :
    (∀ n u, Run step ok s (acts.take n) u → good u) ↔
      Run step (fun s a => ok s a ∧ careful s a) s acts t := by
  have hinv : ∀ {acts : List α} {t : σ},
      Run step (fun s a => ok s a ∧ careful s a) s acts t → P t := fun hrun =>
    hrun.invariant (fun s a t h hok => hP s a t h hok.1 hok.2) hs
  induction hrun with
  | nil =>
      refine ⟨fun _ => Run.nil _, fun _ n u hu => ?_⟩
      rw [List.take_nil] at hu
      rwa [← run_nil_iff.mp hu]
  | @snoc t u acts a hrun hok hnext ih =>
      rw [run_snoc_iff]
      constructor
      · intro hall
        have hrun' := ih.mp fun n v hv => by
          refine hall (min n acts.length) v ?_
          rwa [List.take_append_of_le_length (Nat.min_le_right ..), ← List.take_take,
            List.take_length]
        have ht : good t := hall acts.length t (by simpa using hrun)
        have hu : good u := hall (acts.length + 1) u (by
          rw [List.take_of_length_le (by simp)]
          exact hrun.snoc hok hnext)
        exact ⟨t, hrun', ⟨hok, (hstep t a u (hinv hrun') ht hok hnext).mp hu⟩, hnext⟩
      · rintro ⟨t', hrun', ⟨_, hcareful⟩, _⟩ n v hv
        obtain rfl := hrun.unique hrun'
        have hall := ih.mpr hrun'
        by_cases hn : n ≤ acts.length
        · rw [List.take_append_of_le_length hn] at hv
          exact hall n v hv
        · rw [List.take_of_length_le (by simp; omega)] at hv
          have ht : good t := hall acts.length t (by simpa using hrun)
          obtain rfl := (hrun.snoc hok hnext).unique hv
          exact (hstep t a u (hinv hrun') ht hok hnext).mpr hcareful

/-- The step that checks its guard, for guards that can be evaluated. -/
def guardedStep (step : σ → α → Option σ) (ok : σ → α → Prop) [∀ s a, Decidable (ok s a)]
    (s : σ) (a : α) : Option σ :=
  if ok s a then step s a else none

/-- Evaluating the guarded steps gives a run. -/
theorem Run.of_foldlM [∀ s a, Decidable (ok s a)] {s t : σ} {acts : List α}
    (h : acts.foldlM (guardedStep step ok) s = some t) : Run step ok s acts t := by
  induction acts using List.reverseRecOn generalizing t with
  | nil =>
      obtain rfl : s = t := by simpa using h
      exact Run.nil s
  | append_singleton acts a ih =>
      simp only [List.foldlM_append, List.foldlM_cons, List.foldlM_nil, Option.bind_eq_bind,
        Option.bind_eq_some_iff, Option.pure_def, Option.some_inj] at h
      obtain ⟨u, hu, v, hstep, rfl⟩ := h
      unfold guardedStep at hstep
      split at hstep
      · rename_i hok
        exact Run.snoc (ih hu) hok hstep
      · cases hstep

/-- The same for an execution as a fold, where every step preserves the
property. -/
theorem execution_invariant {P : σ → Prop} (hstep : ∀ s a t, P s → step s a = some t → P t)
    {s t : σ} {acts : List α} (h : acts.foldlM step s = some t) (hs : P s) : P t := by
  induction acts generalizing s with
  | nil =>
      obtain rfl : s = t := by simpa using h
      exact hs
  | cons a rest ih =>
      simp only [List.foldlM_cons, Option.bind_eq_bind, Option.bind_eq_some_iff] at h
      obtain ⟨next, hnext, h⟩ := h
      exact ih h (hstep s a next hs hnext)

/-- An execution whose steps are all defined in good states and keep them good
is defined and ends in a good state. -/
theorem execution_total {good : σ → Prop}
    (hstep : ∀ s a, good s → ∃ t, step s a = some t ∧ good t)
    {s : σ} (hs : good s) (acts : List α) : ∃ t, acts.foldlM step s = some t ∧ good t := by
  induction acts generalizing s with
  | nil => exact ⟨s, by simp, hs⟩
  | cons a rest ih =>
      obtain ⟨next, hnext, hgood⟩ := hstep s a hs
      obtain ⟨t, hrun, ht⟩ := ih hgood
      exact ⟨t, by simp [hnext, hrun], ht⟩

/-- When a good state stays good exactly under the actions that meet a guard, every
state of an execution is good iff every action meets the guard in its state. -/
theorem execution_good_iff_guarded {good : σ → Prop}
    (hstep : ∀ s a, good s → (ok s a ↔ ∃ t, step s a = some t ∧ good t))
    {s : σ} (hs : good s) (acts : List α) :
    (∀ n, ∃ t, (acts.take n).foldlM step s = some t ∧ good t) ↔
      ∀ n a t, acts[n]? = some a → (acts.take n).foldlM step s = some t → ok t a := by
  constructor
  · intro hall n a t ha ht
    obtain ⟨_, ht', hgood⟩ := hall n
    obtain rfl := Option.some.inj (ht.symm.trans ht')
    obtain ⟨u, hu, hgood'⟩ := hall (n + 1)
    refine (hstep t a hgood).mpr ⟨u, ?_, hgood'⟩
    simpa [List.take_add_one, ha, ht] using hu
  · intro hok n
    induction n with
    | zero => exact ⟨s, by simp, hs⟩
    | succ n ih =>
        obtain ⟨t, ht, hgood⟩ := ih
        cases ha : acts[n]? with
        | none => exact ⟨t, by simpa [List.take_add_one, ha] using ht, hgood⟩
        | some a =>
            obtain ⟨u, hu, hgood'⟩ := (hstep t a hgood).mp (hok n a t ha ht)
            exact ⟨u, by simpa [List.take_add_one, ha, ht] using hu, hgood'⟩

/-- The same where every step is defined. -/
theorem foldl_good_iff_guarded {f : σ → α → σ} {good : σ → Prop}
    (hstep : ∀ s a, good s → (ok s a ↔ good (f s a))) {s : σ} (hs : good s) (acts : List α) :
    (∀ n, good ((acts.take n).foldl f s)) ↔
      ∀ n a, acts[n]? = some a → ok ((acts.take n).foldl f s) a := by
  constructor
  · intro hall n a ha
    refine (hstep _ a (hall n)).mpr ?_
    simpa [List.take_add_one, ha] using hall (n + 1)
  · intro hok n
    induction n with
    | zero => exact hs
    | succ n ih =>
        cases ha : acts[n]? with
        | none => simpa [List.take_add_one, ha] using ih
        | some a => simpa [List.take_add_one, ha] using (hstep _ a ih).mp (hok n a ha)

/-- When a good state stays good exactly under the allowed actions, every state
of an execution is good iff all its actions are allowed. -/
theorem execution_good_iff {good : σ → Prop} {allowed : α → Prop}
    (hstep : ∀ s a, good s → (allowed a ↔ ∃ t, step s a = some t ∧ good t))
    {s : σ} (hs : good s) (acts : List α) :
    (∀ n, ∃ t, (acts.take n).foldlM step s = some t ∧ good t) ↔ ∀ a ∈ acts, allowed a := by
  have hguarded : _ ↔ ∀ n a t, acts[n]? = some a → _ → allowed a :=
    execution_good_iff_guarded hstep hs acts
  constructor
  · intro hall a ha
    obtain ⟨n, hn⟩ := List.mem_iff_getElem?.mp ha
    obtain ⟨t, ht, _⟩ := hall n
    exact hguarded.mp hall n a t hn ht
  · intro hall
    exact hguarded.mpr fun n a t ha _ => hall a (List.mem_of_getElem? ha)

end Nyan.Library
