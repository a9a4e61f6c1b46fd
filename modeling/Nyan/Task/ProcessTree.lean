import Nyan.Task.QueueDiscipline

/-!
The process tree. Parenthood is stored twice, as the `childTasks` list a task is
linked into and as its `parentPid`, and `freeTask` relies on both. `exit` moves
the children of the ending task to the list of `init` and leaves their
`parentPid` as it was, so the two disagree from then on. As long as no task ends
before its children and every added task gets a pid, they agree.
-/

namespace Nyan.Task

open Library

/-- The two records of parenthood agree, and `freeTask` finds the parent of
every task it may free. -/
structure TreeConsistent (s : System) : Prop where
  parentPid : ∀ t p, t ∈ s.children.items p → (s.tasks t).parentPid = (s.tasks p).pid
  oneParent : ∀ t, s.live t = true → (s.tasks t).pid ≠ KP_Init → (s.tasks t).pid ≠ KP_Idle →
    ∃ p, s.allTasks (s.tasks t).parentPid = some p ∧ ∀ q, t ∈ s.children.items q ↔ q = p
  freeable : ∀ t, s.live t = true → (s.tasks t).state = .exited →
    (s.findTask (s.tasks t).parentPid).isSome

/-- A step that keeps the tree consistent: a task ends only without children,
and a task is added only while there is a free pid. -/
def Orderly (s : System) (a : Action) : Prop :=
  Permitted s a ∧
    match a with
    | .exit _ _ => s.children.items s.current = []
    | .addTask _ => ∃ p < maxTask, KP_FirstUser ≤ p ∧ s.allTasks (p : Int) = none
    | _ => True

instance (s : System) (a : Action) : Decidable (Orderly s a) :=
  @instDecidableAnd _ _ inferInstance <|
    match a with
    | .exit _ _ => inferInstanceAs (Decidable (_ = _))
    | .addTask _ => inferInstanceAs (Decidable (∃ p < maxTask, _))
    | .createTask | .fork | .yield | .disableYield | .enableYield | .block _ | .sleep _
    | .wait _ _ | .wakeOne _ _ | .wakeAll _ _ | .wake _ _ | .checkSleep | .tick
    | .sendSignal _ _ | .waitpid _ _ => inferInstanceAs (Decidable True)

/-- The invariant of orderly runs, over the pid table and both records. -/
structure Tree (s : System) : Prop where
  entry : ∀ k t, s.allTasks k = some t →
    0 ≤ k ∧ k < maxTask ∧ s.live t = true ∧ (s.tasks t).pid = k
  named : ∀ t, s.live t = true → s.handed t = true → s.allTasks (s.tasks t).pid = some t
  alive : ∀ t, t < s.nextTask → (s.tasks t).state ≠ .exited → s.live t = true
  old : ∀ t, s.live t = true → t < s.nextTask
  child : ∀ t p, s.children.owner t = some p → s.live t = true ∧
    (s.tasks t).parentPid = (s.tasks p).pid ∧ s.allTasks (s.tasks p).pid = some p ∧
    (s.tasks p).state ≠ .exited
  parent : ∀ t, s.live t = true → (s.tasks t).pid ≠ KP_Init → (s.tasks t).pid ≠ KP_Idle →
    ∃ p, s.children.owner t = some p

variable {s s' : System} {t : TaskId}

/-- The tree and the pid table are the same in two states. -/
structure SameTree (s s' : System) : Prop where
  nextTask : s'.nextTask = s.nextTask
  allTasks : s'.allTasks = s.allTasks
  handed : s'.handed = s.handed
  live : s'.live = s.live
  children : s'.children = s.children
  pid : ∀ t, (s'.tasks t).pid = (s.tasks t).pid
  parentPid : ∀ t, (s'.tasks t).parentPid = (s.tasks t).parentPid

theorem Kin.sameTree (h : Kin s s') : SameTree s s' :=
  ⟨h.nextTask, h.allTasks, h.handed, h.live, h.children, h.pid, h.parentPid⟩

/-- A task that ends without children leaves the tree as it is. -/
theorem Exits.sameTree (h : Exits s s') (hnone : s.children.items s.current = []) :
    SameTree s s' := by
  refine ⟨h.nextTask, h.allTasks, h.handed, h.live, ?_, h.pid, h.parentPid⟩
  rcases h.children with ⟨_, hsame⟩ | ⟨hsome, _⟩
  · exact hsame
  · exact absurd hnone hsome

/-- Tasks may end, but not those that have children. -/
theorem Tree.sameTree (h : Tree s) (hsame : SameTree s s')
    (hended : ∀ t, (s.tasks t).state = .exited → (s'.tasks t).state = .exited)
    (hparents : ∀ t p, s.children.owner t = some p → (s.tasks p).state ≠ .exited →
      (s'.tasks p).state ≠ .exited) : Tree s' := by
  refine ⟨?_, ?_, ?_, ?_, ?_, ?_⟩
  · intro k t hentry
    rw [hsame.allTasks] at hentry
    rw [hsame.live, hsame.pid]
    exact h.entry k t hentry
  · intro t hlive hhanded
    rw [hsame.live] at hlive
    rw [hsame.handed] at hhanded
    rw [hsame.allTasks, hsame.pid]
    exact h.named t hlive hhanded
  · intro t hold hstate
    rw [hsame.nextTask] at hold
    rw [hsame.live]
    exact h.alive t hold fun hexited => hstate (hended t hexited)
  · intro t hlive
    rw [hsame.live] at hlive
    rw [hsame.nextTask]
    exact h.old t hlive
  · intro t p howner
    rw [hsame.children] at howner
    rw [hsame.live, hsame.parentPid, hsame.pid, hsame.allTasks]
    obtain ⟨hlive, hparent, hentry, hstate⟩ := h.child t p howner
    exact ⟨hlive, hparent, hentry, hparents t p howner hstate⟩
  · intro t hlive hinit hidle
    rw [hsame.live] at hlive
    rw [hsame.pid] at hinit hidle
    rw [hsame.children]
    exact h.parent t hlive hinit hidle

theorem Tree.kin (h : Tree s) (hkin : Kin s s') : Tree s' :=
  h.sameTree hkin.sameTree (fun t => (hkin.ended t).mpr)
    fun _ p _ hstate => mt (hkin.ended p).mp hstate

theorem Tree.exits (h : Tree s) (hexits : Exits s s')
    (hnone : s.children.items s.current = []) : Tree s' := by
  refine h.sameTree (hexits.sameTree hnone) (fun t ht => (hexits.ended t).mpr (Or.inl ht)) ?_
  intro t p howner hstate hended
  obtain rfl := ((hexits.ended p).mp hended).resolve_left hstate
  have hmem := (s.children.mem_iff s.current t).mpr howner
  simp [hnone] at hmem

/-- The current task is in the table under its pid, unless it is idle. -/
theorem Tree.current_named (h : Tree s) (hinv : Inv s)
    (hidle : (s.tasks s.current).pid ≠ KP_Idle) :
    s.allTasks (s.tasks s.current).pid = some s.current :=
  h.named s.current (h.alive s.current hinv.currentOld (by simp [hinv.current]))
    (hinv.currentHanded.resolve_right hidle)

theorem Tree.old_of_entry (h : Tree s) {k : Int} (hentry : s.allTasks k = some t) :
    t < s.nextTask :=
  h.old t (h.entry k t hentry).2.2.1

/-- A new task is a child of the current one. -/
theorem Tree.creates (h : Tree s) (hinv : Inv s) (hidle : (s.tasks s.current).pid ≠ KP_Idle)
    (hcreates : Creates s s') : Tree s' := by
  have hlive : ∀ t, s'.live t = true → t = s.nextTask ∨ t ≠ s.nextTask ∧ s.live t = true := by
    intro t ht
    by_cases hnew : t = s.nextTask
    · exact Or.inl hnew
    · rw [hcreates.live, Function.update_of_ne hnew] at ht
      exact Or.inr ⟨hnew, ht⟩
  have hkeep : ∀ t, s.live t = true → t ≠ s.nextTask ∧ s'.live t = true := by
    intro t ht
    have hne := Nat.ne_of_lt (h.old t ht)
    exact ⟨hne, by rw [hcreates.live, Function.update_of_ne hne, ht]⟩
  have hnewLive : s'.live s.nextTask = true := by rw [hcreates.live, Function.update_self]
  refine ⟨?_, ?_, ?_, ?_, ?_, ?_⟩
  · intro k t hentry
    rw [hcreates.allTasks] at hentry
    obtain ⟨hlow, hhigh, ht, hpid⟩ := h.entry k t hentry
    obtain ⟨hne, ht'⟩ := hkeep t ht
    exact ⟨hlow, hhigh, ht', by rw [hcreates.tasks t hne, hpid]⟩
  · intro t ht hhanded
    rw [hcreates.handed] at hhanded
    rcases hlive t ht with rfl | ⟨hne, ht'⟩
    · simp [(hinv.fresh s.nextTask le_rfl).1] at hhanded
    · rw [hcreates.allTasks, hcreates.tasks t hne]
      exact h.named t ht' hhanded
  · intro t hold hstate
    rw [hcreates.nextTask] at hold
    rcases Nat.lt_succ_iff_lt_or_eq.mp hold with hlt | rfl
    · rw [hcreates.tasks t (Nat.ne_of_lt hlt)] at hstate
      exact (hkeep t (h.alive t hlt hstate)).2
    · exact hnewLive
  · intro t ht
    rw [hcreates.nextTask]
    rcases hlive t ht with rfl | ⟨_, ht'⟩
    · exact Nat.lt_succ_self _
    · exact Nat.lt_succ_of_lt (h.old t ht')
  · intro t p howner
    rw [hcreates.children] at howner
    by_cases hnew : t = s.nextTask
    · subst hnew
      rw [Function.update_self] at howner
      obtain rfl := Option.some.inj howner
      rw [hcreates.tasks s.current (Nat.ne_of_lt hinv.currentOld), hcreates.allTasks]
      exact ⟨hnewLive, hcreates.parentPid, h.current_named hinv hidle, by simp [hinv.current]⟩
    · rw [Function.update_of_ne hnew] at howner
      obtain ⟨ht, hparent, hentry, hstate⟩ := h.child t p howner
      rw [hcreates.tasks t hnew, hcreates.tasks p (Nat.ne_of_lt (h.old_of_entry hentry)),
        hcreates.allTasks]
      exact ⟨(hkeep t ht).2, hparent, hentry, hstate⟩
  · intro t ht hnotInit hnotIdle
    rw [hcreates.children]
    rcases hlive t ht with rfl | ⟨hne, ht'⟩
    · exact ⟨s.current, Function.update_self ..⟩
    · rw [hcreates.tasks t hne] at hnotInit hnotIdle
      rw [Function.update_of_ne hne]
      exact h.parent t ht' hnotInit hnotIdle

/-- A task that is added gets a free entry of the table. -/
theorem Tree.adds (h : Tree s) (hadds : Adds s s' t) (hlive : s.live t = true) {p : Nat}
    (hmax : p < maxTask) (hfree : s.allTasks (p : Int) = none)
    (halloc : s'.allTasks = Function.update s.allTasks (p : Int) (some t))
    (hpid : (s'.tasks t).pid = (p : Int)) : Tree s' := by
  have hold : ∀ {k : Int} {u : TaskId}, s.allTasks k = some u → k ≠ (p : Int) ∧ u ≠ t := by
    intro k u hentry
    constructor
    · rintro rfl
      simp [hfree] at hentry
    · rintro rfl
      obtain ⟨hlow, _, _, hk⟩ := h.entry k u hentry
      rw [hadds.unnamed, KP_Invalid] at hk
      omega
  have hkeep : ∀ {k : Int} {u : TaskId}, s.allTasks k = some u → s'.allTasks k = some u := by
    intro k u hentry
    rw [halloc, Function.update_of_ne (hold hentry).1, hentry]
  have hnew : s'.allTasks (p : Int) = some t := by rw [halloc, Function.update_self]
  have hparentPid : ∀ u, (s'.tasks u).parentPid = (s.tasks u).parentPid := by
    intro u
    by_cases hu : u = t
    · rw [hu, hadds.parentPid]
    · rw [hadds.tasks u hu]
  have hstate : ∀ u, (s'.tasks u).state = (s.tasks u).state := by
    intro u
    by_cases hu : u = t
    · rw [hu, hadds.state]
    · rw [hadds.tasks u hu]
  refine ⟨?_, ?_, ?_, ?_, ?_, ?_⟩
  · intro k u hentry
    rw [hadds.live]
    by_cases hk : k = (p : Int)
    · subst hk
      obtain rfl := Option.some.inj (hnew.symm.trans hentry)
      exact ⟨by omega, by exact_mod_cast hmax, hlive, hpid⟩
    · rw [halloc, Function.update_of_ne hk] at hentry
      rw [hadds.tasks u (hold hentry).2]
      exact h.entry k u hentry
  · intro u hu hhanded
    rw [hadds.live] at hu
    by_cases hut : u = t
    · rw [hut, hpid, hnew]
    · rw [hadds.handed, Function.update_of_ne hut] at hhanded
      rw [hadds.tasks u hut]
      exact hkeep (h.named u hu hhanded)
  · intro u hu hexited
    rw [hadds.nextTask] at hu
    rw [hstate] at hexited
    rw [hadds.live]
    exact h.alive u hu hexited
  · intro u hu
    rw [hadds.live] at hu
    rw [hadds.nextTask]
    exact h.old u hu
  · intro u q howner
    rw [hadds.children] at howner
    obtain ⟨hu, hparent, hentry, hexited⟩ := h.child u q howner
    rw [hadds.live, hparentPid, hstate, hadds.tasks q (hold hentry).2]
    exact ⟨hu, hparent, hkeep hentry, hexited⟩
  · intro u hu hnotInit hnotIdle
    rw [hadds.live] at hu
    rw [hadds.children]
    by_cases hut : u = t
    · subst hut
      exact h.parent u hu (by rw [hadds.unnamed]; decide) (by rw [hadds.unnamed]; decide)
    · rw [hadds.tasks u hut] at hnotInit hnotIdle
      exact h.parent u hu hnotInit hnotIdle

/-- An ended task has no children, so the rest of the tree stays when it goes. -/
theorem Tree.frees (h : Tree s) {pid : Int} (hfrees : Frees s s' pid t) : Tree s' := by
  have hpid := (h.entry pid t hfrees.entry).2.2.2
  have hkeep : ∀ {k : Int} {u : TaskId}, s.allTasks k = some u → u ≠ t →
      s'.allTasks k = some u := by
    intro k u hentry hne
    rw [hfrees.allTasks, Function.update_of_ne, hentry]
    rintro rfl
    exact hne (Option.some.inj (hentry.symm.trans hfrees.entry))
  have hlive : ∀ u, s'.live u = true → u ≠ t ∧ s.live u = true := by
    intro u hu
    have hne : u ≠ t := by
      rintro rfl
      simp [hfrees.live] at hu
    rw [hfrees.live, Function.update_of_ne hne] at hu
    exact ⟨hne, hu⟩
  have hlive' : ∀ u, u ≠ t → s.live u = true → s'.live u = true := by
    intro u hne hu
    rw [hfrees.live, Function.update_of_ne hne, hu]
  refine ⟨?_, ?_, ?_, ?_, ?_, ?_⟩
  · intro k u hentry
    rw [hfrees.tasks]
    have hk : k ≠ pid := by
      rintro rfl
      simp [hfrees.allTasks] at hentry
    rw [hfrees.allTasks, Function.update_of_ne hk] at hentry
    obtain ⟨hlow, hhigh, hu, hupid⟩ := h.entry k u hentry
    refine ⟨hlow, hhigh, hlive' u ?_ hu, hupid⟩
    rintro rfl
    exact hk (hupid.symm.trans hpid)
  · intro u hu hhanded
    obtain ⟨hne, hu⟩ := hlive u hu
    rw [hfrees.handed] at hhanded
    rw [hfrees.tasks]
    exact hkeep (h.named u hu hhanded) hne
  · intro u hu hexited
    rw [hfrees.nextTask] at hu
    rw [hfrees.tasks] at hexited
    refine hlive' u ?_ (h.alive u hu hexited)
    rintro rfl
    exact hexited hfrees.ended
  · intro u hu
    rw [hfrees.nextTask]
    exact h.old u (hlive u hu).2
  · intro u q howner
    have hne : u ≠ t := by
      rintro rfl
      simp [hfrees.children] at howner
    rw [hfrees.children, Function.update_of_ne hne] at howner
    obtain ⟨hu, hparent, hentry, hexited⟩ := h.child u q howner
    rw [hfrees.tasks]
    refine ⟨hlive' u hne hu, hparent, hkeep hentry ?_, hexited⟩
    rintro rfl
    exact hexited hfrees.ended
  · intro u hu hnotInit hnotIdle
    obtain ⟨hne, hu⟩ := hlive u hu
    rw [hfrees.tasks] at hnotInit hnotIdle
    rw [hfrees.children, Function.update_of_ne hne]
    exact h.parent u hu hnotInit hnotIdle

theorem boot_tree : Tree System.boot := by
  refine ⟨?_, ?_, ?_, ?_, ?_, ?_⟩
  · intro k t hentry
    simp only [System.boot] at hentry
    split at hentry
    · rename_i hk
      obtain rfl := Option.some.inj hentry
      exact hk ▸ ⟨by decide, by decide, by decide, by decide⟩
    split at hentry
    · rename_i hk
      obtain rfl := Option.some.inj hentry
      exact hk ▸ ⟨by decide, by decide, by decide, by decide⟩
    · cases hentry
  · intro t _ hhanded
    obtain rfl : t = 0 := by simpa [System.boot] using hhanded
    decide
  · intro t hold _
    simpa [System.boot] using hold
  · intro t hlive
    simpa [System.boot] using hlive
  · intro t p howner
    simp [System.boot, Intrusive.empty] at howner
  · intro t hlive hinit hidle
    have hlt : t < 2 := by simpa [System.boot] using hlive
    rcases t with _ | _ | t
    · exact absurd rfl hinit
    · exact absurd rfl hidle
    · exact absurd hlt (by simp)

theorem step_tree (h : Tree s) (hinv : Inv s) (hinit : InitAlive s) {a : Action}
    (hok : Orderly s a) (hstep : step s a = some s') : Tree s' := by
  obtain ⟨hpermitted, horderly⟩ := hok
  cases (step_spec hinv hinit hpermitted hstep).2 with
  | schedules hkin => exact h.kin hkin
  | exits code sig hexits => exact h.exits hexits horderly
  | creates hcreates => exact h.creates hinv hpermitted hcreates
  | adds t hold hadds =>
      have hlive := h.alive t hold (by simp [hadds.ready])
      rcases hadds.pid with ⟨p, _, hmax, hfree, halloc, hpid⟩ | ⟨hfull, _, _⟩
      · exact h.adds hadds hlive hmax hfree halloc hpid
      · obtain ⟨p, hmax, hfirst, hfree⟩ := horderly
        exact absurd hfree (hfull p hfirst hmax)
  | forks s₁ hinv₁ hcreates hadds hnamed =>
      have h₁ := h.creates hinv hpermitted hcreates
      have hlive : s₁.live s.nextTask = true := by rw [hcreates.live, Function.update_self]
      rcases hadds.pid with ⟨p, _, hmax, hfree, halloc, hpid⟩ | ⟨_, _, hinvalid⟩
      · exact h₁.adds hadds hlive hmax hfree halloc hpid
      · exact absurd hinvalid hnamed
  | frees pid t hfrees => exact h.frees hfrees

theorem orderly_run {acts : List Action} (hrun : Run step Orderly System.boot acts s) :
    Inv s ∧ InitAlive s ∧ Tree s :=
  hrun.invariant (P := fun s => Inv s ∧ InitAlive s ∧ Tree s)
    (fun _ _ _ hs hok hstep => by
      obtain ⟨hinv, hinit, htree⟩ := hs
      obtain ⟨hinv', heffect⟩ := step_spec hinv hinit hok.1 hstep
      exact ⟨hinv', heffect.initAlive hinit, step_tree htree hinv hinit hok hstep⟩)
    ⟨boot_inv, boot_initAlive, boot_tree⟩

/-- A task that has ended is in the table, and so is its parent, whose list it
is on. -/
theorem Tree.ended_parent (h : Tree s) (hinv : Inv s) (hinit : InitAlive s)
    (hlive : s.live t = true) (hended : (s.tasks t).state = .exited) :
    s.allTasks (s.tasks t).pid = some t ∧ ∃ p, s.children.owner t = some p ∧
      s.findTask (s.tasks t).parentPid = some p := by
  have hidle : (s.tasks t).pid ≠ KP_Idle := by
    intro hpid
    rcases ((hinv.task t).idle hpid).2 with hstate | hstate <;> simp [hstate] at hended
  have hhanded : s.handed t = true := by
    by_contra hnot
    have hready := ((hinv.task t).unhanded hnot hidle).1
    simp [hready] at hended
  have hnamed := h.named t hlive hhanded
  have hnotInit : (s.tasks t).pid ≠ KP_Init := by
    intro hpid
    obtain ⟨init, hentry, _, hstate, _⟩ := hinit
    rw [hpid, hentry] at hnamed
    obtain rfl := Option.some.inj hnamed
    exact hstate hended
  obtain ⟨p, howner⟩ := h.parent t hlive hnotInit hidle
  obtain ⟨_, hparent, hentry, _⟩ := h.child t p howner
  obtain ⟨hlow, hhigh, _⟩ := h.entry _ p hentry
  refine ⟨hnamed, p, howner, ?_⟩
  rw [System.findTask, hparent, if_neg (not_or.mpr ⟨not_lt.mpr hlow, not_le.mpr hhigh⟩), hentry]

theorem Tree.consistent (h : Tree s) (hinv : Inv s) (hinit : InitAlive s) : TreeConsistent s where
  parentPid t p hmem := (h.child t p ((s.children.mem_iff p t).mp hmem)).2.1
  oneParent t hlive hnotInit hnotIdle := by
    obtain ⟨p, howner⟩ := h.parent t hlive hnotInit hnotIdle
    obtain ⟨_, hparent, hentry, _⟩ := h.child t p howner
    refine ⟨p, by rw [hparent, hentry], fun q => ?_⟩
    rw [s.children.mem_iff, howner, Option.some_inj, eq_comm]
  freeable t hlive hended := by
    obtain ⟨_, p, _, hfind⟩ := h.ended_parent hinv hinit hlive hended
    simp [hfind]

/-- `freeTask` is defined on the pid of a task that has ended. -/
theorem Tree.freeTask_defined (h : Tree s) (hinv : Inv s) (hinit : InitAlive s) {pid : Int}
    (hentry : s.allTasks pid = some t) (hended : (s.tasks t).state = .exited) :
    ∃ r, s.freeTask pid = .ok r := by
  obtain ⟨hlow, hhigh, hlive, _⟩ := h.entry pid t hentry
  obtain ⟨_, p, howner, hfind⟩ := h.ended_parent hinv hinit hlive hended
  obtain ⟨children, hextract, _⟩ := Intrusive.extract_eq howner
  have hrange : ¬ (pid < 0 ∨ (maxTask : Int) ≤ pid) :=
    not_or.mpr ⟨not_lt.mpr hlow, not_le.mpr hhigh⟩
  exact ⟨_, by simp only [System.freeTask, if_neg hrange, hentry, hended, hfind, hextract]; rfl⟩

theorem Tree.waitpid_defined (h : Tree s) (hinv : Inv s) (hinit : InitAlive s)
    (hidle : (s.tasks s.current).pid ≠ KP_Idle) (pid : Int) (options : BitVec 32) :
    s.waitpid pid options ≠ .error .corrupt := by
  have hreap : ∀ pid t, s.allTasks pid = some t → (s.tasks t).state = .exited →
      s.reap pid ≠ .error .corrupt := by
    intro pid t hentry hended
    obtain ⟨r, hfree⟩ := h.freeTask_defined hinv hinit hentry hended
    simp [System.reap, hfree, bind, Except.bind, pure, Except.pure]
  rcases waitpid_cases s pid options with ⟨result, hround⟩ | ⟨_, hround⟩ |
    ⟨t, hmem, hended, hround⟩ | ⟨t, hfind, _, hended, hround⟩
  · simp [hround]
  · rw [hround]
    intro hcorrupt
    have hspec := waitForChild_spec hinv hidle pid options
    rw [hcorrupt, ensures_error, Fatal] at hspec
    cases hspec
  · rw [hround]
    have hlive := (h.child t s.current ((s.children.mem_iff s.current t).mp hmem)).1
    exact hreap _ t (h.ended_parent hinv hinit hlive hended).1 hended
  · rw [hround]
    unfold System.findTask at hfind
    split at hfind
    · cases hfind
    · exact hreap pid t hfind hended

/-- In every state of a run in which tasks end only without children and are
added only while there is a free pid, the process tree is consistent and no
operation follows a null parent or a broken link. -/
theorem orderly_run_treeConsistent {acts : List Action}
    (hrun : Run step Orderly System.boot acts s) :
    TreeConsistent s ∧ ∀ a, Permitted s a → act s a ≠ .error .corrupt := by
  obtain ⟨hinv, hinit, htree⟩ := orderly_run hrun
  refine ⟨htree.consistent hinv hinit, fun a hok hcorrupt => ?_⟩
  have hspec := act_spec hinv hinit hok
  rw [hcorrupt, ensures_error] at hspec
  obtain ⟨pid, options, rfl⟩ := hspec rfl
  have hdefined := htree.waitpid_defined hinv hinit hok pid options
  cases hround : s.waitpid pid options with
  | ok r => simp [act, hround, bind, Except.bind, pure, Except.pure] at hcorrupt
  | error stop =>
      simp only [act, hround, bind, Except.bind, Except.error.injEq] at hcorrupt
      rw [hround, hcorrupt] at hdefined
      exact hdefined rfl

theorem orderly_run_reaped_child :
    ∃ s, Run step Orderly System.boot [.fork, .yield, .exit 0#32 0#32, .waitpid (-1) 0#32] s ∧
      s.live 2 = false ∧ s.allTasks 16 = none ∧ TreeConsistent s := by
  obtain ⟨s, hfold, hfreed, hentry⟩ :
      ∃ s ∈ [.fork, .yield, .exit 0#32 0#32, .waitpid (-1) 0#32].foldlM
          (guardedStep step Orderly) System.boot,
        s.live 2 = false ∧ s.allTasks 16 = none := by
    decide
  have hrun := Run.of_foldlM hfold
  exact ⟨s, hrun, hfreed, hentry, (orderly_run_treeConsistent hrun).1⟩

/-- A child of `init` forks and ends. Its own child is then on the list of
`init` under the old parent's pid; when that pid has been freed, freeing the
child follows a null parent. -/
theorem exit_before_child_breaks_tree :
    ∃ s s', Run step Permitted System.boot [.fork, .yield, .fork, .exit 0#32 0#32] s ∧
      ¬ TreeConsistent s ∧
      Run step Permitted s [.waitpid (-1) 0#32, .yield, .exit 0#32 0#32] s' ∧
      act s' (.waitpid (-1) 0#32) = .error .corrupt := by
  obtain ⟨s, hexit, hbroken, s', hreap, hcorrupt⟩ :
      ∃ s ∈ [.fork, .yield, .fork, .exit 0#32 0#32].foldlM (guardedStep step Permitted)
          System.boot,
        (3 ∈ s.children.items 0 ∧ (s.tasks 3).parentPid ≠ (s.tasks 0).pid) ∧
        ∃ s' ∈ [.waitpid (-1) 0#32, .yield, .exit 0#32 0#32].foldlM (guardedStep step Permitted) s,
          (act s' (.waitpid (-1) 0#32)).map (fun _ => ()) = .error .corrupt := by
    decide
  refine ⟨s, s', Run.of_foldlM hexit, ?_, Run.of_foldlM hreap, ?_⟩
  · exact fun htree => hbroken.2 (htree.parentPid 3 0 hbroken.1)
  · cases hact : act s' (.waitpid (-1) 0#32) with
    | ok _ =>
        rw [hact] at hcorrupt
        cases hcorrupt
    | error stop =>
        rw [hact] at hcorrupt
        cases hcorrupt
        rfl

end Nyan.Task
