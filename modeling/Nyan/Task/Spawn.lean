import Nyan.Result
import Nyan.Task.Lineage

/-!
`spawn` (`syscall/spawn.cpp`) and the table of pids. A new task is linked into the list of
its parent and into the queue of the scheduler before it gets a pid. When no pid is free,
`addTask` returns `KP_Invalid` and nothing is undone: the task will run with the pid -1.
-/

namespace Nyan.Task

open Library

variable {s s' : System} {t : TaskId} {programs : List String} {name : String}

/-- `spawn`, apart from the image, the arguments and the descriptors of the task. The names
are those of `data::programs`; `addTask` returns the pid that the task has afterwards. -/
def System.spawn (s : System) (programs : List String) (name : String) :
    Except Stop (Except Errno Int × System) :=
  if name ∈ programs then do
    let task := s.nextTask
    let s₁ ← s.createTask
    let s₂ ← s₁.addTask task
    return (.ok (s₂.tasks task).pid, s₂)
  else
    .ok (.error .ENOENT, s)

/-- No entry is left for a user task. -/
def System.TableFull (s : System) : Prop :=
  ∀ p : Nat, KP_FirstUser ≤ p → p < maxTask → s.allTasks (p : Int) ≠ none

/-- What `spawn` returns is an error number or no pid. -/
def Refused : Except Errno Int → Prop
  | .ok pid => pid = KP_Invalid
  | .error _ => True

/-- A `spawn` that has failed without a trace. -/
structure Undone (s : System) (r : Except Errno Int × System) : Prop where
  refused : Refused r.1
  pending : r.2.queues.items .pending = s.queues.items .pending
  children : r.2.children.items s.current = s.children.items s.current
  allTasks : r.2.allTasks = s.allTasks

/-- The tasks of the scheduler that are ready or on the list of a parent have a pid, and the
table gives the task for it. A task that is being created, before `addTask`, is not yet one. -/
def Registered (s : System) : Prop :=
  ∀ t, s.handed t = true → t ∈ s.queues.items .pending ∨ (∃ p, t ∈ s.children.items p) →
    0 ≤ (s.tasks t).pid ∧ (s.tasks t).pid < maxTask ∧ s.allTasks (s.tasks t).pid = some t

/-! ### What `spawn` does -/

theorem newTask_returns (h : Inv s) (mask : BitVec 64) : ∃ s', s.newTask mask = .ok s' ∧
    s'.queues = s.queues ∧
    s'.children.items s.current = s.children.items s.current ++ [s.nextTask] := by
  obtain ⟨children, hpush, _, hitems⟩ :=
    Intrusive.pushBack_eq (h.fresh s.nextTask le_rfl).2 s.current
  simp only [System.newTask, hpush]
  exact ⟨_, rfl, rfl, by simp [hitems]⟩

theorem addTask_returns (h : Inv s) (hhanded : s.handed t = false) : ∃ s', s.addTask t = .ok s' ∧
    s'.queues.items .pending = s.queues.items .pending ++ [t] := by
  obtain ⟨queues, hpush, _, hitems⟩ :=
    Intrusive.pushBack_eq (h.owner_of_unhanded hhanded) .pending
  simp only [System.addTask, System.link, hpush, bind, Except.bind, pure, Except.pure]
  refine ⟨_, rfl, ?_⟩
  split
  · rw [allocPid_queues]
    simp [hitems]
  · simp [hitems]

/-- A task is created and handed over. -/
structure Launches (s s' : System) : Prop where
  inv : Inv s'
  created : ∃ s₁, Inv s₁ ∧ Creates s s₁ ∧ Adds s₁ s' s.nextTask
  pending : s'.queues.items .pending = s.queues.items .pending ++ [s.nextTask]
  children : s'.children.items s.current = s.children.items s.current ++ [s.nextTask]

theorem launch_returns (h : Inv s) (mask : BitVec 64) : ∃ s',
    (s.newTask mask >>= fun s₁ => s₁.addTask s.nextTask) = .ok s' ∧ Launches s s' := by
  obtain ⟨s₁, hnew, hqueues, hchildren⟩ := newTask_returns h mask
  obtain ⟨hinv₁, hcreates⟩ := (newTask_spec h mask).of_ok hnew
  have hhanded : s₁.handed s.nextTask = false := by
    rw [hcreates.handed]
    exact (h.fresh s.nextTask le_rfl).1
  have hold : s.nextTask < s₁.nextTask := by
    rw [hcreates.nextTask]
    exact Nat.lt_succ_self _
  have hidle : (s₁.tasks s.nextTask).pid ≠ KP_Idle := by
    rw [hcreates.pid]
    decide
  obtain ⟨s', hadd, hpending⟩ := addTask_returns hinv₁ hhanded
  obtain ⟨hinv', hadds⟩ := (addTask_spec hinv₁ hhanded hold hidle).of_ok hadd
  refine ⟨s', by rw [hnew]; exact hadd, hinv', ⟨s₁, hinv₁, hcreates, hadds⟩, ?_, ?_⟩
  · rw [hpending, hqueues]
  · rw [hadds.children, hchildren]

theorem spawn_returns (h : Inv s) (hprogram : name ∈ programs) : ∃ s',
    s.spawn programs name = .ok (.ok (s'.tasks s.nextTask).pid, s') ∧ Launches s s' := by
  obtain ⟨s', hlaunch, hlaunches⟩ := launch_returns h 0#64
  refine ⟨s', ?_, hlaunches⟩
  rw [System.spawn, if_pos hprogram]
  change (s.newTask 0#64 >>= fun s₁ => s₁.addTask s.nextTask >>= fun s₂ =>
    pure (Except.ok (s₂.tasks s.nextTask).pid, s₂)) = _
  rw [← bind_assoc, hlaunch]
  rfl

/-- With a full table a task stays on both lists, without a pid. -/
theorem Launches.unnamed (h : Launches s s') (hfull : s.TableFull) :
    s'.allTasks = s.allTasks ∧ (s'.tasks s.nextTask).pid = KP_Invalid := by
  obtain ⟨s₁, _, hcreates, hadds⟩ := h.created
  rcases hadds.pid with ⟨p, hfirst, hmax, hfree, _⟩ | ⟨_, hsame, hpid⟩
  · rw [hcreates.allTasks] at hfree
    exact absurd hfree (hfull p hfirst hmax)
  · exact ⟨by rw [hsame, hcreates.allTasks], hpid⟩

/-- With a full table `spawn` always says that it has failed; it has failed without a trace if
and only if there is no such program. -/
theorem spawn_undone_iff (h : Inv s) (hfull : s.TableFull) :
    ∃ r, s.spawn programs name = .ok r ∧ Refused r.1 ∧ (Undone s r ↔ name ∉ programs) := by
  by_cases hprogram : name ∈ programs
  · obtain ⟨s', hspawn, hlaunches⟩ := spawn_returns h hprogram
    refine ⟨_, hspawn, (hlaunches.unnamed hfull).2, fun hundone => ?_, absurd hprogram⟩
    have hpending := hundone.pending
    simp [hlaunches.pending] at hpending
  · have hspawn : s.spawn programs name = .ok (.error .ENOENT, s) := if_neg hprogram
    exact ⟨_, hspawn, trivial, fun _ => hprogram, fun _ => ⟨trivial, rfl, rfl, rfl⟩⟩

/-! ### The table along runs -/

/-- What holds of the table in every run: its entries carry their pid, and a task without a
pid is on the list of a parent. -/
structure Enrolled (s : System) : Prop where
  lineage : Lineage s
  entry : ∀ k t, s.allTasks k = some t → (s.tasks t).pid = k
  child : ∀ t, t < s.nextTask → (s.tasks t).pid = KP_Invalid → s.children.owner t ≠ none

namespace Enrolled

theorem kin (h : Enrolled s) (hkin : Kin s s') : Enrolled s' := by
  refine ⟨h.lineage.kin hkin, fun k t hentry => ?_, fun t hold hpid => ?_⟩
  · rw [hkin.allTasks] at hentry
    rw [hkin.pid, h.entry k t hentry]
  · rw [hkin.nextTask] at hold
    rw [hkin.pid] at hpid
    rw [hkin.children]
    exact h.child t hold hpid

theorem exits (h : Enrolled s) (hinv : Inv s) (hexits : Exits s s') : Enrolled s' := by
  refine ⟨h.lineage.exits hinv hexits, fun k t hentry => ?_, fun t hold hpid hnone => ?_⟩
  · rw [hexits.allTasks] at hentry
    rw [hexits.pid, h.entry k t hentry]
  · rw [hexits.nextTask] at hold
    rw [hexits.pid] at hpid
    refine h.child t hold hpid ?_
    rcases hexits.children with ⟨_, hsame⟩ | ⟨_, init, _, hsplice⟩
    · rwa [hsame] at hnone
    · rw [hsplice, Intrusive.splice_owner] at hnone
      split at hnone
      · cases hnone
      · exact hnone

theorem creates (h : Enrolled s) (hinv : Inv s) (hcreates : Creates s s') : Enrolled s' := by
  refine ⟨h.lineage.creates hinv hcreates, fun k t hentry => ?_, fun t hold hpid => ?_⟩
  · rw [hcreates.allTasks] at hentry
    rw [hcreates.tasks t (Nat.ne_of_lt (h.lineage.entry k t hentry).2.2), h.entry k t hentry]
  · rw [hcreates.children]
    by_cases hnew : t = s.nextTask
    · simp [hnew]
    · rw [hcreates.nextTask] at hold
      rw [hcreates.tasks t hnew] at hpid
      rw [Function.update_of_ne hnew]
      exact h.child t (Nat.lt_of_le_of_ne (Nat.le_of_lt_succ hold) hnew) hpid

theorem adds (h : Enrolled s) (hold : t < s.nextTask) (hadds : Adds s s' t) : Enrolled s' := by
  have hne : ∀ {k : Int} {u : TaskId}, s.allTasks k = some u → u ≠ t := by
    rintro k u hentry rfl
    have hlow := (h.lineage.entry k u hentry).1
    rw [← h.entry k u hentry, hadds.unnamed, KP_Invalid] at hlow
    omega
  refine ⟨h.lineage.adds hold hadds, fun k u hentry => ?_, fun u hu hpid => ?_⟩
  · rcases hadds.pid with ⟨p, _, _, _, halloc, hpid⟩ | ⟨_, halloc, _⟩
    · rw [halloc] at hentry
      by_cases hk : k = (p : Int)
      · subst hk
        obtain rfl : t = u := by simpa using hentry
        exact hpid
      · rw [Function.update_of_ne hk] at hentry
        rw [hadds.tasks u (hne hentry), h.entry k u hentry]
    · rw [halloc] at hentry
      rw [hadds.tasks u (hne hentry), h.entry k u hentry]
  · rw [hadds.children]
    by_cases hut : u = t
    · rw [hut]
      exact h.child t hold hadds.unnamed
    · rw [hadds.nextTask] at hu
      rw [hadds.tasks u hut] at hpid
      exact h.child u hu hpid

theorem frees {pid : Int} (h : Enrolled s) (hfrees : Frees s s' pid t) : Enrolled s' := by
  refine ⟨h.lineage.frees hfrees, fun k u hentry => ?_, fun u hu hpid => ?_⟩
  · rw [hfrees.allTasks] at hentry
    rw [hfrees.tasks]
    by_cases hk : k = pid
    · simp [hk] at hentry
    · rw [Function.update_of_ne hk] at hentry
      exact h.entry k u hentry
  · rw [hfrees.nextTask] at hu
    rw [hfrees.tasks] at hpid
    rw [hfrees.children]
    have hut : u ≠ t := by
      rintro rfl
      have hlow := (h.lineage.entry pid u hfrees.entry).1
      rw [← h.entry pid u hfrees.entry, hpid, KP_Invalid] at hlow
      omega
    rw [Function.update_of_ne hut]
    exact h.child u hu hpid

theorem effect {a : Action} (h : Enrolled s) (hinv : Inv s) (heffect : Effect s a s') :
    Enrolled s' := by
  cases heffect with
  | schedules hkin => exact h.kin hkin
  | exits code sig hexits => exact h.exits hinv hexits
  | creates hcreates => exact h.creates hinv hcreates
  | adds t hold hadds => exact h.adds hold hadds
  | forks s₁ hinv₁ hcreates hadds _ =>
      refine (h.creates hinv hcreates).adds ?_ hadds
      rw [hcreates.nextTask]
      exact Nat.lt_succ_self _
  | frees pid t hfrees => exact h.frees hfrees

theorem boot : Enrolled System.boot := by
  refine ⟨Lineage.boot, fun k t hentry => ?_, fun t hold hpid => ?_⟩
  · by_cases hinit : k = KP_Init
    · obtain rfl : 0 = t := by simpa [System.boot, hinit] using hentry
      exact hinit.symm
    · obtain ⟨rfl, rfl⟩ : k = KP_Idle ∧ 1 = t := by simpa [System.boot, hinit] using hentry
      rfl
  · rcases t with _ | _ | t
    · exact absurd hpid (by decide)
    · exact absurd hpid (by decide)
    · exact absurd hold (by simp [System.boot])

/-- The tasks that the scheduler has got are registered if and only if they have a pid. -/
theorem registered_iff (h : Enrolled s) (hinv : Inv s) :
    Registered s ↔ ∀ t, s.handed t = true → (s.tasks t).pid ≠ KP_Invalid := by
  constructor
  · intro hregistered t hhanded hpid
    have hold : t < s.nextTask := by
      by_contra hnew
      simp [(hinv.fresh t (Nat.le_of_not_lt hnew)).1] at hhanded
    obtain ⟨p, howner⟩ := Option.ne_none_iff_exists'.mp (h.child t hold hpid)
    have hlow := (hregistered t hhanded (Or.inr ⟨p, (s.children.mem_iff p t).mpr howner⟩)).1
    rw [hpid, KP_Invalid] at hlow
    omega
  · intro hnamed t hhanded hlisted
    have hkept : (s.tasks t).state ≠ .exited ∨ s.children.owner t ≠ none := by
      rcases hlisted with hpending | ⟨p, hchild⟩
      · have howner := (s.queues.mem_iff .pending t).mp hpending
        exact Or.inl (by simp [((hinv.task t).pending.mp howner).2.1])
      · exact Or.inr (by simp [(s.children.mem_iff p t).mp hchild])
    have hentry := h.lineage.named t hhanded (hnamed t hhanded) hkept
    obtain ⟨hlow, hhigh, _⟩ := h.lineage.entry _ t hentry
    exact ⟨hlow, hhigh, hentry⟩

end Enrolled

/-- `addTask` is called while an entry of the table is free. -/
def Roomy (s : System) : Action → Prop
  | .addTask _ => ∃ p < maxTask, KP_FirstUser ≤ p ∧ s.allTasks (p : Int) = none
  | _ => True

instance (s : System) : (a : Action) → Decidable (Roomy s a)
  | .addTask _ => inferInstanceAs (Decidable (∃ p < maxTask, _))
  | .createTask | .fork | .yield | .disableYield | .enableYield | .block _ | .sleep _ | .wait _ _
  | .wakeOne _ _ | .wakeAll _ _ | .wake _ _ | .checkSleep | .tick | .sendSignal _ _ | .exit _ _
  | .waitpid _ _ => inferInstanceAs (Decidable True)

theorem Adds.registered_iff (h : Adds s s' t) (hinv : Inv s) (hinv' : Inv s')
    (henrolled : Enrolled s) (hold : t < s.nextTask) (hregistered : Registered s) :
    Registered s' ↔ ∃ p < maxTask, KP_FirstUser ≤ p ∧ s.allTasks (p : Int) = none := by
  have hnamed := (henrolled.registered_iff hinv).mp hregistered
  rw [(henrolled.adds hold h).registered_iff hinv']
  rcases h.pid with ⟨p, hfirst, hmax, hfree, _, hpid⟩ | ⟨hfull, _, hpid⟩
  · refine ⟨fun _ => ⟨p, hmax, hfirst, hfree⟩, fun _ u hhanded => ?_⟩
    by_cases hu : u = t
    · rw [hu, hpid, KP_Invalid]
      omega
    · rw [h.handed, Function.update_of_ne hu] at hhanded
      rw [h.tasks u hu]
      exact hnamed u hhanded
  · constructor
    · intro hall
      exact absurd hpid (hall t (by rw [h.handed, Function.update_self]))
    · rintro ⟨p, hmax, hfirst, hfree⟩
      exact absurd hfree (hfull p hfirst hmax)

/-- Of the other steps, `fork` stops the machine when there is no pid. -/
theorem Effect.registered {a : Action} (h : Effect s a s') (hinv : Inv s) (hinv' : Inv s')
    (henrolled : Enrolled s) (hregistered : Registered s) (ha : ∀ t, a ≠ .addTask t) :
    Registered s' := by
  have hnamed := (henrolled.registered_iff hinv).mp hregistered
  rw [(henrolled.effect hinv h).registered_iff hinv']
  intro t hhanded
  cases h with
  | schedules hkin =>
      rw [hkin.handed] at hhanded
      rw [hkin.pid]
      exact hnamed t hhanded
  | exits code sig hexits =>
      rw [hexits.handed] at hhanded
      rw [hexits.pid]
      exact hnamed t hhanded
  | creates hcreates =>
      rw [hcreates.handed] at hhanded
      have hne : t ≠ s.nextTask := by
        rintro rfl
        simp [(hinv.fresh s.nextTask le_rfl).1] at hhanded
      rw [hcreates.tasks t hne]
      exact hnamed t hhanded
  | adds u hold hadds => exact absurd rfl (ha u)
  | forks s₁ hinv₁ hcreates hadds hpid =>
      by_cases hne : t = s.nextTask
      · rwa [hne]
      · rw [hadds.handed, Function.update_of_ne hne, hcreates.handed] at hhanded
        rw [hadds.tasks t hne, hcreates.tasks t hne]
        exact hnamed t hhanded
  | frees pid u hfrees =>
      rw [hfrees.handed] at hhanded
      rw [hfrees.tasks]
      exact hnamed t hhanded

theorem step_registered_iff (hinv : Inv s) (hinit : InitAlive s) (henrolled : Enrolled s)
    (hregistered : Registered s) {a : Action} (hok : Permitted s a) (hstep : step s a = some s') :
    Registered s' ↔ Roomy s a := by
  obtain ⟨hinv', heffect⟩ := step_spec hinv hinit hok hstep
  by_cases ha : ∃ t, a = .addTask t
  · obtain ⟨t, rfl⟩ := ha
    obtain ⟨_, hold, hhanded, hidle⟩ := hok
    obtain ⟨s₁, hadd, _⟩ := addTask_returns hinv hhanded
    have hact : step s (.addTask t) = some s₁ := by simp [step, act, hadd, Except.toOption]
    obtain rfl := Option.some.inj (hact.symm.trans hstep)
    exact ((addTask_spec hinv hhanded hold hidle).of_ok hadd).2.registered_iff hinv hinv' henrolled
      hold hregistered
  · have hnot : ∀ t, a ≠ .addTask t := fun t heq => ha ⟨t, heq⟩
    have hroomy : Roomy s a := by
      cases a with
      | addTask t => exact absurd rfl (hnot t)
      | _ => trivial
    exact iff_of_true (heffect.registered hinv hinv' henrolled hregistered hnot) hroomy

/-- The invariant of every run. -/
structure Sane (s : System) : Prop where
  inv : Inv s
  init : InitAlive s
  enrolled : Enrolled s

theorem Sane.boot : Sane System.boot := ⟨boot_inv, boot_initAlive, Enrolled.boot⟩

theorem Sane.step {a : Action} (h : Sane s) (hok : Permitted s a) (hstep : step s a = some s') :
    Sane s' := by
  obtain ⟨hinv, heffect⟩ := step_spec h.inv h.init hok hstep
  exact ⟨hinv, heffect.initAlive h.init, h.enrolled.effect h.inv heffect⟩

/-- With a full table `spawn` undoes what it has done only where it has done nothing; and the
tasks on the lists are registered all along a run if and only if every task of the run was
added while an entry of the table was free. -/
theorem spawn_atomic_iff (programs : List String) (name : String) :
    (∀ s, Inv s → s.TableFull →
      ∃ r, s.spawn programs name = .ok r ∧ Refused r.1 ∧ (Undone s r ↔ name ∉ programs)) ∧
    ∀ acts s, Run step Permitted System.boot acts s →
      ((∀ n u, Run step Permitted System.boot (acts.take n) u → Registered u) ↔
        Run step (fun s a => Permitted s a ∧ Roomy s a) System.boot acts s) := by
  refine ⟨fun s hinv hfull => spawn_undone_iff hinv hfull, fun acts s hrun => ?_⟩
  refine hrun.good_iff (fun _ _ _ hs hok _ => hs.step hok) ?_ Sane.boot ?_
  · intro s a s' hs hregistered hok hstep
    exact step_registered_iff hs.inv hs.init hs.enrolled hregistered hok hstep
  · simp [Registered, System.boot, Intrusive.empty]

/-- A task is created and added, and then runs. -/
theorem spawn_atomic_iff_child : ∃ s,
    Run step Permitted System.boot [.createTask, .addTask 2, .yield] s ∧ Registered s := by
  obtain ⟨s, hfold⟩ : ∃ s, [.createTask, .addTask 2, .yield].foldlM
      (guardedStep step fun s a => Permitted s a ∧ Roomy s a) System.boot = some s :=
    Option.isSome_iff_exists.mp (by decide +kernel)
  have hroomy := Run.of_foldlM hfold
  have hrun := hroomy.mono fun _ _ hok => hok.1
  exact ⟨s, hrun, ((spawn_atomic_iff [] "init").2 _ s hrun).mpr hroomy 3 s hrun⟩

/-! ### A table that is full -/

def freePids (s : System) : Finset Nat :=
  (Finset.range maxTask).filter fun p => KP_FirstUser ≤ p ∧ s.allTasks (p : Int) = none

theorem tableFull_iff : s.TableFull ↔ freePids s = ∅ := by
  simp only [System.TableFull, freePids, Finset.filter_eq_empty_iff, Finset.mem_range, not_and]
  exact ⟨fun h p hmax hfirst => h p hfirst hmax, fun h p hfirst hmax => h hmax hfirst⟩

/-- A `fork` takes one of the free pids. -/
theorem fork_takes (h : Inv s) (hfree : (freePids s).Nonempty) :
    ∃ s', s.forkTask = .ok s' ∧ s'.current = s.current ∧
      s'.tasks s.current = s.tasks s.current ∧ (freePids s').card + 1 = (freePids s).card := by
  obtain ⟨s', hlaunch, hlaunches⟩ := launch_returns h (s.tasks s.current).signalMask
  obtain ⟨s₁, _, hcreates, hadds⟩ := hlaunches.created
  have hne : s.current ≠ s.nextTask := Nat.ne_of_lt h.currentOld
  obtain ⟨q, hq⟩ := hfree
  simp only [freePids, Finset.mem_filter, Finset.mem_range] at hq
  rcases hadds.pid with ⟨p, hfirst, hmax, hnone, halloc, hpid⟩ | ⟨hfull, _⟩
  · have hvalid : (s'.tasks s.nextTask).pid ≠ KP_Invalid := by
      rw [hpid, KP_Invalid]
      omega
    have hfork : s.forkTask = .ok s' := by
      change (s.newTask (s.tasks s.current).signalMask >>= fun s₁ => s₁.addTask s.nextTask >>=
        fun s₂ => if (s₂.tasks s.nextTask).pid = KP_Invalid then .error .fatal else .ok s₂) = _
      rw [← bind_assoc, hlaunch]
      exact if_neg hvalid
    rw [hcreates.allTasks] at hnone halloc
    have herase : freePids s' = (freePids s).erase p := by
      ext k
      simp only [freePids, Finset.mem_filter, Finset.mem_range, Finset.mem_erase, halloc,
        Function.update_apply, Nat.cast_inj]
      by_cases hk : k = p <;> simp [hk]
    have hmem : p ∈ freePids s := by simp [freePids, hmax, hfirst, hnone]
    refine ⟨s', hfork, by rw [hadds.current, hcreates.current], ?_, ?_⟩
    · rw [hadds.tasks _ hne, hcreates.tasks _ hne]
    · rw [herase, Finset.card_erase_add_one hmem]
  · rw [hcreates.allTasks] at hfull
    exact absurd hq.2.2 (hfull q hq.2.1 hq.1)

theorem freePids_boot : freePids System.boot = Finset.Ico KP_FirstUser maxTask := by
  ext p
  simp only [freePids, Finset.mem_filter, Finset.mem_range, Finset.mem_Ico]
  constructor
  · exact fun h => ⟨h.2.1, h.1⟩
  · rintro ⟨hfirst, hmax⟩
    have hinit : (p : Int) ≠ KP_Init := by
      simp only [KP_Init, KP_FirstUser] at *
      omega
    have hidle : (p : Int) ≠ KP_Idle := by
      simp only [KP_Idle, KP_FirstUser] at *
      omega
    exact ⟨hmax, hfirst, by simp [System.boot, hinit, hidle]⟩

theorem forks_run {n : Nat} (hn : n ≤ 240) : ∃ s,
    Run step Permitted System.boot (List.replicate n .fork) s ∧ Sane s ∧
      (s.tasks s.current).pid = KP_Init ∧ (freePids s).card + n = 240 := by
  induction n with
  | zero =>
      refine ⟨System.boot, Run.nil _, Sane.boot, rfl, ?_⟩
      rw [freePids_boot, Nat.card_Ico]
      rfl
  | succ n ih =>
      obtain ⟨s, hrun, hsane, hpid, hcard⟩ := ih (by omega)
      obtain ⟨s', hfork, hcurrent, htask, hcard'⟩ :=
        fork_takes hsane.inv (Finset.card_pos.mp (by omega))
      have hok : Permitted s .fork := by
        change (s.tasks s.current).pid ≠ KP_Idle
        rw [hpid]
        decide
      have hstep : step s .fork = some s' := by simp [step, act, hfork, Except.toOption]
      refine ⟨s', ?_, hsane.step hok hstep, by rw [hcurrent, htask, hpid], by omega⟩
      rw [List.replicate_succ']
      exact hrun.snoc hok hstep

/-- `init` has 240 children and spawns another program: the new task is ready to run with the
pid -1. -/
theorem spawn_leaves_task : ∃ s s', Run step Permitted System.boot (List.replicate 240 .fork) s ∧
    s.TableFull ∧ s.spawn ["busybox"] "busybox" = .ok (.ok KP_Invalid, s') ∧
    s.nextTask ∈ s'.queues.items .pending ∧ s.nextTask ∈ s'.children.items s.current ∧
    (s'.tasks s.nextTask).pid = KP_Invalid := by
  obtain ⟨s, hrun, hsane, _, hcard⟩ := forks_run le_rfl
  have hfull : s.TableFull := tableFull_iff.mpr (Finset.card_eq_zero.mp (by omega))
  obtain ⟨s', hspawn, hlaunches⟩ := spawn_returns hsane.inv (List.mem_singleton_self "busybox")
  have hpid := (hlaunches.unnamed hfull).2
  rw [hpid] at hspawn
  exact ⟨s, s', hrun, hfull, hspawn, by simp [hlaunches.pending], by simp [hlaunches.children],
    hpid⟩

end Nyan.Task
