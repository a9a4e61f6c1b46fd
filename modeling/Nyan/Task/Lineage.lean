import Nyan.Task.WaitLists

/-!
What a step of one task leaves alone for the others. The children of a task are
listed, tested and freed by that task only; the one exception is the list of
`init`, to which an ending task appends its children. So between two steps of a
task its children stay where they are and keep their pids.
-/

namespace Nyan.Task

open Library

variable {s s' : System} {t : TaskId}

/-- What the pid table and the tree keep through any run: a task keeps its entry
until it is freed, no task is its own child, and `init` is nobody's child. -/
structure Lineage (s : System) : Prop where
  entry : ∀ k t, s.allTasks k = some t → 0 ≤ k ∧ k < maxTask ∧ t < s.nextTask
  named : ∀ t, s.handed t = true → (s.tasks t).pid ≠ KP_Invalid →
    (s.tasks t).state ≠ .exited ∨ s.children.owner t ≠ none → s.allTasks (s.tasks t).pid = some t
  notOwn : ∀ t, s.children.owner t ≠ some t
  root : ∀ init, s.allTasks KP_Init = some init → s.children.owner init = none

namespace Lineage

theorem kin (h : Lineage s) (hkin : Kin s s') : Lineage s' := by
  refine ⟨?_, fun t hhanded hpid hkept => ?_, ?_, ?_⟩
  · rw [hkin.allTasks, hkin.nextTask]
    exact h.entry
  · rw [hkin.handed] at hhanded
    rw [Ne, hkin.ended, hkin.children] at hkept
    rw [hkin.pid] at hpid ⊢
    rw [hkin.allTasks]
    exact h.named t hhanded hpid hkept
  · rw [hkin.children]
    exact h.notOwn
  · rw [hkin.children, hkin.allTasks]
    exact h.root

theorem exits (h : Lineage s) (hinv : Inv s) (hexits : Exits s s') : Lineage s' := by
  refine ⟨?_, fun t hhanded hpid hkept => ?_, fun t => ?_, fun init hinit => ?_⟩
  · rw [hexits.allTasks, hexits.nextTask]
    exact h.entry
  · rw [hexits.handed] at hhanded
    rw [hexits.pid] at hpid ⊢
    rw [hexits.allTasks]
    refine h.named t hhanded hpid ?_
    by_cases ht : t = s.current
    · exact Or.inl (by simp [ht, hinv.current])
    rcases hkept with hstate | howner
    · rw [Ne, hexits.ended, not_or] at hstate
      exact Or.inl hstate.1
    · refine Or.inr fun hnone => howner ?_
      rcases hexits.children with ⟨_, hsame⟩ | ⟨_, init, _, hsplice⟩
      · rw [hsame, hnone]
      · rw [hsplice, Intrusive.splice_owner, hnone, if_neg (by simp)]
  · rcases hexits.children with ⟨_, hsame⟩ | ⟨_, init, hinit, hsplice⟩
    · rw [hsame]
      exact h.notOwn t
    · rw [hsplice, Intrusive.splice_owner]
      split
      · rename_i howner
        rintro heq
        obtain rfl := Option.some.inj heq
        simp [h.root init hinit] at howner
      · exact h.notOwn t
  · rw [hexits.allTasks] at hinit
    rcases hexits.children with ⟨_, hsame⟩ | ⟨_, init', hinit', hsplice⟩
    · rw [hsame]
      exact h.root init hinit
    · rw [hsplice, Intrusive.splice_owner, h.root init hinit, if_neg (by simp)]

theorem creates (h : Lineage s) (hinv : Inv s) (hcreates : Creates s s') : Lineage s' := by
  refine ⟨fun k t hentry => ?_, fun t hhanded hpid hkept => ?_, fun t => ?_, fun init hentry => ?_⟩
  · rw [hcreates.allTasks] at hentry
    obtain ⟨hlow, hhigh, hold⟩ := h.entry k t hentry
    rw [hcreates.nextTask]
    exact ⟨hlow, hhigh, Nat.lt_succ_of_lt hold⟩
  · rw [hcreates.handed] at hhanded
    have hne : t ≠ s.nextTask := by
      rintro rfl
      simp [(hinv.fresh s.nextTask le_rfl).1] at hhanded
    rw [hcreates.tasks t hne, hcreates.children, Function.update_of_ne hne] at hkept
    rw [hcreates.tasks t hne] at hpid ⊢
    rw [hcreates.allTasks]
    exact h.named t hhanded hpid hkept
  · rw [hcreates.children]
    by_cases hnew : t = s.nextTask
    · subst hnew
      rw [Function.update_self]
      exact fun heq => absurd (Option.some.inj heq) (Nat.ne_of_lt hinv.currentOld)
    · rw [Function.update_of_ne hnew]
      exact h.notOwn t
  · rw [hcreates.allTasks] at hentry
    rw [hcreates.children, Function.update_of_ne (Nat.ne_of_lt (h.entry _ init hentry).2.2)]
    exact h.root init hentry

theorem adds (h : Lineage s) (hold : t < s.nextTask) (hadds : Adds s s' t) : Lineage s' := by
  have hothers : ∀ u, u ≠ t → s'.handed u = true → (s'.tasks u).pid ≠ KP_Invalid →
      (s'.tasks u).state ≠ .exited ∨ s'.children.owner u ≠ none →
      s.allTasks (s'.tasks u).pid = some u := by
    intro u hu hhanded hpid hkept
    rw [hadds.handed, Function.update_of_ne hu] at hhanded
    rw [hadds.tasks u hu, hadds.children] at hkept
    rw [hadds.tasks u hu] at hpid ⊢
    exact h.named u hhanded hpid hkept
  rcases hadds.pid with ⟨p, hfirst, hmax, hfree, halloc, hpid'⟩ | ⟨_, halloc, hpid'⟩
  · refine ⟨fun k u hentry => ?_, fun u hhanded hpid hkept => ?_, ?_, fun init hentry => ?_⟩
    · rw [halloc] at hentry
      rw [hadds.nextTask]
      by_cases hk : k = (p : Int)
      · rw [hk, Function.update_self] at hentry
        obtain rfl := Option.some.inj hentry
        exact ⟨by omega, by omega, hold⟩
      · rw [Function.update_of_ne hk] at hentry
        exact h.entry k u hentry
    · by_cases hu : u = t
      · rw [hu, hpid', halloc, Function.update_self]
      · have hentry := hothers u hu hhanded hpid hkept
        have hne : (s'.tasks u).pid ≠ (p : Int) := by
          intro heq
          simp [heq, hfree] at hentry
        rw [halloc, Function.update_of_ne hne, hentry]
    · rw [hadds.children]
      exact h.notOwn
    · have hp : KP_Init ≠ (p : Int) := by
        simp only [KP_Init, KP_FirstUser] at *
        omega
      rw [halloc, Function.update_of_ne hp] at hentry
      rw [hadds.children]
      exact h.root init hentry
  · refine ⟨?_, fun u hhanded hpid hkept => ?_, ?_, ?_⟩
    · rw [halloc, hadds.nextTask]
      exact h.entry
    · have hu : u ≠ t := by
        rintro rfl
        exact hpid hpid'
      rw [halloc]
      exact hothers u hu hhanded hpid hkept
    · rw [hadds.children]
      exact h.notOwn
    · rw [hadds.children, halloc]
      exact h.root

theorem frees {pid : Int} (h : Lineage s) (hfrees : Frees s s' pid t) : Lineage s' := by
  refine ⟨fun k u hentry => ?_, fun u hhanded hpid hkept => ?_, fun u => ?_, fun init hentry => ?_⟩
  · rw [hfrees.allTasks] at hentry
    rw [hfrees.nextTask]
    by_cases hk : k = pid
    · rw [hk, Function.update_self] at hentry
      cases hentry
    · rw [Function.update_of_ne hk] at hentry
      exact h.entry k u hentry
  · rw [hfrees.handed] at hhanded
    rw [hfrees.tasks, hfrees.children] at hkept
    rw [hfrees.tasks] at hpid ⊢
    have hu : u ≠ t := by
      rintro rfl
      rw [Function.update_self] at hkept
      rcases hkept with hstate | howner
      · exact hstate hfrees.ended
      · exact howner rfl
    rw [Function.update_of_ne hu] at hkept
    have hentry := h.named u hhanded hpid hkept
    have hne : (s.tasks u).pid ≠ pid := by
      rintro rfl
      exact hu (Option.some.inj (hentry.symm.trans hfrees.entry))
    rw [hfrees.allTasks, Function.update_of_ne hne, hentry]
  · rw [hfrees.children]
    by_cases hu : u = t
    · simp [hu]
    · rw [Function.update_of_ne hu]
      exact h.notOwn u
  · rw [hfrees.allTasks] at hentry
    by_cases hpid : KP_Init = pid
    · rw [hpid, Function.update_self] at hentry
      cases hentry
    · rw [Function.update_of_ne hpid] at hentry
      rw [hfrees.children]
      by_cases hu : init = t
      · simp [hu]
      · rw [Function.update_of_ne hu]
        exact h.root init hentry

theorem boot : Lineage System.boot := by
  refine ⟨fun k t hentry => ?_, fun t hhanded _ _ => ?_, ?_, ?_⟩
  · by_cases hinit : k = KP_Init
    · obtain rfl : 0 = t := by simpa [System.boot, hinit] using hentry
      simp [hinit, KP_Init, maxTask, System.boot]
    · obtain ⟨rfl, rfl⟩ : k = KP_Idle ∧ 1 = t := by simpa [System.boot, hinit] using hentry
      simp [KP_Idle, maxTask, System.boot]
  · obtain rfl : t = 0 := by simpa [System.boot] using hhanded
    decide
  · simp [System.boot, Intrusive.empty]
  · simp [System.boot, Intrusive.empty]

end Lineage

theorem Kin.initAlive (h : Kin s s') (hinit : InitAlive s) : InitAlive s' :=
  (Effect.schedules (a := .tick) h).initAlive hinit

end Nyan.Task
