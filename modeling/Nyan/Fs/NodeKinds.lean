import Nyan.Fs.DirectoryTree

/-!
Directories stay directories. No call makes a directory of another node, or
another node of a directory, so what the cache remembers still tells which places
are directories: a name was found below a place, or answered with a null node,
exactly if the place is a directory or not. Whatever a path leads to stands in
directories only.
-/

namespace Nyan.Fs

open Library

namespace VNode

variable {vnode vnode' : VNode} {name : Name} {target : VNodeId}

/-- A directory finds a node or fails; other nodes answer with a null node. -/
theorem lookup_ok {next : Option VNodeId} (h : vnode.lookup name = .ok next) :
    vnode.isDirectory = next.isSome := by
  cases vnode with
  | directory entries =>
      simp only [lookup] at h
      split at h
      · obtain rfl := Except.ok.inj h
        rfl
      · cases h
  | regular | symlink | dynamicSymlink | charDevice =>
      obtain rfl := Except.ok.inj h
      rfl

theorem isDirectory_addEntry (h : vnode.addEntry name target = .ok vnode') :
    vnode'.isDirectory = true := by
  obtain ⟨entries, _, rfl, _⟩ := addEntry_ok h
  rfl

theorem isDirectory_unlink (h : vnode.unlink name = .ok vnode') : vnode'.isDirectory = true := by
  cases vnode with
  | directory entries =>
      simp only [unlink] at h
      split at h
      · obtain rfl := Except.ok.inj h
        rfl
      · cases h
  | regular | symlink | dynamicSymlink | charDevice => cases h

end VNode

namespace FileSystem

variable {s s' : FileSystem} {d place goal : DEntry} {name : Name} {kinds : VNodeId → Bool}
  {tty : Except Errno Name} {n : Nat} {caller : Caller} {path : Path}

/-- The root is a directory, what does not exist yet is none, and no directory has
two entries of one name. -/
structure DirectoriesOk (s : FileSystem) : Prop where
  root : (s.nodes s.rootNode).isDirectory = true
  fresh : ∀ node, s.nextNode ≤ node → (s.nodes node).isDirectory = false
  distinct : ∀ node, ((s.nodes node).entries.map Prod.fst).Nodup

/-- The nodes marked in `kinds` are the directories, and the cache agrees. -/
structure Kinded (kinds : VNodeId → Bool) (s : FileSystem) : Prop where
  directories : s.DirectoriesOk
  kind : ∀ node, (s.nodes node).isDirectory = kinds node
  sees : ∀ place name next, s.Sees place name (.ok next) →
    ∃ node, s.effectiveVNode place = some node ∧ kinds node = next.isSome

/-- A place with a directory. -/
def IsDirectory (s : FileSystem) (place : DEntry) : Prop :=
  ∃ node, s.effectiveVNode place = some node ∧ (s.nodes node).isDirectory = true

/-- Everything above a place is a directory. -/
def Standing (s : FileSystem) : DEntry → Prop
  | .root => True
  | .child _ parent _ _ => s.IsDirectory parent ∧ s.Standing parent

theorem Extends.directoriesOk (h : s.Extends s') (hs : s.DirectoriesOk) : s'.DirectoriesOk := by
  refine ⟨?_, ?_, ?_⟩
  · rw [h.nodes, h.rootNode]
    exact hs.root
  · rw [h.nodes, h.nextNode]
    exact hs.fresh
  · rw [h.nodes]
    exact hs.distinct

theorem kinded_lookable : Lookable (Kinded kinds) := by
  intro s s' h hs
  refine ⟨h.directoriesOk hs.directories, ?_, ?_⟩
  · rw [h.nodes]
    exact hs.kind
  · intro place name next hsees
    rw [h.effectiveVNode]
    exact hs.sees place name next ((h.sees place name _).mp hsees)

/-- A lookup in the directories finds a node exactly in a directory. -/
theorem lookupNode_ok {next : Option VNodeId} (h : s.lookupNode place name = some (.ok next)) :
    ∃ node, s.effectiveVNode place = some node ∧ (s.nodes node).isDirectory = next.isSome := by
  simp only [lookupNode, Option.bind_eq_bind, Option.bind_eq_some_iff, Option.pure_def,
    Option.some_inj] at h
  obtain ⟨node, hnode, hlookup⟩ := h
  exact ⟨node, hnode, VNode.lookup_ok hlookup⟩

/-- A change of the nodes that keeps the directories and the distinct names. -/
theorem Kinded.change (h : s.Kinded kinds) {nodes : VNodeId → VNode} {nextNode : VNodeId}
    (hkind : ∀ node, (nodes node).isDirectory = kinds node) (hnext : s.nextNode ≤ nextNode)
    (hdistinct : ∀ node, ((nodes node).entries.map Prod.fst).Nodup) :
    Kinded kinds { s with nodes, nextNode } := by
  refine ⟨⟨?_, ?_, hdistinct⟩, hkind, ?_⟩
  · rw [hkind, ← h.kind]
    exact h.directories.root
  · intro node hnode
    rw [hkind, ← h.kind]
    exact h.directories.fresh node (Nat.le_trans hnext hnode)
  · intro place name next hsees
    cases hsees with
    | @cached _ c hknown hhere hhit =>
        obtain ⟨node, hnode, hnext⟩ := h.sees place name _ (.cached hknown hhere hhit)
        exact ⟨node, by cases place <;> exact hnode, by cases c <;> exact hnext⟩
    | directory _ hheld =>
        obtain ⟨node, hnode, hnext⟩ := lookupNode_ok hheld
        exact ⟨node, hnode, (hkind node).symm.trans hnext⟩

/-- A change of one node, where a directory stays one. -/
theorem Kinded.update (h : s.Kinded kinds) {node nextNode : VNodeId} {vnode : VNode}
    (hkind : vnode.isDirectory = kinds node) (hnext : s.nextNode ≤ nextNode)
    (hdistinct : (vnode.entries.map Prod.fst).Nodup) :
    Kinded kinds { s with nodes := Function.update s.nodes node vnode, nextNode } := by
  refine h.change (fun other => ?_) hnext (fun other => ?_)
  · by_cases hother : other = node
    · subst hother
      rwa [Function.update_self]
    · rw [Function.update_of_ne hother, h.kind]
  · by_cases hother : other = node
    · subst hother
      rwa [Function.update_self]
    · rw [Function.update_of_ne hother]
      exact h.directories.distinct other

theorem Kinded.setNode (h : s.Kinded kinds) {node : VNodeId} {vnode : VNode}
    (hold : (s.nodes node).isDirectory = true) (hnew : vnode.isDirectory = true)
    (hdistinct : (vnode.entries.map Prod.fst).Nodup) : (s.setNode node vnode).Kinded kinds := by
  refine h.update ?_ (Nat.le_refl _) hdistinct
  rw [hnew, ← h.kind, hold]

/-- A new node that is not a directory. -/
theorem Kinded.newNode (h : s.Kinded kinds) {vnode : VNode} (hvnode : vnode.isDirectory = false) :
    Kinded kinds { s.setNode s.nextNode vnode with nextNode := s.nextNode + 1 } := by
  refine h.update ?_ (Nat.le_succ _) ?_
  · rw [hvnode, ← h.kind, h.directories.fresh _ (Nat.le_refl _)]
  · rw [VNode.entries_eq_nil hvnode]
    exact List.nodup_nil

theorem Kinded.ne_nextNode (h : s.Kinded kinds) {node : VNodeId}
    (hnode : (s.nodes node).isDirectory = true) : node ≠ s.nextNode := by
  rintro rfl
  rw [h.directories.fresh _ (Nat.le_refl _)] at hnode
  cases hnode

theorem addEntry_leaves_kinded (hshape : s.CacheShape) (h : s.Kinded kinds)
    (directory target : VNodeId) (name : Name) :
    s.Leaves (Kinded kinds) (s.addEntry directory name target) := by
  unfold FileSystem.addEntry
  split
  · rename_i vnode hadd
    exact .done (hshape.outlasts _ _) (h.setNode (VNode.isDirectory_of_addEntry hadd)
      (VNode.isDirectory_addEntry hadd)
      (VNode.distinct_addEntry (h.directories.distinct directory) hadd)) _
  · exact .same hshape h _

theorem addNode_leaves_kinded (hshape : s.CacheShape) (h : s.Kinded kinds) (directory : VNodeId)
    (name : Name) {vnode : VNode} (hvnode : vnode.isDirectory = false) :
    s.Leaves (Kinded kinds) (s.addNode directory name vnode) := by
  unfold addNode
  split
  · rename_i updated hadd
    have hold := VNode.isDirectory_of_addEntry hadd
    refine .done (hshape.outlasts _ _) ((h.newNode hvnode).setNode ?_
      (VNode.isDirectory_addEntry hadd)
      (VNode.distinct_addEntry (h.directories.distinct directory) hadd)) _
    simpa [FileSystem.setNode, Function.update_of_ne (h.ne_nextNode hold)] using hold
  · exact .same hshape h _

theorem removeEntry_leaves_kinded (hshape : s.CacheShape) (h : s.Kinded kinds) (entry : DEntry) :
    s.Leaves (Kinded kinds) (s.removeEntry entry) := by
  cases entry with
  | root => intro r s' heq; cases heq
  | child id parent node name =>
      refine .bind fun directory _ => ?_
      split
      · rename_i vnode hunlink
        obtain ⟨hdirectory, hentries⟩ := VNode.unlink_ok hunlink
        exact .done (hshape.outlasts _ _) (h.setNode hdirectory (VNode.isDirectory_unlink hunlink)
          ((hentries.map Prod.fst).nodup (h.directories.distinct directory))) _
      · exact .same hshape h _

theorem Kinded.isDirectory_root (h : s.Kinded kinds) : s.IsDirectory .root :=
  ⟨_, rfl, h.directories.root⟩

/-- A name shows a node below directories only. -/
theorem Kinded.isDirectory_of_sees (h : s.Kinded kinds) {node : VNodeId}
    (hsees : s.Sees place name (.ok (some node))) : s.IsDirectory place := by
  obtain ⟨parent, hparent, hkind⟩ := h.sees place name _ hsees
  exact ⟨parent, hparent, (h.kind parent).trans hkind⟩

theorem Standing.up (h : s.Standing place) : s.Standing place.up := by
  cases place with
  | root => exact h
  | child => exact h.2

theorem Standing.isDirectory_up (h : s.Standing place) (hkinded : s.Kinded kinds) :
    s.IsDirectory place.up := by
  cases place with
  | root => exact hkinded.isDirectory_root
  | child => exact h.1

theorem Standing.origin {start : Option DEntry} (h : ∀ d, start = some d → s.Standing d)
    {origin : DEntry} (horigin : path.origin start = some origin) : s.Standing origin := by
  unfold Path.origin at horigin
  split at horigin
  · exact h origin horigin
  · obtain rfl := Option.some.inj horigin
    exact trivial

/-- Paths lead to places that stand in directories. -/
theorem Standing.leads (hkinded : s.Kinded kinds) {portions : List Name}
    (hleads : s.Leads tty n place portions goal) (h : s.Standing place) : s.Standing goal := by
  induction hleads with
  | here => exact h
  | up _ ih => exact ih h.up
  | entry _ hsees _ _ ih => exact ih ⟨hkinded.isDirectory_of_sees hsees, h⟩
  | link _ _ _ _ _ hstart _ _ ihInner ih =>
      exact ih (ihInner (Standing.origin (fun d hd => Option.some.inj hd ▸ h) hstart))

/-- So does a dentry in use that has a node. -/
theorem Kinded.standing (h : s.Kinded kinds) (hshape : s.CacheShape) (hd : s.Known d)
    {node : VNodeId} (hnode : s.effectiveVNode d = some node) : s.Standing d.erase := by
  induction d generalizing node with
  | root => exact trivial
  | child id parent next name ih =>
      obtain ⟨hparent, hcache⟩ := hshape.cache_of_known hd
      have hsees : s.Sees parent.erase name (.ok (some node)) := by
        rw [← hnode]
        exact .cached hparent rfl hcache
      obtain ⟨parentNode, hparentNode, hkind⟩ := h.isDirectory_of_sees hsees
      refine ⟨⟨parentNode, hparentNode, hkind⟩, ih hparent (?_ : _ = some parentNode)⟩
      rwa [effectiveVNode_erase] at hparentNode

@[simp]
theorem isDirectory_erase (d : DEntry) : s.IsDirectory d.erase ↔ s.IsDirectory d := by
  simp only [IsDirectory, effectiveVNode_erase]

/-- What every call of a task meets: a sound cache, and a working directory in use
that is a directory. -/
structure Lodged (kinds : VNodeId → Bool) (s : FileSystem) (caller : Caller) : Prop where
  shape : s.CacheShape
  kinded : s.Kinded kinds
  known : s.KnownCaller caller
  cwd : ∀ d, caller.cwd = some d → s.IsDirectory d

/-- Where a path starts is a directory that stands in directories. -/
theorem Lodged.origin (h : s.Lodged kinds caller) {origin : DEntry}
    (horigin : path.origin (caller.cwd.map DEntry.erase) = some origin) :
    s.IsDirectory origin ∧ s.Standing origin := by
  unfold Path.origin at horigin
  split at horigin
  · obtain ⟨d, hd, rfl⟩ := Option.map_eq_some_iff.mp horigin
    obtain ⟨node, hnode, hdirectory⟩ := h.cwd d hd
    exact ⟨(isDirectory_erase d).mpr ⟨node, hnode, hdirectory⟩,
      h.kinded.standing h.shape (h.known d hd) hnode⟩
  · obtain rfl := Option.some.inj horigin
    exact ⟨h.kinded.isDirectory_root, trivial⟩

theorem Lodged.standing (h : s.Lodged kinds caller)
    (hgoal : s.Denotes tty n path (caller.cwd.map DEntry.erase) goal) : s.Standing goal := by
  obtain ⟨_, origin, horigin, hleads⟩ := hgoal
  exact Standing.leads h.kinded hleads (h.origin horigin).2

end FileSystem

namespace Vfs

variable {s s' : Vfs} {kinds : VNodeId → Bool} {request : Request}

/-- What holds in every state: the nodes that were directories are still the only
ones, and tasks work in directories. -/
structure Kinded (kinds : VNodeId → Bool) (s : Vfs) : Prop where
  shaped : s.Shaped
  fs : s.fs.Kinded kinds
  cwd : ∀ task d, s.cwd task = some d → s.fs.IsDirectory d

/-- A working directory is one of before, the root or a directory that a path leads to. -/
theorem step_cwd (heq : s.step request = some s') {task : Nat} {d : DEntry}
    (hd : s'.cwd task = some d) :
    (∃ other, s.cwd other = some d) ∨ d = .root ∨
      (∃ path fs, s.fs.resolve (s.caller request) (Path.ofName path) true = some (.ok d, fs)) ∧
        s'.fs.IsDirectory d := by
  have hkeep : ∀ {α : Type} {outcome : Outcome α}, s.commit outcome = some s' →
      ∃ other, s.cwd other = some d := by
    intro α outcome hcommit
    obtain ⟨_, _, rfl⟩ := Option.map_eq_some_iff.mp hcommit
    exact ⟨task, hd⟩
  have hset : ∀ {child : Nat} {cwd : Option DEntry},
      Function.update s.cwd child cwd task = some d →
      cwd = some d ∨ ∃ other, s.cwd other = some d := by
    intro child cwd hupdate
    by_cases htask : task = child
    · subst htask
      exact Or.inl (by simpa using hupdate)
    · exact Or.inr ⟨task, by simpa [htask] using hupdate⟩
  unfold Vfs.step at heq
  cases hcall : request.call <;> simp only [hcall] at heq
  case chdir path =>
      simp only [Vfs.chdir, Option.bind_eq_bind, Option.bind_eq_some_iff] at heq
      obtain ⟨⟨result, fs⟩, hresolve, heq⟩ := heq
      cases result with
      | error e =>
          obtain rfl := Option.some.inj heq
          exact Or.inl ⟨task, hd⟩
      | ok found =>
          obtain ⟨node, hnode, heq⟩ := Option.bind_eq_some_iff.mp heq
          split at heq
          · rename_i hdirectory
            obtain rfl := Option.some.inj heq
            rcases hset hd with hnew | hold
            · obtain rfl := Option.some.inj hnew
              exact Or.inr (Or.inr ⟨⟨path, fs, hresolve⟩, node, hnode, hdirectory⟩)
            · exact Or.inl hold
          · obtain rfl := Option.some.inj heq
            exact Or.inl ⟨task, hd⟩
  case createTask child =>
      obtain rfl := Option.some.inj heq
      rcases hset hd with hnew | hold
      · exact Or.inr (Or.inl (Option.some.inj hnew).symm)
      · exact Or.inl hold
  case fork child =>
      obtain rfl := Option.some.inj heq
      rcases hset hd with hnew | hold
      · exact Or.inl ⟨request.task, hnew⟩
      · exact Or.inl hold
  all_goals exact Or.inl (hkeep heq)

theorem Kinded.leaves (h : s.Kinded kinds) (request : Request) :
    s.Leaves (FileSystem.Kinded kinds) request := by
  have hshape := h.shaped.fs
  have hcaller := (h.shaped.settled request).known
  have hlookable : FileSystem.Lookable (FileSystem.Kinded kinds) := FileSystem.kinded_lookable
  unfold Leaves
  cases request.call with
  | resolve => trivial
  | chdir => trivial
  | «open» name flags =>
      refine FileSystem.open_leaves hlookable hshape h.fs hcaller name flags ?_
      exact fun s₁ _ directory _ hs₁ hkinded _ _ _ =>
        FileSystem.addNode_leaves_kinded hs₁.shape hkinded directory _ rfl
  | link oldname newname =>
      refine (FileSystem.resolve_leaves hlookable hshape h.fs hcaller _ _).andThen ?_
      intro oldEntry s₁ _ hs₁ hkinded₁
      refine FileSystem.newEntry_leaves hlookable hs₁.shape hkinded₁ (hs₁.knownCaller hcaller)
        newname ?_
      exact fun s₂ _ directory _ hs₂ hkinded₂ _ _ _ => .bind fun target _ =>
        FileSystem.addEntry_leaves_kinded hs₂.shape hkinded₂ directory target _
  | symlink oldname newname =>
      refine FileSystem.newEntry_leaves hlookable hshape h.fs hcaller newname ?_
      exact fun s₁ _ directory _ hs₁ hkinded _ _ _ =>
        FileSystem.addNode_leaves_kinded hs₁.shape hkinded directory _ rfl
  | unlink pathname =>
      refine FileSystem.unlink_leaves hlookable hshape h.fs hcaller pathname ?_
      exact fun entry s₁ _ _ hs₁ hkinded _ _ =>
        FileSystem.removeEntry_leaves_kinded hs₁.shape hkinded entry
  | createTask => trivial
  | fork => trivial

theorem Kinded.step (h : s.Kinded kinds) (heq : s.step request = some s') : s'.Kinded kinds := by
  have hadvances := step_advances FileSystem.kinded_lookable h.shaped.fs h.fs
    (h.shaped.settled request).known (h.leaves request) heq
  refine ⟨h.shaped.step heq, hadvances.inv, fun task d hd => ?_⟩
  rcases step_cwd heq hd with ⟨other, hother⟩ | rfl | ⟨_, hdirectory⟩
  · obtain ⟨node, hnode, hkind⟩ := h.cwd other d hother
    refine ⟨node, ?_, ?_⟩
    · rw [hadvances.outlasts.effectiveVNode]
      exact hnode
    · rw [hadvances.inv.kind, ← h.fs.kind]
      exact hkind
  · exact hadvances.inv.isDirectory_root
  · exact hdirectory

theorem load_kinded {nodes : VNodeId → VNode} {nextNode rootNode : VNodeId}
    (htree : (load nodes nextNode rootNode).fs.DirectoriesOk) :
    (load nodes nextNode rootNode).Kinded fun node => (nodes node).isDirectory := by
  refine ⟨load_shaped nodes nextNode rootNode, ⟨htree, fun _ => rfl, ?_⟩,
    fun _ _ hd => (by cases hd)⟩
  intro place name next hsees
  cases hsees with
  | cached _ _ hhit => cases hhit
  | directory _ hheld => exact FileSystem.lookupNode_ok hheld

/-- In every run, over any directory tree, the directories stay the same nodes. -/
theorem run_kinded {nodes : VNodeId → VNode} {nextNode rootNode : VNodeId}
    (htree : (load nodes nextNode rootNode).fs.DirectoriesOk) {requests : List Request}
    (hrun : Run step anyStep (load nodes nextNode rootNode) requests s) :
    s.Kinded fun node => (nodes node).isDirectory :=
  hrun.invariant (fun _ _ _ h _ heq => h.step heq) (load_kinded htree)

theorem Kinded.lodged (h : s.Kinded kinds) (request : Request) :
    s.fs.Lodged kinds (s.caller request) :=
  ⟨h.shaped.fs, h.fs, (h.shaped.settled request).known, h.cwd request.task⟩

theorem linkTree_directoriesOk : (load linkTree 5 0).fs.DirectoriesOk := by
  refine ⟨rfl, fun node hnode => ?_, fun node => ?_⟩
  · match node, hnode with
    | 0, hnode | 1, hnode | 2, hnode | 3, hnode | 4, hnode => exact absurd hnode (by decide)
    | _ + 5, _ => rfl
  · match node with
    | 0 | 1 | 2 | 3 | 4 => decide
    | _ + 5 => exact List.nodup_nil

end Vfs

end Nyan.Fs
