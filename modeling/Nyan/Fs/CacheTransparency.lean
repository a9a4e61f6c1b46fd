import Mathlib.Data.List.Nodup
import Nyan.Fs.Operations

/-!
Runs of file operations. Every operation but a successful `unlink` keeps the
cache in agreement with the directories, so in every run without one the cache is
transparent; a successful `unlink` breaks it at once.
-/

namespace Nyan.Fs

open Library

namespace VNode

variable {vnode vnode' : VNode} {name : Name} {target : VNodeId}

theorem addEntry_ok (h : vnode.addEntry name target = .ok vnode') :
    ∃ entries, vnode = .directory entries ∧ vnode' = .directory (entries ++ [(name, target)]) ∧
      name ∉ entries.map Prod.fst := by
  cases vnode with
  | directory entries =>
      simp only [addEntry] at h
      split at h
      · cases h
      · rename_i hnone
        refine ⟨entries, rfl, (Except.ok.inj h).symm, ?_⟩
        simpa using hnone
  | regular => cases h
  | symlink => cases h
  | dynamicSymlink => cases h
  | charDevice => cases h

/-- What a directory holds is still found after an entry is added. -/
theorem lookup_addEntry (h : vnode.addEntry name target = .ok vnode') {other : Name}
    {found : Option VNodeId} (hfound : vnode.lookup other = .ok found) :
    vnode'.lookup other = .ok found := by
  obtain ⟨entries, rfl, rfl, _⟩ := addEntry_ok h
  unfold lookup at hfound ⊢
  cases hentry : entries.find? fun entry => entry.1 = other with
  | none => simp [hentry] at hfound
  | some entry =>
      simp only [hentry] at hfound
      simp only [List.find?_append, hentry, Option.some_or]
      exact hfound

/-- An entry that was found can be removed, and is not found any more. -/
theorem unlink_found {found : VNodeId} (h : vnode.lookup name = .ok (some found))
    (hunique : ∀ entries, vnode = .directory entries → (entries.map Prod.fst).Nodup) :
    ∃ vnode', vnode.unlink name = .ok vnode' ∧ vnode'.lookup name = .error .ENOENT := by
  cases vnode with
  | directory entries =>
      have hnodup := hunique entries rfl
      cases hentry : entries.find? fun entry => entry.1 = name with
      | none => simp [lookup, hentry] at h
      | some entry =>
          have hmem := List.mem_of_find?_eq_some hentry
          have hname : entry.1 = name := by simpa using List.find?_some hentry
          have hany : (entries.any fun entry => entry.1 = name) = true :=
            List.any_eq_true.mpr ⟨entry, hmem, by simpa using hname⟩
          refine ⟨_, by simp only [unlink, hany, if_true]; rfl, ?_⟩
          have hgone : (entries.eraseP fun entry => entry.1 = name).find?
              (fun entry => entry.1 = name) = none := by
            obtain ⟨first, before, behind, hbefore, hfirst, hsplit, herase⟩ :=
              List.exists_of_eraseP (p := fun entry => entry.1 = name) hmem (by simpa using hname)
            rw [hsplit, List.map_append, List.map_cons, List.nodup_middle,
              List.nodup_cons] at hnodup
            rw [herase, List.find?_eq_none]
            intro other hother
            simp only [decide_eq_true_eq] at hfirst hbefore ⊢
            rw [← hfirst]
            intro hsame
            refine hnodup.1 (hsame ▸ ?_)
            rw [← List.map_append]
            exact List.mem_map_of_mem hother
          simp [lookup, hgone]
  | regular => cases h
  | symlink => cases h
  | dynamicSymlink => cases h
  | charDevice => cases h

end VNode

namespace FileSystem

variable {s s' : FileSystem} {d : DEntry}

structure Good (s : FileSystem) : Prop where
  cache : s.CacheOk
  nodes : s.NodesOk

theorem Grows.good (h : s.Grows s') (hgood : s.Good) : s'.Good := by
  refine ⟨h.cacheOk, ?_, ?_, ?_⟩
  · rw [h.nodes, h.rootNode, h.nextNode]
    exact hgood.nodes.root
  · rw [h.nodes, h.nextNode]
    exact hgood.nodes.old
  · rw [h.nodes]
    exact hgood.nodes.unique

/-- Dentries in use stand for existing nodes. -/
theorem Good.known_old (h : s.Good) (hknown : s.Known d) {node : VNodeId}
    (hnode : s.effectiveVNode d = some node) : node < s.nextNode := by
  rcases hknown with rfl | ⟨⟨i, name⟩, hcache⟩
  · obtain rfl := Option.some.inj hnode
    exact h.nodes.root.2
  · obtain ⟨id, parent, next, directory, rfl, _, _, _, hlookup⟩ := h.cache.entry i name d hcache
    obtain rfl : next = some node := hnode
    cases hvnode : s.nodes directory with
    | directory entries =>
        rw [hvnode, VNode.lookup] at hlookup
        split at hlookup
        · rename_i entry hfind
          simp only [Except.ok.injEq, Option.some_inj] at hlookup
          rw [← hlookup]
          exact h.nodes.old directory entries hvnode entry (List.mem_of_find?_eq_some hfind)
        · cases hlookup
    | regular => simp [hvnode, VNode.lookup] at hlookup
    | symlink => simp [hvnode, VNode.lookup] at hlookup
    | dynamicSymlink => simp [hvnode, VNode.lookup] at hlookup
    | charDevice => simp [hvnode, VNode.lookup] at hlookup

/-- A change of the nodes under which the names that were found are still found
keeps the cache correct. -/
theorem Good.cacheOk_of_found (h : s.Good) {nodes : VNodeId → VNode} (nextNode : VNodeId)
    (hfound : ∀ node name found, node < s.nextNode → (s.nodes node).lookup name = .ok found →
      (nodes node).lookup name = .ok found) :
    CacheOk { s with nodes, nextNode } := by
  refine ⟨fun i name d hcache => ?_, h.cache.unique, h.cache.bound⟩
  obtain ⟨id, parent, next, node, hd, hid, hparent, hnode, hlookup⟩ :=
    h.cache.entry i name d hcache
  exact ⟨id, parent, next, node, hd, hid, hparent, hnode,
    hfound node name next (h.known_old hparent hnode) hlookup⟩

theorem CacheOk.shape (h : s.CacheOk) : s.CacheShape := by
  refine ⟨?_, h.unique, h.bound⟩
  intro i name d hcache
  obtain ⟨id, parent, next, node, hd, hid, hparent, hnode, _⟩ := h.entry i name d hcache
  exact ⟨id, parent, next, node, hd, hid, hparent, hnode⟩

/-- With a correct cache, names show what the directories hold. -/
theorem CacheOk.lookupNode_of_sees (h : s.CacheOk) {name : Name}
    {found : Except Errno (Option VNodeId)} (hsees : s.Sees d name found) :
    s.lookupNode d name = some found := by
  cases hsees with
  | @cached e c hknown hhere hhit =>
      obtain ⟨id, next, rfl, hlookup⟩ := h.hit hknown hhit
      rw [← hhere, lookupNode_erase, hlookup]
      rfl
  | directory _ hheld => exact hheld

/-- Lookups keep a correct cache correct. -/
theorem good_lookable : Lookable Good := by
  intro s s' hextends hgood
  have hcache : s'.CacheOk := by
    refine ⟨?_, hextends.shape.unique, hextends.shape.bound⟩
    intro i name d hcache
    obtain ⟨id, parent, next, node, rfl, rfl, hparent, hnode⟩ :=
      hextends.shape.entry i name d hcache
    have hsees := (hextends.sees parent.erase name (.ok next)).mp (.cached hparent rfl hcache)
    have hlookup := hgood.cache.lookupNode_of_sees hsees
    rw [lookupNode_erase, ← hextends.lookupNode, lookupNode, hnode] at hlookup
    exact ⟨id, parent, next, node, rfl, rfl, hparent, hnode, Option.some.inj hlookup⟩
  exact Grows.good ⟨hextends.nodes, hextends.nextNode, hextends.rootNode, hcache, hextends.known⟩
    hgood

theorem resolve_known (h : s.Good) {caller : Caller} (hcaller : s.KnownCaller caller)
    {path : Path} {follow : Bool} (heq : s.resolve caller path follow = some (.ok d, s')) :
    s'.Known d :=
  resolve_finds_known h.cache.shape hcaller heq

theorem KnownCaller.after {caller : Caller} (h : s.KnownCaller caller)
    (hknown : ∀ d, s.Known d → s'.Known d) : s'.KnownCaller caller :=
  fun d hd => hknown d (h d hd)

/-- Adding an entry to a directory that exists. -/
theorem NodesOk.setNode (h : s.NodesOk) {directory target : VNodeId} {name : Name} {vnode : VNode}
    (hadd : (s.nodes directory).addEntry name target = .ok vnode) (htarget : target < s.nextNode) :
    NodesOk (s.setNode directory vnode) := by
  obtain ⟨entries, hold, rfl, hnew⟩ := VNode.addEntry_ok hadd
  have hcases : ∀ node entries', (s.setNode directory (.directory (entries ++ [(name, target)]))).nodes
      node = .directory entries' →
      s.nodes node = .directory entries' ∨ entries' = entries ++ [(name, target)] := by
    intro node entries' hnode
    by_cases hdir : node = directory
    · subst hdir
      simp only [FileSystem.setNode, Function.update_self, VNode.directory.injEq] at hnode
      exact Or.inr hnode.symm
    · simp only [FileSystem.setNode, Function.update_of_ne hdir] at hnode
      exact Or.inl hnode
  refine ⟨⟨?_, h.root.2⟩, ?_, ?_⟩
  · by_cases hdir : s.rootNode = directory
    · simp [FileSystem.setNode, hdir, VNode.isDirectory]
    · simpa [FileSystem.setNode, Function.update_of_ne hdir] using h.root.1
  · intro node entries' hnode entry hentry
    rcases hcases node entries' hnode with hnode | rfl
    · exact h.old node entries' hnode entry hentry
    · rcases List.mem_append.mp hentry with hentry | hentry
      · exact h.old directory entries hold entry hentry
      · rw [List.mem_singleton.mp hentry]
        exact htarget
  · intro node entries' hnode
    rcases hcases node entries' hnode with hnode | rfl
    · exact h.unique node entries' hnode
    · rw [List.map_append, List.nodup_append]
      refine ⟨h.unique directory entries hold, by simp, ?_⟩
      rintro x hx y hy rfl
      obtain rfl : x = name := by simpa using hy
      exact hnew hx

theorem setNode_good (h : s.Good) {directory : VNodeId} (name : Name) (target : VNodeId)
    {vnode : VNode}
    (hadd : (s.nodes directory).addEntry name target = .ok vnode) (htarget : target < s.nextNode) :
    (s.setNode directory vnode).Good := by
  refine ⟨h.cacheOk_of_found s.nextNode ?_, h.nodes.setNode hadd htarget⟩
  intro node other found _ hfound
  by_cases hdir : node = directory
  · subst hdir
    rw [Function.update_self]
    exact VNode.lookup_addEntry hadd hfound
  · rwa [Function.update_of_ne hdir]

theorem addEntry_leaves (h : s.Good) (directory : VNodeId) (name : Name) {target : VNodeId}
    (htarget : target < s.nextNode) : s.Leaves Good (s.addEntry directory name target) := by
  unfold addEntry
  split
  · rename_i vnode hadd
    exact .done (h.cache.shape.outlasts _ _) (setNode_good h name target hadd htarget) _
  · exact .same h.cache.shape h _

/-- A new node that is not a directory. -/
theorem newNode_good (h : s.Good) {vnode : VNode} (hvnode : vnode.isDirectory = false) :
    Good { s.setNode s.nextNode vnode with nextNode := s.nextNode + 1 } := by
  have hold : ∀ node, node < s.nextNode →
      Function.update s.nodes s.nextNode vnode node = s.nodes node :=
    fun node hnode => Function.update_of_ne (Nat.ne_of_lt hnode) ..
  have hdirectory : ∀ node entries,
      Function.update s.nodes s.nextNode vnode node = .directory entries →
      s.nodes node = .directory entries := by
    intro node entries hnode
    by_cases hnew : node = s.nextNode
    · subst hnew
      rw [Function.update_self] at hnode
      simp [hnode, VNode.isDirectory] at hvnode
    · rwa [Function.update_of_ne hnew] at hnode
  refine ⟨h.cacheOk_of_found (s.nextNode + 1) ?_, ⟨?_, Nat.lt_succ_of_lt h.nodes.root.2⟩, ?_, ?_⟩
  · intro node name found hnode hfound
    exact (congrArg (VNode.lookup name) (hold node hnode)).trans hfound
  · exact (congrArg VNode.isDirectory (hold s.rootNode h.nodes.root.2)).trans h.nodes.root.1
  · intro node entries hnode entry hentry
    exact Nat.lt_succ_of_lt (h.nodes.old node entries (hdirectory node entries hnode) entry hentry)
  · exact fun node entries hnode => h.nodes.unique node entries (hdirectory node entries hnode)

theorem addNode_leaves (h : s.Good) {directory : VNodeId} (hdirectory : directory < s.nextNode)
    (name : Name) {vnode : VNode} (hvnode : vnode.isDirectory = false) :
    s.Leaves Good (s.addNode directory name vnode) := by
  unfold addNode
  split
  · rename_i updated hadd
    refine .done (h.cache.shape.outlasts _ _)
      (setNode_good (newNode_good h hvnode) name s.nextNode ?_ (Nat.lt_succ_self _)) _
    simpa [setNode, Function.update_of_ne (Nat.ne_of_lt hdirectory)] using hadd
  · exact .same h.cache.shape h _

theorem open_leaves_good (h : s.Good) {caller : Caller} (hcaller : s.KnownCaller caller) (name : Name)
    (flags : OpenFlags) : s.Leaves Good (s.open caller name flags) := by
  refine open_leaves good_lookable h.cache.shape h hcaller name flags ?_
  intro s₁ parent directory _ _ hgood hparent hdirectory _
  exact addNode_leaves hgood (hgood.known_old hparent hdirectory) _ rfl

theorem symlink_leaves_good (h : s.Good) {caller : Caller} (hcaller : s.KnownCaller caller)
    (oldname newname : Name) : s.Leaves Good (s.symlink caller oldname newname) := by
  refine newEntry_leaves good_lookable h.cache.shape h hcaller newname ?_
  intro s₁ parent directory _ _ hgood hparent hdirectory _
  exact addNode_leaves hgood (hgood.known_old hparent hdirectory) _ rfl

theorem link_leaves_good (h : s.Good) {caller : Caller} (hcaller : s.KnownCaller caller)
    (oldname newname : Name) : s.Leaves Good (s.link caller oldname newname) := by
  refine (resolve_leaves good_lookable h.cache.shape h hcaller _ _).andThen ?_
  intro oldEntry s₁ hresolve houtlasts hgood
  have hentry := resolve_known h hcaller hresolve
  refine newEntry_leaves good_lookable houtlasts.shape hgood (hcaller.after houtlasts.known)
    newname ?_
  intro s₂ parent directory _ houtlasts₂ hgood₂ _ _ _
  exact .bind fun target htarget =>
    addEntry_leaves hgood₂ directory _ (hgood₂.known_old (houtlasts₂.known oldEntry hentry) htarget)

/-- Without the cache, the path of an `unlink` leads to no file that could be
removed. -/
def RemovesNothing (s : FileSystem) (caller : Caller) (pathname : Name) : Prop :=
  ∀ node, answer (s.resolveDirect caller (Path.ofName pathname) true) = some (.ok (some node)) →
    (s.nodes node).isDirectory = true

instance (s : FileSystem) (caller : Caller) (pathname : Name) :
    Decidable (s.RemovesNothing caller pathname) :=
  decidable_of_iff
    (((answer (s.resolveDirect caller (Path.ofName pathname) true)).all fun
      | .ok (some node) => (s.nodes node).isDirectory
      | _ => true) = true) <| by
    simp only [RemovesNothing, Option.all_eq_true]
    constructor
    · exact fun h node hnode => h _ hnode
    · intro h found hfound
      split
      · exact h _ hfound
      · rfl

theorem effectiveVNode_child (id : Nat) (parent : DEntry) (node : Option VNodeId) (name : Name) :
    s.effectiveVNode (.child id parent node name) = node :=
  rfl

theorem answer_ok {out : Outcome DEntry} {node : Option VNodeId}
    (h : answer out = some (.ok node)) :
    ∃ d s', out = some (.ok d, s') ∧ s'.effectiveVNode d = node := by
  cases out with
  | none => cases h
  | some result =>
      obtain ⟨result, s'⟩ := result
      cases result with
      | error e => cases h
      | ok d =>
          simp only [answer, Option.map_some, Except.map, Option.some_inj, Except.ok.injEq] at h
          exact ⟨d, s', rfl, h⟩

theorem resolve_grows (h : s.Good) {caller : Caller} (hcaller : s.KnownCaller caller)
    {path : Path} {follow : Bool} {r : Except Errno DEntry}
    (heq : s.resolve caller path follow = some (r, s')) : s.Grows s' := by
  have hagree := resolve_agree h.cache hcaller path follow
  rw [heq] at hagree
  generalize s.resolveDirect caller path follow = out' at hagree
  cases hagree with
  | error e hgrows => exact hgrows
  | ok hgrows => exact hgrows

theorem unlink_leaves_good (h : s.Good) {caller : Caller} (hcaller : s.KnownCaller caller)
    {pathname : Name} (hnothing : s.RemovesNothing caller pathname) :
    s.Leaves Good (s.unlink caller pathname) := by
  refine unlink_leaves good_lookable h.cache.shape h hcaller pathname ?_
  intro entry s₁ node hresolve _ _ hnode hfile
  have hdirectory : (s₁.nodes node).isDirectory = true := by
    rw [(resolve_grows h hcaller hresolve).nodes]
    refine hnothing node ?_
    rw [← resolve_answer h.cache hcaller, hresolve]
    simp [answer, Except.map, hnode]
  simp [hdirectory] at hfile

/-- An `unlink` that removes a file leaves a stale entry in the cache. -/
theorem unlink_stale (h : s.Good) {caller : Caller} (hcaller : s.KnownCaller caller)
    {pathname : Name} (hremoves : ¬ s.RemovesNothing caller pathname) {r : Except Errno Unit}
    (heq : s.unlink caller pathname = some (r, s')) : ¬ s'.Transparent := by
  simp only [RemovesNothing, not_forall] at hremoves
  obtain ⟨node, hanswer, hfile⟩ := hremoves
  rw [← resolve_answer h.cache hcaller] at hanswer
  obtain ⟨entry, s₁, hresolve, hnode⟩ := answer_ok hanswer
  have hgrows := resolve_grows h hcaller hresolve
  have hgood := hgrows.good h
  rw [← hgrows.nodes] at hfile
  rcases resolve_known h hcaller hresolve with rfl | ⟨⟨i, name⟩, hcache⟩
  · obtain rfl := Option.some.inj hnode
    exact absurd hgood.nodes.root.1 hfile
  obtain ⟨id, parent, next, directory, rfl, rfl, hparent, hdirectory, hlookup⟩ :=
    hgood.cache.entry i name entry hcache
  obtain rfl : next = some node := hnode
  obtain ⟨vnode, hunlink, hgone⟩ := VNode.unlink_found hlookup (hgood.nodes.unique directory)
  obtain rfl : s₁.setNode directory vnode = s' := by
    have hremove : s.unlink caller pathname = some (.ok (), s₁.setNode directory vnode) := by
      simp [unlink, hresolve, Outcome.andThen, effectiveVNode_child, hfile, removeEntry,
        hdirectory, hunlink]
    exact (Prod.mk.inj (Option.some.inj (hremove.symm.trans heq))).2
  intro htransparent
  have hparent' : (s₁.setNode directory vnode).effectiveVNode parent = some directory := by
    rw [← hdirectory]
    cases parent <;> rfl
  have hnodes : (s₁.setNode directory vnode).nodes directory = vnode := Function.update_self ..
  have hstale := htransparent parent name (.error .ENOENT) hparent
    (by simp [lookupNode, hparent', hnodes, hgone])
  have hhit : (s₁.setNode directory vnode).cache (parent.id, name) =
    some (.child id parent (some node) name) := hcache
  simp [lookup, hhit] at hstale

end FileSystem

/-- The file system, and the working directory of each task. -/
structure Vfs where
  fs : FileSystem
  cwd : Nat → Option DEntry

/-- The calls that use or change directories. `stat`, `lstat`, `readlink` and
`execve` resolve a path and leave the directories alone. -/
inductive VfsCall where
  | resolve (path : Name) (follow : Bool)
  | chdir (path : Name)
  | open (name : Name) (flags : FileSystem.OpenFlags)
  | link (oldname newname : Name)
  | symlink (oldname newname : Name)
  | unlink (pathname : Name)
  | createTask (child : Nat)
  | fork (child : Nat)

namespace Vfs

/-- A call, by a task for which `/dev/tty` leads to `tty`. -/
structure Request where
  task : Nat
  tty : Except Errno Name
  call : VfsCall

def caller (s : Vfs) (request : Request) : FileSystem.Caller := ⟨s.cwd request.task, request.tty⟩

/-- `chdir`: the resolved directory becomes the working directory. -/
def chdir (s : Vfs) (request : Request) (path : Name) : Option Vfs := do
  let (result, fs) ← s.fs.resolve (s.caller request) (Path.ofName path) true
  match result with
  | .error _ => return { s with fs }
  | .ok d =>
      let node ← fs.effectiveVNode d
      if (fs.nodes node).isDirectory then
        return { fs, cwd := Function.update s.cwd request.task (some d) }
      else
        return { s with fs }

/-- The file system after an operation. -/
def commit {α : Type} (s : Vfs) (outcome : Outcome α) : Option Vfs :=
  outcome.map fun (_, fs) => { s with fs }

def step (s : Vfs) (request : Request) : Option Vfs :=
  match request.call with
  | .resolve path follow => s.commit (s.fs.resolve (s.caller request) (Path.ofName path) follow)
  | .chdir path => s.chdir request path
  | .open name flags => s.commit (s.fs.open (s.caller request) name flags)
  | .link oldname newname => s.commit (s.fs.link (s.caller request) oldname newname)
  | .symlink oldname newname => s.commit (s.fs.symlink (s.caller request) oldname newname)
  | .unlink pathname => s.commit (s.fs.unlink (s.caller request) pathname)
  | .createTask child => some { s with cwd := Function.update s.cwd child (some .root) }
  | .fork child => some { s with cwd := Function.update s.cwd child (s.cwd request.task) }

/-- A request that removes no entry from a directory. -/
def RemovesNothing (s : Vfs) (request : Request) : Prop :=
  match request.call with
  | .unlink pathname => s.fs.RemovesNothing (s.caller request) pathname
  | _ => True

instance (s : Vfs) : (request : Request) → Decidable (s.RemovesNothing request)
  | ⟨task, tty, .unlink pathname⟩ =>
      inferInstanceAs (Decidable (s.fs.RemovesNothing ⟨s.cwd task, tty⟩ pathname))
  | ⟨_, _, .resolve _ _⟩ | ⟨_, _, .chdir _⟩ | ⟨_, _, .open _ _⟩ | ⟨_, _, .link _ _⟩
  | ⟨_, _, .symlink _ _⟩ | ⟨_, _, .createTask _⟩ | ⟨_, _, .fork _⟩ => isTrue trivial

/-- The state after `load`, over any directory tree: nothing is cached, and the
root dentry has the first number. -/
def load (nodes : VNodeId → VNode) (nextNode rootNode : VNodeId) : Vfs where
  fs := { nodes, nextNode, rootNode, cache := fun _ => none, counter := 1 }
  cwd _ := none

structure Good (s : Vfs) : Prop where
  fs : s.fs.Good
  cwd : ∀ task d, s.cwd task = some d → s.fs.Known d

variable {s s' : Vfs}

theorem Good.caller (h : s.Good) (request : Request) : s.fs.KnownCaller (s.caller request) :=
  h.cwd request.task

theorem load_known {nodes : VNodeId → VNode} {nextNode rootNode : VNodeId} {d : DEntry}
    (h : (load nodes nextNode rootNode).fs.Known d) : d = .root := by
  rcases h with rfl | ⟨key, hkey⟩
  · rfl
  · cases hkey

theorem load_good {nodes : VNodeId → VNode} {nextNode rootNode : VNodeId}
    (h : (load nodes nextNode rootNode).fs.NodesOk) : (load nodes nextNode rootNode).Good := by
  refine ⟨⟨⟨fun _ _ _ hcache => (by cases hcache), ?_, ?_⟩, h⟩, fun _ _ hd => (by cases hd)⟩
  · intro d d' hd hd' _
    rw [load_known hd, load_known hd']
  · intro d hd
    rw [load_known hd]
    exact Nat.le_refl 1

/-- The operation of a request that may change directories leaves the property
`I`. -/
def Leaves (I : FileSystem → Prop) (s : Vfs) (request : Request) : Prop :=
  match request.call with
  | .open name flags => s.fs.Leaves I (s.fs.open (s.caller request) name flags)
  | .link oldname newname => s.fs.Leaves I (s.fs.link (s.caller request) oldname newname)
  | .symlink oldname newname => s.fs.Leaves I (s.fs.symlink (s.caller request) oldname newname)
  | .unlink pathname => s.fs.Leaves I (s.fs.unlink (s.caller request) pathname)
  | _ => True

/-- What a step does to the file system and to the working directories: each is
one of before, the root, or a node that was resolved. -/
structure Advances (I : FileSystem → Prop) (s s' : Vfs) : Prop where
  outlasts : s.fs.Outlasts s'.fs
  inv : I s'.fs
  cwd : ∀ task d, s'.cwd task = some d → (∃ other, s.cwd other = some d) ∨ d = .root ∨
    s'.fs.Known d ∧ ∃ node, s'.fs.effectiveVNode d = some node

section Step

variable {I : FileSystem → Prop} {request : Request}

theorem Advances.commit {α : Type} {outcome : Outcome α} (hleaves : s.fs.Leaves I outcome)
    (heq : s.commit outcome = some s') : s.Advances I s' := by
  obtain ⟨⟨r, fs⟩, hout, rfl⟩ := Option.map_eq_some_iff.mp heq
  obtain ⟨houtlasts, hinv⟩ := hleaves r fs hout
  exact ⟨houtlasts, hinv, fun task d hd => Or.inl ⟨task, hd⟩⟩

/-- Setting one working directory, after the file system advanced. -/
theorem Advances.setCwd (h : s.Advances I s') (task : Nat) {cwd : Option DEntry}
    (hcwd : ∀ d, cwd = some d → (∃ other, s.cwd other = some d) ∨ d = .root ∨
      s'.fs.Known d ∧ ∃ node, s'.fs.effectiveVNode d = some node) :
    s.Advances I { s' with cwd := Function.update s'.cwd task cwd } := by
  refine ⟨h.outlasts, h.inv, fun other d hd => ?_⟩
  by_cases hother : other = task
  · subst hother
    exact hcwd d (by simpa using hd)
  · exact h.cwd other d (by simpa [hother] using hd)

variable (hI : FileSystem.Lookable I) (hshape : s.fs.CacheShape) (hinv : I s.fs)
  (hcaller : s.fs.KnownCaller (s.caller request))

include hI hshape hinv hcaller

theorem Advances.chdir {path : Name} (heq : s.chdir request path = some s') :
    s.Advances I s' := by
  simp only [Vfs.chdir, Option.bind_eq_bind, Option.bind_eq_some_iff] at heq
  obtain ⟨⟨result, fs⟩, hresolve, heq⟩ := heq
  obtain ⟨houtlasts, hfs⟩ := FileSystem.resolve_leaves hI hshape hinv hcaller _ _ _ _ hresolve
  have hkeep : s.Advances I { s with fs } :=
    ⟨houtlasts, hfs, fun task d hd => Or.inl ⟨task, hd⟩⟩
  cases result with
  | error e =>
      obtain rfl := Option.some.inj heq
      exact hkeep
  | ok d =>
      obtain ⟨node, hnode, heq⟩ := Option.bind_eq_some_iff.mp heq
      have hd := FileSystem.resolve_finds_known hshape hcaller hresolve
      split at heq
      · obtain rfl := Option.some.inj heq
        refine hkeep.setCwd request.task ?_
        rintro d' hd'
        obtain rfl := Option.some.inj hd'
        exact Or.inr (Or.inr ⟨hd, node, hnode⟩)
      · obtain rfl := Option.some.inj heq
        exact hkeep

/-- One step, for every property that lookups and the operation keep. -/
theorem step_advances (hleaves : s.Leaves I request) (heq : s.step request = some s') :
    s.Advances I s' := by
  have hstay : s.Advances I s :=
    ⟨.refl hshape, hinv, fun task d hd => Or.inl ⟨task, hd⟩⟩
  unfold Vfs.step at heq
  unfold Leaves at hleaves
  cases hcall : request.call <;> simp only [hcall] at heq hleaves
  case resolve => exact .commit (FileSystem.resolve_leaves hI hshape hinv hcaller _ _) heq
  case chdir => exact .chdir hI hshape hinv hcaller heq
  case «open» => exact .commit hleaves heq
  case link => exact .commit hleaves heq
  case symlink => exact .commit hleaves heq
  case unlink => exact .commit hleaves heq
  case createTask child =>
      obtain rfl := Option.some.inj heq
      exact hstay.setCwd child fun d hd => Or.inr (Or.inl (Option.some.inj hd).symm)
  case fork child =>
      obtain rfl := Option.some.inj heq
      exact hstay.setCwd child fun d hd => Or.inl ⟨request.task, hd⟩

end Step

/-- The working directories stay in use. -/
theorem Advances.known {I : FileSystem → Prop} (h : s.Advances I s')
    (hcwd : ∀ task d, s.cwd task = some d → s.fs.Known d) :
    ∀ task d, s'.cwd task = some d → s'.fs.Known d := by
  intro task d hd
  rcases h.cwd task d hd with ⟨other, hother⟩ | rfl | ⟨hknown, _⟩
  · exact h.outlasts.known d (hcwd other d hother)
  · exact Or.inl rfl
  · exact hknown

/-- Every request that removes nothing keeps the cache correct. -/
theorem Good.step (h : s.Good) {request : Request} (hkeeps : s.RemovesNothing request)
    (heq : s.step request = some s') : s'.Good := by
  have hcaller := h.caller request
  have hleaves : s.Leaves FileSystem.Good request := by
    unfold RemovesNothing at hkeeps
    unfold Leaves
    cases hcall : request.call <;> simp only [hcall] at hkeeps ⊢
    case «open» => exact FileSystem.open_leaves_good h.fs hcaller _ _
    case link => exact FileSystem.link_leaves_good h.fs hcaller _ _
    case symlink => exact FileSystem.symlink_leaves_good h.fs hcaller _ _
    case unlink => exact FileSystem.unlink_leaves_good h.fs hcaller hkeeps
  have hadvances := step_advances FileSystem.good_lookable h.fs.cache.shape h.fs hcaller hleaves heq
  exact ⟨hadvances.inv, hadvances.known h.cwd⟩

/-- A request that removes an entry breaks the cache. -/
theorem Good.step_stale (h : s.Good) {request : Request} (hremoves : ¬ s.RemovesNothing request)
    (heq : s.step request = some s') : ¬ s'.fs.Transparent := by
  unfold Vfs.step at heq
  unfold RemovesNothing at hremoves
  cases hcall : request.call <;> simp only [hcall, not_true_eq_false] at heq hremoves
  case unlink pathname =>
      obtain ⟨⟨r, fs⟩, hout, rfl⟩ := Option.map_eq_some_iff.mp heq
      exact FileSystem.unlink_stale h.fs (h.caller request) hremoves hout

/-- In every run whose `unlink`s all fail, over any directory tree, the cache is
transparent: a cached lookup gives what the directory holds, and a path leads to
the node or error it leads to without the cache. One more request keeps this
exactly when it removes no entry either. -/
theorem run_transparent {nodes : VNodeId → VNode} {nextNode rootNode : VNodeId}
    (htree : (load nodes nextNode rootNode).fs.NodesOk) {requests : List Request}
    (hrun : Run step RemovesNothing (load nodes nextNode rootNode) requests s) :
    s.fs.Transparent ∧
    (∀ request path follow, FileSystem.answer (s.fs.resolve (s.caller request) path follow) =
      FileSystem.answer (s.fs.resolveDirect (s.caller request) path follow)) ∧
    ∀ request s', s.step request = some s' →
      (s'.fs.Transparent ↔ s.RemovesNothing request) := by
  have hgood : s.Good := hrun.invariant (fun s request s' h hkeeps heq => h.step hkeeps heq)
    (load_good htree)
  refine ⟨hgood.fs.cache.transparent, ?_, ?_⟩
  · intro request path follow
    exact FileSystem.resolve_answer hgood.fs.cache (hgood.caller request) path follow
  · intro request s' heq
    constructor
    · intro htransparent
      by_contra hremoves
      exact hgood.step_stale hremoves heq htransparent
    · exact fun hkeeps => (hgood.step hkeeps heq).fs.cache.transparent

/-- A root directory with one file. -/
def oneFile : VNodeId → VNode
  | 0 => .directory [(['a'], 1)]
  | _ => .regular

theorem oneFile_nodesOk : (load oneFile 2 0).fs.NodesOk := by
  have hentries : ∀ node entries, oneFile node = .directory entries →
      entries = [(['a'], 1)] := by
    intro node entries hnode
    cases node with
    | zero => exact (VNode.directory.inj hnode).symm
    | succ => cases hnode
  refine ⟨by decide, ?_, ?_⟩
  · intro node entries hnode
    rw [hentries node entries hnode]
    decide
  · intro node entries hnode
    rw [hentries node entries hnode]
    decide

/-- A file is created and linked, both names are used, and an `unlink` of an old
name that is not there fails. -/
theorem run_transparent_new_link :
    ∃ requests s, requests.length = 5 ∧
      Run step RemovesNothing (load oneFile 2 0) requests s ∧ s.fs.Transparent := by
  let call (call : VfsCall) : Request := ⟨1, .error Errno.ENXIO, call⟩
  let requests : List Request := [
    call (.open ['/', 'b'] ⟨true, false, false, false⟩), call (.link ['/', 'a'] ['/', 'c']),
    call (.resolve ['/', 'c'] true), call (.unlink ['/', 'd']), call (.resolve ['/', 'b'] true)]
  obtain ⟨s, hfold, _⟩ : ∃ s ∈ requests.foldlM (guardedStep step RemovesNothing)
      (load oneFile 2 0), s.fs.counter = 4 := by
    decide
  have hrun := Run.of_foldlM hfold
  exact ⟨requests, s, rfl, hrun, (run_transparent oneFile_nodesOk hrun).1⟩

/-- `unlink` of a file succeeds, the directory does not have the name any more, and
`resolve` still finds it. -/
theorem unlink_leaves_name_in_cache :
    ∃ s, (load oneFile 2 0).step ⟨1, .error Errno.ENXIO, .unlink ['/', 'a']⟩ = some s ∧
      s.fs.lookupNode .root ['a'] = some (.error .ENOENT) ∧
      FileSystem.answer (s.fs.resolve ⟨none, .error Errno.ENXIO⟩ (Path.ofName ['/', 'a']) true) =
        some (.ok (some 1)) ∧
      FileSystem.answer (s.fs.resolveDirect ⟨none, .error Errno.ENXIO⟩ (Path.ofName ['/', 'a']) true) =
        some (.error .ENOENT) := by
  refine ⟨_, rfl, ?_, ?_, ?_⟩ <;> decide

end Vfs

end Nyan.Fs
