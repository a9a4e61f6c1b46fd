import Nyan.Fs.CacheTransparency

/-!
`open` against `resolve`. Both take the directory part of a path the same way.
For the last name `open` asks the directory itself, and follows a symbolic link
from the working directory; `resolve` goes through the cache, knows `..`, and
follows a link from the directory it stands in, one level deeper. They agree
exactly where the last name means the same in both ways.
-/

namespace Nyan.Fs

open Library

/-- A path is its directory part and its last name. -/
theorem Path.portions_eq {path : Path} (h : path.portions ≠ []) :
    path.portions = path.parent.portions ++ [path.last] := by
  rw [Path.parent, Path.last, List.getLastD_eq_getLast?, List.getLast?_eq_getLast_of_ne_nil h]
  exact (List.dropLast_concat_getLast h).symm

/-- Only the empty string is invalid. -/
theorem Path.ofName_valid {name : Name} (h : (Path.ofName name).portions ≠ []) :
    (Path.ofName name).invalid = false := by
  cases name with
  | nil => exact absurd rfl h
  | cons => rfl

namespace FileSystem

variable {s s' : FileSystem} {d d' place goal : DEntry} {name : Name}
  {start : Option DEntry} {tty : Except Errno Name} {n : Nat} {caller : Caller} {path : Path} {flags : OpenFlags}

/-- The node that an entry stands for: the node itself, or for a symbolic link the
node its target leads to from `start`. -/
def StandsFor (s : FileSystem) (tty : Except Errno Name) (n : Nat) (start : Option DEntry)
    (entry node : VNodeId) : Prop :=
  if (s.nodes entry).isSymlink then
    ∃ target goal, (s.nodes entry).readlink tty = .ok target ∧
      s.Denotes tty n (Path.ofName target) start goal ∧ s.effectiveVNode goal = some node
  else
    entry = node

/-- What the last name stands for in the directory itself, a link being followed
from the working directory. -/
def Holds (s : FileSystem) (caller : Caller) (place : DEntry) (last : Name) (node : VNodeId) :
    Prop :=
  ∃ entry, s.lookupNode place last = some (.ok (some entry)) ∧
    s.StandsFor caller.tty 9 (caller.cwd.map DEntry.erase) entry node

theorem Leads.append {middle : DEntry} {before after : List Name}
    (h : s.Leads tty n place before middle) (h' : s.Leads tty n middle after goal) :
    s.Leads tty n place (before ++ after) goal := by
  induction h with
  | here => exact h'
  | up _ ih => exact .up (ih h')
  | entry hname hsees hplain _ ih => exact .entry hname hsees hplain (ih h')
  | link hname hsees hlink hread hvalid hstart hinner _ _ ih =>
      exact .link hname hsees hlink hread hvalid hstart hinner (ih h')

theorem Leads.split {before after : List Name}
    (h : s.Leads tty n place (before ++ after) goal) :
    ∃ middle, s.Leads tty n place before middle ∧ s.Leads tty n middle after goal := by
  induction before generalizing place with
  | nil => exact ⟨place, .here, h⟩
  | cons portion rest ih =>
      cases h with
      | up hnext =>
          obtain ⟨middle, hbefore, hafter⟩ := ih hnext
          exact ⟨middle, .up hbefore, hafter⟩
      | entry hname hsees hplain hnext =>
          obtain ⟨middle, hbefore, hafter⟩ := ih hnext
          exact ⟨middle, .entry hname hsees hplain hbefore, hafter⟩
      | link hname hsees hlink hread hvalid hstart hinner hnext =>
          obtain ⟨middle, hbefore, hafter⟩ := ih hnext
          exact ⟨middle, .link hname hsees hlink hread hvalid hstart hinner hbefore, hafter⟩

/-- A place and all places above it have a node. -/
def Solid (s : FileSystem) : DEntry → Prop
  | .root => True
  | .child _ parent node _ => (∃ v, node = some v) ∧ s.Solid parent

theorem Solid.up (h : s.Solid place) : s.Solid place.up := by
  cases place with
  | root => exact h
  | child => exact h.2

theorem Solid.node (h : s.Solid place) : ∃ node, s.effectiveVNode place = some node := by
  cases place with
  | root => exact ⟨_, rfl⟩
  | child => exact h.1

theorem Solid.origin (h : ∀ d, start = some d → s.Solid d) {origin : DEntry}
    (horigin : path.origin start = some origin) : s.Solid origin := by
  unfold Path.origin at horigin
  split at horigin
  · exact h origin horigin
  · obtain rfl := Option.some.inj horigin
    exact trivial

/-- Paths lead to places that have a node. -/
theorem Solid.leads {portions : List Name} (hleads : s.Leads tty n place portions goal)
    (h : s.Solid place) : s.Solid goal := by
  induction hleads with
  | here => exact h
  | up _ ih => exact ih h.up
  | entry _ _ _ _ ih => exact ih ⟨⟨_, rfl⟩, h⟩
  | link _ _ _ _ _ hstart _ _ ihInner ih =>
      exact ih (ihInner (Solid.origin (fun d hd => Option.some.inj hd ▸ h) hstart))

/-- A dentry in use that has a node stands at such a place. -/
theorem CacheShape.solid (h : s.CacheShape) (hd : s.Known d) {node : VNodeId}
    (hnode : s.effectiveVNode d = some node) : s.Solid d.erase := by
  induction d generalizing node with
  | root => exact trivial
  | child id parent next name ih =>
      obtain ⟨hparent, hcache⟩ := h.cache_of_known hd
      obtain ⟨_, _, _, parentNode, hchild, _, _, hparentNode⟩ := h.entry _ _ _ hcache
      cases hchild
      exact ⟨⟨node, hnode⟩, ih hparent hparentNode⟩

/-- A caller whose working directory is in use and has a node. -/
structure Settled (s : FileSystem) (caller : Caller) : Prop where
  known : s.KnownCaller caller
  node : ∀ d, caller.cwd = some d → ∃ node, s.effectiveVNode d = some node

theorem Settled.solid (h : s.CacheShape) (hcaller : s.Settled caller) :
    ∀ d, caller.cwd.map DEntry.erase = some d → s.Solid d := by
  intro d hd
  obtain ⟨cwd, hcwd, rfl⟩ := Option.map_eq_some_iff.mp hd
  obtain ⟨node, hnode⟩ := hcaller.node cwd hcwd
  exact h.solid (hcaller.known cwd hcwd) hnode

/-- The node that a path resolves to. -/
def ResolvesTo (s : FileSystem) (caller : Caller) (path : Path) (node : VNodeId) : Prop :=
  ∃ d s', s.resolve caller path true = some (.ok d, s') ∧ s'.effectiveVNode d = some node

theorem resolvesTo_iff (h : s.CacheShape) (hcaller : s.KnownCaller caller) {node : VNodeId} :
    s.ResolvesTo caller path node ↔
      ∃ goal, s.Denotes caller.tty 9 path (caller.cwd.map DEntry.erase) goal ∧
        s.effectiveVNode goal = some node := by
  have hnode : ∀ d s', s.resolve caller path true = some (.ok d, s') →
      s'.effectiveVNode d = s.effectiveVNode d.erase := by
    intro d s' hresolve
    rw [(resolve_finds h hcaller path true _ _ hresolve).1.effectiveVNode, effectiveVNode_erase]
  simp only [← resolve_endsAt h hcaller path]
  constructor
  · rintro ⟨d, s', hresolve, hd⟩
    exact ⟨d.erase, ⟨d, s', hresolve, rfl⟩, (hnode d s' hresolve).symm.trans hd⟩
  · rintro ⟨_, ⟨d, s', hresolve, rfl⟩, hd⟩
    exact ⟨d, s', hresolve, (hnode d s' hresolve).trans hd⟩

/-- The place a path leads to is unique. -/
theorem Denotes.unique (h : s.CacheShape) (hcaller : s.KnownCaller caller)
    {goal' : DEntry} (hgoal : s.Denotes caller.tty 9 path (caller.cwd.map DEntry.erase) goal)
    (hgoal' : s.Denotes caller.tty 9 path (caller.cwd.map DEntry.erase) goal') :
    goal = goal' := by
  rw [← resolve_endsAt h hcaller path] at hgoal hgoal'
  obtain ⟨d, s₁, hresolve, rfl⟩ := hgoal
  obtain ⟨d', s₂, hresolve', rfl⟩ := hgoal'
  rw [hresolve] at hresolve'
  simp only [Option.some_inj, Prod.mk.injEq, Except.ok.injEq] at hresolve'
  rw [hresolve'.1]

theorem denotes_last (hvalid : path.invalid = false) (hportions : path.portions ≠ []) :
    s.Denotes tty n path start goal ↔
      ∃ place, s.Denotes tty n path.parent start place ∧ s.Leads tty n place [path.last] goal := by
  have hsplit := Path.portions_eq hportions
  have horigin : path.parent.origin start = path.origin start := rfl
  have hparent : path.parent.invalid = false := rfl
  unfold Denotes
  rw [horigin, hsplit]
  constructor
  · rintro ⟨_, origin, hstart, hleads⟩
    obtain ⟨place, hbefore, hlast⟩ := hleads.split
    exact ⟨place, ⟨hparent, origin, hstart, hbefore⟩, hlast⟩
  · rintro ⟨place, ⟨_, origin, hstart, hbefore⟩, hlast⟩
    exact ⟨hvalid, origin, hstart, hbefore.append hlast⟩

/-- The node at the end of a `resolve`. -/
theorem resolve_map_ok {node : VNodeId} :
    (∃ s', ((s.resolve caller path true).andThen fun entry s₁ =>
        (s₁.effectiveVNode entry).map fun node => (.ok node, s₁)) = some (.ok node, s')) ↔
      s.ResolvesTo caller path node := by
  constructor
  · rintro ⟨s', heq⟩
    obtain ⟨d, s₁, hresolve, hmap⟩ := andThen_ok.mp heq
    obtain ⟨found, hfound, hpair⟩ := Option.map_eq_some_iff.mp hmap
    obtain ⟨hok, rfl⟩ := Prod.mk.inj hpair
    exact ⟨d, s₁, hresolve, hfound.trans (congrArg some (Except.ok.inj hok))⟩
  · rintro ⟨d, s', hresolve, hnode⟩
    exact ⟨s', andThen_ok.mpr ⟨d, s', hresolve, by simp [hnode]⟩⟩

/-- What `open` makes of the entry that it found, with `O_NOFOLLOW` or without. -/
def OpensEntry (s : FileSystem) (caller : Caller) (flags : OpenFlags) (entry node : VNodeId) :
    Prop :=
  if flags.O_NOFOLLOW then entry = node
  else s.StandsFor caller.tty 9 (caller.cwd.map DEntry.erase) entry node

/-- The part of `openNode` that follows a symbolic link, from the working directory. -/
def followLink (s : FileSystem) (caller : Caller) (flags : OpenFlags) (entry : VNodeId) :
    Outcome VNodeId :=
  if (s.nodes entry).isSymlink && !flags.O_NOFOLLOW then
    match (s.nodes entry).readlink caller.tty with
    | .error e => some (.error e, s)
    | .ok target =>
        (s.resolve caller (Path.ofName target) true).andThen fun entry s₁ =>
          (s₁.effectiveVNode entry).map fun node => (.ok node, s₁)
  else
    some (.ok entry, s)

theorem openNode_eq_followLink {directory entry : VNodeId}
    (hlookup : (s.nodes directory).lookup path.last = .ok (some entry)) :
    s.openNode caller path flags directory =
      (s.followLink caller flags entry).andThen fun node s₁ =>
        if (flags.O_DIRECTORY || path.trailingSlash) && !(s₁.nodes node).isDirectory then
          some (.error .ENOTDIR, s₁)
        else
          some (.ok node, s₁) := by
  rw [openNode, hlookup]
  rfl

theorem followLink_extends (h : s.CacheShape) (hcaller : s.KnownCaller caller) {entry : VNodeId}
    {r : Except Errno VNodeId} (heq : s.followLink caller flags entry = some (r, s')) :
    s.Extends s' := by
  unfold followLink at heq
  split at heq
  · split at heq
    · obtain ⟨_, rfl⟩ := Prod.mk.inj (Option.some.inj heq)
      exact .refl h
    · rename_i target _
      cases hresolve : s.resolve caller (Path.ofName target) true with
      | none => simp [hresolve, Outcome.andThen] at heq
      | some result =>
          obtain ⟨found, s₁⟩ := result
          have hextends := (resolve_finds h hcaller _ true _ _ hresolve).1
          rw [hresolve] at heq
          cases found with
          | error e =>
              obtain ⟨_, rfl⟩ := Prod.mk.inj (Option.some.inj heq)
              exact hextends
          | ok d =>
              obtain ⟨_, _, hpair⟩ := Option.map_eq_some_iff.mp heq
              obtain ⟨_, rfl⟩ := Prod.mk.inj hpair
              exact hextends
  · obtain ⟨_, rfl⟩ := Prod.mk.inj (Option.some.inj heq)
    exact .refl h

theorem followLink_ok (h : s.CacheShape) (hcaller : s.KnownCaller caller) {entry node : VNodeId} :
    (∃ s', s.followLink caller flags entry = some (.ok node, s')) ↔
      s.OpensEntry caller flags entry node := by
  unfold followLink OpensEntry StandsFor
  cases hfollow : flags.O_NOFOLLOW with
  | true => simp
  | false =>
      by_cases hlink : (s.nodes entry).isSymlink = true
      · simp only [hlink, Bool.not_false, Bool.and_true, if_true, Bool.false_eq_true, if_false]
        cases (s.nodes entry).readlink caller.tty with
        | error e => simp
        | ok target =>
            simp only [Except.ok.injEq, exists_and_left, exists_eq_left', ← resolvesTo_iff h hcaller]
            exact resolve_map_ok
      · simp [hlink]

/-- The end of `open`, for a name that the directory has. -/
theorem openNode_opens (h : s.CacheShape) (hcaller : s.KnownCaller caller)
    {directory entry node : VNodeId}
    (hlookup : (s.nodes directory).lookup path.last = .ok (some entry)) :
    (∃ s', s.openNode caller path flags directory = some (.ok node, s')) ↔
      s.OpensEntry caller flags entry node ∧
        ((flags.O_DIRECTORY || path.trailingSlash) = true → (s.nodes node).isDirectory = true) := by
  rw [openNode_eq_followLink hlookup, ← followLink_ok h hcaller]
  simp only [andThen_ok]
  constructor
  · rintro ⟨s', found, s₁, hfollow, heq⟩
    have hnodes := (followLink_extends h hcaller hfollow).nodes
    split at heq
    · simp at heq
    · rename_i hkind
      obtain ⟨hok, rfl⟩ := Prod.mk.inj (Option.some.inj heq)
      obtain rfl := Except.ok.inj hok
      refine ⟨⟨_, hfollow⟩, fun hasked => ?_⟩
      rw [← hnodes]
      simpa [hasked] using hkind
  · rintro ⟨⟨s₁, hfollow⟩, hkind⟩
    refine ⟨s₁, node, s₁, hfollow, if_neg ?_⟩
    rw [(followLink_extends h hcaller hfollow).nodes]
    intro hasked
    rw [Bool.and_eq_true] at hasked
    simp [hkind hasked.1] at hasked

theorem Extends.standsFor (h : s.Extends s') {entry node : VNodeId} :
    s'.StandsFor tty n start entry node ↔ s.StandsFor tty n start entry node := by
  simp only [StandsFor, h.nodes, h.denotes, h.effectiveVNode]

end FileSystem

namespace Vfs

variable {s s' : Vfs}

/-- What holds in every state: the shape of the cache, and working directories that
are in use and have a node. -/
structure Shaped (s : Vfs) : Prop where
  fs : s.fs.CacheShape
  cwd : ∀ task d, s.cwd task = some d →
    s.fs.Known d ∧ ∃ node, s.fs.effectiveVNode d = some node

theorem Shaped.settled (h : s.Shaped) (request : Request) : s.fs.Settled (s.caller request) :=
  ⟨fun d hd => (h.cwd request.task d hd).1, fun d hd => (h.cwd request.task d hd).2⟩

theorem load_shaped (nodes : VNodeId → VNode) (nextNode rootNode : VNodeId) :
    (load nodes nextNode rootNode).Shaped := by
  refine ⟨⟨fun _ _ _ hcache => (by cases hcache), ?_, ?_⟩, fun _ _ hd => (by cases hd)⟩
  · intro d d' hd hd' _
    rw [load_known hd, load_known hd']
  · intro d hd
    rw [load_known hd]
    exact Nat.le_refl 1

/-- No operation needs more than the shape of the cache to keep it. -/
theorem Shaped.leaves (h : s.Shaped) (request : Request) :
    s.Leaves (fun _ => True) request := by
  have hcaller := (h.settled request).known
  have hany : FileSystem.Lookable fun _ => True := fun _ _ _ _ => trivial
  have hadd : ∀ (fs : FileSystem) directory name target, fs.CacheShape →
      fs.Leaves (fun _ => True) (fs.addEntry directory name target) := by
    intro fs directory name target hfs
    unfold FileSystem.addEntry
    split
    · exact .done (hfs.outlasts _ _) trivial _
    · exact .same hfs trivial _
  have hnew : ∀ (fs : FileSystem) directory name vnode, fs.CacheShape →
      fs.Leaves (fun _ => True) (fs.addNode directory name vnode) := by
    intro fs directory name vnode hfs
    unfold FileSystem.addNode
    split
    · exact .done (hfs.outlasts _ _) trivial _
    · exact .same hfs trivial _
  unfold Leaves
  cases request.call with
  | resolve => trivial
  | chdir => trivial
  | «open» name flags =>
      refine FileSystem.open_leaves hany h.fs trivial hcaller name flags ?_
      exact fun s₁ _ directory _ hs₁ _ _ _ _ => hnew s₁ directory _ _ hs₁.shape
  | link oldname newname =>
      refine (FileSystem.resolve_leaves hany h.fs trivial hcaller _ _).andThen ?_
      intro oldEntry s₁ _ hs₁ _
      refine FileSystem.newEntry_leaves hany hs₁.shape trivial (hs₁.knownCaller hcaller) newname ?_
      exact fun s₂ _ directory _ hs₂ _ _ _ _ => .bind fun target _ =>
        hadd s₂ directory _ target hs₂.shape
  | symlink oldname newname =>
      refine FileSystem.newEntry_leaves hany h.fs trivial hcaller newname ?_
      exact fun s₁ _ directory _ hs₁ _ _ _ _ => hnew s₁ directory _ _ hs₁.shape
  | unlink pathname =>
      refine FileSystem.unlink_leaves hany h.fs trivial hcaller pathname ?_
      intro entry s₁ _ _ hs₁ _ _ _
      cases entry with
      | root => intro r s' heq; cases heq
      | child id parent node name =>
          refine .bind fun directory _ => ?_
          split
          · exact .done (hs₁.shape.outlasts _ _) trivial _
          · exact .same hs₁.shape trivial _
  | createTask => trivial
  | fork => trivial

theorem Shaped.step (h : s.Shaped) {request : Request} (heq : s.step request = some s') :
    s'.Shaped := by
  have hadvances := step_advances (fun _ _ _ _ => trivial) h.fs trivial
    (h.settled request).known (h.leaves request) heq
  refine ⟨hadvances.outlasts.shape, fun task d hd => ⟨?_, ?_⟩⟩
  · exact hadvances.known (fun task d hd => (h.cwd task d hd).1) task d hd
  · rcases hadvances.cwd task d hd with ⟨other, hother⟩ | rfl | ⟨_, hnode⟩
    · rw [hadvances.outlasts.effectiveVNode]
      exact (h.cwd other d hother).2
    · exact ⟨_, rfl⟩
    · exact hnode

/-- A directory with a file, a relative and an absolute link to it. -/
def linkTree : VNodeId → VNode
  | 0 => .directory [(['d'], 1)]
  | 1 => .directory [(['f'], 2), (['l'], 3), (['m'], 4)]
  | 3 => .symlink ['f']
  | 4 => .symlink ['/', 'd', '/', 'f']
  | _ => .regular

/-- After a task was created, its working directory is the root. -/
def linkVfs : Vfs := { load linkTree 5 0 with cwd := Function.update (fun _ => none) 1 (some .root) }

theorem linkVfs_run :
    Run step anyStep (load linkTree 5 0) [⟨1, .error Errno.ENXIO, .createTask 1⟩] linkVfs :=
  Run.snoc (Run.nil _) trivial rfl

def linkCaller : FileSystem.Caller := linkVfs.caller ⟨1, .error Errno.ENXIO, .fork 2⟩

end Vfs

end Nyan.Fs
