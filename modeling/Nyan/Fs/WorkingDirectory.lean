import Nyan.Fs.NodeKinds

/-!
The name of the working directory (`DEntry::asPath` and `getcwd`). It lists the names of
the dentries from the root down. `resolve` goes the same way forward: each dentry is the
one that the cache holds for its name, entries of the cache stay for ever, and what stands
above a working directory is a directory and no link. So the name leads back to the very
dentry.
-/

namespace Nyan.Fs

open Library

namespace DEntry

/-- The path from the root. -/
def asPath : DEntry → Name
  | .root => ['/']
  | .child _ .root _ name => '/' :: name
  | .child _ parent _ name => parent.asPath ++ '/' :: name

/-- The names on the way from the root. -/
def names : DEntry → List Name
  | .root => []
  | .child _ parent _ name => parent.names ++ [name]

/-- No name on the way is empty, `.` or `..`, or has a slash in it. -/
def Named (d : DEntry) : Prop := ∀ name ∈ d.names, Proper name

theorem names_erase (d : DEntry) : d.erase.names = d.names := by
  induction d with
  | root => rfl
  | child id parent node name ih => simp only [erase, names, ih]

/-- The path is absolute. -/
theorem asPath_head (d : DEntry) : ∃ rest, d.asPath = '/' :: rest := by
  induction d with
  | root => exact ⟨[], rfl⟩
  | child id parent node name ih =>
      cases parent with
      | root => exact ⟨name, rfl⟩
      | child id' parent' node' name' =>
          obtain ⟨rest, hrest⟩ := ih
          exact ⟨rest ++ '/' :: name, congrArg (· ++ '/' :: name) hrest⟩

theorem Named.up {d : DEntry} (h : d.Named) : d.up.Named := by
  cases d with
  | root => exact h
  | child id parent node name => exact fun other hother => h other (List.mem_append_left _ hother)

theorem Named.child {d : DEntry} (h : d.Named) {name : Name} (hname : Proper name) (id : Nat)
    (node : Option VNodeId) : (DEntry.child id d node name).Named := by
  intro other hother
  rcases List.mem_append.mp hother with hold | hnew
  · exact h other hold
  · rw [List.mem_singleton.mp hnew]
    exact hname

end DEntry

namespace Path

/-- The portions of a path before a slash and behind it. -/
theorem portions_append (before after : Name) :
    (ofName (before ++ '/' :: after)).portions =
      (ofName before).portions ++ (ofName after).portions := by
  simp only [ofName]
  rw [List.splitOn, List.splitOnP_append_cons _ _ (by simp), List.filter_append]
  rfl

theorem portions_proper {name : Name} (h : Proper name) : (ofName name).portions = [name] := by
  obtain ⟨hnonempty, hslash, hhere, _⟩ := h
  have hsplit : name.splitOn '/' = [name] := by
    refine List.splitOnP_eq_singleton fun c hc => ?_
    simpa using fun heq : c = '/' => hslash (heq ▸ hc)
  simp [ofName, hsplit, hnonempty, hhere]

/-- A portion other than `..` is a proper name. -/
theorem mem_portions_proper {path portion : Name} (h : portion ∈ (ofName path).portions)
    (hup : portion ≠ ['.', '.']) : Proper portion := by
  obtain ⟨hsplit, hkept⟩ := List.mem_filter.mp h
  obtain ⟨hnonempty, hhere⟩ : portion ≠ [] ∧ portion ≠ ['.'] := by simpa using hkept
  exact ⟨hnonempty, not_mem_of_mem_splitOn hsplit, hhere, hup⟩

/-- `asPath` spells the names. -/
theorem portions_asPath {d : DEntry} (h : d.Named) : (ofName d.asPath).portions = d.names := by
  induction d with
  | root => decide
  | child id parent node name ih =>
      have hname : Proper name := h name (by simp [DEntry.names])
      cases parent with
      | root =>
          have hsplit := portions_append [] name
          rw [portions_proper hname] at hsplit
          exact hsplit
      | child id' parent' node' name' =>
          have hparent : (DEntry.child id' parent' node' name').Named := h.up
          refine (portions_append _ name).trans ?_
          rw [ih hparent, portions_proper hname]
          rfl

end Path

namespace FileSystem

variable {s : FileSystem} {tty : Except Errno Name} {n : Nat} {d place goal : DEntry}
  {kinds : VNodeId → Bool} {caller : Caller} {path : Path}

theorem named_origin {start : Option DEntry} (h : ∀ d, start = some d → d.Named)
    {origin : DEntry} (horigin : path.origin start = some origin) : origin.Named := by
  unfold Path.origin at horigin
  split at horigin
  · exact h origin horigin
  · obtain rfl := Option.some.inj horigin
    exact fun _ hname => absurd hname List.not_mem_nil

/-- A path leads from a place with proper names to such a place. -/
theorem Leads.named {portions : List Name} (hleads : s.Leads tty n place portions goal)
    (hportions : ∀ portion ∈ portions, portion ≠ ['.', '.'] → Proper portion)
    (h : place.Named) : goal.Named := by
  induction hleads with
  | here => exact h
  | up _ ih => exact ih (fun portion hin => hportions portion (List.mem_cons_of_mem _ hin)) h.up
  | entry hname _ _ _ ih =>
      exact ih (fun portion hin => hportions portion (List.mem_cons_of_mem _ hin))
        (h.child (hportions _ List.mem_cons_self hname) 0 _)
  | link _ _ _ _ _ hstart _ _ ihInner ih =>
      refine ih (fun portion hin => hportions portion (List.mem_cons_of_mem _ hin)) ?_
      refine ihInner (fun portion hin => Path.mem_portions_proper hin) ?_
      exact named_origin (fun d hd => Option.some.inj hd ▸ h) hstart

/-- The names of a dentry in use lead to it, if it is a directory. -/
theorem leads_names (hshape : s.CacheShape) (hkinded : s.Kinded kinds) (hd : s.Known d)
    (hdirectory : s.IsDirectory d) (hnamed : d.Named) :
    s.Leads tty n .root d.names d.erase := by
  induction d with
  | root => exact .here
  | child id parent node name ih =>
      obtain ⟨hparent, hcache⟩ := hshape.cache_of_known hd
      obtain ⟨v, rfl, hkind⟩ : ∃ v, node = some v ∧ (s.nodes v).isDirectory = true := hdirectory
      have hnode : s.effectiveVNode (.child id parent (some v) name) = some v := rfl
      have hstanding := hkinded.standing hshape hd hnode
      have hsees : s.Sees parent.erase name (.ok (some v)) := .cached hparent rfl hcache
      have hplain : (s.nodes v).isSymlink = false := by
        cases hv : s.nodes v with
        | directory => rfl
        | regular | symlink | dynamicSymlink | charDevice => simp [hv, VNode.isDirectory] at hkind
      have hname : Proper name := hnamed name (by simp [DEntry.names])
      refine Leads.append (ih hparent ?_ hnamed.up) (.entry hname.2.2.2 hsees hplain .here)
      exact (isDirectory_erase parent).mp hstanding.1

/-- `asPath` of a directory in use leads to that very dentry. -/
theorem resolve_asPath (h : s.Lodged kinds caller) (hd : s.Known d)
    (hdirectory : s.IsDirectory d) (hnamed : d.Named) :
    ∃ s', s.resolve caller (Path.ofName d.asPath) true = some (.ok d, s') := by
  obtain ⟨rest, hrest⟩ := d.asPath_head
  have hdenotes : s.Denotes caller.tty 9 (Path.ofName d.asPath) (caller.cwd.map DEntry.erase)
      d.erase := by
    refine ⟨by rw [hrest]; rfl, .root, by rw [hrest]; rfl, ?_⟩
    rw [Path.portions_asPath hnamed]
    exact leads_names h.shape h.kinded hd hdirectory hnamed
  obtain ⟨d', s', hresolve, herase⟩ := (resolve_endsAt h.shape h.known _).mpr hdenotes
  obtain ⟨hextends, hknown⟩ := resolve_finds h.shape h.known _ true _ _ hresolve
  obtain rfl := hextends.shape.erase_injective (hknown d' rfl) (hextends.known d hd) herase
  exact ⟨s', hresolve⟩

/-- Where a path leads from a working directory with proper names, names are proper. -/
theorem resolve_named (h : s.Lodged kinds caller) (hcwd : ∀ d, caller.cwd = some d → d.Named)
    {name : Name} {s' : FileSystem}
    (hresolve : s.resolve caller (Path.ofName name) true = some (.ok d, s')) : d.Named := by
  have hdenotes : s.Denotes caller.tty 9 (Path.ofName name) (caller.cwd.map DEntry.erase) d.erase :=
    (resolve_endsAt h.shape h.known _).mp ⟨d, s', hresolve, rfl⟩
  obtain ⟨_, origin, horigin, hleads⟩ := hdenotes
  have hnamed : d.erase.Named := by
    refine hleads.named (fun portion hin => Path.mem_portions_proper hin) ?_
    refine named_origin (fun cwd hmap => ?_) horigin
    obtain ⟨cwd', hcwd', rfl⟩ := Option.map_eq_some_iff.mp hmap
    rw [DEntry.Named, DEntry.names_erase]
    exact hcwd cwd' hcwd'
  rwa [DEntry.Named, DEntry.names_erase] at hnamed

end FileSystem

namespace Vfs

variable {s s' : Vfs} {kinds : VNodeId → Bool} {request : Request}

/-- `getcwd` into a buffer of `size` bytes that may be written. A task has a working
directory. -/
def getcwd (s : Vfs) (request : Request) (size : Nat) : Option (Except Errno Name) :=
  if size = 0 then
    some (.error .EINVAL)
  else
    (s.cwd request.task).map fun d =>
      if size < d.asPath.length + 1 then .error .ERANGE else .ok d.asPath

/-- What holds in every state: working directories are directories with proper names. -/
structure CwdNamed (kinds : VNodeId → Bool) (s : Vfs) : Prop where
  kinded : s.Kinded kinds
  named : ∀ task d, s.cwd task = some d → d.Named

theorem CwdNamed.step (h : s.CwdNamed kinds) (heq : s.step request = some s') :
    s'.CwdNamed kinds := by
  refine ⟨h.kinded.step heq, fun task d hd => ?_⟩
  rcases step_cwd heq hd with ⟨other, hother⟩ | rfl | ⟨⟨path, fs, hresolve⟩, _⟩
  · exact h.named other d hother
  · exact fun _ hname => absurd hname List.not_mem_nil
  · exact FileSystem.resolve_named (h.kinded.lodged request) (h.named request.task) hresolve

theorem run_cwdNamed {nodes : VNodeId → VNode} {nextNode rootNode : VNodeId}
    (htree : (load nodes nextNode rootNode).fs.DirectoriesOk) {requests : List Request}
    (hrun : Run step anyStep (load nodes nextNode rootNode) requests s) :
    s.CwdNamed fun node => (nodes node).isDirectory :=
  hrun.invariant (fun _ _ _ h _ heq => h.step heq)
    ⟨load_kinded htree, fun _ _ hnone => (by cases hnone)⟩

/-- The name of a working directory leads to it. -/
theorem CwdNamed.resolves (h : s.CwdNamed kinds) {d : DEntry} (hd : s.cwd request.task = some d) :
    ∃ fs, s.fs.resolve (s.caller request) (Path.ofName d.asPath) true = some (.ok d, fs) := by
  have hlodged := h.kinded.lodged request
  exact FileSystem.resolve_asPath hlodged (hlodged.known d hd) (h.kinded.cwd request.task d hd)
    (h.named request.task d hd)

/-- `chdir` to the name of the working directory changes no working directory. -/
theorem chdir_asPath (h : s.CwdNamed kinds) {d : DEntry} (hd : s.cwd request.task = some d) :
    ∃ s', s.chdir request d.asPath = some s' ∧ s'.cwd = s.cwd := by
  have hlodged := h.kinded.lodged request
  obtain ⟨fs, hresolve⟩ := h.resolves hd
  obtain ⟨node, hnode, hkind⟩ := h.kinded.cwd request.task d hd
  have hextends := (FileSystem.resolve_finds hlodged.shape hlodged.known _ true _ _ hresolve).1
  refine ⟨{ fs, cwd := s.cwd }, ?_, rfl⟩
  simp only [chdir, hresolve, Option.bind_eq_bind, Option.bind_some, hextends.effectiveVNode, hnode,
    hextends.nodes, hkind, if_true, Option.pure_def]
  rw [← hd, Function.update_eq_self]

/-- In every state of every run, over any directory tree, the name of a working directory
leads to the very dentry, so `chdir` to what `getcwd` returns does not move the task. -/
theorem run_getcwd_resolves {nodes : VNodeId → VNode} {nextNode rootNode : VNodeId}
    (htree : (load nodes nextNode rootNode).fs.DirectoriesOk) {requests : List Request}
    (hrun : Run step anyStep (load nodes nextNode rootNode) requests s) (request : Request)
    {d : DEntry} (hd : s.cwd request.task = some d) :
    (∃ fs, s.fs.resolve (s.caller request) (Path.ofName d.asPath) true = some (.ok d, fs)) ∧
      ∀ size path, s.getcwd request size = some (.ok path) →
        ∃ s', s.chdir request path = some s' ∧ s'.cwd = s.cwd := by
  have hcwd := run_cwdNamed htree hrun
  refine ⟨hcwd.resolves hd, fun size path hgetcwd => ?_⟩
  have hpath : d.asPath = path := by
    unfold getcwd at hgetcwd
    split at hgetcwd
    · cases hgetcwd
    · rw [hd, Option.map_some, Option.some_inj] at hgetcwd
      split at hgetcwd
      · cases hgetcwd
      · exact Except.ok.inj hgetcwd
  rw [← hpath]
  exact chdir_asPath hcwd hd

/-- A task goes to `/d`. -/
theorem run_getcwd_resolves_subdirectory :
    ∃ requests s, Run step anyStep (load linkTree 5 0) requests s ∧
      s.cwd 1 = some (.child 2 .root (some 1) ['d']) ∧
      ∃ fs, s.fs.resolve (s.caller ⟨1, .error Errno.ENXIO, .fork 2⟩) (Path.ofName ['/', 'd']) true =
        some (.ok (.child 2 .root (some 1) ['d']), fs) := by
  let requests : List Request := [⟨1, .error Errno.ENXIO, .createTask 1⟩,
    ⟨1, .error Errno.ENXIO, .chdir ['/', 'd']⟩]
  obtain ⟨s, hfold, hcwd⟩ : ∃ s ∈ requests.foldlM (guardedStep step anyStep) (load linkTree 5 0),
      s.cwd 1 = some (.child 2 .root (some 1) ['d']) := by
    decide
  have hrun := Run.of_foldlM hfold
  exact ⟨requests, s, hrun, hcwd, (run_getcwd_resolves linkTree_directoriesOk hrun
    ⟨1, .error Errno.ENXIO, .fork 2⟩ hcwd).1⟩

end Vfs

end Nyan.Fs
