import Nyan.Fs.NodeKinds

/-!
What `unlink` removes. It resolves its path with links followed and removes the
entry that it arrives at, so a path that ends in a symbolic link loses the entry
of the target and keeps the link. Otherwise exactly the named entry goes, and a
failing `unlink` changes no directory.
-/

namespace Nyan.Fs

open Library

/-- With distinct names the first entry of a name is the only one. -/
theorem eraseP_eq_filter (name : Name) {entries : List (Name × VNodeId)}
    (h : (entries.map Prod.fst).Nodup) :
    (entries.eraseP fun entry => entry.1 = name) = entries.filter fun entry => entry.1 ≠ name := by
  induction entries with
  | nil => rfl
  | cons entry rest ih =>
      rw [List.map_cons, List.nodup_cons] at h
      by_cases hname : entry.1 = name
      · have hrest : ∀ other ∈ rest, other.1 ≠ name := by
          rintro other hother rfl
          exact h.1 (hname ▸ List.mem_map_of_mem hother)
        rw [List.eraseP_cons_of_pos (by simpa using hname),
          List.filter_cons_of_neg (by simpa using hname), List.filter_eq_self.mpr]
        exact fun other hother => by simpa using hrest other hother
      · rw [List.eraseP_cons_of_neg (by simpa using hname),
          List.filter_cons_of_pos (by simpa using hname), ih h.2]

namespace VNode

variable {vnode vnode' : VNode} {name : Name}

/-- `unlink` succeeds in a directory that has the name, and leaves the others. -/
theorem unlink_ok_iff (hdistinct : (vnode.entries.map Prod.fst).Nodup) :
    vnode.unlink name = .ok vnode' ↔
      ∃ entries child, vnode = .directory entries ∧ (name, child) ∈ entries ∧
        vnode' = .directory (entries.filter fun entry => entry.1 ≠ name) := by
  cases vnode with
  | directory entries =>
      have hany : (entries.any fun entry => entry.1 = name) = true ↔
          ∃ child, (name, child) ∈ entries := by
        simp only [List.any_eq_true, decide_eq_true_eq, Prod.exists]
        constructor
        · rintro ⟨_, child, hentry, rfl⟩
          exact ⟨child, hentry⟩
        · rintro ⟨child, hentry⟩
          exact ⟨name, child, hentry, rfl⟩
      have hfilter : (entries.eraseP fun entry => entry.1 = name) = _ :=
        eraseP_eq_filter name hdistinct
      simp only [unlink, hfilter]
      split
      · rename_i hheld
        obtain ⟨child, hchild⟩ := hany.mp hheld
        constructor
        · intro h
          exact ⟨entries, child, rfl, hchild, (Except.ok.inj h).symm⟩
        · rintro ⟨_, _, hentries, _, rfl⟩
          rw [VNode.directory.inj hentries]
      · rename_i hmissing
        constructor
        · intro h
          cases h
        · rintro ⟨_, child, hentries, hchild, _⟩
          rw [← VNode.directory.inj hentries] at hchild
          exact absurd (hany.mpr ⟨child, hchild⟩) hmissing
  | regular | symlink | dynamicSymlink | charDevice => simp [unlink]

end VNode

namespace FileSystem

variable {s s' : FileSystem} {place goal : DEntry} {name : Name} {kinds : VNodeId → Bool}
  {caller : Caller} {path : Path} {directory : VNodeId}

/-- One entry of a directory is gone, and nothing else has changed. -/
def Drops (s s' : FileSystem) (directory : VNodeId) (name : Name) : Prop :=
  ∃ entries child, s.nodes directory = .directory entries ∧ (name, child) ∈ entries ∧
    s'.nodes = Function.update s.nodes directory
      (.directory (entries.filter fun entry => entry.1 ≠ name))

/-- `unlink` removes the entry for the last name from the directory of the path, or
changes nothing. -/
def UnlinksNamed (s : FileSystem) (caller : Caller) (pathname : Name) : Prop :=
  (∀ s', s.unlink caller pathname = some (.ok (), s') →
    ∃ directory, s.ResolvesTo caller (Path.ofName pathname).parent directory ∧
      s.Drops s' directory (Path.ofName pathname).last) ∧
  ∀ e s', s.unlink caller pathname = some (.error e, s') → s'.nodes = s.nodes

/-- A place that is not a directory, and whose directory still has its name. -/
def Removable (s : FileSystem) (goal : DEntry) (directory : VNodeId) (name : Name) : Prop :=
  ∃ id parent node child, goal = .child id parent (some node) name ∧
    (s.nodes node).isDirectory = false ∧ s.effectiveVNode parent = some directory ∧
    (name, child) ∈ (s.nodes directory).entries

/-- The last name of a path is a symbolic link, and it leads to another entry that
can be removed. -/
def Strays (s : FileSystem) (caller : Caller) (path : Path) : Prop :=
  ∃ place entry goal directory name, path.portions ≠ [] ∧ path.last ≠ ['.', '.'] ∧
    s.Denotes caller.tty 9 path.parent (caller.cwd.map DEntry.erase) place ∧
    s.Sees place path.last (.ok (some entry)) ∧ (s.nodes entry).isSymlink = true ∧
    s.LinkLeads caller.tty 9 place entry goal ∧ s.Removable goal directory name ∧
    ¬ (s.effectiveVNode place = some directory ∧ name = path.last)

theorem Drops.not_mem (h : s.Drops s' directory name) (child : VNodeId) :
    (name, child) ∉ (s'.nodes directory).entries := by
  obtain ⟨entries, _, _, _, hnodes⟩ := h
  simp [hnodes, VNode.entries]

/-- Only one entry is gone. -/
theorem Drops.unique {directory' : VNodeId} {name' : Name} (h : s.Drops s' directory name)
    (h' : s.Drops s' directory' name') : directory = directory' ∧ name = name' := by
  have hgone := h.not_mem
  obtain ⟨entries, child, hentries, hchild, _⟩ := h
  obtain ⟨entries', _, hentries', _, hnodes'⟩ := h'
  have hsame : directory = directory' := by
    by_contra hne
    refine hgone child ?_
    rw [hnodes', Function.update_of_ne hne, hentries]
    exact hchild
  subst hsame
  refine ⟨rfl, ?_⟩
  obtain rfl := VNode.directory.inj (hentries.symm.trans hentries')
  by_contra hne
  refine hgone child ?_
  rw [hnodes', Function.update_self]
  exact List.mem_filter.mpr ⟨hchild, by simpa using hne⟩

/-- `removeEntry` takes a name that the directory has, and changes nothing else. -/
theorem removeEntry_ok_iff {id : Nat} {parent : DEntry} {node : Option VNodeId}
    (hdistinct : ∀ node, ((s.nodes node).entries.map Prod.fst).Nodup)
    (hdirectory : s.effectiveVNode parent = some directory) :
    (∃ s', s.removeEntry (.child id parent node name) = some (.ok (), s')) ↔
      ∃ child, (name, child) ∈ (s.nodes directory).entries := by
  simp only [removeEntry, hdirectory, Option.bind_some]
  constructor
  · rintro ⟨s', heq⟩
    split at heq
    · rename_i vnode hunlink
      obtain ⟨entries, child, hentries, hchild, _⟩ :=
        (VNode.unlink_ok_iff (hdistinct directory)).mp hunlink
      exact ⟨child, by rw [hentries]; exact hchild⟩
    · cases heq
  · rintro ⟨child, hchild⟩
    cases hnode : s.nodes directory with
    | directory entries =>
        rw [hnode] at hchild
        have hunlink : (VNode.directory entries).unlink name = .ok _ :=
          (VNode.unlink_ok_iff (hnode ▸ hdistinct directory)).mpr
            ⟨entries, child, rfl, hchild, rfl⟩
        simp only [hunlink]
        exact ⟨_, rfl⟩
    | regular | symlink | dynamicSymlink | charDevice => simp [hnode, VNode.entries] at hchild

theorem removeEntry_drops {id : Nat} {parent : DEntry} {node : Option VNodeId}
    (hdistinct : ∀ node, ((s.nodes node).entries.map Prod.fst).Nodup)
    (hdirectory : s.effectiveVNode parent = some directory)
    (heq : s.removeEntry (.child id parent node name) = some (.ok (), s')) :
    s.Drops s' directory name := by
  simp only [removeEntry, hdirectory, Option.bind_some] at heq
  split at heq
  · rename_i vnode hunlink
    obtain ⟨entries, child, hentries, hchild, rfl⟩ :=
      (VNode.unlink_ok_iff (hdistinct directory)).mp hunlink
    obtain rfl := (Prod.mk.inj (Option.some.inj heq)).2
    exact ⟨entries, child, hentries, hchild, rfl⟩
  · cases heq

theorem removeEntry_error {entry : DEntry} {e : Errno}
    (heq : s.removeEntry entry = some (.error e, s')) : s' = s := by
  cases entry with
  | root => cases heq
  | child id parent node name =>
      obtain ⟨directory, _, heq⟩ := Option.bind_eq_some_iff.mp heq
      split at heq
      · cases heq
      · exact (Prod.mk.inj (Option.some.inj heq)).2.symm

theorem Extends.drops {s₁ : FileSystem} (h : s.Extends s₁) :
    s₁.Drops s' directory name ↔ s.Drops s' directory name := by
  simp only [Drops, h.nodes]

theorem Extends.removable (h : s.Extends s') :
    s'.Removable goal directory name ↔ s.Removable goal directory name := by
  simp only [Removable, h.nodes, h.effectiveVNode]

theorem removable_erase : s.Removable goal.erase directory name ↔ s.Removable goal directory name := by
  cases goal with
  | root => simp [Removable, DEntry.erase]
  | child id parent next name' =>
      simp only [Removable, DEntry.erase, DEntry.child.injEq]
      constructor
      · rintro ⟨_, _, node, child, ⟨rfl, rfl, rfl, rfl⟩, hfile, hparent, hchild⟩
        rw [effectiveVNode_erase] at hparent
        exact ⟨id, parent, node, child, ⟨rfl, rfl, rfl, rfl⟩, hfile, hparent, hchild⟩
      · rintro ⟨_, _, node, child, ⟨rfl, rfl, rfl, rfl⟩, hfile, hparent, hchild⟩
        exact ⟨0, parent.erase, node, child, ⟨rfl, rfl, rfl, rfl⟩, hfile,
          by rwa [effectiveVNode_erase], hchild⟩

section Unlink

variable {pathname : Name} (h : s.Lodged kinds caller)

include h

/-- A successful `unlink` takes the entry that its path leads to. -/
theorem unlink_removes (heq : s.unlink caller pathname = some (.ok (), s')) :
    ∃ goal directory name,
      s.Denotes caller.tty 9 (Path.ofName pathname) (caller.cwd.map DEntry.erase) goal ∧
      s.Removable goal directory name ∧ s.Drops s' directory name := by
  obtain ⟨entry, s₁, hresolve, heq⟩ := andThen_ok.mp heq
  obtain ⟨node, hnode, heq⟩ := Option.bind_eq_some_iff.mp heq
  have hextends := (resolve_finds h.shape h.known _ true _ _ hresolve).1
  have hdistinct := (hextends.directoriesOk h.kinded.directories).distinct
  split at heq
  · cases heq
  rename_i hfile
  cases entry with
  | root => cases heq
  | child id parent next name =>
      obtain rfl : next = some node := hnode
      obtain ⟨directory, hdirectory, _⟩ := Option.bind_eq_some_iff.mp heq
      obtain ⟨child, hchild⟩ := (removeEntry_ok_iff hdistinct hdirectory).mp ⟨s', heq⟩
      refine ⟨_, directory, name, (resolve_endsAt h.shape h.known _).mp ⟨_, s₁, hresolve, rfl⟩,
        ?_, hextends.drops.mp (removeEntry_drops hdistinct hdirectory heq)⟩
      rw [removable_erase, ← hextends.removable]
      exact ⟨id, parent, node, child, rfl, by simpa using hfile, hdirectory, hchild⟩

/-- What a path leads to is removed if it can be. -/
theorem unlink_of_removable
    (hgoal : s.Denotes caller.tty 9 (Path.ofName pathname) (caller.cwd.map DEntry.erase) goal)
    (hremovable : s.Removable goal directory name) :
    ∃ s', s.unlink caller pathname = some (.ok (), s') ∧ s.Drops s' directory name := by
  obtain ⟨entry, s₁, hresolve, rfl⟩ := (resolve_endsAt h.shape h.known _).mpr hgoal
  have hextends := (resolve_finds h.shape h.known _ true _ _ hresolve).1
  have hdistinct := (hextends.directoriesOk h.kinded.directories).distinct
  rw [removable_erase, ← hextends.removable] at hremovable
  obtain ⟨id, parent, node, child, rfl, hfile, hdirectory, hchild⟩ := hremovable
  obtain ⟨s', hremove⟩ := (removeEntry_ok_iff hdistinct hdirectory).mpr ⟨child, hchild⟩
  refine ⟨s', andThen_ok.mpr ⟨_, s₁, hresolve, ?_⟩,
    hextends.drops.mp (removeEntry_drops hdistinct hdirectory hremove)⟩
  simpa [FileSystem.effectiveVNode, hfile] using hremove

/-- A failing `unlink` changes no directory. -/
theorem unlink_error {e : Errno} (heq : s.unlink caller pathname = some (.error e, s')) :
    s'.nodes = s.nodes := by
  unfold unlink at heq
  cases hresolve : s.resolve caller (Path.ofName pathname) true with
  | none =>
      rw [hresolve] at heq
      cases heq
  | some result =>
      obtain ⟨result, s₁⟩ := result
      have hextends := (resolve_finds h.shape h.known _ true _ _ hresolve).1
      rw [hresolve] at heq
      cases result with
      | error e' =>
          obtain rfl := (Prod.mk.inj (Option.some.inj heq)).2
          exact hextends.nodes
      | ok entry =>
          obtain ⟨node, _, heq⟩ := Option.bind_eq_some_iff.mp heq
          split at heq
          · obtain rfl := (Prod.mk.inj (Option.some.inj heq)).2
            exact hextends.nodes
          · rw [removeEntry_error heq]
            exact hextends.nodes

/-- A path that leads to something removable ends in a name: in that entry itself,
or in a symbolic link to it. -/
theorem Lodged.last_of_removable
    (hgoal : s.Denotes caller.tty 9 path (caller.cwd.map DEntry.erase) goal)
    (hremovable : s.Removable goal directory name) :
    path.portions ≠ [] ∧ path.last ≠ ['.', '.'] ∧ ∃ place entry,
      s.Denotes caller.tty 9 path.parent (caller.cwd.map DEntry.erase) place ∧
      s.Sees place path.last (.ok (some entry)) ∧
      if (s.nodes entry).isSymlink then s.LinkLeads caller.tty 9 place entry goal
      else goal = .child 0 place (some entry) path.last := by
  have hfile : ¬ s.IsDirectory goal := by
    obtain ⟨id, parent, node, child, rfl, hfile, _⟩ := hremovable
    rintro ⟨node', hnode, hdirectory⟩
    obtain rfl := Option.some.inj hnode
    rw [hfile] at hdirectory
    cases hdirectory
  have hportions : path.portions ≠ [] := by
    intro hnil
    obtain ⟨_, origin, horigin, hleads⟩ := hgoal
    rw [hnil, leads_nil] at hleads
    exact hfile (hleads ▸ (h.origin horigin).1)
  obtain ⟨place, hplace, hlast⟩ := (denotes_last hgoal.1 hportions).mp hgoal
  have hname : path.last ≠ ['.', '.'] := by
    intro hup
    rw [hup, leads_up, leads_nil] at hlast
    exact hfile (hlast ▸ (h.standing hplace).isDirectory_up h.kinded)
  refine ⟨hportions, hname, place, ?_⟩
  obtain ⟨entry, hsees, hnext⟩ := (leads_name hname).mp hlast
  refine ⟨entry, hplace, hsees, ?_⟩
  split at hnext
  · rename_i hlink
    obtain ⟨middle, hleads, hend⟩ := hnext
    obtain rfl := leads_nil.mp hend
    rwa [if_pos hlink]
  · rename_i hplain
    rw [if_neg hplain]
    exact (leads_nil.mp hnext).symm

/-- `unlink` keeps to the named entry exactly if its path does not end in a
symbolic link to another one. -/
theorem unlinksNamed_iff :
    s.UnlinksNamed caller pathname ↔ ¬ s.Strays caller (Path.ofName pathname) := by
  constructor
  · rintro ⟨hnamed, _⟩ ⟨place, entry, goal, directory, name, hportions, hname, hplace, hsees,
      hlink, hleads, hremovable, hother⟩
    have hvalid := Path.ofName_valid hportions
    have hlast : s.Leads caller.tty 9 place [(Path.ofName pathname).last] goal :=
      (leads_name hname).mpr ⟨entry, hsees, by rw [if_pos hlink]; exact ⟨goal, hleads, .here⟩⟩
    have hgoal := (denotes_last hvalid hportions).mpr ⟨place, hplace, hlast⟩
    obtain ⟨s', hunlink, hdrops⟩ := unlink_of_removable h hgoal hremovable
    obtain ⟨directory', hresolves, hdrops'⟩ := hnamed s' hunlink
    obtain ⟨rfl, rfl⟩ := hdrops.unique hdrops'
    obtain ⟨place', hplace', hdirectory⟩ := (resolvesTo_iff h.shape h.known).mp hresolves
    obtain rfl := hplace.unique h.shape h.known hplace'
    exact hother ⟨hdirectory, rfl⟩
  · intro hstays
    refine ⟨fun s' hunlink => ?_, fun e s' hunlink => unlink_error h hunlink⟩
    obtain ⟨goal, directory, name, hgoal, hremovable, hdrops⟩ := unlink_removes h hunlink
    obtain ⟨hportions, hname, place, entry, hplace, hsees, hlast⟩ :=
      h.last_of_removable hgoal hremovable
    have hsame : s.effectiveVNode place = some directory ∧ name = (Path.ofName pathname).last := by
      split at hlast
      · rename_i hlink
        by_contra hother
        exact hstays ⟨place, entry, goal, directory, name, hportions, hname, hplace, hsees, hlink,
          hlast, hremovable, hother⟩
      · subst hlast
        obtain ⟨_, _, _, _, hchild, _, hdirectory, _⟩ := hremovable
        cases hchild
        exact ⟨hdirectory, rfl⟩
    obtain ⟨hdirectory, rfl⟩ := hsame
    exact ⟨directory, (resolvesTo_iff h.shape h.known).mpr ⟨place, hplace, hdirectory⟩, hdrops⟩

end Unlink

end FileSystem

namespace Vfs

variable {s : Vfs}

/-- In every state of every run, over any directory tree, `unlink` removes exactly
the entry that its path names, or fails and changes no directory, exactly if the
path does not end in a symbolic link to another entry that can be removed. -/
theorem run_unlinksNamed_iff {nodes : VNodeId → VNode} {nextNode rootNode : VNodeId}
    (htree : (load nodes nextNode rootNode).fs.DirectoriesOk) {requests : List Request}
    (hrun : Run step anyStep (load nodes nextNode rootNode) requests s) (request : Request)
    (pathname : Name) :
    s.fs.UnlinksNamed (s.caller request) pathname ↔
      ¬ s.fs.Strays (s.caller request) (Path.ofName pathname) :=
  FileSystem.unlinksNamed_iff ((run_kinded htree hrun).lodged request)

/-- The file, removed by its own name. -/
theorem run_unlinksNamed_iff_file :
    linkVfs.fs.UnlinksNamed linkCaller ['d', '/', 'f'] ∧
      ¬ linkVfs.fs.Strays linkCaller (Path.ofName ['d', '/', 'f']) := by
  obtain ⟨s', hunlink, hdrops⟩ : ∃ s', linkVfs.fs.unlink linkCaller ['d', '/', 'f'] =
      some (.ok (), s') ∧ linkVfs.fs.Drops s' 1 ['f'] :=
    ⟨_, rfl, _, 2, rfl, List.mem_cons_self, rfl⟩
  have hresolves : linkVfs.fs.ResolvesTo linkCaller (Path.ofName ['d', '/', 'f']).parent 1 :=
    ⟨_, _, rfl, rfl⟩
  have hnamed : linkVfs.fs.UnlinksNamed linkCaller ['d', '/', 'f'] := by
    constructor
    · intro s₁ hunlink₁
      obtain rfl := (Prod.mk.inj (Option.some.inj (hunlink.symm.trans hunlink₁))).2
      exact ⟨1, hresolves, hdrops⟩
    · intro e s₁ hunlink₁
      cases hunlink.symm.trans hunlink₁
  exact ⟨hnamed, (run_unlinksNamed_iff linkTree_directoriesOk linkVfs_run
    ⟨1, .error Errno.ENXIO, .fork 2⟩ ['d', '/', 'f']).mp hnamed⟩

/-- The task removes the link `/d/l` to the file `/d/f`: the file's name is gone, and
the link is still there. -/
theorem unlink_removes_target_of_link :
    Run step anyStep (load linkTree 5 0) [⟨1, .error Errno.ENXIO, .createTask 1⟩] linkVfs ∧
      linkVfs.fs.ResolvesTo linkCaller (Path.ofName ['/', 'd', '/', 'l']).parent 1 ∧
      (∃ s', linkVfs.fs.unlink linkCaller ['/', 'd', '/', 'l'] = some (.ok (), s') ∧
        (s'.nodes 1).lookup ['l'] = .ok (some 3) ∧ (s'.nodes 1).lookup ['f'] = .error .ENOENT) ∧
      ¬ linkVfs.fs.UnlinksNamed linkCaller ['/', 'd', '/', 'l'] := by
  have hresolves : linkVfs.fs.ResolvesTo linkCaller (Path.ofName ['/', 'd', '/', 'l']).parent 1 :=
    ⟨_, _, rfl, rfl⟩
  obtain ⟨s', hunlink, hlink, hfile, hdrops⟩ :
      ∃ s', linkVfs.fs.unlink linkCaller ['/', 'd', '/', 'l'] = some (.ok (), s') ∧
        (s'.nodes 1).lookup ['l'] = .ok (some 3) ∧ (s'.nodes 1).lookup ['f'] = .error .ENOENT ∧
        linkVfs.fs.Drops s' 1 ['f'] :=
    ⟨_, rfl, rfl, rfl, _, 2, rfl, List.mem_cons_self, rfl⟩
  refine ⟨linkVfs_run, hresolves, ⟨s', hunlink, hlink, hfile⟩, ?_⟩
  rintro ⟨hnamed, _⟩
  obtain ⟨directory, _, hdrops'⟩ := hnamed s' hunlink
  have hname := (hdrops.unique hdrops').2
  cases hname

end Vfs

end Nyan.Fs
