import Nyan.Fs.NodeKinds

/-!
Where `resolve` and `open` end. A node that is not a directory answers the lookup of any
name with success and a null node, but no path that is resolved ends at a place without a
node; `open` looks its last name up in the directory that the rest of the path leads to.
-/

namespace Nyan.Fs

open Library

namespace VNode

variable {vnode : VNode} {name : Name} {target : VNodeId}

/-- A name that is missing can be added, and is found then. -/
theorem addEntry_of_missing (h : vnode.lookup name = .error .ENOENT) (target : VNodeId) :
    ∃ vnode', vnode.addEntry name target = .ok vnode' ∧ vnode'.lookup name = .ok (some target) := by
  cases vnode with
  | directory entries =>
      have hfind : (entries.find? fun entry => entry.1 = name) = none := by
        simp only [lookup] at h
        split at h
        · cases h
        · assumption
      have hany : (entries.any fun entry => entry.1 = name) = false := by
        simpa [List.find?_eq_none] using hfind
      refine ⟨.directory (entries ++ [(name, target)]), by simp [addEntry, hany], ?_⟩
      simp [lookup, List.find?_append, hfind]
  | regular | symlink | dynamicSymlink | charDevice => cases h

end VNode

namespace FileSystem

variable {s s' : FileSystem} {d place : DEntry} {name : Name} {kinds : VNodeId → Bool}
  {caller : Caller} {path : Path} {flags : OpenFlags} {directory : VNodeId}
  {tty : Except Errno Name} {n : Nat} {start : Option DEntry}

theorem SameNodes.isDirectory (h : s.SameNodes s') :
    s'.IsDirectory place ↔ s.IsDirectory place := by
  simp only [IsDirectory, h.nodes, effectiveVNode_eq h rfl]

theorem Extends.sameNodes (h : s.Extends s') : s.SameNodes s' := ⟨h.nodes, h.rootNode⟩

/-- `resolve` ends at places that have a node. -/
theorem resolveLoop_node (h : s.CacheShape) (hstart : ∀ d, start = some d → s.Known d ∧
      ∃ node, s.effectiveVNode d = some node)
    (heq : resolveLoop lookup tty n s path true start = some (.ok d, s')) :
    ∃ node, s'.effectiveVNode d = some node := by
  have hextends := (resolveLoop_finds n path h (fun e he => (hstart e he).1) _ _ heq).1
  obtain ⟨m, _, _, origin, horigin, hleads⟩ :=
    (resolveLoop_endsAt n path h fun e he => (hstart e he).1).mp ⟨d, s', heq, rfl⟩
  have hsolid : ∀ e, start.map DEntry.erase = some e → s.Solid e := by
    intro e he
    obtain ⟨e', he', rfl⟩ := Option.map_eq_some_iff.mp he
    obtain ⟨hknown, node, hnode⟩ := hstart e' he'
    exact h.solid hknown hnode
  obtain ⟨node, hnode⟩ := (Solid.leads hleads (Solid.origin hsolid horigin)).node
  rw [effectiveVNode_erase] at hnode
  exact ⟨node, by rwa [hextends.effectiveVNode]⟩

theorem Extends.lodged (h : s.Extends s') (hlodged : s.Lodged kinds caller) :
    s'.Lodged kinds caller := by
  refine ⟨h.shape, kinded_lookable s s' h hlodged.kinded,
    fun d hd => h.known d (hlodged.known d hd), fun d hd => ?_⟩
  rw [h.sameNodes.isDirectory]
  exact hlodged.cwd d hd

/-- What is known after a successful `resolve`. -/
structure Reached (kinds : VNodeId → Bool) (s s₁ : FileSystem) (caller : Caller) (path : Path)
    (d : DEntry) : Prop where
  grown : s.Extends s₁
  lodged : s₁.Lodged kinds caller
  known : s₁.Known d
  node : ∃ node, s₁.effectiveVNode d = some node
  denotes : s.Denotes caller.tty 9 path (caller.cwd.map DEntry.erase) d.erase

theorem resolve_reached {s₁ : FileSystem} (h : s.Lodged kinds caller)
    (heq : s.resolve caller path true = some (.ok d, s₁)) : s.Reached kinds s₁ caller path d := by
  obtain ⟨hextends, hknown⟩ := resolve_finds h.shape h.known path true _ _ heq
  refine ⟨hextends, hextends.lodged h, hknown d rfl, ?_,
    (resolve_endsAt h.shape h.known path).mp ⟨d, s₁, heq, rfl⟩⟩
  refine resolveLoop_node h.shape (fun e he => ?_) heq
  obtain ⟨node, hnode, _⟩ := h.cwd e he
  exact ⟨h.known e he, node, hnode⟩

/-- `open` in the directory of the path. -/
def openAt (s : FileSystem) (caller : Caller) (path : Path) (flags : OpenFlags)
    (directory : VNodeId) : Outcome VNodeId :=
  match (s.nodes directory).lookup path.last with
  | .error e =>
      if e ≠ .ENOENT then
        some (.error e, s)
      else if flags.O_CREAT && !path.trailingSlash then
        (s.addNode directory path.last .regular).andThen fun _ s₂ =>
          s₂.openNode caller path flags directory
      else
        some (.error .ENOENT, s)
  | .ok _ =>
      if flags.O_CREAT && flags.O_EXCL then
        some (.error .EEXIST, s)
      else
        s.openNode caller path flags directory

theorem open_eq_openAt (hvalid : (Path.ofName name).invalid = false)
    (hportions : (Path.ofName name).portions ≠ []) :
    s.open caller name flags =
      (s.resolve caller (Path.ofName name).parent true).andThen fun d s₁ =>
        (s₁.effectiveVNode d).bind fun directory =>
          s₁.openAt caller (Path.ofName name) flags directory := by
  simp only [FileSystem.open, hvalid, hportions, Bool.false_eq_true, if_false]
  rfl

/-- A new node in a directory without its name. -/
theorem addNode_of_missing (h : s.Kinded kinds)
    (hmissing : (s.nodes directory).lookup name = .error .ENOENT) (vnode : VNode) :
    ∃ s₂, s.addNode directory name vnode = some (.ok (), s₂) ∧
      (s₂.nodes directory).lookup name = .ok (some s.nextNode) ∧ s₂.nodes s.nextNode = vnode := by
  obtain ⟨updated, hadd, hlookup⟩ := VNode.addEntry_of_missing hmissing s.nextNode
  have hne := h.ne_nextNode (VNode.isDirectory_of_addEntry hadd)
  unfold addNode
  rw [hadd]
  refine ⟨_, rfl, ?_, ?_⟩
  · simpa [setNode] using hlookup
  · simp [setNode, Function.update_of_ne (Ne.symm hne)]

/-- A regular file is opened unless a directory is asked for. -/
theorem openNode_regular {node : VNodeId}
    (hlookup : (s.nodes directory).lookup path.last = .ok (some node))
    (hnode : s.nodes node = .regular) :
    s.openNode caller path flags directory =
      if flags.O_DIRECTORY || path.trailingSlash then some (.error .ENOTDIR, s)
      else some (.ok node, s) := by
  simp [openNode, hlookup, hnode, VNode.isSymlink, VNode.isDirectory, Outcome.andThen]

theorem openNode_null (hlookup : (s.nodes directory).lookup path.last = .ok none) :
    s.openNode caller path flags directory = none := by
  simp [openNode, hlookup]

/-- Where a path leads, `resolve` arrives. -/
theorem reached_of_denotes (h : s.Lodged kinds caller)
    (hplace : s.Denotes caller.tty 9 path (caller.cwd.map DEntry.erase) place) :
    ∃ d s₁, s.resolve caller path true = some (.ok d, s₁) ∧ d.erase = place ∧
      s.Reached kinds s₁ caller path d := by
  obtain ⟨d, s₁, heq, herase⟩ := (resolve_endsAt h.shape h.known path).mpr hplace
  exact ⟨d, s₁, heq, herase, resolve_reached h heq⟩

theorem Reached.lookupNode {s₁ : FileSystem} (h : s.Reached kinds s₁ caller path d)
    (hnode : s₁.effectiveVNode d = some directory) (name : Name) :
    s.lookupNode d.erase name = some ((s₁.nodes directory).lookup name) := by
  rw [lookupNode_erase, ← h.grown.lookupNode, FileSystem.lookupNode, hnode]
  rfl

end FileSystem

namespace Vfs

theorem oneFile_directoriesOk : (load oneFile 2 0).fs.DirectoriesOk := by
  refine ⟨rfl, fun node hnode => ?_, fun node => ?_⟩
  · cases node with
    | zero => cases hnode
    | succ => rfl
  · cases node with
    | zero => exact List.nodup_singleton _
    | succ => exact List.nodup_nil

end Vfs

end Nyan.Fs
