import Nyan.Fs.OpenResolve
import Nyan.Library.Acyclic

/-!
The directories as a graph. The three calls that make an entry take its name from
the end of a path, which may be `..`, and `link` makes entries for directories as
well as for files. In every run without a new entry `..` and without a link that
leads back to its own directory, the names stay proper and no directory is
reachable from itself.
-/

namespace Nyan.Fs

open Library Relation

/-- A name for an entry of a directory. -/
def Proper (name : Name) : Prop :=
  name ≠ [] ∧ '/' ∉ name ∧ name ≠ ['.'] ∧ name ≠ ['.', '.']

instance (name : Name) : Decidable (Proper name) :=
  inferInstanceAs (Decidable (_ ∧ _ ∧ _ ∧ _))

theorem not_mem_of_mem_splitOn {c : Char} {path portion : Name}
    (h : portion ∈ path.splitOn c) : c ∉ portion := by
  induction path generalizing portion with
  | nil =>
      obtain rfl : portion = [] := by simpa using h
      exact List.not_mem_nil
  | cons x rest ih =>
      rw [List.splitOn_cons_eq_if_modifyHead] at h
      split at h
      · rcases List.mem_cons.mp h with rfl | hrest
        · exact List.not_mem_nil
        · exact ih hrest
      · rename_i hx
        cases hsplit : rest.splitOn c with
        | nil => simp [hsplit] at h
        | cons first others =>
            rw [hsplit, List.modifyHead_cons] at h
            rcases List.mem_cons.mp h with rfl | hother
            · have hfirst := ih (hsplit ▸ List.mem_cons_self)
              simp only [beq_iff_eq] at hx
              simp [hfirst, Ne.symm hx]
            · exact ih (hsplit ▸ List.mem_cons_of_mem _ hother)

/-- The last portion of a path is a proper name unless it is `..`. -/
theorem Path.last_proper {name : Name} (hportions : (Path.ofName name).portions ≠ [])
    (hup : (Path.ofName name).last ≠ ['.', '.']) : Proper (Path.ofName name).last := by
  have hlast : (Path.ofName name).last ∈ (Path.ofName name).portions := by
    unfold Path.last
    rw [List.getLastD_eq_getLast?, List.getLast?_eq_getLast_of_ne_nil hportions]
    exact List.getLast_mem hportions
  obtain ⟨hsplit, hkept⟩ := List.mem_filter.mp hlast
  obtain ⟨hnonempty, hhere⟩ : _ ≠ [] ∧ _ ≠ ['.'] := by simpa using hkept
  exact ⟨hnonempty, not_mem_of_mem_splitOn hsplit, hhere, hup⟩

namespace VNode

variable {vnode vnode' : VNode} {name : Name} {target : VNodeId}

/-- The entries of a directory; other nodes have none. -/
def entries : VNode → List (Name × VNodeId)
  | .directory entries => entries
  | _ => []

theorem entries_eq_nil (h : vnode.isDirectory = false) : vnode.entries = [] := by
  cases vnode with
  | directory => cases h
  | regular => rfl
  | symlink => rfl
  | dynamicSymlink => rfl
  | charDevice => rfl

/-- Distinct and proper names. -/
structure Named (vnode : VNode) : Prop where
  distinct : (vnode.entries.map Prod.fst).Nodup
  proper : ∀ entry ∈ vnode.entries, Proper entry.1

theorem named_of_file (h : vnode.isDirectory = false) : vnode.Named := by
  constructor <;> simp [entries_eq_nil h]

theorem entries_addEntry (h : vnode.addEntry name target = .ok vnode') :
    vnode'.entries = vnode.entries ++ [(name, target)] := by
  obtain ⟨entries, rfl, rfl, _⟩ := addEntry_ok h
  rfl

theorem isDirectory_of_addEntry (h : vnode.addEntry name target = .ok vnode') :
    vnode.isDirectory = true := by
  obtain ⟨entries, rfl, _⟩ := addEntry_ok h
  rfl

theorem distinct_addEntry (hdistinct : (vnode.entries.map Prod.fst).Nodup)
    (h : vnode.addEntry name target = .ok vnode') : (vnode'.entries.map Prod.fst).Nodup := by
  obtain ⟨entries, rfl, rfl, hnew⟩ := addEntry_ok h
  simp only [VNode.entries, List.map_append, List.map_cons, List.map_nil]
  refine List.nodup_append.mpr ⟨hdistinct, List.nodup_singleton _, ?_⟩
  rintro other hother _ hsame rfl
  rw [List.mem_singleton] at hsame
  exact hnew (hsame ▸ hother)

theorem Named.addEntry (hnamed : vnode.Named) (hname : Proper name)
    (h : vnode.addEntry name target = .ok vnode') : vnode'.Named := by
  refine ⟨distinct_addEntry hnamed.distinct h, ?_⟩
  · intro entry hentry
    rw [entries_addEntry h] at hentry
    rcases List.mem_append.mp hentry with hold | hlast
    · exact hnamed.proper entry hold
    · rw [List.mem_singleton.mp hlast]
      exact hname

/-- `unlink` leaves a directory with some of its entries. -/
theorem unlink_ok (h : vnode.unlink name = .ok vnode') :
    vnode.isDirectory = true ∧ vnode'.entries.Sublist vnode.entries := by
  cases vnode with
  | directory entries =>
      simp only [unlink] at h
      split at h
      · obtain rfl := Except.ok.inj h
        exact ⟨rfl, List.eraseP_sublist⟩
      · cases h
  | regular => cases h
  | symlink => cases h
  | dynamicSymlink => cases h
  | charDevice => cases h

theorem Named.sublist (hnamed : vnode.Named) (h : vnode'.entries.Sublist vnode.entries) :
    vnode'.Named :=
  ⟨(h.map Prod.fst).nodup hnamed.distinct, fun entry hentry => hnamed.proper entry (h.subset hentry)⟩

end VNode

namespace FileSystem

variable {s s' : FileSystem} {caller : Caller}

/-- An entry of the directory `parent` is for the node `child`. -/
def Contains (s : FileSystem) (parent child : VNodeId) : Prop :=
  ∃ name, (name, child) ∈ (s.nodes parent).entries

/-- The entries have distinct proper names, nothing is reachable from itself, and
what does not exist yet is no directory. -/
structure WellFormed (s : FileSystem) : Prop where
  named : ∀ node, (s.nodes node).Named
  acyclic : Acyclic s.Contains
  fresh : ∀ node, s.nextNode ≤ node → (s.nodes node).isDirectory = false

theorem Extends.contains (h : s.Extends s') : s'.Contains = s.Contains := by
  unfold Contains
  rw [h.nodes]

theorem wellFormed_lookable : Lookable WellFormed := by
  intro s s' h hs
  refine ⟨?_, ?_, ?_⟩
  · rw [h.nodes]
    exact hs.named
  · rw [h.contains]
    exact hs.acyclic
  · rw [h.nodes, h.nextNode]
    exact hs.fresh

theorem not_contains_of_file {node : VNodeId} (h : (s.nodes node).isDirectory = false)
    (child : VNodeId) : ¬ s.Contains node child := by
  rintro ⟨name, hentry⟩
  simp [VNode.entries_eq_nil h] at hentry

/-- Only the node itself is reached from a node without entries. -/
theorem reaches_of_file {node other : VNodeId} (h : (s.nodes node).isDirectory = false)
    (hreach : ReflTransGen s.Contains node other) : other = node :=
  (reflTransGen_iff_eq (not_contains_of_file h)).mp hreach

theorem contains_setNode {node parent child : VNodeId} {vnode : VNode}
    (h : (s.setNode node vnode).Contains parent child) :
    parent = node ∧ (∃ name, (name, child) ∈ vnode.entries) ∨ s.Contains parent child := by
  obtain ⟨name, hentry⟩ := h
  by_cases hparent : parent = node
  · subst hparent
    simp only [setNode, Function.update_self] at hentry
    exact Or.inl ⟨rfl, name, hentry⟩
  · simp only [setNode, Function.update_of_ne hparent] at hentry
    exact Or.inr ⟨name, hentry⟩

theorem WellFormed.setNode (h : s.WellFormed) {node : VNodeId} {vnode : VNode}
    (hnamed : vnode.Named) (hfresh : vnode.isDirectory = true → node < s.nextNode)
    (hacyclic : Acyclic (s.setNode node vnode).Contains) : (s.setNode node vnode).WellFormed := by
  refine ⟨fun other => ?_, hacyclic, fun other hother => ?_⟩
  · by_cases hsame : other = node
    · subst hsame
      simpa [FileSystem.setNode] using hnamed
    · simpa [FileSystem.setNode, Function.update_of_ne hsame] using h.named other
  · by_cases hsame : other = node
    · subst hsame
      cases hdirectory : vnode.isDirectory with
      | true => exact absurd (hfresh hdirectory) (Nat.not_lt.mpr hother)
      | false => simpa [FileSystem.setNode] using hdirectory
    · simpa [FileSystem.setNode, Function.update_of_ne hsame] using h.fresh other hother

theorem WellFormed.lt_nextNode (h : s.WellFormed) {node : VNodeId}
    (hnode : (s.nodes node).isDirectory = true) : node < s.nextNode := by
  by_contra hlate
  rw [h.fresh node (Nat.not_lt.mp hlate)] at hnode
  cases hnode

/-- A node that keeps some of its entries. -/
theorem WellFormed.shrink (h : s.WellFormed) {node : VNodeId} {vnode : VNode}
    (hfresh : vnode.isDirectory = true → node < s.nextNode)
    (hentries : vnode.entries.Sublist (s.nodes node).entries) : (s.setNode node vnode).WellFormed := by
  refine h.setNode ((h.named node).sublist hentries) hfresh (h.acyclic.mono ?_)
  intro parent child hcontains
  rcases contains_setNode hcontains with ⟨rfl, name, hentry⟩ | hold
  · exact ⟨name, hentries.subset hentry⟩
  · exact hold

/-- A new entry for a node from which its directory cannot be reached. -/
theorem WellFormed.addEntry (h : s.WellFormed) {directory target : VNodeId} {name : Name}
    {vnode : VNode} (hadd : (s.nodes directory).addEntry name target = .ok vnode)
    (hname : Proper name) (hback : ¬ ReflTransGen s.Contains target directory) :
    (s.setNode directory vnode).WellFormed := by
  have hdirectory := h.lt_nextNode (VNode.isDirectory_of_addEntry hadd)
  refine h.setNode ((h.named directory).addEntry hname hadd) (fun _ => hdirectory) ?_
  refine h.acyclic.insert (a := directory) (b := target) ?_ hback
  intro parent child hcontains
  rcases contains_setNode hcontains with ⟨rfl, other, hentry⟩ | hold
  · rw [VNode.entries_addEntry hadd] at hentry
    rcases List.mem_append.mp hentry with hold | hlast
    · exact Or.inl ⟨other, hold⟩
    · exact Or.inr ⟨rfl, (Prod.mk.inj (List.mem_singleton.mp hlast)).2⟩
  · exact Or.inl hold

/-- A new node that is not a directory. -/
theorem WellFormed.newNode (h : s.WellFormed) {vnode : VNode}
    (hvnode : vnode.isDirectory = false) :
    WellFormed { s.setNode s.nextNode vnode with nextNode := s.nextNode + 1 } := by
  have hset : (s.setNode s.nextNode vnode).WellFormed := by
    refine h.shrink (by simp [hvnode]) ?_
    rw [VNode.entries_eq_nil hvnode]
    exact List.nil_sublist _
  exact ⟨hset.named, hset.acyclic, fun node hnode => hset.fresh node (Nat.le_of_succ_le hnode)⟩

theorem addNode_leaves_tree (h : s.CacheShape) (hs : s.WellFormed) (directory : VNodeId)
    {name : Name} (hname : Proper name) {vnode : VNode} (hvnode : vnode.isDirectory = false) :
    s.Leaves WellFormed (s.addNode directory name vnode) := by
  unfold addNode
  split
  · rename_i updated hadd
    have hold := hs.lt_nextNode (VNode.isDirectory_of_addEntry hadd)
    have hnew : ({ s.setNode s.nextNode vnode with nextNode := s.nextNode + 1 }.nodes
        directory).addEntry name s.nextNode = .ok updated := by
      simpa [setNode, Function.update_of_ne (Nat.ne_of_lt hold)] using hadd
    refine .done (h.outlasts _ _) ((hs.newNode hvnode).addEntry hnew hname ?_) _
    intro hreach
    have hfile := reaches_of_file (by simpa [setNode] using hvnode) hreach
    exact absurd hfile (Nat.ne_of_lt hold)
  · exact .same h hs _

theorem addEntry_leaves_tree (h : s.CacheShape) (hs : s.WellFormed) {directory target : VNodeId}
    {name : Name} (hname : Proper name)
    (hback : (s.nodes target).isDirectory = true → ¬ ReflTransGen s.Contains target directory) :
    s.Leaves WellFormed (s.addEntry directory name target) := by
  unfold FileSystem.addEntry
  split
  · rename_i vnode hadd
    refine .done (h.outlasts _ _) (hs.addEntry hadd hname ?_) _
    intro hreach
    cases hdirectory : (s.nodes target).isDirectory with
    | true => exact hback hdirectory hreach
    | false =>
        obtain rfl := reaches_of_file hdirectory hreach
        rw [VNode.isDirectory_of_addEntry hadd] at hdirectory
        cases hdirectory
  · exact .same h hs _

theorem removeEntry_leaves_tree (h : s.CacheShape) (hs : s.WellFormed) (entry : DEntry) :
    s.Leaves WellFormed (s.removeEntry entry) := by
  cases entry with
  | root => intro r s' heq; cases heq
  | child id parent node name =>
      refine .bind fun directory _ => ?_
      split
      · rename_i vnode hunlink
        obtain ⟨hdirectory, hentries⟩ := VNode.unlink_ok hunlink
        exact .done (h.outlasts _ _)
          (hs.shrink (fun _ => hs.lt_nextNode hdirectory) hentries) _
      · exact .same h hs _

/-- Lookups do not change where a path leads. -/
theorem Extends.resolvesTo (h : s.Extends s') (hshape : s.CacheShape)
    (hcaller : s.KnownCaller caller) {path : Path} {node : VNodeId} :
    s'.ResolvesTo caller path node ↔ s.ResolvesTo caller path node := by
  rw [resolvesTo_iff h.shape (h.outlasts.knownCaller hcaller), resolvesTo_iff hshape hcaller]
  simp only [h.denotes, h.effectiveVNode]

/-- A link to the directory for the new name, or to one above it. -/
def LinksBack (s : FileSystem) (caller : Caller) (oldname newname : Name) : Prop :=
  ∃ target directory, s.ResolvesTo caller (Path.ofName oldname) target ∧
    s.ResolvesTo caller (Path.ofName newname).parent directory ∧
    (s.nodes target).isDirectory = true ∧ ReflTransGen s.Contains target directory

theorem link_leaves_tree (h : s.CacheShape) (hs : s.WellFormed) (hcaller : s.KnownCaller caller)
    {oldname newname : Name} (hname : (Path.ofName newname).last ≠ ['.', '.'])
    (hback : ¬ s.LinksBack caller oldname newname) :
    s.Leaves WellFormed (s.link caller oldname newname) := by
  refine (resolve_leaves wellFormed_lookable h hs hcaller _ _).andThen ?_
  intro oldEntry s₁ hold hs₁ hwell₁
  refine newEntry_leaves wellFormed_lookable hs₁.shape hwell₁ (hs₁.knownCaller hcaller) newname ?_
  intro s₂ parent directory hnew hs₂ hwell₂ _ hdirectory hportions
  refine .bind fun target htarget => ?_
  refine addEntry_leaves_tree hs₂.shape hwell₂ (Path.last_proper hportions hname) ?_
  intro hisDirectory hreach
  have hextends₁ := (resolve_finds h hcaller _ _ _ _ hold).1
  have hextends₂ := (resolve_finds hs₁.shape (hs₁.knownCaller hcaller) _ _ _ _ hnew).1
  have hextends := hextends₁.trans hextends₂
  refine hback ⟨target, directory, ⟨oldEntry, s₁, hold, ?_⟩, ?_, ?_, ?_⟩
  · rwa [← hextends₂.effectiveVNode]
  · exact (hextends₁.resolvesTo h hcaller).mp ⟨parent, s₂, hnew, hdirectory⟩
  · rwa [← hextends.nodes]
  · rwa [← hextends.contains]

end FileSystem

namespace Vfs

variable {s s' : Vfs}

/-- A request that makes no entry `..` and no link that leads back to its own
directory. -/
def KeepsTree (s : Vfs) (request : Request) : Prop :=
  match request.call with
  | .open name flags => flags.O_CREAT = true → (Path.ofName name).last ≠ ['.', '.']
  | .link oldname newname =>
      (Path.ofName newname).last ≠ ['.', '.'] ∧
        ¬ s.fs.LinksBack (s.caller request) oldname newname
  | .symlink _ newname => (Path.ofName newname).last ≠ ['.', '.']
  | _ => True

theorem Shaped.leaves_tree (h : s.Shaped) (hwell : s.fs.WellFormed) {request : Request}
    (hkeeps : s.KeepsTree request) : s.Leaves FileSystem.WellFormed request := by
  have hcaller := (h.settled request).known
  have hlookable := FileSystem.wellFormed_lookable
  unfold KeepsTree at hkeeps
  unfold Leaves
  cases hcall : request.call <;> simp only [hcall] at hkeeps ⊢
  case «open» name flags =>
      refine FileSystem.open_leaves hlookable h.fs hwell hcaller name flags ?_
      intro s₁ _ directory hcreate hs₁ hwell₁ _ _ hportions
      exact FileSystem.addNode_leaves_tree hs₁.shape hwell₁ directory
        (Path.last_proper hportions (hkeeps hcreate)) rfl
  case link => exact FileSystem.link_leaves_tree h.fs hwell hcaller hkeeps.1 hkeeps.2
  case symlink oldname newname =>
      refine FileSystem.newEntry_leaves hlookable h.fs hwell hcaller newname ?_
      intro s₁ _ directory _ hs₁ hwell₁ _ _ hportions
      exact FileSystem.addNode_leaves_tree hs₁.shape hwell₁ directory
        (Path.last_proper hportions hkeeps) rfl
  case unlink pathname =>
      refine FileSystem.unlink_leaves hlookable h.fs hwell hcaller pathname ?_
      intro entry s₁ _ _ hs₁ hwell₁ _ _
      exact FileSystem.removeEntry_leaves_tree hs₁.shape hwell₁ entry

/-- In every run without a new entry `..` and without a link back, over any well
formed tree, every directory has distinct proper names and no node is reachable
from itself. -/
theorem run_wellFormed {nodes : VNodeId → VNode} {nextNode rootNode : VNodeId}
    (htree : (load nodes nextNode rootNode).fs.WellFormed) {requests : List Request}
    (hrun : Run step KeepsTree (load nodes nextNode rootNode) requests s) :
    s.fs.WellFormed := by
  have hboth : s.Shaped ∧ s.fs.WellFormed := by
    refine hrun.invariant (P := fun s => s.Shaped ∧ s.fs.WellFormed) ?_
      ⟨load_shaped nodes nextNode rootNode, htree⟩
    rintro s request s' ⟨hshaped, hwell⟩ hkeeps heq
    exact ⟨hshaped.step heq, (step_advances FileSystem.wellFormed_lookable hshaped.fs hwell
      (hshaped.settled request).known (hshaped.leaves_tree hwell hkeeps) heq).inv⟩
  exact hboth.2

theorem oneFile_wellFormed : (load oneFile 2 0).fs.WellFormed := by
  have hcontains : ∀ parent child, (load oneFile 2 0).fs.Contains parent child →
      parent = 0 ∧ child = 1 := by
    rintro parent child ⟨name, hentry⟩
    cases parent with
    | zero => exact ⟨rfl, (Prod.mk.inj (List.mem_singleton.mp hentry)).2⟩
    | succ => cases hentry
  refine ⟨fun node => ?_, fun node hcycle => ?_, fun node hnode => ?_⟩
  · cases node with
    | zero => exact ⟨List.nodup_singleton _, by decide⟩
    | succ => exact VNode.named_of_file rfl
  · obtain ⟨parent, _, hlast⟩ := TransGen.tail'_iff.mp hcycle
    obtain ⟨next, hfirst, _⟩ := TransGen.head'_iff.mp hcycle
    have hzero := (hcontains node next hfirst).1
    have hone := (hcontains parent node hlast).2
    cases hzero.symm.trans hone
  · cases node with
    | zero => cases hnode
    | succ => rfl

/-- A hard link of the file, a symbolic link and a new file, in that order. -/
theorem run_wellFormed_three_entries :
    ∃ requests s, requests.length = 3 ∧ Run step KeepsTree (load oneFile 2 0) requests s ∧
      (s.fs.nodes 0).entries.length = 4 ∧ s.fs.WellFormed := by
  let call (call : VfsCall) : Request := ⟨1, .error Errno.ENXIO, call⟩
  have hlink : (load oneFile 2 0).KeepsTree (call (.link ['/', 'a'] ['/', 'c'])) := by
    refine ⟨by decide, ?_⟩
    rintro ⟨target, directory, ⟨d, s, hresolve, htarget⟩, _, hisDirectory, _⟩
    have hfile : target = 1 := by
      have hanswer : FileSystem.answer (some (.ok d, s)) = some (.ok (some 1)) := by
        rw [← hresolve]
        rfl
      simpa [FileSystem.answer, Except.map, htarget] using hanswer
    rw [hfile] at hisDirectory
    cases hisDirectory
  have hsymlink : (Path.ofName ['/', 's']).last ≠ ['.', '.'] := by decide
  have hopen : (Path.ofName ['/', 'b']).last ≠ ['.', '.'] := by decide
  have hempty : Run step KeepsTree (load oneFile 2 0) [] (load oneFile 2 0) := Run.nil _
  have hlinked := hempty.snoc hlink rfl
  have hboth := hlinked.snoc (a := call (.symlink ['a'] ['/', 's'])) hsymlink rfl
  have hrun := hboth.snoc (a := call (.open ['/', 'b'] ⟨true, false, false, false⟩))
    (fun _ => hopen) rfl
  exact ⟨_, _, rfl, hrun, rfl, run_wellFormed oneFile_wellFormed hrun⟩

/-- `open` with `O_CREAT` makes an entry `..` in the root, and `link` makes one for
the root itself. -/
theorem open_names_parent_and_link_closes_cycle :
    (load oneFile 2 0).fs.WellFormed ∧
    (∃ s, (load oneFile 2 0).step
        ⟨1, .error Errno.ENXIO, .open ['/', '.', '.'] ⟨true, false, false, false⟩⟩ = some s ∧
      (['.', '.'], 2) ∈ (s.fs.nodes 0).entries ∧ ¬ s.fs.WellFormed) ∧
    ∃ s, (load oneFile 2 0).step ⟨1, .error Errno.ENXIO, .link ['/'] ['/', 'b']⟩ = some s ∧
      s.fs.Contains 0 0 ∧ ¬ s.fs.WellFormed := by
  refine ⟨oneFile_wellFormed, ⟨_, rfl, ?_⟩, ⟨_, rfl, ?_⟩⟩
  · refine ⟨by decide, fun hwell => ?_⟩
    have hproper := (hwell.named 0).proper (['.', '.'], 2) (by decide)
    exact hproper.2.2.2 rfl
  · have hself : ∀ s : Vfs, (['b'], 0) ∈ (s.fs.nodes 0).entries →
        s.fs.Contains 0 0 ∧ ¬ s.fs.WellFormed :=
      fun s hentry => ⟨⟨_, hentry⟩, fun hwell => hwell.acyclic 0 (.single ⟨_, hentry⟩)⟩
    exact hself _ (by decide)

end Vfs

end Nyan.Fs
