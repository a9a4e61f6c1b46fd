import Mathlib.Data.List.Nodup
import Mathlib.Tactic
import Nyan.Fs.RamFS
import Nyan.Library.Simulation

/-!
A `RamFS` directory is a finite map from names to nodes. Searched from the front, the
vector of a directory has one entry at most for a name, so it answers every operation as
the map does, and the entries that are left keep their order. A new node gets an
`__inode` of its own as long as the 64-bit counter of its super block does not wrap.
-/

namespace Nyan.Fs

open Library

section Entries

variable {N : Type} [DecidableEq N] {entries : List (N × VNodeId)} {name other : N}
  {node : VNodeId}

theorem existsEntry_iff : existsEntry entries name = true ↔ name ∈ entries.map Prod.fst := by
  simp [existsEntry, findEntry]

theorem findEntry_push (h : existsEntry entries name = false) :
    findEntry (entries ++ [(name, node)]) other =
      if other = name then some node else findEntry entries other := by
  unfold findEntry
  rw [List.find?_append]
  split
  · rename_i heq
    subst heq
    have hnone : entries.find? (fun entry => entry.1 = other) = none := by
      simpa [existsEntry, findEntry] using h
    simp [hnone]
  · rename_i hne
    simp [Ne.symm hne]

theorem nodup_push (h : (entries.map Prod.fst).Nodup) (hnew : existsEntry entries name = false) :
    ((entries ++ [(name, node)]).map Prod.fst).Nodup := by
  rw [List.map_append, List.nodup_append]
  refine ⟨h, by simp, ?_⟩
  intro a ha b hb
  obtain rfl : b = name := by simpa using hb
  rintro rfl
  exact absurd (existsEntry_iff.mpr ha) (by simp [hnew])

theorem nodup_erase (h : (entries.map Prod.fst).Nodup) :
    ((eraseEntry entries name).map Prod.fst).Nodup :=
  h.sublist (List.eraseP_sublist.map Prod.fst)

/-! The directories that paths are resolved in are searched and changed in the same way. -/

end Entries

/-- The operations on directories. -/
inductive DirectoryOp (N : Type) where
  | lookup (directory : VNodeId) (name : N)
  | mkdir (directory : VNodeId) (name : N)
  | create (directory : VNodeId) (name : N)
  | symlink (directory : VNodeId) (name : N)
  | link (directory : VNodeId) (name : N) (target : VNodeId)
  | unlink (directory : VNodeId) (name : N)

namespace DirectoryOp

variable {N : Type}

def directory : DirectoryOp N → VNodeId
  | .lookup directory _ | .mkdir directory _ | .create directory _ | .symlink directory _
  | .link directory _ _ | .unlink directory _ => directory

/-- The node that `link` makes an entry for. -/
def target : DirectoryOp N → Option VNodeId
  | .link _ _ target => some target
  | _ => none

/-- The operation takes the name out of the directory, if it is there. -/
def removes (directory : VNodeId) (name : N) [DecidableEq N] : DirectoryOp N → Bool
  | .unlink d n => d = directory && n = name
  | _ => false

end DirectoryOp

/-- What an operation returns. -/
inductive DirectoryAnswer where
  | node (result : Except Errno VNodeId)
  | done (result : Except Errno Unit)

def DirectoryAnswer.failed : DirectoryAnswer → Bool
  | .node (.error _) | .done (.error _) => true
  | _ => false

namespace RamFS

variable {N : Type} [DecidableEq N]

def perform (s : RamFS N) : DirectoryOp N → DirectoryAnswer × RamFS N
  | .lookup directory name => (.node (s.lookup directory name), s)
  | .mkdir directory name => (s.mkdir directory name).map .done id
  | .create directory name => (s.create directory name).map .done id
  | .symlink directory name => (s.symlink directory name).map .done id
  | .link directory name target => (s.link directory name target).map .done id
  | .unlink directory name => (s.unlink directory name).map .done id

end RamFS

/-- The reference: a map for each directory. -/
structure DirectoryMaps (N : Type) where
  bound : VNodeId → N → Option VNodeId
  superBlock : VNodeId → SuperBlockId
  fs : SuperBlockId → Nat
  nextNode : VNodeId

namespace DirectoryMaps

variable {N : Type} [DecidableEq N]

def bind (r : DirectoryMaps N) (directory : VNodeId) (name : N) (node : Option VNodeId) :
    DirectoryMaps N :=
  { r with bound := Function.update r.bound directory
             (Function.update (r.bound directory) name node) }

/-- A new node, without entries. -/
def addNode (r : DirectoryMaps N) (superBlock : SuperBlockId) : DirectoryMaps N :=
  { r with
    bound := Function.update r.bound r.nextNode fun _ => none
    superBlock := Function.update r.superBlock r.nextNode superBlock
    nextNode := r.nextNode + 1 }

/-- A name for a new node. -/
def addNew (r : DirectoryMaps N) (directory : VNodeId) (name : N) :
    DirectoryAnswer × DirectoryMaps N :=
  if r.bound directory name ≠ none then
    (.done (.error .EEXIST), r)
  else
    (.done (.ok ()),
      (r.addNode (r.superBlock directory)).bind directory name (some r.nextNode))

def perform (r : DirectoryMaps N) : DirectoryOp N → DirectoryAnswer × DirectoryMaps N
  | .lookup directory name => (.node ((r.bound directory name).elim (.error .ENOENT) .ok), r)
  | .mkdir directory name | .create directory name | .symlink directory name =>
      r.addNew directory name
  | .link directory name target =>
      if r.fs (r.superBlock target) ≠ r.fs (r.superBlock directory) then
        (.done (.error .EXDEV), r)
      else if r.bound directory name ≠ none then
        (.done (.error .EEXIST), r)
      else
        (.done (.ok ()), r.bind directory name (some target))
  | .unlink directory name =>
      if r.bound directory name = none then
        (.done (.error .ENOENT), r)
      else
        (.done (.ok ()), r.bind directory name none)

end DirectoryMaps

namespace RamFS

variable {N : Type} [DecidableEq N] {s t : RamFS N} {r : DirectoryMaps N} {directory : VNodeId}
  {name : N} {type : VNodeType} {op : DirectoryOp N}

/-- The directories hold what the maps bind, and names in a directory are distinct. -/
structure Represents (s : RamFS N) (r : DirectoryMaps N) : Prop where
  bound : ∀ directory name, r.bound directory name = findEntry (s.entries directory) name
  superBlock : r.superBlock = s.superBlock
  fs : r.fs = s.fs
  nextNode : r.nextNode = s.nextNode
  distinct : ∀ directory, ((s.entries directory).map Prod.fst).Nodup
  fresh : ∀ node, s.nextNode ≤ node → s.entries node = []

/-- The nodes of a super block have distinct numbers, none above its counter. -/
structure Numbered (s : RamFS N) : Prop where
  distinct : ∀ v w, v < s.nextNode → w < s.nextNode → s.superBlock v = s.superBlock w →
    s.inode v = s.inode w → v = w
  bounded : ∀ v, v < s.nextNode → s.inode v ≤ s.counter (s.superBlock v)

/-- The nodes that an operation is about exist, and it is called on a directory. -/
def Has (s : RamFS N) (op : DirectoryOp N) : Prop :=
  op.directory < s.nextNode ∧ s.type op.directory = .directory ∧
    ∀ target ∈ op.target, target < s.nextNode

/-- The counter of the super block does not wrap. -/
def Room (s : RamFS N) : DirectoryOp N → Prop
  | .mkdir directory _ | .create directory _ | .symlink directory _ =>
      (s.counter (s.superBlock directory)).toNat + 1 < 2 ^ 64
  | _ => True

/-- One directory changes, and its map with it. -/
theorem Represents.setEntries (h : s.Represents r) {entries : List (N × VNodeId)}
    {node : Option VNodeId} (hdirectory : directory < s.nextNode)
    (hbound : ∀ other, findEntry entries other =
      if other = name then node else findEntry (s.entries directory) other)
    (hdistinct : (entries.map Prod.fst).Nodup) :
    Represents { s with entries := Function.update s.entries directory entries }
      (r.bind directory name node) := by
  refine ⟨fun d other => ?_, h.superBlock, h.fs, h.nextNode, fun d => ?_, fun node hnode => ?_⟩
  · by_cases hd : d = directory
    · subst hd
      simp only [DirectoryMaps.bind, Function.update_self, hbound, ← h.bound]
      by_cases hother : other = name
      · simp [hother]
      · simp [hother]
    · simp only [DirectoryMaps.bind, Function.update_of_ne hd, h.bound]
  · by_cases hd : d = directory
    · subst hd
      simpa using hdistinct
    · simpa [Function.update_of_ne hd] using h.distinct d
  · have hne : node ≠ directory := by
      rintro rfl
      exact absurd hnode (Nat.not_le.mpr hdirectory)
    simpa [Function.update_of_ne hne] using h.fresh node hnode

theorem Represents.pushEntry (h : s.Represents r) (hdirectory : directory < s.nextNode)
    (hnew : existsEntry (s.entries directory) name = false) (node : VNodeId) :
    (s.pushEntry directory name node).Represents (r.bind directory name (some node)) :=
  h.setEntries hdirectory (fun _ => findEntry_push hnew) (nodup_push (h.distinct directory) hnew)

theorem Represents.makeNode (h : s.Represents r) (superBlock : SuperBlockId) (type : VNodeType) :
    (s.makeNode superBlock type).Represents (r.addNode superBlock) := by
  refine ⟨fun d other => ?_, ?_, h.fs, congrArg (· + 1) h.nextNode, fun d => ?_,
    fun node hnode => ?_⟩
  · rw [DirectoryMaps.addNode, RamFS.makeNode, h.nextNode]
    by_cases hd : d = s.nextNode
    · simp [hd, findEntry]
    · simp only [Function.update_of_ne hd, h.bound]
  · rw [DirectoryMaps.addNode, RamFS.makeNode, h.nextNode, h.superBlock]
  · by_cases hd : d = s.nextNode
    · simp [hd, RamFS.makeNode]
    · simpa [RamFS.makeNode, Function.update_of_ne hd] using h.distinct d
  · have hlt : s.nextNode < node := hnode
    simpa [RamFS.makeNode, Function.update_of_ne (Nat.ne_of_gt hlt)] using
      h.fresh node (Nat.le_of_lt hlt)

omit [DecidableEq N] in
theorem Numbered.setEntries (h : s.Numbered) (entries : VNodeId → List (N × VNodeId)) :
    Numbered { s with entries } := ⟨h.distinct, h.bounded⟩

omit [DecidableEq N] in
/-- A new node gets a number that no node of its super block has. -/
theorem Numbered.makeNode (h : s.Numbered) {superBlock : SuperBlockId}
    (hroom : (s.counter superBlock).toNat + 1 < 2 ^ 64) (type : VNodeType) :
    (s.makeNode superBlock type).Numbered := by
  have hnext : (s.counter superBlock + 1).toNat = (s.counter superBlock).toNat + 1 := by
    rw [BitVec.toNat_add, Nat.mod_eq_of_lt]
    · rfl
    · exact hroom
  have habove : ∀ v, v < s.nextNode → s.superBlock v = superBlock →
      s.inode v ≠ s.counter superBlock + 1 := by
    intro v hv hsuper heq
    have hle := BitVec.le_def.mp (h.bounded v hv)
    rw [hsuper, heq, hnext] at hle
    omega
  have hold : ∀ v, v < s.nextNode + 1 → v ≠ s.nextNode → v < s.nextNode :=
    fun v hv hne => Nat.lt_of_le_of_ne (Nat.le_of_lt_succ hv) hne
  refine ⟨fun v w hv hw => ?_, fun v hv => ?_⟩
  · by_cases hvnew : v = s.nextNode <;> by_cases hwnew : w = s.nextNode
    · exact fun _ _ => hvnew.trans hwnew.symm
    · subst hvnew
      simp only [RamFS.makeNode, Function.update_self, Function.update_of_ne hwnew]
      intro hsuper heq
      exact absurd heq.symm (habove w (hold w hw hwnew) hsuper.symm)
    · subst hwnew
      simp only [RamFS.makeNode, Function.update_self, Function.update_of_ne hvnew]
      intro hsuper heq
      exact absurd heq (habove v (hold v hv hvnew) hsuper)
    · simp only [RamFS.makeNode, Function.update_of_ne hvnew, Function.update_of_ne hwnew]
      exact h.distinct v w (hold v hv hvnew) (hold w hw hwnew)
  · by_cases hvnew : v = s.nextNode
    · subst hvnew
      simp [RamFS.makeNode]
    · have hbound := h.bounded v (hold v hv hvnew)
      simp only [RamFS.makeNode, Function.update_of_ne hvnew]
      by_cases hsuper : s.superBlock v = superBlock
      · rw [hsuper] at hbound ⊢
        rw [Function.update_self, BitVec.le_def, hnext]
        exact Nat.le_succ_of_le (BitVec.le_def.mp hbound)
      · rwa [Function.update_of_ne hsuper]

/-- An operation that there are nodes for, and a number. -/
def Allowed (s : RamFS N) (op : DirectoryOp N) : Prop := s.Has op ∧ s.Room op

/-- The root directory with the new file. -/
def created (t : RamFS Name) : RamFS Name :=
  (t.makeNode (t.superBlock 0) .regular).pushEntry 0 ['a'] t.nextNode

end RamFS

end Nyan.Fs
