import Nyan.Fs.Vfs

/-!
The directories of a `RamFS` (`fs/fs/ramfs.cpp`). A directory is a vector of entries
that is searched from the front; new entries go to its end. Every node gets the next
number of its super block as `__inode`. The mode of a node and the target of a symbolic
link are left out: no operation on directories reads them.
-/

namespace Nyan.Fs

/-- `VNodeType`, as far as there are such nodes. -/
inductive VNodeType where
  | regular
  | directory
  | charDevice
  | symlink
  deriving DecidableEq, Repr

section Entries

variable {N : Type} [DecidableEq N]

/-- `__find`, with the node that it leads to. -/
def findEntry (entries : List (N × VNodeId)) (name : N) : Option VNodeId :=
  (entries.find? fun entry => entry.1 = name).map Prod.snd

/-- `__exists`. -/
def existsEntry (entries : List (N × VNodeId)) (name : N) : Bool :=
  (findEntry entries name).isSome

/-- `__entries.erase(it)` of the entry that `__find` finds. -/
def eraseEntry (entries : List (N × VNodeId)) (name : N) : List (N × VNodeId) :=
  entries.eraseP fun entry => entry.1 = name

end Entries

abbrev SuperBlockId := Nat

/-- The nodes, with their super blocks, and the file system and the counter of each
super block. Nodes from `nextNode` on do not exist yet. Names are of any type. -/
structure RamFS (N : Type) where
  type : VNodeId → VNodeType
  superBlock : VNodeId → SuperBlockId
  inode : VNodeId → BitVec 64
  entries : VNodeId → List (N × VNodeId)
  nextNode : VNodeId
  fs : SuperBlockId → Nat
  counter : SuperBlockId → BitVec 64

namespace RamFS

variable {N : Type} [DecidableEq N]

def lookup (s : RamFS N) (directory : VNodeId) (name : N) : Except Errno VNodeId :=
  match findEntry (s.entries directory) name with
  | some node => .ok node
  | none => .error .ENOENT

/-- `__entries.push_back`. -/
def pushEntry (s : RamFS N) (directory : VNodeId) (name : N) (node : VNodeId) : RamFS N :=
  { s with
    entries := Function.update s.entries directory (s.entries directory ++ [(name, node)]) }

/-- The constructor of `RamFSVNode`. -/
def makeNode (s : RamFS N) (superBlock : SuperBlockId) (type : VNodeType) : RamFS N :=
  { s with
    type := Function.update s.type s.nextNode type
    superBlock := Function.update s.superBlock s.nextNode superBlock
    inode := Function.update s.inode s.nextNode (s.counter superBlock + 1)
    entries := Function.update s.entries s.nextNode []
    nextNode := s.nextNode + 1
    counter := Function.update s.counter superBlock (s.counter superBlock + 1) }

/-- What `mkdir`, `create` and `symlink` have in common. -/
def addNew (s : RamFS N) (directory : VNodeId) (name : N) (type : VNodeType) :
    Except Errno Unit × RamFS N :=
  if existsEntry (s.entries directory) name then
    (.error .EEXIST, s)
  else
    (.ok (), (s.makeNode (s.superBlock directory) type).pushEntry directory name s.nextNode)

def mkdir (s : RamFS N) (directory : VNodeId) (name : N) : Except Errno Unit × RamFS N :=
  s.addNew directory name .directory

def create (s : RamFS N) (directory : VNodeId) (name : N) : Except Errno Unit × RamFS N :=
  s.addNew directory name .regular

def symlink (s : RamFS N) (directory : VNodeId) (name : N) : Except Errno Unit × RamFS N :=
  s.addNew directory name .symlink

def link (s : RamFS N) (directory : VNodeId) (name : N) (target : VNodeId) :
    Except Errno Unit × RamFS N :=
  if s.fs (s.superBlock target) ≠ s.fs (s.superBlock directory) then
    (.error .EXDEV, s)
  else if existsEntry (s.entries directory) name then
    (.error .EEXIST, s)
  else
    (.ok (), s.pushEntry directory name target)

def unlink (s : RamFS N) (directory : VNodeId) (name : N) : Except Errno Unit × RamFS N :=
  if existsEntry (s.entries directory) name then
    (.ok (), { s with
      entries := Function.update s.entries directory (eraseEntry (s.entries directory) name) })
  else
    (.error .ENOENT, s)

end RamFS

end Nyan.Fs
