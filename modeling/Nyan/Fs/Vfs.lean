import Mathlib.Logic.Function.Basic
import Nyan.Library.Run
import Nyan.Result

/-!
Directories, path resolution and the dentry cache (`fs/path.cpp`, `fs/mod.cpp`,
`fs/dentry.cpp`, `fs/fs/ramfs.cpp` and the system calls that change directories).
One file system is mounted, at the root. Entries of the cache are never removed,
so the list of unused ones has no effect and is left out, as is the data of files.

A call has no result where it would follow a null reference: looking a name up in
a node that is not a directory succeeds with a null node.
-/

namespace Nyan.Fs

open Library

/-- The characters of a `std::string`. -/
abbrev Name := List Char

abbrev VNodeId := Nat

structure Path where
  portions : List Name
  trailingSlash : Bool
  relative : Bool
  invalid : Bool
  deriving DecidableEq, Repr

namespace Path

/-- The constructor from a string. -/
def ofName (path : Name) : Path where
  portions := (path.splitOn '/').filter fun portion => portion ≠ [] && portion ≠ ['.']
  trailingSlash := path.getLast? = some '/'
  relative := path.head? ≠ some '/'
  invalid := path.isEmpty

def parent (path : Path) : Path := { path with portions := path.portions.dropLast, invalid := false }

def last (path : Path) : Name := path.portions.getLastD []

end Path

/-- A node of the file system. The link `/dev/tty` computes its target, which
depends on the task that follows it. -/
inductive VNode where
  | regular
  | directory (entries : List (Name × VNodeId))
  | symlink (target : Name)
  | dynamicSymlink
  | charDevice
  deriving DecidableEq, Repr

namespace VNode

def isDirectory : VNode → Bool
  | .directory _ => true
  | _ => false

def isSymlink : VNode → Bool
  | .symlink _ | .dynamicSymlink => true
  | _ => false

/-- `lookup`. The default implementation succeeds with a null reference. -/
def lookup (name : Name) : VNode → Except Errno (Option VNodeId)
  | .directory entries =>
      match entries.find? fun entry => entry.1 = name with
      | some entry => .ok (some entry.2)
      | none => .error .ENOENT
  | _ => .ok none

/-- `create`, `link` and `symlink`: a new entry for a node. -/
def addEntry (name : Name) (target : VNodeId) : VNode → Except Errno VNode
  | .directory entries =>
      if entries.any fun entry => entry.1 = name then
        .error .EEXIST
      else
        .ok (.directory (entries ++ [(name, target)]))
  | _ => .error .ENOTDIR

def unlink (name : Name) : VNode → Except Errno VNode
  | .directory entries =>
      if entries.any fun entry => entry.1 = name then
        .ok (.directory (entries.eraseP fun entry => entry.1 = name))
      else
        .error .ENOENT
  | _ => .error .ENOTDIR

/-- `readlink`, where `tty` is the target of `/dev/tty` for the calling task. -/
def readlink (tty : Except Errno Name) : VNode → Except Errno Name
  | .symlink target => .ok target
  | .dynamicSymlink => tty
  | _ => .error .EINVAL

end VNode

/-- A `DEntry`. The entry of the root has the number one, no parent and the only
mount. -/
inductive DEntry where
  | root
  | child (id : Nat) (parent : DEntry) (node : Option VNodeId) (name : Name)
  deriving DecidableEq, Repr

namespace DEntry

def id : DEntry → Nat
  | .root => 1
  | .child id _ _ _ => id

/-- `current->__parent` if there is one. -/
def up : DEntry → DEntry
  | .root => .root
  | .child _ parent _ _ => parent

end DEntry

/-- The nodes, the cache and the counter of `allocDEntryId`. Nodes from
`nextNode` on do not exist yet. -/
structure FileSystem where
  nodes : VNodeId → VNode
  nextNode : VNodeId
  rootNode : VNodeId
  cache : Nat × Name → Option DEntry
  counter : Nat

/-- What a file operation leaves: nothing where the kernel would stop. -/
abbrev Outcome (α : Type) := Option (Except Errno α × FileSystem)

/-- `__try`: an error ends the operation. -/
def Outcome.andThen {α β : Type} (outcome : Outcome α) (next : α → FileSystem → Outcome β) :
    Outcome β :=
  match outcome with
  | some (.ok a, s) => next a s
  | some (.error e, s) => some (.error e, s)
  | none => none

namespace FileSystem

def effectiveVNode (s : FileSystem) : DEntry → Option VNodeId
  | .root => some s.rootNode
  | .child _ _ node _ => node

/-- The lookup of `parent->effectiveVNode()->lookup(name)`. -/
def lookupNode (s : FileSystem) (parent : DEntry) (name : Name) :
    Option (Except Errno (Option VNodeId)) := do
  let node ← s.effectiveVNode parent
  return (s.nodes node).lookup name

/-- `DEntryCacheManager::lookup`. -/
def lookup (s : FileSystem) (parent : DEntry) (name : Name) : Outcome DEntry :=
  match s.cache (parent.id, name) with
  | some dentry => some (.ok dentry, s)
  | none =>
      (s.lookupNode parent name).bind fun
        | .error e => some (.error e, s)
        | .ok next =>
            let dentry := .child (s.counter + 1) parent next name
            some (.ok dentry, { s with
              cache := Function.update s.cache (parent.id, name) (some dentry)
              counter := s.counter + 1 })

/-- The lookup without the cache: every time a new `DEntry` for what the directory
holds. -/
def lookupDirect (s : FileSystem) (parent : DEntry) (name : Name) : Outcome DEntry :=
  (s.lookupNode parent name).bind fun
    | .error e => some (.error e, s)
    | .ok next =>
        some (.ok (.child (s.counter + 1) parent next name), { s with counter := s.counter + 1 })

section Resolve

variable (find : FileSystem → DEntry → Name → Outcome DEntry) (tty : Except Errno Name)

/-- The loop of `resolve` over the portions of a path, where `inner` resolves the
target of a symbolic link. -/
def walk (inner : FileSystem → DEntry → Name → Outcome DEntry) (follow : Bool) :
    List Name → DEntry → FileSystem → Outcome DEntry
  | [], current, s => some (.ok current, s)
  | portion :: rest, current, s =>
      if portion = ['.', '.'] then
        walk inner follow rest current.up s
      else
        (find s current portion).andThen fun next s₁ =>
          if follow || !rest.isEmpty then
            (s₁.effectiveVNode next).bind fun node =>
              if (s₁.nodes node).isSymlink then
                match (s₁.nodes node).readlink tty with
                | .error e => some (.error e, s₁)
                | .ok target =>
                    (inner s₁ current target).andThen fun resolved s₂ =>
                      walk inner follow rest resolved s₂
              else
                walk inner follow rest next s₁
          else
            walk inner follow rest next s₁

/-- `resolve`, as long as `loop` plus the first argument is ten. The starting
point of a relative path is `__from`, or the working directory. -/
def resolveLoop : Nat → FileSystem → Path → Bool → Option DEntry → Outcome DEntry
  | 0, s, _, _, _ => some (.error .ELOOP, s)
  | n + 1, s, path, follow, start =>
      if path.invalid then
        some (.error .ENOENT, s)
      else
        let inner := fun s current target =>
          resolveLoop n s (Path.ofName target) true (some current)
        if path.relative then
          match start with
          | some current => walk find tty inner follow path.portions current s
          | none => some (.error .ENOENT, s)
        else
          walk find tty inner follow path.portions .root s

end Resolve

/-- The task that makes a call: its working directory, and where `/dev/tty` leads
for it. -/
structure Caller where
  cwd : Option DEntry
  tty : Except Errno Name

def resolve (s : FileSystem) (caller : Caller) (path : Path) (follow : Bool) : Outcome DEntry :=
  resolveLoop lookup caller.tty 10 s path follow caller.cwd

def resolveDirect (s : FileSystem) (caller : Caller) (path : Path) (follow : Bool) :
    Outcome DEntry :=
  resolveLoop lookupDirect caller.tty 10 s path follow caller.cwd

/-- A change of one node. -/
def setNode (s : FileSystem) (node : VNodeId) (vnode : VNode) : FileSystem :=
  { s with nodes := Function.update s.nodes node vnode }

/-- An entry for a node that exists. -/
def addEntry (s : FileSystem) (directory : VNodeId) (name : Name) (target : VNodeId) :
    Outcome Unit :=
  match (s.nodes directory).addEntry name target with
  | .ok vnode => some (.ok (), s.setNode directory vnode)
  | .error e => some (.error e, s)

/-- An entry for a new node. -/
def addNode (s : FileSystem) (directory : VNodeId) (name : Name) (vnode : VNode) : Outcome Unit :=
  match (s.nodes directory).addEntry name s.nextNode with
  | .ok updated => some (.ok (),
      { s.setNode s.nextNode vnode with nextNode := s.nextNode + 1 }.setNode directory updated)
  | .error e => some (.error e, s)

structure OpenFlags where
  O_CREAT : Bool
  O_EXCL : Bool
  O_NOFOLLOW : Bool
  O_DIRECTORY : Bool

/-- The end of `open`, from the second lookup on: the node that is opened. -/
def openNode (s : FileSystem) (caller : Caller) (path : Path) (flags : OpenFlags)
    (directory : VNodeId) : Outcome VNodeId :=
  match (s.nodes directory).lookup path.last with
  | .error e => some (.error e, s)
  | .ok found =>
      found.bind fun node =>
        let opened : Outcome VNodeId :=
          if (s.nodes node).isSymlink && !flags.O_NOFOLLOW then
            match (s.nodes node).readlink caller.tty with
            | .error e => some (.error e, s)
            | .ok target =>
                (s.resolve caller (Path.ofName target) true).andThen fun entry s₁ =>
                  (s₁.effectiveVNode entry).map fun node => (.ok node, s₁)
          else
            some (.ok node, s)
        opened.andThen fun node s₁ =>
          if (flags.O_DIRECTORY || path.trailingSlash) && !(s₁.nodes node).isDirectory then
            some (.error .ENOTDIR, s₁)
          else
            some (.ok node, s₁)

def «open» (s : FileSystem) (caller : Caller) (name : Name) (flags : OpenFlags) :
    Outcome VNodeId :=
  let path := Path.ofName name
  if path.invalid then
    some (.error .ENOENT, s)
  else if path.portions = [] then
    (s.resolve caller path true).andThen fun entry s₁ =>
      if flags.O_CREAT then
        some (.error .EEXIST, s₁)
      else
        (s₁.effectiveVNode entry).map fun node => (.ok node, s₁)
  else
    (s.resolve caller path.parent true).andThen fun parentEntry s₁ =>
      (s₁.effectiveVNode parentEntry).bind fun directory =>
        match (s₁.nodes directory).lookup path.last with
        | .error e =>
            if e ≠ .ENOENT then
              some (.error e, s₁)
            else if flags.O_CREAT && !path.trailingSlash then
              (s₁.addNode directory path.last .regular).andThen fun _ s₂ =>
                s₂.openNode caller path flags directory
            else
              some (.error .ENOENT, s₁)
        | .ok _ =>
            if flags.O_CREAT && flags.O_EXCL then
              some (.error .EEXIST, s₁)
            else
              s₁.openNode caller path flags directory

/-- The common part of `link` and `symlink`: the directory for a new name. -/
def newEntry (s : FileSystem) (caller : Caller) (newname : Name)
    (add : FileSystem → VNodeId → Name → Outcome Unit) : Outcome Unit :=
  let path := Path.ofName newname
  if path.invalid then
    some (.error .ENOENT, s)
  else if path.portions = [] then
    some (.error .EEXIST, s)
  else
    (s.resolve caller path.parent true).andThen fun parentEntry s₁ =>
      (s₁.effectiveVNode parentEntry).bind fun directory =>
        match (s₁.nodes directory).lookup path.last with
        | .ok _ => some (.error .EEXIST, s₁)
        | .error e =>
            if e ≠ .ENOENT then some (.error e, s₁) else add s₁ directory path.last

def link (s : FileSystem) (caller : Caller) (oldname newname : Name) : Outcome Unit :=
  (s.resolve caller (Path.ofName oldname) true).andThen fun oldEntry s₁ =>
    s₁.newEntry caller newname fun s₂ directory name =>
      (s₂.effectiveVNode oldEntry).bind fun target => s₂.addEntry directory name target

def symlink (s : FileSystem) (caller : Caller) (oldname newname : Name) : Outcome Unit :=
  s.newEntry caller newname fun s₁ directory name =>
    s₁.addNode directory name (.symlink oldname)

/-- The second half of `unlink`: the entry is removed from the directory of its
parent. -/
def removeEntry (s : FileSystem) (entry : DEntry) : Outcome Unit :=
  match entry with
  | .root => none
  | .child _ parent _ name =>
      (s.effectiveVNode parent).bind fun directory =>
        match (s.nodes directory).unlink name with
        | .ok vnode => some (.ok (), s.setNode directory vnode)
        | .error e => some (.error e, s)

def unlink (s : FileSystem) (caller : Caller) (pathname : Name) : Outcome Unit :=
  (s.resolve caller (Path.ofName pathname) true).andThen fun entry s₁ =>
    (s₁.effectiveVNode entry).bind fun node =>
      if (s₁.nodes node).isDirectory then some (.error .EISDIR, s₁) else s₁.removeEntry entry

end FileSystem

end Nyan.Fs
