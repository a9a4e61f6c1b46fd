import Nyan.Allocator.PhysicalFrame

/-!
Page tables and page directories (`paging/table.cpp`, `paging/directory.cpp`).
Directories, tables and the pages of user programs all lie in frames of physical
memory, as 1024 words each. The operations reach a frame through a temporary
kernel mapping (`MapperGuard`), which is left out: a frame is read and written at
its physical address. `none` is a fatal error of the kernel, which is that no
frame is left.
-/

namespace Nyan.Paging

open Allocator

abbrev Page := Fin 1024 → BitVec 32

def PTE_Present : BitVec 16 := 0x1#16
def PTE_ReadWrite : BitVec 16 := 0x2#16
def PTE_User : BitVec 16 := 0x4#16
def PTE_COW : BitVec 16 := 0x200#16

def PDE_Present : BitVec 16 := 0x1#16
def PDE_ReadWrite : BitVec 16 := 0x2#16
def PDE_User : BitVec 16 := 0x4#16

/-- `at`, of tables and directories: the frame an entry names. -/
def entryAt (word : BitVec 32) : PhysicalAddress := word &&& ~~~0xFFF#32

def entryAttr (word : BitVec 32) : BitVec 16 := (word &&& 0xFFF#32).setWidth 16

def isPresent (word : BitVec 32) : Bool := word &&& 1#32 ≠ 0#32

/-- `addr | attr`, the word of an entry. -/
def entryWord (addr : PhysicalAddress) (attr : BitVec 16) : BitVec 32 := addr ||| attr.setWidth 32

structure Memory where
  frames : PhysicalFrames
  page : PhysicalAddress → Page

namespace Memory

def setPage (m : Memory) (addr : PhysicalAddress) (page : Page) : Memory :=
  { m with page := Function.update m.page addr page }

def setWord (m : Memory) (addr : PhysicalAddress) (i : Fin 1024) (word : BitVec 32) : Memory :=
  m.setPage addr (Function.update (m.page addr) i word)

def physicalFrameAlloc (m : Memory) : Option (PhysicalAddress × Memory) := do
  let (addr, frames) ← m.frames.physicalFrameAlloc
  return (addr, { m with frames })

def physicalFrameRetain (m : Memory) (addr : PhysicalAddress) : Memory :=
  { m with frames := m.frames.physicalFrameRetain addr }

def physicalFrameRelease (m : Memory) (addr : PhysicalAddress) : Memory :=
  { m with frames := m.frames.physicalFrameRelease addr }

end Memory

namespace Table

variable (m : Memory) (table : PhysicalAddress)

def alloc (virtualAddr : VirtualAddress) (attr : BitVec 16) : Option (PhysicalAddress × Memory) := do
  let (physicalAddr, m) ← m.physicalFrameAlloc
  return (physicalAddr,
    m.setWord table (tablePageLoc virtualAddr) (entryWord (thisPage physicalAddr) attr))

/-- The frames of a table's entries are released, the entries stay. -/
def freeDangling : Memory :=
  (List.finRange 1024).foldl (fun m' i =>
    if isPresent (m'.page table i) then
      m'.physicalFrameRelease (entryAt (m'.page table i))
    else
      m') m

def freePage (addr : VirtualAddress) : Memory :=
  let loc := tablePageLoc addr
  if isPresent (m.page table loc) then
    (m.physicalFrameRelease (entryAt (m.page table loc))).setWord table loc 0#32
  else
    m

end Table

/-- The directory slots of user space. -/
abbrev UserLoc := Fin 768

def UserLoc.loc (i : UserLoc) : Fin 1024 := i.castLE (by decide)

namespace UserDirectory

variable (m : Memory) (dir : PhysicalAddress)

/-- A directory with the kernel's part of `upper` and no user tables. -/
def emptyDirectory (upper : Page) : Page := fun i => if i.val < 768 then 0#32 else upper i

def fork (kernel : Page) : Option (PhysicalAddress × Memory) := do
  let (addr, m) ← m.physicalFrameAlloc
  return (addr, m.setPage addr (emptyDirectory kernel))

def ensure (location : Fin 1024) (attr : BitVec 16) : Option Memory :=
  if isPresent (m.page dir location) then
    some m
  else do
    let (addr, m) ← m.physicalFrameAlloc
    return (m.setPage addr fun _ => 0#32).setWord dir location (entryWord addr attr)

/-- The attributes of a page once it is shared: no longer writable, but to be
copied on a write if it was. -/
def shareAttr (attr : BitVec 16) : BitVec 16 :=
  if attr &&& PTE_ReadWrite ≠ 0#16 then attr &&& ~~~PTE_ReadWrite ||| PTE_COW else attr

/-- The inner loop body of `forkCOW`: one page of a table. -/
def sharePage (oldTable newTable : PhysicalAddress) (j : Fin 1024) : Memory :=
  let word := m.page oldTable j
  if isPresent word then
    let shared := entryWord (entryAt word) (shareAttr (entryAttr word))
    ((m.setWord oldTable j shared).setWord newTable j shared).physicalFrameRetain (entryAt word)
  else
    m

/-- The outer loop body of `forkCOW`: one table of the directory. -/
def shareTable (newDir : PhysicalAddress) (i : UserLoc) : Option Memory :=
  let word := m.page dir i.loc
  if isPresent word then do
    let m ← ensure m newDir i.loc (entryAttr word)
    let newTable := entryAt (m.page newDir i.loc)
    return (List.finRange 1024).foldl (fun m j => sharePage m (entryAt word) newTable j) m
  else
    some m

def forkCOW : Option (PhysicalAddress × Memory) := do
  let (newDir, m) ← m.physicalFrameAlloc
  let m := m.setPage newDir (emptyDirectory (m.page dir))
  let m ← (List.finRange 768).foldlM (fun m i => shareTable m dir newDir i) m
  return (newDir, m)

def freePage (addr : VirtualAddress) : Memory :=
  let loc := tableLoc addr
  if isPresent (m.page dir loc) then
    Table.freePage m (entryAt (m.page dir loc)) addr
  else
    m

/-- The loop body of `freePageTables`. -/
def freeTable (i : UserLoc) : Memory :=
  if isPresent (m.page dir i.loc) then
    let table := entryAt (m.page dir i.loc)
    ((Table.freeDangling m table).physicalFrameRelease table).setWord dir i.loc 0#32
  else
    m

def freePageTables : Memory := (List.finRange 768).foldl (fun m i => freeTable m dir i) m

def pageAttr (writable : Bool) : BitVec 16 :=
  PTE_Present ||| (if writable then PTE_ReadWrite else 0#16) ||| PTE_User

/-- `alloc`: a new page with zeros, at the frame returned. -/
def alloc (addr : VirtualAddress) (writable : Bool) : Option (PhysicalAddress × Memory) := do
  let location := tableLoc addr
  let m ← ensure m dir location (PDE_Present ||| PDE_ReadWrite ||| PDE_User)
  let (physicalAddr, m) ← Table.alloc m (entryAt (m.page dir location)) addr (pageAttr writable)
  return (physicalAddr, m.setPage physicalAddr fun _ => 0#32)

/-- `handleCOW`: whether the page may be written now. -/
def handleCOW (addr : VirtualAddress) : Option (Bool × Memory) :=
  let location := tableLoc addr
  if !isPresent (m.page dir location) then
    some (false, m)
  else
    let table := entryAt (m.page dir location)
    let offset := tablePageLoc addr
    let word := m.page table offset
    if !isPresent word then
      some (false, m)
    else if entryAttr word &&& PTE_COW = 0#16 then
      some (false, m)
    else
      let attr := (entryAttr word ||| PTE_ReadWrite) &&& ~~~PTE_COW
      let oldAddr := entryAt word
      if m.frames.physicalFrameGetRef oldAddr = 1#16 then
        some (true, m.setWord table offset (entryWord oldAddr attr))
      else do
        let (newAddr, m) ← m.physicalFrameAlloc
        let m := m.setPage newAddr (m.page oldAddr)
        let m := m.physicalFrameRelease oldAddr
        return (true, m.setWord table offset (entryWord newAddr attr))

end UserDirectory

end Nyan.Paging
