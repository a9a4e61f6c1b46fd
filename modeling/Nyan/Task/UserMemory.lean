import Nyan.Paging.AddressSpace
import Nyan.Syscall.Mmap

/-!
The memory of user processes: the image built by `loadElf` and `execTask`, and the
calls that change it afterwards, which are `brk`, `mmap_pgoff`, `munmap`, the growth
of the stack in `checkStack`, and `fork`. Each of them changes the areas of a
process and its page directory side by side, and nothing in the source ties the
two together.

`execTask` is modelled for a task that still runs in the kernel's directory, as the
tasks made for it do. The program headers are taken as decoded, and the strings
that `loadArgv` puts on the stack page are left out.
-/

namespace Nyan.Task

open Paging Paging.RangeManager Syscall

/-- The values that the variable of a page loop has in its iterations. `none` is a
loop that does not end: there are `2 ^ 20` pages, so a loop over pages has ended
after as many steps or comes back to where it was. -/
def walk (next : VirtualAddress → VirtualAddress) (done : VirtualAddress → Bool) :
    Nat → VirtualAddress → Option (List VirtualAddress)
  | 0, _ => none
  | fuel + 1, page =>
      if done page then some [] else (walk next done fuel (next page)).map (page :: ·)

def walkLimit : Nat := 2 ^ 20 + 1

/-- The loop of `VMA::alloc` and of `__release_range`. -/
def pagesBetween (lower upper : VirtualAddress) : Option (List VirtualAddress) :=
  walk nextPage (· == upper) walkLimit lower

def allocAll (s : Paging.System) (k : Nat) (writable : Bool) (pages : List VirtualAddress) :
    Option Paging.System :=
  pages.foldlM (fun s page => s.step (.alloc k page writable)) s

def freeAll (s : Paging.System) (k : Nat) (pages : List VirtualAddress) : Option Paging.System :=
  pages.foldlM (fun s page => s.step (.freePage k page)) s

/-- Whether `VMA::alloc` makes the pages of an area writable. -/
def writes (vma : VMA) : Bool := vma.protect &&& PROT_WRITE ≠ 0#32

/-- `VMA::alloc`. -/
def vmaAlloc (s : Paging.System) (k : Nat) (vma : VMA) : Option Paging.System := do
  allocAll s k (writes vma) (← pagesBetween vma.beginAddr vma.endAddr)

/-- The pages of the area that a call has inserted, if it has. -/
def fillFresh (s : Paging.System) (k : Nat) : Option VMA → Option Paging.System
  | none => some s
  | some vma => vmaAlloc s k vma

/-- `__release_range`. -/
def releaseRange (s : Paging.System) (k : Nat) (range : VirtualAddress × VirtualAddress) :
    Option Paging.System := do
  freeAll s k (← pagesBetween range.1 range.2)

/-- What the task control block says about memory. -/
structure Process where
  vmSpace : VMSpace
  brkBase : VirtualAddress
  brkAddr : VirtualAddress
  stackRange : VirtualAddress × VirtualAddress

/-- The address spaces and the processes in them, by number. -/
structure Machine where
  system : Paging.System
  processes : List Process

def PHT_Load : BitVec 32 := 1#32
def PHF_Executable : BitVec 32 := 1#32
def PHF_Writable : BitVec 32 := 2#32
def PHF_Readable : BitVec 32 := 4#32

structure ProgramHeader where
  type : BitVec 32
  offset : BitVec 32
  vaddr : VirtualAddress
  filesz : BitVec 32
  memsz : BitVec 32
  flags : BitVec 32
  align : BitVec 32

namespace ProgramHeader

variable (header : ProgramHeader)

/-- The headers that `loadElf` does not skip. -/
def Loads : Prop := header.type = PHT_Load ∧ header.align = 0x1000#32

instance : Decidable header.Loads := inferInstanceAs (Decidable (_ ∧ _))

def lowerPage : VirtualAddress := alignDown header.vaddr

def upperPage : VirtualAddress := alignUp (header.vaddr + header.memsz)

/-- The byte that the loader leaves at an address of a page. -/
def byteAt (file : BitVec 32 → BitVec 8) (page addr : VirtualAddress) : BitVec 8 :=
  let fileUpper := header.vaddr + header.filesz
  let lowerBound := if header.vaddr < page then page else header.vaddr
  let upperBound := if nextPage page < fileUpper then nextPage page else fileUpper
  if lowerBound ≤ addr ∧ addr < upperBound then
    file (header.offset + (addr - header.vaddr))
  else
    0#8

def pageAt (file : BitVec 32 → BitVec 8) (page : VirtualAddress) : Page := fun i =>
  let byte (n : Nat) := header.byteAt file page (page + BitVec.ofNat 32 (4 * i.val + n))
  byte 3 ++ byte 2 ++ byte 1 ++ byte 0

def area : VMA where
  beginAddr := header.lowerPage
  endAddr := header.upperPage
  flags := MAP_PRIVATE ||| MAP_ANONYMOUS
  protect :=
    (if header.flags &&& PHF_Executable ≠ 0#32 then PROT_EXEC else 0#32) |||
    (if header.flags &&& PHF_Writable ≠ 0#32 then PROT_WRITE else 0#32) |||
    (if header.flags &&& PHF_Readable ≠ 0#32 then PROT_READ else 0#32)
  name := "elf segs"

end ProgramHeader

/-- One page of a segment: allocated, and filled from the file. -/
def loadPage (file : BitVec 32 → BitVec 8) (header : ProgramHeader) (k : Nat) (s : Paging.System)
    (page : VirtualAddress) : Option Paging.System := do
  let (frame, memory) ← UserDirectory.alloc s.memory (← s.dir k) page
    (header.flags &&& PHF_Writable ≠ 0#32)
  return { s with memory := memory.setPage frame (header.pageAt file page) }

/-- What `loadElf` has built after some of the headers. -/
structure Image where
  system : Paging.System
  vmSpace : VMSpace
  brkAddr : VirtualAddress

/-- The loop body of `loadElf`. The result of `insert` is not looked at. -/
def loadSegment (file : BitVec 32 → BitVec 8) (k : Nat) (image : Image)
    (header : ProgramHeader) : Option Image :=
  if ¬ header.Loads then
    some image
  else do
    let pages ← pagesBetween header.lowerPage header.upperPage
    let system ← pages.foldlM (loadPage file header k) image.system
    let (_, vmSpace) ← insert image.vmSpace header.area
    let brkAddr := if image.brkAddr < header.upperPage then header.upperPage else image.brkAddr
    return { system, vmSpace, brkAddr }

/-- `loadElf`, into the space that its call of `UserDirectory::fork` makes. -/
def loadElf (s : Paging.System) (file : BitVec 32 → BitVec 8) (headers : List ProgramHeader) :
    Option Image := do
  let system ← s.step .fork
  headers.foldlM (loadSegment file s.spaces.length)
    { system, vmSpace := VMSpace.init, brkAddr := 0x400000#32 }

namespace Machine

variable (m : Machine) (k : Nat)

def execTask (file : BitVec 32 → BitVec 8) (headers : List ProgramHeader) : Option Machine := do
  let image ← loadElf m.system file headers
  let (_, vmSpace) ← insert image.vmSpace VMSpace.stackArea
  let system ← image.system.step (.alloc m.system.spaces.length (prevPage 0xC0000000#32) true)
  let process : Process :=
    { vmSpace, brkBase := image.brkAddr, brkAddr := image.brkAddr
      stackRange := (0xC0000000#32 - 0x800000#32, 0xC0000000#32) }
  return { system, processes := m.processes ++ [process] }

/-- `mmap_pgoff` and `munmap`: the pages of the removed ranges are freed, then those
of the new area are allocated. -/
def mapRequest (r : Request) : Option (Except Errno VirtualAddress × Machine) := do
  let process ← m.processes[k]?
  let out ← r.perform process.vmSpace
  let system ← out.released.foldlM (fun s range => releaseRange s k range) m.system
  let system ← fillFresh system k out.fresh
  let process := { process with vmSpace := out.space }
  return (out.result, { system, processes := m.processes.set k process })

/-- The area that the first `brk` inserts. -/
def brkArea (lower upper : VirtualAddress) : VMA where
  beginAddr := lower
  endAddr := upper
  flags := MAP_PRIVATE ||| MAP_ANONYMOUS
  protect := PROT_READ ||| PROT_WRITE
  name := "brk"

/-- `brk`. The pages are allocated before the areas are looked at, and the result of
`insert` is not looked at. -/
def brk (addr : VirtualAddress) : Option (Except Errno VirtualAddress × Machine) := do
  let process ← m.processes[k]?
  if addr = 0#32 ∨ addr ≤ process.brkAddr then
    return (.ok process.brkAddr, m)
  let currentPage := thisPage (process.brkAddr - 1#32)
  let wantPage := thisPage (addr - 1#32)
  let pages ← pagesBetween currentPage wantPage
  let system ← allocAll m.system k true (pages.map nextPage)
  match process.vmSpace.findName "brk" with
  | none =>
      let (_, vmSpace) ← insert process.vmSpace (brkArea process.brkBase (nextPage wantPage))
      let process := { process with vmSpace, brkAddr := addr }
      return (.ok addr, { system, processes := m.processes.set k process })
  | some i =>
      let vma ← process.vmSpace[i]?
      if process.vmSpace[i + 1]?.any fun next => next.beginAddr < nextPage wantPage then
        return (.error .ENOMEM, { m with system })
      let vmSpace := process.vmSpace.set i { vma with endAddr := nextPage wantPage }
      let process := { process with vmSpace, brkAddr := addr }
      return (.ok addr, { system, processes := m.processes.set k process })

/-- `checkStack`. The neighbour is read only for a user address at or above the end
of the located area, and its pages are made writable whatever it says. -/
def checkStack (targetAddr : VirtualAddress) : Option (Bool × Machine) := do
  let process ← m.processes[k]?
  let pos ← locate process.vmSpace targetAddr
  let vma ← process.vmSpace[pos]?
  if targetAddr < 0x00400000#32 ∨ 0xC0000000#32 ≤ targetAddr ∨ targetAddr < vma.endAddr then
    return (false, m)
  let stackVma ← process.vmSpace[pos + 1]?
  if targetAddr < stackVma.beginAddr ∧ stackVma.flags &&& MAP_GROWSDOWN ≠ 0#32 ∧
      process.stackRange.1 ≤ targetAddr then
    let pages ← walk prevPage (fun addr => addr ≤ targetAddr) walkLimit stackVma.beginAddr
    let system ← allocAll m.system k true (pages.map prevPage)
    let vmSpace := process.vmSpace.set (pos + 1)
      { stackVma with beginAddr := thisPage targetAddr }
    return (true, { system, processes := m.processes.set k { process with vmSpace } })
  return (false, m)

/-- `forkTask`: the child has a copy of the areas and shares the pages. -/
def forkTask : Option Machine := do
  let process ← m.processes[k]?
  let system ← m.system.step (.forkCOW k)
  return { system, processes := m.processes ++ [process] }

end Machine

/-- A new image, or a call of process `k`. -/
inductive Call where
  | exec (file : BitVec 32 → BitVec 8) (headers : List ProgramHeader)
  | brk (k : Nat) (addr : VirtualAddress)
  | request (k : Nat) (r : Request)
  | checkStack (k : Nat) (targetAddr : VirtualAddress)
  | fork (k : Nat)

def Machine.step (m : Machine) : Call → Option Machine
  | .exec file headers => m.execTask file headers
  | .brk k addr => (m.brk k addr).map Prod.snd
  | .request k r => (m.mapRequest k r).map Prod.snd
  | .checkStack k targetAddr => (m.checkStack k targetAddr).map Prod.snd
  | .fork k => m.forkTask k

end Nyan.Task
