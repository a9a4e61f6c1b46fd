import Nyan.Elf.Containment
import Nyan.Task.ArgumentSpill

/-!
`execTask`, from the file to the stack of the new program, and `checkArgv`, which
copies the arguments in before. `checkArgv` takes as many strings of any length as
the caller can read, `execTask` has one page for them, and nothing in between looks
at how much they take: `execTask` cannot fail, and `kfatal` comes after the writes.
-/

namespace Nyan.Elf

open Paging Paging.RangeManager Nyan.Task Allocator

/-- `checkArgv`, for what the caller has in its memory. -/
def checkArgv (user : VirtualAddress → BitVec 8) (space : VMSpace) (argv : VirtualAddress) :
    Option (Except Errno (List (List (BitVec 8)))) :=
  (space.validateReadonlyStringArray user argv).map fun
    | none => .error .EFAULT
    | some strs => .ok strs

/-- What `execTask` has when it is about to drop the old image. -/
structure Launch where
  load : StackLoad
  process : Process
  entry : VirtualAddress

/-- `execTask`; an `.error` is the stack at the time of `kfatal`. -/
def execTask (s : Paging.System) (window : VirtualAddress) (memory : VirtualAddress → BitVec 8)
    (file : Bytes) (argv env : List (List (BitVec 8))) : Option (Except Stack Launch) := do
  let (image, entry) ← loadFile s file
  let (_, vmSpace) ← insert image.vmSpace VMSpace.stackArea
  let out ← loadStack image.system s.spaces.length window memory argv env
  return do
    let load ← out
    let process : Process :=
      { vmSpace, brkBase := image.brkAddr, brkAddr := image.brkAddr
        stackRange := (0xC0000000#32 - 0x800000#32, 0xC0000000#32) }
    return { load, process, entry }

/-- What `pushString` and `pushVal` have written. -/
def written : Except Stack Launch → List VirtualAddress
  | .ok launch => launch.load.stack.written
  | .error stack => stack.written

variable {s : Paging.System} {window : VirtualAddress} {memory : VirtualAddress → BitVec 8}
  {file : Bytes} {argv env : List (List (BitVec 8))} {out : Except Stack Launch}

theorem execTask_eq (heq : execTask s window memory file argv env = some out) :
    ∃ image entry vmSpace inner inserted, loadFile s file = some (image, entry) ∧
      insert image.vmSpace VMSpace.stackArea = some (inserted, vmSpace) ∧
      loadStack image.system s.spaces.length window memory argv env = some inner ∧
      written out = (Stack.last inner).written := by
  simp only [execTask, Option.bind_eq_bind, Option.bind_eq_some_iff, Option.pure_def,
    Option.some_inj, Prod.exists] at heq
  obtain ⟨image, entry, hload, inserted, vmSpace, hinsert, inner, hstack, rfl⟩ := heq
  refine ⟨image, entry, vmSpace, inner, inserted, hload, hinsert, hstack, ?_⟩
  cases inner with
  | error failed => rfl
  | ok load => rfl

/-- The image is the one of the machine that leaves the arguments out. -/
theorem execTask_process {m : Machine} {launch : Launch}
    (heq : execTask m.system window memory file argv env = some (.ok launch)) :
    ∃ m', m.execTask file (programHeaders file) = some m' ∧
      m'.processes = m.processes ++ [launch.process] := by
  simp only [execTask, loadFile, loadStack, Option.bind_eq_bind, Option.bind_eq_some_iff,
    Option.map_eq_some_iff, Option.pure_def, Option.some_inj, Prod.exists, Prod.mk.injEq] at heq
  obtain ⟨image, _, ⟨_, hload, rfl, _⟩, inserted, vmSpace, hinsert, inner,
    ⟨dir, hdir, frame, pages, halloc, hstack⟩, hok⟩ := heq
  cases inner with
  | error failed => cases hok
  | ok load =>
      obtain rfl := Except.ok.inj hok
      simp only [Machine.execTask, hload, hinsert, Paging.System.step, hdir, halloc, Option.bind_eq_bind,
        Option.bind_some, Option.pure_def]
      exact ⟨_, rfl, rfl⟩

/-- Every byte that `execTask` pushes lies on the page exactly if the image fits it. -/
theorem execTask_contained_iff (hwindow : PageAligned window)
    (heq : execTask s window memory file argv env = some out) :
    (∀ addr ∈ written out, thisPage addr = window) ↔ imageBytes argv env ≤ 4096 := by
  obtain ⟨_, _, _, _, _, _, _, hstack, hwritten⟩ := execTask_eq heq
  rw [hwritten]
  constructor
  · intro hwithin
    by_contra hlarge
    exact Stack.thisPage_before hwindow
      (hwithin _ (loadStack_spills hwindow (Nat.lt_of_not_le hlarge) hstack))
  · intro hfits
    exact loadStack_within hwindow hfits hstack

/-- A file without headers is executed with any arguments. -/
theorem execTask_no_headers (window : VirtualAddress) (memory : VirtualAddress → BitVec 8)
    (argv env : List (List (BitVec 8))) :
    ∃ out, execTask emptySystem window memory (fun _ => 0#8) argv env = some out := by
  obtain ⟨⟨image, entry⟩, hload, hinsert, hdir, hfree⟩ :
      ∃ result ∈ loadFile emptySystem fun _ => 0#8,
        (insert result.1.vmSpace VMSpace.stackArea).isSome ∧ (result.1.system.dir 0).isSome ∧
          1 < UserDirectory.free result.1.system.memory := by
    decide +kernel
  obtain ⟨⟨inserted, vmSpace⟩, hinsert⟩ := Option.isSome_iff_exists.mp hinsert
  obtain ⟨dir, hdir⟩ := Option.isSome_iff_exists.mp hdir
  obtain ⟨frame, pages, halloc, _⟩ :=
    UserDirectory.alloc_defined dir hfree (prevPage 0xC0000000#32) true
  have hspaces : emptySystem.spaces.length = 0 := rfl
  simp only [execTask, Option.mem_def.mp hload, hinsert, loadStack, hspaces, hdir, halloc,
    Option.bind_eq_bind, Option.bind_some, Option.pure_def]
  exact ⟨_, rfl⟩

theorem execTask_contained_iff_no_arguments :
    ∃ out, execTask emptySystem 0xF0000000#32 (fun _ => 0#8) (fun _ => 0#8) [] [] = some out ∧
      ∀ addr ∈ written out, thisPage addr = 0xF0000000#32 := by
  obtain ⟨out, hout⟩ := execTask_no_headers 0xF0000000#32 (fun _ => 0#8) [] []
  exact ⟨out, hout, (execTask_contained_iff (by decide) hout).mpr (by decide)⟩

/-- A caller's stack page: a string of 4064 bytes from its beginning on, and near its end
the address of the string and a null. -/
def longArgument (addr : VirtualAddress) : BitVec 8 :=
  if addr.toNat < 0xBFFFFFE0 then 0x61#8
  else if addr = 0xBFFFFFF1#32 then 0xF0#8
  else if addr = 0xBFFFFFF2#32 then 0xFF#8
  else if addr = 0xBFFFFFF3#32 then 0xBF#8
  else 0#8

theorem stackOnly_regular : Regular VMSpace.Base VMSpace.Top VMSpace.stackOnly := by
  refine ⟨⟨⟨by decide, ?_⟩, VMSpace.stackOnly.tail.dropLast, rfl⟩, by decide⟩
  unfold VMSpace.stackOnly
  decide

theorem longArgument_firstLast : VMSpace.FirstLast 1 longArgument (· == 0#8) VMSpace.stackOnly
    0xBFFFF000#32 4064 where
  last := by decide
  before i hi := by
    have haddr : (VMSpace.element 1 0xBFFFF000#32 i).toNat = 0xBFFFF000 + i * 1 :=
      VMSpace.element_toNat (by simp; omega)
    have hlow : (VMSpace.element 1 0xBFFFF000#32 i).toNat < 0xBFFFFFE0 := by omega
    simp [longArgument, hlow]
  readable :=
    { user := by decide
      readable := fun x hlow hhigh => by
        have hupper : hi VMSpace.stackArea = 0xC0000000 := by rfl
        refine ⟨VMSpace.stackArea, by simp [VMSpace.stackOnly], by decide, hlow, ?_⟩
        simp only [BitVec.toNat_ofNat] at hhigh
        omega }

/-- The caller has one string, which `checkArgv` takes. -/
theorem checkArgv_longArgument : ∃ str : List (BitVec 8), str.length = 4064 ∧
    checkArgv longArgument VMSpace.stackOnly 0xBFFFFFF0#32 = some (.ok [str]) := by
  have haligned : ∀ vma ∈ VMSpace.stackOnly,
      PageAligned vma.beginAddr ∧ PageAligned vma.endAddr := by decide
  obtain ⟨out, hout, hscans⟩ : ∃ out,
      VMSpace.validateReadonlyRange 1 longArgument (· == 0#8) VMSpace.stackOnly 0xBFFFF000#32 =
        some out ∧
      VMSpace.Scans 1 longArgument (· == 0#8) VMSpace.stackOnly 0xBFFFF000#32 0xBFFFF000#32 out :=
    VMSpace.validateReadonlyRange_scans stackOnly_regular haligned (by decide) (Nat.one_dvd _)
  have hstring : VMSpace.validateReadonlyString longArgument VMSpace.stackOnly 0xBFFFF000#32 =
      some (some (VMSpace.elements 1 longArgument
        (0xBFFFF000#32, VMSpace.element 1 0xBFFFF000#32 4064))) := by
    rw [VMSpace.validateReadonlyString, hout, Option.map_some,
      hscans.found 4064 longArgument_firstLast, Option.map_some]
  have harray : VMSpace.validateReadonlyRange 4 (VMSpace.wordAt longArgument) (· == 0#32)
      VMSpace.stackOnly 0xBFFFFFF0#32 = some ⟨some (0xBFFFFFF0#32, 0xBFFFFFF4#32),
        [0xBFFFFFF0#32, 0xBFFFFFF4#32]⟩ := by
    decide +kernel
  have hpointer : VMSpace.elements 4 (VMSpace.wordAt longArgument)
      (0xBFFFFFF0#32, 0xBFFFFFF4#32) = [0xBFFFF000#32] := by
    decide +kernel
  refine ⟨VMSpace.elements 1 longArgument (0xBFFFF000#32, VMSpace.element 1 0xBFFFF000#32 4064),
    by simp [VMSpace.elements, VMSpace.element], ?_⟩
  simp only [checkArgv, VMSpace.validateReadonlyStringArray, harray, hpointer,
    VMSpace.readStrings, hstring, Option.bind_eq_bind, Option.bind_some, Option.pure_def,
    Option.map_some]

/-- The caller's string takes 4068 bytes and the rest 32, and `execTask` writes to the byte
before the page. -/
theorem execTask_spills_long_argument :
    ∃ argv out, checkArgv longArgument VMSpace.stackOnly 0xBFFFFFF0#32 = some (.ok argv) ∧
      checkArgv longArgument VMSpace.stackOnly 0xBFFFFFF4#32 = some (.ok []) ∧
      execTask emptySystem 0xF0000000#32 (fun _ => 0#8) (fun _ => 0#8) argv [] = some out ∧
      0xEFFFFFFF#32 ∈ written out := by
  obtain ⟨str, hlength, hargv⟩ := checkArgv_longArgument
  have henvp : checkArgv longArgument VMSpace.stackOnly 0xBFFFFFF4#32 = some (.ok []) := by
    decide +kernel
  obtain ⟨out, hout⟩ := execTask_no_headers 0xF0000000#32 (fun _ => 0#8) [str] []
  obtain ⟨_, _, _, _, _, _, _, hstack, hwritten⟩ := execTask_eq hout
  have hlarge : 4096 < imageBytes [str] [] := by
    simp [imageBytes, stringsBytes, stringBytes, hlength]
  refine ⟨[str], out, hargv, henvp, hout, ?_⟩
  rw [hwritten]
  exact loadStack_spills (by decide) hlarge hstack

end Nyan.Elf
