import Mathlib.Data.BitVec
import Nyan.Library.Ring
import Nyan.Library.Run
import Nyan.Result

/-!
The buffer of a pipe (`fs/pipe.cpp`). `__head` and `__tail` are free-running
32-bit counters; the low twelve bits index a buffer of 4096 bytes, and the
difference of the counters is the number of bytes held. Each call holds an
`InterruptGuard` from its last check to its return, so one transfer is one step.

A call that finds nothing to do waits and checks again when it is woken. The
model returns `waits` for such a check; the check after the wake-up is a call
of its own, and a wait ended by a signal returns `EINTR` and touches nothing.
-/

namespace Nyan.Fs

open Library

abbrev Byte := BitVec 8

def pipeBufferSize : BitVec 32 := 0x1000#32

def pipeBufferMask : BitVec 32 := 0xFFF#32

structure PipeState where
  buffer : List.Vector Byte 0x1000
  head : BitVec 32
  tail : BitVec 32
  readAlive : Bool
  writeAlive : Bool

namespace PipeState

/-- A new pipe; the buffer is not initialised. -/
def new (buffer : List.Vector Byte 0x1000) : PipeState where
  buffer := buffer
  head := 0#32
  tail := 0#32
  readAlive := true
  writeAlive := true

def size (pipe : PipeState) : BitVec 32 := pipe.head - pipe.tail

def empty (pipe : PipeState) : Bool := pipe.head == pipe.tail

def full (pipe : PipeState) : Bool := pipe.size == pipeBufferSize

def onReadClosed (pipe : PipeState) : PipeState := { pipe with readAlive := false }

def onWriteClosed (pipe : PipeState) : PipeState := { pipe with writeAlive := false }

/-- The copy of `PipeState::read`, in two pieces when it crosses the end of the
buffer. -/
def copyFrom (pipe : PipeState) (left len : BitVec 32) : Option (List Byte) :=
  let right := left + len
  if pipeBufferSize < right then do
    let firstLen := pipeBufferSize - left
    let restLen := len - firstLen
    let first ← Ring.copyOut pipe.buffer left.toNat firstLen.toNat
    let rest ← Ring.copyOut pipe.buffer 0 restLen.toNat
    return first ++ rest
  else
    Ring.copyOut pipe.buffer left.toNat len.toNat

/-- `__tail += len`. -/
def advanceTail (pipe : PipeState) (len : BitVec 32) : PipeState :=
  { pipe with tail := pipe.tail + len }

/-- The buffer after the copy of a write, and `__head += len`. -/
def advanceHead (pipe : PipeState) (buffer : List.Vector Byte 0x1000) (len : BitVec 32) :
    PipeState :=
  { pipe with buffer, head := pipe.head + len }

/-- `PipeState::read`. A copy outside the buffer would be undefined. -/
def read (pipe : PipeState) (sz : BitVec 32) : Option (Blocking (List Byte) × PipeState) :=
  if pipe.empty && pipe.writeAlive then
    some (.waits, pipe)
  else if pipe.empty && !pipe.writeAlive then
    some (.returns [], pipe)
  else do
    let len := if sz < pipe.size then sz else pipe.size
    let left := pipe.tail &&& pipeBufferMask
    let bytes ← pipe.copyFrom left len
    return (.returns bytes, pipe.advanceTail len)

/-- The bytes `cur[from]`, ..., `cur[from + len - 1]` of the caller's memory. -/
def userBytes (cur : Nat → Byte) (start len : Nat) : List Byte :=
  (List.range len).map fun k => cur (start + k)

/-- The copy of `PipeState::write`. -/
def copyTo (pipe : PipeState) (left len : BitVec 32) (cur : Nat → Byte) :
    Option (List.Vector Byte 0x1000) :=
  let right := left + len
  if pipeBufferSize < right then do
    let firstLen := pipeBufferSize - left
    let restLen := len - firstLen
    let buffer ← Ring.copyIn pipe.buffer left.toNat (userBytes cur 0 firstLen.toNat)
    Ring.copyIn buffer 0 (userBytes cur firstLen.toNat restLen.toNat)
  else
    Ring.copyIn pipe.buffer left.toNat (userBytes cur 0 len.toNat)

/-- `PipeState::write` of `sz` bytes at `cur`. -/
def write (pipe : PipeState) (cur : Nat → Byte) (sz : BitVec 32) :
    Option (Blocking (Except Errno (BitVec 32)) × PipeState) :=
  if pipe.full && pipe.readAlive then
    some (.waits, pipe)
  else if !pipe.readAlive then
    some (.returns (.error .EPIPE), pipe)
  else do
    let room := pipeBufferSize - pipe.size
    let len := if sz < room then sz else room
    let left := pipe.head &&& pipeBufferMask
    let buffer ← pipe.copyTo left len cur
    return (.returns (.ok len), pipe.advanceHead buffer len)

theorem index_lt (index : BitVec 32) : (index &&& pipeBufferMask).toNat < 0x1000 := by
  have hle : (index &&& pipeBufferMask).toNat ≤ pipeBufferMask.toNat := by
    rw [BitVec.toNat_and]
    exact Nat.and_le_right
  have hmask : pipeBufferMask.toNat = 0xFFF := rfl
  omega

/-- The bytes held: the cells at the masked counters from `__tail` up to
`__head`. -/
def held (pipe : PipeState) : List Byte :=
  (List.range pipe.size.toNat).map fun k =>
    pipe.buffer.get ⟨((pipe.tail + BitVec.ofNat 32 k) &&& pipeBufferMask).toNat, index_lt _⟩

theorem index_toNat (index : BitVec 32) :
    (index &&& pipeBufferMask).toNat = index.toNat % 0x1000 := by
  have hmask := Nat.and_two_pow_sub_one_eq_mod index.toNat 12
  rw [BitVec.toNat_and]
  exact hmask

/-- The counters are at most a buffer apart. -/
def Fits (pipe : PipeState) : Prop := pipe.size.toNat ≤ 0x1000

theorem held_eq_contents {pipe : PipeState} (h : pipe.Fits) :
    pipe.held = Ring.contents pipe.buffer pipe.tail.toNat pipe.size.toNat := by
  apply List.ext_getElem
  · rw [Ring.length_contents h]
    simp [held]
  · intro k hk hk'
    have hk : k < pipe.size.toNat := by simpa [held] using hk
    have hindex : ((pipe.tail + BitVec.ofNat 32 k) &&& pipeBufferMask).toNat =
        (k + pipe.tail.toNat) % 0x1000 := by
      rw [index_toNat, BitVec.toNat_add, BitVec.toNat_ofNat]
      omega
    simp only [held, List.getElem_map, List.getElem_range, hindex]
    simp [Ring.contents, List.Vector.get_eq_get_toList, List.getElem_rotate]

section Copies

variable {pipe : PipeState} {left len : BitVec 32}

theorem right_toNat (hleft : left.toNat < 0x1000) (hlen : len.toNat ≤ 0x1000) :
    (left + len).toNat = left.toNat + len.toNat := by
  rw [BitVec.toNat_add]
  omega

theorem firstLen_toNat (hleft : left.toNat < 0x1000) :
    (pipeBufferSize - left).toNat = 0x1000 - left.toNat := by
  have hsize : pipeBufferSize.toNat = 0x1000 := rfl
  rw [BitVec.toNat_sub, hsize]
  omega

theorem restLen_toNat (hleft : left.toNat < 0x1000) (hcross : 0x1000 < left.toNat + len.toNat) :
    (len - (pipeBufferSize - left)).toNat = len.toNat - (0x1000 - left.toNat) := by
  rw [BitVec.toNat_sub, firstLen_toNat hleft]
  omega

theorem copyFrom_eq (hleft : left.toNat < 0x1000) (hlen : len.toNat ≤ 0x1000) :
    pipe.copyFrom left len = some (Ring.contents pipe.buffer left.toNat len.toNat) := by
  have hsize : pipeBufferSize.toNat = 0x1000 := rfl
  unfold copyFrom
  simp only [BitVec.lt_def, right_toNat hleft hlen, hsize]
  split
  · rename_i hcross
    obtain ⟨first, second, hfirst, hsecond, hboth⟩ :=
      Ring.copyOut_split pipe.buffer hleft.le hcross.le hlen
    rw [firstLen_toNat hleft, restLen_toNat hleft hcross, hfirst, hsecond]
    simp [hboth]
  · rename_i hflat
    exact Ring.copyOut_flat (by omega)

theorem length_userBytes (cur : Nat → Byte) (start count : Nat) :
    (userBytes cur start count).length = count := by
  simp [userBytes]

theorem userBytes_append (cur : Nat → Byte) (first rest : Nat) :
    userBytes cur 0 first ++ userBytes cur first rest = userBytes cur 0 (first + rest) := by
  simp [userBytes, List.range_add, Function.comp_def]

theorem copyTo_eq (pipe : PipeState) (hleft : left.toNat < 0x1000)
    (hlen : len.toNat ≤ 0x1000) (cur : Nat → Byte) :
    ∃ buffer', pipe.copyTo left len cur = some buffer' ∧
      buffer'.toList.rotate left.toNat = userBytes cur 0 len.toNat ++
        (pipe.buffer.toList.rotate left.toNat).drop (userBytes cur 0 len.toNat).length := by
  have hsize : pipeBufferSize.toNat = 0x1000 := rfl
  unfold copyTo
  simp only [BitVec.lt_def, right_toNat hleft hlen, hsize]
  split
  · rename_i hcross
    obtain ⟨middle, buffer', hmiddle, hbuffer, hrotate⟩ := Ring.copyIn_split pipe.buffer left.toNat
      (userBytes cur 0 (0x1000 - left.toNat))
      (userBytes cur (0x1000 - left.toNat) (len.toNat - (0x1000 - left.toNat)))
      (by rw [length_userBytes]; omega) (by rw [length_userBytes]; omega)
    have hlength : 0x1000 - left.toNat + (len.toNat - (0x1000 - left.toNat)) = len.toNat := by
      omega
    rw [firstLen_toNat hleft, restLen_toNat hleft hcross, hmiddle]
    refine ⟨buffer', hbuffer, ?_⟩
    rw [hrotate, userBytes_append, hlength]
    simp only [length_userBytes, hlength]
  · rename_i hflat
    exact Ring.copyIn_flat pipe.buffer (by rw [length_userBytes]; omega)

end Copies

theorem min_toNat (a b : BitVec 32) : (if a < b then a else b).toNat = min a.toNat b.toNat := by
  split
  · rename_i h
    rw [BitVec.lt_def] at h
    omega
  · rename_i h
    rw [BitVec.lt_def] at h
    omega

theorem advanceTail_size {pipe : PipeState} {len : BitVec 32}
    (h : len.toNat ≤ pipe.size.toNat) :
    (pipe.advanceTail len).size.toNat = pipe.size.toNat - len.toNat := by
  simp only [size, advanceTail] at h ⊢
  bv_omega

theorem advanceHead_size {pipe : PipeState} {buffer : List.Vector Byte 0x1000}
    {len : BitVec 32} (h : pipe.size.toNat + len.toNat ≤ 0x1000) :
    (pipe.advanceHead buffer len).size.toNat = pipe.size.toNat + len.toNat := by
  simp only [size, advanceHead] at h ⊢
  bv_omega

/-- Taking bytes off the front of what is held. -/
theorem advanceTail_held {pipe : PipeState} {len : BitVec 32} (hfits : pipe.Fits)
    (h : len.toNat ≤ pipe.size.toNat) :
    (pipe.advanceTail len).Fits ∧
      (pipe.advanceTail len).held = pipe.held.drop len.toNat := by
  have hsize := advanceTail_size h
  have hfits' : (pipe.advanceTail len).Fits := by
    unfold Fits at hfits ⊢
    omega
  refine ⟨hfits', ?_⟩
  rw [held_eq_contents hfits', held_eq_contents hfits, hsize, ← Ring.contents_advance h hfits,
    ← Ring.contents_mod]
  have htail : (pipe.advanceTail len).tail.toNat % 0x1000 =
      (pipe.tail.toNat + len.toNat) % 0x1000 := by
    rw [advanceTail, BitVec.toNat_add]
    omega
  rw [htail, Ring.contents_mod]
  rfl

/-- Putting bytes behind what is held. -/
theorem advanceHead_held {pipe : PipeState} {buffer : List.Vector Byte 0x1000}
    {len : BitVec 32} {data : List Byte} (hfits : pipe.Fits) (hdata : data.length = len.toNat)
    (h : pipe.size.toNat + len.toNat ≤ 0x1000)
    (hstore : buffer.toList.rotate (pipe.head &&& pipeBufferMask).toNat =
      data ++ (pipe.buffer.toList.rotate (pipe.head &&& pipeBufferMask).toNat).drop data.length) :
    (pipe.advanceHead buffer len).Fits ∧
      (pipe.advanceHead buffer len).held = pipe.held ++ data := by
  have hsize : (pipe.advanceHead buffer len).size.toNat = _ := advanceHead_size h
  have hfits' : (pipe.advanceHead buffer len).Fits := by
    unfold Fits
    omega
  refine ⟨hfits', ?_⟩
  rw [held_eq_contents hfits', held_eq_contents hfits, hsize, ← hdata]
  apply Ring.contents_append (by omega)
  have hhead : (pipe.head &&& pipeBufferMask).toNat =
      (pipe.tail.toNat + pipe.size.toNat) % 0x1000 := by
    rw [index_toNat, size]
    bv_omega
  rwa [hhead, Ring.toList_rotate_mod, Ring.toList_rotate_mod] at hstore

/-- A read of a pipe that holds bytes takes as many as it asks for, or all. -/
theorem read_nonempty {pipe : PipeState} (hfits : pipe.Fits) (hne : pipe.empty = false)
    (sz : BitVec 32) :
    ∃ len : BitVec 32, len.toNat = min sz.toNat pipe.size.toNat ∧
      pipe.read sz = some (.returns (pipe.held.take len.toNat), pipe.advanceTail len) := by
  refine ⟨if sz < pipe.size then sz else pipe.size, min_toNat _ _, ?_⟩
  unfold read
  set len := if sz < pipe.size then sz else pipe.size with hlen
  have hlenLe : len.toNat ≤ pipe.size.toNat := by
    rw [hlen, min_toNat]
    exact Nat.min_le_right _ _
  have hbytes : pipe.copyFrom (pipe.tail &&& pipeBufferMask) len =
      some (pipe.held.take len.toNat) := by
    rw [copyFrom_eq (index_lt _) (hlenLe.trans hfits), index_toNat, Ring.contents_mod,
      held_eq_contents hfits, Ring.contents, Ring.contents, List.take_take,
      Nat.min_eq_left hlenLe]
  simp [hne, hbytes]

/-- A read returns the front of what is held, or waits. -/
theorem read_spec {pipe : PipeState} (hfits : pipe.Fits) (sz : BitVec 32) :
    pipe.read sz = some (.waits, pipe) ∨
      ∃ bytes pipe', pipe.read sz = some (.returns bytes, pipe') ∧ pipe'.Fits ∧
        bytes ++ pipe'.held = pipe.held := by
  cases hempty : pipe.empty with
  | false =>
      obtain ⟨len, hlen, hread⟩ := read_nonempty hfits hempty sz
      obtain ⟨hfits', hheld⟩ := advanceTail_held hfits (hlen ▸ Nat.min_le_right _ _)
      refine Or.inr ⟨_, _, hread, hfits', ?_⟩
      rw [hheld, List.take_append_drop]
  | true =>
      cases halive : pipe.writeAlive with
      | true => exact Or.inl (by simp [read, hempty, halive])
      | false => exact Or.inr ⟨[], pipe, by simp [read, hempty, halive], hfits, rfl⟩

/-- A write appends the bytes it accepts, or waits, or fails. -/
theorem write_spec {pipe : PipeState} (hfits : pipe.Fits) (cur : Nat → Byte) (sz : BitVec 32) :
    pipe.write cur sz = some (.waits, pipe) ∨
      pipe.write cur sz = some (.returns (.error .EPIPE), pipe) ∨
      ∃ len pipe', pipe.write cur sz = some (.returns (.ok len), pipe') ∧ pipe'.Fits ∧
        pipe'.held = pipe.held ++ userBytes cur 0 len.toNat := by
  unfold write
  split
  · exact Or.inl rfl
  split
  · exact Or.inr (Or.inl rfl)
  right
  right
  set len := if sz < pipeBufferSize - pipe.size then sz else pipeBufferSize - pipe.size with hlen
  have hfits' : pipe.size.toNat ≤ 0x1000 := hfits
  have hroom : (pipeBufferSize - pipe.size).toNat = 0x1000 - pipe.size.toNat := by
    have hsize : pipeBufferSize.toNat = 0x1000 := rfl
    rw [BitVec.toNat_sub, hsize]
    omega
  have hlenLe : pipe.size.toNat + len.toNat ≤ 0x1000 := by
    rw [hlen, min_toNat, hroom]
    omega
  obtain ⟨buffer, hcopy, hstore⟩ := copyTo_eq pipe (index_lt pipe.head)
    (show len.toNat ≤ 0x1000 by omega) cur
  obtain ⟨hfits'', hheld⟩ := advanceHead_held hfits (length_userBytes cur 0 _) hlenLe hstore
  refine ⟨len, pipe.advanceHead buffer len, ?_, hfits'', hheld⟩
  simp only [← hlen, hcopy, Option.bind_eq_bind, Option.bind_some, Option.pure_def]

end PipeState

/-- The calls any number of tasks make on one pipe. -/
inductive PipeCall where
  | read (sz : BitVec 32)
  | write (cur : Nat → Byte) (sz : BitVec 32)
  | closeRead
  | closeWrite

/-- A pipe with the bytes its writes accepted and its reads returned so far. -/
structure PipeHistory where
  pipe : PipeState
  accepted : List Byte
  returned : List Byte

namespace PipeHistory

def new (buffer : List.Vector Byte 0x1000) : PipeHistory := ⟨PipeState.new buffer, [], []⟩

def call (history : PipeHistory) : PipeCall → Option PipeHistory
  | .read sz => do
      let (out, pipe) ← history.pipe.read sz
      match out with
      | .waits => return { history with pipe }
      | .returns bytes => return { history with pipe, returned := history.returned ++ bytes }
  | .write cur sz => do
      let (out, pipe) ← history.pipe.write cur sz
      match out with
      | .waits => return { history with pipe }
      | .returns (.error _) => return { history with pipe }
      | .returns (.ok len) =>
          return { history with
            pipe
            accepted := history.accepted ++ PipeState.userBytes cur 0 len.toNat }
  | .closeRead => some { history with pipe := history.pipe.onReadClosed }
  | .closeWrite => some { history with pipe := history.pipe.onWriteClosed }

/-- Nothing is lost, invented or reordered. -/
structure Lossless (history : PipeHistory) : Prop where
  fits : history.pipe.Fits
  fifo : history.returned ++ history.pipe.held = history.accepted

theorem call_lossless {history : PipeHistory} (h : history.Lossless) (c : PipeCall) :
    ∃ history', history.call c = some history' ∧ history'.Lossless := by
  cases c with
  | read sz =>
      rcases PipeState.read_spec h.fits sz with hread | ⟨bytes, pipe', hread, hfits, hheld⟩
      · refine ⟨history, by simp [call, hread], h⟩
      · refine ⟨{ history with pipe := pipe', returned := history.returned ++ bytes }, ?_, hfits, ?_⟩
        · simp [call, hread]
        · simp only [List.append_assoc, hheld, h.fifo]
  | write cur sz =>
      rcases PipeState.write_spec h.fits cur sz with
        hwrite | hwrite | ⟨len, pipe', hwrite, hfits, hheld⟩
      · refine ⟨history, by simp [call, hwrite], h⟩
      · refine ⟨history, by simp [call, hwrite], h⟩
      · refine ⟨{ history with
          pipe := pipe'
          accepted := history.accepted ++ PipeState.userBytes cur 0 len.toNat }, ?_, hfits, ?_⟩
        · simp [call, hwrite]
        · simp only [hheld, ← List.append_assoc, h.fifo]
  | closeRead => exact ⟨_, rfl, h.fits, h.fifo⟩
  | closeWrite => exact ⟨_, rfl, h.fits, h.fifo⟩

theorem new_lossless (buffer : List.Vector Byte 0x1000) : (new buffer).Lossless := by
  refine ⟨?_, ?_⟩
  · simp [PipeState.Fits, new, PipeState.new, PipeState.size]
  · simp [new, PipeState.new, PipeState.held, PipeState.size]

/-- Whatever sequence of calls is made on a new pipe, every call is carried out
inside the buffer; the bytes returned are a prefix of the bytes accepted, the
buffer holds exactly the rest, and it never holds more than its size. -/
theorem calls_lossless (buffer : List.Vector Byte 0x1000) (calls : List PipeCall) :
    ∃ history, calls.foldlM call (new buffer) = some history ∧
      history.returned <+: history.accepted ∧
      history.accepted = history.returned ++ history.pipe.held ∧
      history.pipe.size.toNat ≤ pipeBufferSize.toNat := by
  obtain ⟨history, hrun, hlossless⟩ := execution_total
    (fun _ c h => call_lossless h c) (new_lossless buffer) calls
  exact ⟨history, hrun, ⟨history.pipe.held, hlossless.fifo⟩, hlossless.fifo.symm,
    hlossless.fits⟩

end PipeHistory

end Nyan.Fs
