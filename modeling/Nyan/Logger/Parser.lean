import Nyan.Library.ByteMemory

/-!
The reader of the kernel log (`logger/parser.ts`): a generator that is resumed with
chunks of bytes and yields entries, or null while it waits for more. Its state is
where it is suspended, with the buffer and the position in it. `content.toString()`
is the parameter `toText`.
-/

namespace Nyan.Logger

open Library

structure PayloadBase where
  ts : Nat
  eip : Nat
  pid : Int
  pgid : Int
  len : Nat
  deriving DecidableEq, Repr

/-- An entry, by the kind of its payload. -/
inductive Entry (τ : Type) where
  | log (payload : PayloadBase) (logLevel : Nat) (content : τ)
  | syscall (payload : PayloadBase) (syscallRole : Nat) (ret id : Nat) (args : List Nat)
  | exception (payload : PayloadBase) (num errcode cs eip cr2 : Nat)
  | fatal (payload : PayloadBase)
  deriving DecidableEq, Repr

/-- What is read from the twenty bytes of a header. -/
structure Header where
  payload : PayloadBase
  type : Nat
  typeExt : Nat
  deriving DecidableEq, Repr

/-- `readUint8`, `readUint16LE` and `readUint32LE`, for one, two and four bytes. They
throw beyond the end of the buffer. -/
def readUint (size : Nat) (buffer : List Byte) (offset : Nat) : Option Nat :=
  if offset + size ≤ buffer.length then
    some (valueOf ((buffer.drop offset).take size))
  else
    none

def readInt32LE (buffer : List Byte) (offset : Nat) : Option Int :=
  (readUint 4 buffer offset).map fun n => (BitVec.ofNat 32 n).toInt

def readHeader (buffer : List Byte) (ptr : Nat) : Option Header := do
  let ts ← readUint 4 buffer ptr
  let eip ← readUint 4 buffer (ptr + 4)
  let pid ← readInt32LE buffer (ptr + 8)
  let pgid ← readInt32LE buffer (ptr + 12)
  let len ← readUint 2 buffer (ptr + 16)
  let type ← readUint 1 buffer (ptr + 18)
  let typeExt ← readUint 1 buffer (ptr + 19)
  return ⟨⟨ts, eip, pid, pgid, len⟩, type, typeExt⟩

variable {τ : Type} (toText : List Byte → τ)

/-- The `switch`: the entry to yield, or none for a type that is not known. -/
def readEntry (header : Header) (content : List Byte) : Option (Option (Entry τ)) :=
  match header.type with
  | 0 => some (some (.log header.payload header.typeExt (toText content)))
  | 1 => do
      let ret ← readUint 4 content 0
      let id ← readUint 4 content 4
      let args ← [8, 12, 16, 20, 24, 28].mapM (readUint 4 content)
      return some (.syscall header.payload header.typeExt ret id args)
  | 2 => do
      let num ← readUint 4 content 0
      let errcode ← readUint 4 content 4
      let cs ← readUint 4 content 8
      let eip ← readUint 4 content 12
      let cr2 ← readUint 4 content 16
      return some (.exception header.payload num errcode cs eip cr2)
  | 3 => some (some (.fatal header.payload))
  | _ => some none

/-- Where the generator is suspended. -/
inductive Point where
  | start
  | inHeader
  | inContent (header : Header)
  | afterEntry
  | finished

structure Generator where
  buffer : List Byte
  ptr : Nat
  point : Point

/-- What a call of `next` gives. -/
inductive Yield (τ : Type) where
  | entry (entry : Entry τ)
  | null
  | done
  | threw

/-- The generator before its first `next`. -/
def parse (buffer : List Byte) : Generator := ⟨buffer, 0, .start⟩

/-- `yield null` in `waitForData`: what is consumed is dropped. -/
def waitForData (buffer : List Byte) (ptr : Nat) (point : Point) : Yield τ × Generator :=
  (.null, ⟨buffer.drop ptr, 0, point⟩)

/-- The loop of `parse` up to the next `yield`: from its start, or from the wait for
the content behind a header. -/
def run (buffer : List Byte) (ptr : Nat) (pending : Option Header) : Yield τ × Generator :=
  match pending with
  | none =>
      if ptr + 20 > buffer.length then
        waitForData buffer ptr .inHeader
      else
        match readHeader buffer ptr with
        | none => (.threw, ⟨buffer, ptr, .finished⟩)
        | some header => run buffer (ptr + 20) (some header)
  | some header =>
      if ptr + header.payload.len > buffer.length then
        waitForData buffer ptr (.inContent header)
      else
        let content := (buffer.drop ptr).take header.payload.len
        match readEntry toText header content with
        | none => (.threw, ⟨buffer, ptr, .finished⟩)
        | some none => run buffer (ptr + header.payload.len) none
        | some (some entry) => (.entry entry, ⟨buffer, ptr + header.payload.len, .afterEntry⟩)
termination_by 2 * (buffer.length - ptr) + pending.toList.length
decreasing_by
  all_goals simp_wf
  all_goals omega

/-- `next`. The argument counts only where the generator waits for data; there,
none ends it. -/
def Generator.next (g : Generator) (data : Option (List Byte)) : Yield τ × Generator :=
  match g.point, data with
  | .start, _ | .afterEntry, _ => run toText g.buffer g.ptr none
  | .inHeader, some chunk => run toText (g.buffer ++ chunk) g.ptr none
  | .inContent header, some chunk => run toText (g.buffer ++ chunk) g.ptr (some header)
  | .inHeader, none | .inContent _, none | .finished, _ => (.done, { g with point := .finished })

/-- A bound on the entries that are still to come without more data. -/
def Generator.weight (g : Generator) (data : Option (List Byte)) : Nat :=
  2 * (g.buffer.length + (data.getD []).length - g.ptr) +
    match g.point with
    | .inContent _ => 1
    | _ => 0

variable {toText}

/-- Between two entries the generator consumes bytes. -/
theorem run_entry_lt {buffer : List Byte} {ptr : Nat} {pending : Option Header}
    {entry : Entry τ} {g : Generator} (h : run toText buffer ptr pending = (.entry entry, g)) :
    g.weight none < 2 * (buffer.length - ptr) + pending.toList.length := by
  fun_induction run toText buffer ptr pending with
  | case1 => cases h
  | case2 => cases h
  | case3 ptr hmore header hheader ih =>
      have hlt := ih h
      simp only [Option.toList_some, Option.toList_none, List.length_cons, List.length_nil] at hlt ⊢
      omega
  | case4 => cases h
  | case5 => cases h
  | case6 ptr header hmore content hcontent ih =>
      have hlt := ih h
      simp only [Option.toList_some, Option.toList_none, List.length_cons, List.length_nil] at hlt ⊢
      omega
  | case7 ptr header hmore content entry' hcontent =>
      obtain ⟨_, rfl⟩ := Prod.mk.inj h
      simp [Generator.weight]
      omega

theorem Generator.next_entry_lt {g g' : Generator} {data : Option (List Byte)} {entry : Entry τ}
    (h : g.next toText data = (.entry entry, g')) : g'.weight none < g.weight data := by
  obtain ⟨buffer, ptr, point⟩ := g
  cases point with
  | start =>
      refine (run_entry_lt h).trans_le ?_
      simp only [Generator.weight, Option.toList_none, List.length_nil]
      omega
  | afterEntry =>
      refine (run_entry_lt h).trans_le ?_
      simp only [Generator.weight, Option.toList_none, List.length_nil]
      omega
  | inHeader =>
      cases data with
      | none => cases h
      | some chunk =>
          refine (run_entry_lt h).trans_le ?_
          simp [Generator.weight]
  | inContent header =>
      cases data with
      | none => cases h
      | some chunk =>
          refine (run_entry_lt h).trans_le ?_
          simp [Generator.weight]
  | finished => cases h

variable (toText)

/-- The loop of `drain` in `logger/watch.ts`: entries are taken until the generator
yields null or ends. -/
def drain (g : Generator) (data : Option (List Byte)) : List (Entry τ) × Generator :=
  match _hnext : g.next toText data with
  | (.entry entry, g') =>
      let (entries, last) := drain g' none
      (entry :: entries, last)
  | (_, g') => ([], g')
termination_by g.weight data
decreasing_by exact Generator.next_entry_lt _hnext

/-- The entries after a generator was started on a buffer and fed with chunks. -/
def feed (initial : List Byte) (chunks : List (List Byte)) : List (Entry τ) × Generator :=
  chunks.foldl (fun (entries, g) chunk =>
      let (more, g') := drain toText g (some chunk)
      (entries ++ more, g'))
    (drain toText (parse initial) none)

end Nyan.Logger
