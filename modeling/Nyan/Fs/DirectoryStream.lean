import Nyan.Fs.RamFS
import Nyan.Fs.RegularFile
import Nyan.Library.ByteMemory

/-!
The records that `getdents64` returns (`RamFSDirectoryVNode::readdir`). A record has a
header of nineteen bytes, the name with its zero byte, and is padded to a multiple of
eight; what the buffer held before stays in the padding. Calls go on from the index that
the file offset holds.

The directory that a stream is read from is not changed meanwhile. Its records take less
than two gibibytes: the frames of `PoolManager` have 128 MiB, and an entry takes at least
half as many bytes of them as its record.
-/

namespace Nyan.Fs

open Library

/-- A name, which comes from a C string. -/
structure CName where
  bytes : List Byte
  noNul : 0#8 ∉ bytes
  deriving DecidableEq

/-- `DT_REG` and so on, as stored in `d_type`. -/
def VNodeType.code : VNodeType → Byte
  | .regular => 8#8
  | .directory => 4#8
  | .charDevice => 2#8
  | .symlink => 10#8

/-- What a record says about an entry. -/
structure Dirent where
  ino : BitVec 64
  type : VNodeType
  name : CName

namespace Dirent

/-- `offsetof(struct dirent, d_name)`. -/
def nameOffset : Nat := 19

/-- The length of a record, rounded up. -/
def reclen (entry : Dirent) : BitVec 32 :=
  (BitVec.ofNat 32 (nameOffset + entry.name.bytes.length + 1) + 7#32) &&& ~~~7#32

/-- The fields that `readdir` stores, one behind the other. -/
def record (entry : Dirent) (off : Offset) : List Byte :=
  toBytes 8 entry.ino ++ toBytes 8 off ++ toBytes 2 (entry.reclen.setWidth 16) ++
    [entry.type.code] ++ entry.name.bytes ++ [0#8]

end Dirent

/-- A buffer of a task, with what it holds. -/
structure UserBuffer where
  bytes : List Byte
  fits : bytes.length < 2 ^ 32

def UserBuffer.size (buf : UserBuffer) : BitVec 32 := BitVec.ofNat 32 buf.bytes.length

/-- The loop of `readdir` over the entries from the index on. -/
def readdirLoop (size : BitVec 32) :
    List Dirent → List Byte → BitVec 32 → Nat → List Byte × BitVec 32 × Nat
  | [], buf, written, idx => (buf, written, idx)
  | entry :: rest, buf, written, idx =>
      if size < written + entry.reclen then
        (buf, written, idx)
      else
        readdirLoop size rest
          (overlay buf written.toNat (entry.record (BitVec.ofNat 64 (idx + 1))))
          (written + entry.reclen) (idx + 1)

/-- `readdir`: the `int` that it returns, the buffer, and the new offset. A negative
offset would be used as an index. -/
def readdir (entries : List Dirent) (buf : UserBuffer) (offset : Offset) :
    Option ((Int × List Byte) × Offset) :=
  if offset.toInt < 0 then
    none
  else
    let (bytes, written, idx) :=
      readdirLoop buf.size (entries.drop offset.toNat) buf.bytes 0#32 offset.toNat
    some ((written.toInt, bytes), BitVec.ofNat 64 idx)

/-- A record as a program reads it. -/
structure Record where
  ino : BitVec 64
  off : Offset
  reclen : Nat
  type : Byte
  name : List Byte
  deriving DecidableEq

/-- The first record of a buffer, and what comes behind it. -/
def parseRecord (bytes : List Byte) : Option (Record × List Byte) :=
  let reclen := (fromBytes 16 ((bytes.drop 16).take 2)).toNat
  let body := (bytes.take reclen).drop Dirent.nameOffset
  if reclen ≤ bytes.length ∧ 0#8 ∈ body then
    some ({ ino := fromBytes 64 (bytes.take 8)
            off := fromBytes 64 ((bytes.drop 8).take 8)
            reclen
            type := (bytes.drop 18).headD 0#8
            name := body.takeWhile (· ≠ 0#8) }, bytes.drop reclen)
  else
    none

/-- The records of a buffer, found by `d_reclen` steps. -/
def parseRecords : Nat → List Byte → Option (List Record)
  | _, [] => some []
  | 0, _ :: _ => none
  | n + 1, bytes => do
      let (record, rest) ← parseRecord bytes
      let records ← parseRecords n rest
      return record :: records

def parse (bytes : List Byte) : Option (List Record) := parseRecords bytes.length bytes

namespace Dirent

variable {entry : Dirent} {off : Offset}

/-- The length of a record as a number. -/
def length (entry : Dirent) : Nat := (entry.name.bytes.length + 27) / 8 * 8

/-- The record as a program is to read it. -/
def toRecord (entry : Dirent) (off : Offset) : Record where
  ino := entry.ino
  off := off
  reclen := entry.length
  type := entry.type.code
  name := entry.name.bytes

theorem length_record : (entry.record off).length = entry.name.bytes.length + 20 := by
  simp [record]
  omega

theorem toNat_reclen (h : entry.name.bytes.length < 2 ^ 31) :
    entry.reclen.toNat = entry.length := by
  have hmask : ~~~7#32 = BitVec.allOnes 32 <<< 3 := by decide
  have hsum : (BitVec.ofNat 32 (nameOffset + entry.name.bytes.length + 1) + 7#32).toNat =
      entry.name.bytes.length + 27 := by
    rw [BitVec.toNat_add, BitVec.toNat_ofNat, BitVec.toNat_ofNat, nameOffset]
    omega
  rw [reclen, hmask, toNat_and_allOnes, hsum]
  rfl

theorem reclen_low (h : entry.name.bytes.length ≤ 255) :
    (entry.reclen.setWidth 16 : BitVec 16).toNat = entry.length := by
  rw [BitVec.toNat_setWidth, toNat_reclen (by omega), Nat.mod_eq_of_lt]
  unfold length
  omega

end Dirent

/-- Bytes that hold the records of entries, the first of them with the index `idx`, each
with its padding. -/
inductive Holds : Nat → List Dirent → List Byte → Prop where
  | nil (idx : Nat) : Holds idx [] []
  | cons {idx : Nat} {entry : Dirent} {rest : List Dirent} {padding bytes : List Byte} :
      (entry.record (BitVec.ofNat 64 (idx + 1)) ++ padding).length = entry.length →
      Holds (idx + 1) rest bytes →
      Holds idx (entry :: rest) (entry.record (BitVec.ofNat 64 (idx + 1)) ++ padding ++ bytes)

/-- The records to be read for entries whose first index is `idx`. -/
def toRecords : Nat → List Dirent → List Record
  | _, [] => []
  | idx, entry :: rest => entry.toRecord (BitVec.ofNat 64 (idx + 1)) :: toRecords (idx + 1) rest

/-- A record is read back, whatever its padding is and whatever comes behind. -/
theorem parseRecord_record {entry : Dirent} (h : entry.name.bytes.length ≤ 255) (off : Offset)
    {padding : List Byte} (hlength : (entry.record off ++ padding).length = entry.length)
    (rest : List Byte) :
    parseRecord (entry.record off ++ padding ++ rest) = some (entry.toRecord off, rest) := by
  obtain ⟨bytes, hbytes⟩ : ∃ bytes, bytes = entry.record off ++ padding ++ rest := ⟨_, rfl⟩
  obtain ⟨low, hlow⟩ : ∃ low : BitVec 16, low = entry.reclen.setWidth 16 := ⟨_, rfl⟩
  have hino : bytes.take 8 = toBytes 8 entry.ino := by
    rw [hbytes, Dirent.record]
    simp only [List.append_assoc]
    exact List.take_left' (length_toBytes ..)
  have hoff : bytes.drop 8 = toBytes 8 off ++ (toBytes 2 low ++ (entry.type.code ::
      (entry.name.bytes ++ 0#8 :: (padding ++ rest)))) := by
    rw [hbytes, Dirent.record, hlow]
    simp only [List.append_assoc]
    exact List.drop_left' (length_toBytes ..)
  have hreclen : bytes.drop 16 = toBytes 2 low ++ (entry.type.code ::
      (entry.name.bytes ++ 0#8 :: (padding ++ rest))) := by
    have hdrop : bytes.drop 16 = (bytes.drop 8).drop 8 := by rw [List.drop_drop]
    rw [hdrop, hoff]
    exact List.drop_left' (length_toBytes ..)
  have htype : bytes.drop 18 =
      entry.type.code :: (entry.name.bytes ++ 0#8 :: (padding ++ rest)) := by
    have hdrop : bytes.drop 18 = (bytes.drop 16).drop 2 := by rw [List.drop_drop]
    rw [hdrop, hreclen]
    exact List.drop_left' (length_toBytes ..)
  have hlength' : (fromBytes 16 ((bytes.drop 16).take 2)).toNat = entry.length := by
    rw [hreclen, List.take_left' (length_toBytes ..), fromBytes_toBytes (by decide), hlow]
    exact Dirent.reclen_low h
  have htake : bytes.take entry.length = entry.record off ++ padding := by
    rw [hbytes]
    exact List.take_left' hlength
  have hbody : (bytes.take entry.length).drop Dirent.nameOffset =
      entry.name.bytes ++ 0#8 :: padding := by
    have hheader : entry.record off ++ padding = (toBytes 8 entry.ino ++ toBytes 8 off ++
        toBytes 2 low ++ [entry.type.code]) ++ (entry.name.bytes ++ 0#8 :: padding) := by
      simp [Dirent.record, hlow]
    rw [htake, hheader]
    exact List.drop_left' (by simp [Dirent.nameOffset])
  have hname : (entry.name.bytes ++ 0#8 :: padding).takeWhile (· ≠ 0#8) = entry.name.bytes := by
    rw [List.takeWhile_append_of_pos, List.takeWhile_cons_of_neg (by simp), List.append_nil]
    intro byte hbyte
    simp only [ne_eq, decide_eq_true_eq]
    rintro rfl
    exact entry.name.noNul hbyte
  rw [← hbytes]
  have hfits : entry.length ≤ bytes.length := by
    rw [hbytes, List.length_append, hlength]
    exact Nat.le_add_right ..
  have hrest : bytes.drop entry.length = rest := by
    rw [hbytes]
    exact List.drop_left' hlength
  simp only [parseRecord, hlength', hbody, hname, hino, hoff, htype, hrest, List.mem_append,
    List.mem_cons, true_or, or_true, and_true, if_pos hfits, List.take_left' (length_toBytes ..),
    fromBytes_toBytes (show 64 ≤ 8 * 8 by decide), List.headD_cons, Dirent.toRecord]

theorem parseRecords_succ {bytes : List Byte} (h : bytes ≠ []) (n : Nat) :
    parseRecords (n + 1) bytes = (parseRecord bytes).bind fun (record, rest) =>
      (parseRecords n rest).map (record :: ·) := by
  cases bytes with
  | nil => exact absurd rfl h
  | cons first tail =>
      simp only [parseRecords, Option.bind_eq_bind]
      congr 1
      funext ⟨record, rest⟩
      cases parseRecords n rest <;> rfl

theorem parseRecords_holds {idx : Nat} {entries : List Dirent} {bytes : List Byte}
    (h : Holds idx entries bytes) (hshort : ∀ entry ∈ entries, entry.name.bytes.length ≤ 255)
    {n : Nat} (hn : bytes.length ≤ n) : parseRecords n bytes = some (toRecords idx entries) := by
  induction h generalizing n with
  | nil => cases n <;> rfl
  | @cons idx entry rest padding bytes hlength _ ih =>
      have hentry := hshort entry (by simp)
      have hpos : 0 < entry.length := by
        unfold Dirent.length
        omega
      rw [List.length_append, hlength] at hn
      have hne : entry.record (BitVec.ofNat 64 (idx + 1)) ++ padding ++ bytes ≠ [] := by
        refine List.ne_nil_of_length_pos ?_
        rw [List.length_append, hlength]
        omega
      cases n with
      | zero => omega
      | succ n =>
          have hrest := ih (fun e he => hshort e (List.mem_cons_of_mem _ he))
            (by omega : bytes.length ≤ n)
          simp only [parseRecords_succ hne, parseRecord_record hentry _ hlength, Option.bind_some,
            hrest, Option.map_some, toRecords]

/-- The bytes of the records of entries. -/
def totalLength (entries : List Dirent) : Nat := (entries.map Dirent.length).sum

/-- The loop stores the records of the entries that fit, one behind the other, and
touches nothing else. -/
theorem readdirLoop_spec {size : BitVec 32} {entries : List Dirent} (buf : List Byte)
    (written : BitVec 32) (idx : Nat)
    (hshort : ∀ entry ∈ entries, entry.name.bytes.length ≤ 255)
    (hfits : written.toNat + totalLength entries < 2 ^ 31) (hbuf : buf.length = size.toNat)
    (hwritten : written.toNat ≤ size.toNat) :
    ∃ (k : Nat) (bytes : List Byte) (written' : BitVec 32),
      readdirLoop size entries buf written idx = (bytes, written', idx + k) ∧ k ≤ entries.length ∧
      written'.toNat = written.toNat + totalLength (entries.take k) ∧
      written'.toNat ≤ size.toNat ∧ bytes.length = buf.length ∧
      bytes.take written.toNat = buf.take written.toNat ∧
      bytes.drop written'.toNat = buf.drop written'.toNat ∧
      Holds idx (entries.take k) ((bytes.take written'.toNat).drop written.toNat) ∧
      ∀ entry, entries[k]? = some entry → size.toNat < written'.toNat + entry.length := by
  induction entries generalizing buf written idx with
  | nil =>
      refine ⟨0, buf, written, rfl, by simp, by simp [totalLength], hwritten, rfl, rfl, rfl, ?_,
        by simp⟩
      rw [List.take_nil, List.drop_eq_nil_of_le (by simp)]
      exact .nil idx
  | cons entry rest ih =>
      have hentry := hshort entry (by simp)
      have hreclen := Dirent.toNat_reclen (by omega : entry.name.bytes.length < 2 ^ 31)
      have hrecord : (entry.record (BitVec.ofNat 64 (idx + 1))).length ≤ entry.length := by
        rw [Dirent.length_record, Dirent.length]
        omega
      have htotal : totalLength (entry :: rest) = entry.length + totalLength rest := by
        simp [totalLength]
      have hsum : (written + entry.reclen).toNat = written.toNat + entry.length := by
        rw [BitVec.toNat_add, hreclen, Nat.mod_eq_of_lt (by omega)]
      by_cases hfull : size < written + entry.reclen
      · rw [BitVec.lt_def, hsum] at hfull
        refine ⟨0, buf, written, ?_, by simp, by simp [totalLength], hwritten, rfl, rfl, rfl, ?_, ?_⟩
        · rw [readdirLoop, if_pos (by rw [BitVec.lt_def, hsum]; exact hfull)]
          rfl
        · rw [List.take_zero, List.drop_eq_nil_of_le (by simp)]
          exact .nil idx
        · intro e he
          obtain rfl : entry = e := by simpa using he
          exact hfull
      · have hroom : written.toNat + entry.length ≤ size.toNat := by
          rw [BitVec.lt_def, hsum] at hfull
          omega
        obtain ⟨stored, hstored⟩ : ∃ stored, stored =
          overlay buf written.toNat (entry.record (BitVec.ofNat 64 (idx + 1))) := ⟨_, rfl⟩
        have hlength : stored.length = buf.length := by
          rw [hstored]
          exact length_overlay (by omega)
        obtain ⟨k, bytes, written', hloop, hk, hcount, hle, hbytes, htake, hdrop, hholds, hnext⟩ :=
          ih stored (written + entry.reclen) (idx + 1)
            (fun e he => hshort e (List.mem_cons_of_mem _ he)) (by omega) (by omega) (by omega)
        rw [hsum] at hcount htake hholds
        refine ⟨k + 1, bytes, written', ?_, by simpa using hk, ?_, hle, hbytes.trans hlength, ?_, ?_,
          ?_, by simpa using hnext⟩
        · rw [readdirLoop, if_neg hfull, ← hstored, hloop]
          simp only [Prod.mk.injEq, true_and]
          omega
        · rw [hcount, List.take_succ_cons]
          simp only [totalLength, List.map_cons, List.sum_cons]
          omega
        · have hfront := congrArg (List.take written.toNat) htake
          rw [List.take_take, List.take_take, Nat.min_eq_left (by omega)] at hfront
          rw [hfront, hstored]
          exact take_overlay (by omega) le_rfl
        · rw [hdrop, hstored]
          exact drop_overlay (by omega) (by omega)
        · obtain ⟨padding, hchunk, hpadded⟩ := overlay_at buf written.toNat hrecord
            (by omega : written.toNat + entry.length ≤ buf.length)
          have hfirst : ((bytes.take written'.toNat).drop written.toNat).take entry.length =
              entry.record (BitVec.ofNat 64 (idx + 1)) ++ padding := by
            rw [← hchunk, ← hstored, List.take_drop, List.take_take, Nat.min_eq_left (by omega),
              htake, ← List.take_drop]
          rw [← List.take_append_drop entry.length ((bytes.take written'.toNat).drop _), hfirst,
            List.drop_drop]
          exact .cons hpadded hholds

/-- A directory with names of at most 255 bytes. -/
structure Directory where
  entries : List Dirent
  short : ∀ entry ∈ entries, entry.name.bytes.length ≤ 255
  fits : totalLength entries < 2 ^ 31

namespace Directory

variable {dir : Directory} {offset next : Offset} {buf : UserBuffer}

/-- One call on the open directory: the value returned, and the buffer. -/
def getdents64 (dir : Directory) (offset : Offset) (buf : UserBuffer) :
    Option ((Int × List Byte) × Offset) :=
  readdir dir.entries buf offset

/-- The records that a call returns, as a program reads them. -/
def recordsRead (result : Int × List Byte) : Option (List Record) :=
  parse (result.2.take result.1.toNat)

/-- The buffer has room for the record of the next entry. -/
def LargeEnough (dir : Directory) (offset : Offset) (buf : UserBuffer) : Prop :=
  ∀ entry, dir.entries[offset.toNat]? = some entry → entry.length ≤ buf.bytes.length

/-- What a call returns and leaves: the records of the entries from its offset up to the
new one, and nothing written behind them. -/
structure Returns (dir : Directory) (offset : Offset) (buf : UserBuffer)
    (result : Int × List Byte) (next : Offset) : Prop where
  nonneg : 0 ≤ result.1
  le : result.1 ≤ buf.bytes.length
  length : result.2.length = buf.bytes.length
  rest : result.2.drop result.1.toNat = buf.bytes.drop result.1.toNat
  advances : offset.toNat ≤ next.toNat
  inside : next.toNat ≤ max offset.toNat dir.entries.length
  moves : offset.toNat < dir.entries.length → offset.toNat < next.toNat
  records : recordsRead result = some (toRecords offset.toNat
    ((dir.entries.drop offset.toNat).take (next.toNat - offset.toNat)))
  zero : result.1 = 0 ↔ dir.entries.length ≤ offset.toNat

theorem totalLength_drop (entries : List Dirent) (n : Nat) :
    totalLength (entries.take n) + totalLength (entries.drop n) = totalLength entries := by
  rw [totalLength, totalLength, ← List.sum_append, ← List.map_append, List.take_append_drop,
    totalLength]

theorem length_le_totalLength (entries : List Dirent) : entries.length ≤ totalLength entries := by
  induction entries with
  | nil => simp [totalLength]
  | cons entry rest ih =>
      have hpos : 0 < entry.length := by
        unfold Dirent.length
        omega
      simp only [totalLength, List.map_cons, List.sum_cons, List.length_cons] at ih ⊢
      omega

/-- A call that has an entry to return, and room for it, returns something. -/
theorem totalLength_pos {entries : List Dirent} {k : Nat} (size : Nat) (hentries : entries ≠ [])
    (hk : k ≤ entries.length) (hlarge : ∀ entry, entries[0]? = some entry → entry.length ≤ size)
    (hnext : ∀ entry, entries[k]? = some entry →
      size < totalLength (entries.take k) + entry.length) :
    0 < k ∧ 0 < totalLength (entries.take k) := by
  have hpos : 0 < k := by
    by_contra hzero
    obtain rfl : k = 0 := by omega
    obtain ⟨entry, rest, rfl⟩ := List.exists_cons_of_ne_nil hentries
    have hroom := hlarge entry rfl
    have hfull := hnext entry rfl
    simp only [List.take_zero, totalLength, List.map_nil, List.sum_nil] at hfull
    omega
  have hmany := length_le_totalLength (entries.take k)
  rw [List.length_take] at hmany
  exact ⟨hpos, by omega⟩

theorem readdir_returns (hoffset : 0 ≤ offset.toInt) (hlarge : dir.LargeEnough offset buf) :
    ∃ result next, dir.getdents64 offset buf = some (result, next) ∧
      dir.Returns offset buf result next := by
  have hsize : buf.size.toNat = buf.bytes.length := by
    rw [UserBuffer.size, BitVec.toNat_ofNat, Nat.mod_eq_of_lt buf.fits]
  have hfits := dir.fits
  have htotal := totalLength_drop dir.entries offset.toNat
  have hshort : ∀ entry ∈ dir.entries.drop offset.toNat, entry.name.bytes.length ≤ 255 :=
    fun e he => dir.short e (List.mem_of_mem_drop he)
  obtain ⟨k, bytes, written, hloop, hk, hcount, hle, hlength, _, hdrop, hholds, hnext⟩ :=
    readdirLoop_spec buf.bytes 0#32 offset.toNat hshort (by simpa using by omega) hsize.symm
      (by simp)
  simp only [BitVec.toNat_ofNat, Nat.zero_mod, Nat.zero_add, List.drop_zero] at hcount hholds
  rw [List.length_drop] at hk
  have hmany := length_le_totalLength dir.entries
  have hbound := offset.isLt
  have hindex : (BitVec.ofNat 64 (offset.toNat + k) : Offset).toNat = offset.toNat + k := by
    rw [BitVec.toNat_ofNat, Nat.mod_eq_of_lt (by omega)]
  have hsmall := totalLength_drop (dir.entries.drop offset.toNat) k
  have hret : written.toInt = written.toNat := BitVec.toInt_eq_toNat_of_lt (by omega)
  have hcall : dir.getdents64 offset buf =
      some ((written.toInt, bytes), BitVec.ofNat 64 (offset.toNat + k)) := by
    rw [getdents64, readdir, if_neg (by omega), hloop]
  have hprogress : offset.toNat < dir.entries.length → 0 < k ∧ 0 < written.toNat := by
    intro hmore
    rw [hcount]
    refine totalLength_pos buf.bytes.length ?_ (by rwa [List.length_drop]) ?_ ?_
    · simpa using hmore
    · simpa [LargeEnough, List.getElem?_drop] using hlarge
    · rwa [hsize, hcount] at hnext
  refine ⟨_, _, hcall, ?_, ?_, hlength, ?_, ?_, ?_, ?_, ?_, ?_⟩
  · simp [hret]
  · simp only [hret]
    omega
  · simpa [hret] using hdrop
  · omega
  · omega
  · intro hmore
    have := hprogress hmore
    omega
  · rw [recordsRead, hret, Int.toNat_natCast, hindex, Nat.add_sub_cancel_left]
    exact parseRecords_holds hholds (fun e he => hshort e (List.mem_of_mem_take he)) le_rfl
  · simp only [hret]
    constructor
    · intro hzero
      by_contra hmore
      have := hprogress (by omega)
      omega
    · intro hend
      rw [hcount, List.drop_eq_nil_of_le hend]
      simp [totalLength]

theorem toRecords_append (idx : Nat) (first second : List Dirent) :
    toRecords idx (first ++ second) =
      toRecords idx first ++ toRecords (idx + first.length) second := by
  induction first generalizing idx with
  | nil => rfl
  | cons entry rest ih =>
      rw [List.cons_append, toRecords, toRecords, ih, List.cons_append, List.length_cons]
      congr 3
      omega

/-- The records up to an index and from there on are the records of the whole stretch. -/
theorem toRecords_split (entries : List Dirent) {first mid last : Nat} (hmid : first ≤ mid)
    (hlast : mid ≤ last) (hinside : last ≤ entries.length) :
    toRecords first ((entries.drop first).take (mid - first)) ++
        toRecords mid ((entries.drop mid).take (last - mid)) =
      toRecords first ((entries.drop first).take (last - first)) := by
  have hsum : last - first = (mid - first) + (last - mid) := by omega
  have hdrop : (entries.drop first).drop (mid - first) = entries.drop mid := by
    rw [List.drop_drop, Nat.add_sub_cancel' hmid]
  have hlength : first + ((entries.drop first).take (mid - first)).length = mid := by
    rw [List.length_take, List.length_drop]
    omega
  rw [hsum, List.take_add, hdrop, toRecords_append, hlength]

/-- The calls of a stream from an offset on. -/
theorem stream_from (hoffset : offset.toNat ≤ dir.entries.length) {bufs : List UserBuffer}
    (hlarge : Guarded dir.getdents64 dir.LargeEnough offset bufs) :
    ∃ results last, answers dir.getdents64 offset bufs = some (results, last) ∧
      offset.toNat ≤ last.toNat ∧ last.toNat ≤ dir.entries.length ∧
      (dir.entries.length ≤ offset.toNat + bufs.length → last.toNat = dir.entries.length) ∧
      (results.mapM recordsRead).map List.flatten = some (toRecords offset.toNat
        ((dir.entries.drop offset.toNat).take (last.toNat - offset.toNat))) := by
  induction bufs generalizing offset with
  | nil =>
      refine ⟨[], offset, rfl, le_rfl, hoffset, ?_, by simp [toRecords]⟩
      intro hlength
      exact le_antisymm hoffset (by simpa using hlength)
  | cons buf rest ih =>
      obtain ⟨hbuf, hrest⟩ := hlarge
      have hfits := dir.fits
      have hmany := length_le_totalLength dir.entries
      have hnonneg : 0 ≤ offset.toInt := by
        rw [BitVec.toInt_eq_toNat_of_lt (by omega)]
        omega
      obtain ⟨result, next, hcall, hreturns⟩ := readdir_returns hnonneg hbuf
      have hadvances := hreturns.advances
      have hinside := hreturns.inside
      have hmoves := hreturns.moves
      obtain ⟨results, last, hanswers, hle, hlast, hall, hrecords⟩ :=
        ih (by omega) (hrest result next hcall)
      obtain ⟨lists, hlists, hflatten⟩ := Option.map_eq_some_iff.mp hrecords
      refine ⟨result :: results, last, ?_, by omega, hlast, ?_, ?_⟩
      · rw [answers_cons hcall, hanswers]
        rfl
      · intro hlength
        rw [List.length_cons] at hlength
        exact hall (by omega)
      · rw [List.mapM_cons, hreturns.records, hlists]
        simp only [Option.bind_eq_bind, Option.bind_some, Option.pure_def, Option.map_some,
          List.flatten_cons, hflatten]
        rw [toRecords_split dir.entries hadvances hle hlast]

theorem getElem?_toRecords (idx : Nat) (entries : List Dirent) (i : Nat) :
    (toRecords idx entries)[i]? =
      entries[i]?.map fun entry => entry.toRecord (BitVec.ofNat 64 (idx + i + 1)) := by
  induction entries generalizing idx i with
  | nil => rfl
  | cons entry rest ih =>
      cases i with
      | zero => rfl
      | succ i =>
          rw [toRecords, List.getElem?_cons_succ, List.getElem?_cons_succ, ih]
          have hidx : idx + 1 + i = idx + (i + 1) := by omega
          rw [hidx]

theorem dvd_reclen {idx : Nat} {entries : List Dirent} {record : Record}
    (h : record ∈ toRecords idx entries) : 8 ∣ record.reclen := by
  induction entries generalizing idx with
  | nil => simp [toRecords] at h
  | cons entry rest ih =>
      rcases List.mem_cons.mp h with rfl | hrest
      · exact Nat.dvd_mul_left ..
      · exact ih hrest

/-- The stream of an unchanged directory: a call returns the records of the entries from
its offset on, as many as fit, and the calls from the start return those of all entries,
each once and in their order. The `d_off` of the record of entry `i` is `i + 1`, so that a
call from there returns the entries behind it. -/
theorem directory_stream_decodes (dir : Directory) :
    (∀ (offset : Offset) (buf : UserBuffer), 0 ≤ offset.toInt → dir.LargeEnough offset buf →
      ∃ result next, dir.getdents64 offset buf = some (result, next) ∧
        dir.Returns offset buf result next) ∧
    (∀ record ∈ toRecords 0 dir.entries, 8 ∣ record.reclen) ∧
    (∀ i : Nat, (toRecords 0 dir.entries)[i]? =
      dir.entries[i]?.map fun entry => entry.toRecord (BitVec.ofNat 64 (i + 1))) ∧
    ∀ bufs : List UserBuffer, Guarded dir.getdents64 dir.LargeEnough 0#64 bufs →
      ∃ results last, answers dir.getdents64 0#64 bufs = some (results, last) ∧
        last.toNat ≤ dir.entries.length ∧
        (results.mapM recordsRead).map List.flatten =
          some (toRecords 0 (dir.entries.take last.toNat)) ∧
        (dir.entries.length ≤ bufs.length → last.toNat = dir.entries.length) := by
  refine ⟨fun _ _ => readdir_returns, fun _ => dvd_reclen, fun i => ?_, fun bufs hlarge => ?_⟩
  · simpa using getElem?_toRecords 0 dir.entries i
  · obtain ⟨results, last, hanswers, _, hlast, hall, hrecords⟩ :=
      stream_from (by simp) hlarge
    refine ⟨results, last, hanswers, hlast, by simpa using hrecords, ?_⟩
    intro hlength
    exact hall (by simpa using hlength)

/-- A directory with the regular file `a`. -/
def singleFile : Directory where
  entries := [{ ino := 1#64, type := .regular, name := ⟨[97#8], by decide⟩ }]
  short := by decide
  fits := by decide

/-- A buffer of one record. -/
def recordBuffer : UserBuffer := ⟨List.replicate 24 0#8, by decide⟩

theorem directory_stream_single_file :
    Guarded singleFile.getdents64 singleFile.LargeEnough 0#64 [recordBuffer] ∧
      ∃ results last, answers singleFile.getdents64 0#64 [recordBuffer] = some (results, last) ∧
        (results.mapM recordsRead).map List.flatten =
          some [{ ino := 1#64, off := 1#64, reclen := 24, type := 8#8, name := [97#8] }] := by
  have hlarge : Guarded singleFile.getdents64 singleFile.LargeEnough 0#64 [recordBuffer] := by
    refine ⟨?_, fun _ _ _ => trivial⟩
    intro entry hentry
    obtain rfl : _ = entry := Option.some.inj hentry
    decide
  obtain ⟨results, last, hanswers, _, hrecords, hall⟩ :=
    (directory_stream_decodes singleFile).2.2.2 [recordBuffer] hlarge
  refine ⟨hlarge, results, last, hanswers, ?_⟩
  rw [hrecords, hall (by decide)]
  decide

end Directory

end Nyan.Fs
