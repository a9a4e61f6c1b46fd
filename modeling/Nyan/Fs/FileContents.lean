import Mathlib.Data.List.GetD
import Nyan.Fs.RegularFile

/-!
A regular file is a byte array, as long as no write ends beyond what a vector can
hold. The reference has a byte for every place, zero from the end of the file on. A
write whose end does not fit 32 bits is to fail; the source computes that end with
64 bits but sizes the vector and places the copy with the lower 32, so the write
succeeds and may cut the file off.
-/

namespace Nyan.Fs

open Library

variable {x y z : Offset}

theorem Offset.add_eq_some (h : -2 ^ 63 ≤ x.toInt + y.toInt) (h' : x.toInt + y.toInt < 2 ^ 63) :
    ∃ z, Offset.add x y = some z ∧ z.toInt = x.toInt + y.toInt :=
  ⟨_, if_pos ⟨h, h'⟩, BitVec.toInt_ofInt_eq_self (by decide) h h'⟩

theorem Offset.toInt_of_add (h : Offset.add x y = some z) : z.toInt = x.toInt + y.toInt := by
  unfold Offset.add at h
  split at h
  · rename_i hrange
    obtain rfl := Option.some.inj h
    exact BitVec.toInt_ofInt_eq_self (by decide) hrange.1 hrange.2
  · cases h

theorem Offset.toNat_of_nonneg (h : 0 ≤ x.toInt) : x.toInt = x.toNat := by
  have hlt := x.isLt
  rw [BitVec.toInt_eq_toNat_cond] at h ⊢
  split at h <;> omega

theorem Offset.toInt_ofNat {n : Nat} (h : n < 2 ^ 63) : (BitVec.ofNat 64 n : Offset).toInt = n := by
  rw [BitVec.toInt_eq_toNat_of_lt]
  · simp only [BitVec.toNat_ofNat]
    omega
  · simp only [BitVec.toNat_ofNat]
    omega

namespace RamFSFile

variable {file file' : RamFSFile} {buf : Nat → Byte} {size : BitVec 32} {offset : Offset}

/-- The byte at a place, zero from the end of the file on. -/
def byte (file : RamFSFile) (i : Nat) : Byte := file.data.getD i 0#8

theorem byte_of_size_le {i : Nat} (h : file.size ≤ i) : file.byte i = 0#8 :=
  List.getD_eq_default _ _ h

theorem getD_takeD {α : Type} (n i : Nat) (l : List α) (d : α) :
    (l.takeD n d).getD i d = if i < n then l.getD i d else d := by
  induction n generalizing i l with
  | zero => simp
  | succ n ih =>
      rw [List.takeD_succ]
      cases i with
      | zero => cases l <;> simp
      | succ i =>
          rw [List.getD_cons_succ, ih]
          cases l <;> simp

theorem resize_spec (file : RamFSFile) {newSize : BitVec 32} (h : newSize.toNat ≤ maxSize) :
    ∃ file', file.resize newSize = some file' ∧ file'.size = newSize.toNat ∧
      ∀ i, file'.byte i = if i < newSize.toNat then file.byte i else 0#8 :=
  ⟨_, dif_pos h, List.takeD_length .., fun _ => getD_takeD ..⟩

theorem store_spec (file : RamFSFile) (position : Nat) (bytes : List Byte)
    (h : position + bytes.length ≤ file.size) :
    ∃ file', file.store position bytes = some file' ∧ file'.size = file.size ∧
      ∀ i, file'.byte i = if position ≤ i ∧ i < position + bytes.length then
        bytes.getD (i - position) 0#8 else file.byte i := by
  refine ⟨_, dif_pos h, ?_, fun i => ?_⟩
  · simp only [RamFSFile.size] at h ⊢
    simp only [List.length_append, List.length_take, List.length_drop]
    omega
  · simp only [RamFSFile.size] at h
    simp only [byte, List.getD_eq_getElem?_getD, List.append_assoc]
    rw [List.getElem?_append, List.getElem?_append, List.length_take, Nat.min_eq_left (by omega)]
    by_cases hbefore : i < position
    · rw [if_pos hbefore, if_neg (by omega), List.getElem?_take_of_lt hbefore]
    · rw [if_neg hbefore]
      by_cases hinside : i - position < bytes.length
      · rw [if_pos hinside, if_pos (by omega)]
      · rw [if_neg hinside, if_neg (by omega), List.getElem?_drop]
        congr 2
        omega

/-- A file that is too short for a write grows by zeros. -/
theorem grow_spec (file : RamFSFile) {newSize : Offset} (hsize : newSize.toNat ≤ maxSize) :
    ∃ file', file.grow newSize = some file' ∧ file'.size = max file.size newSize.toNat ∧
      ∀ i, file'.byte i = file.byte i := by
  unfold maxSize at hsize
  have hint : newSize.toInt = newSize.toNat := BitVec.toInt_eq_toNat_of_lt (by omega)
  have hlow : (newSize.setWidth 32).toNat = newSize.toNat := by
    rw [BitVec.toNat_setWidth, Nat.mod_eq_of_lt (by omega)]
  by_cases hgrows : file.size ≤ newSize.toInt
  · obtain ⟨file', hresize, hsize', hbyte⟩ := file.resize_spec (hlow.trans_le hsize)
    refine ⟨file', (if_pos hgrows).trans hresize, by omega, fun i => ?_⟩
    rw [hbyte, hlow]
    split
    · rfl
    · exact (byte_of_size_le (by omega)).symm
  · exact ⟨file, if_neg hgrows, by omega, fun _ => rfl⟩

theorem toInt_size (size : BitVec 32) : (size.setWidth 64 : Offset).toInt = size.toNat := by
  have hlt := size.isLt
  rw [BitVec.toInt_setWidth, Int.bmod_eq_of_le] <;> omega

/-- A write that fits sets the bytes from its offset on and no other byte. -/
theorem write_spec (file : RamFSFile) (buf : Nat → Byte) (hoffset : 0 ≤ offset.toInt)
    (hfits : offset.toNat + size.toNat ≤ maxSize) :
    ∃ file' : RamFSFile, file.write buf size offset = some ((size.toNat : Int), file') ∧
      file'.size = max file.size (offset.toNat + size.toNat) ∧
      ∀ i, file'.byte i = if offset.toNat ≤ i ∧ i < offset.toNat + size.toNat then
        buf (i - offset.toNat) else file.byte i := by
  have hmax : maxSize = 0x7FFFFFFF := rfl
  have hoff := Offset.toNat_of_nonneg hoffset
  have hret : size.toInt = size.toNat := BitVec.toInt_eq_toNat_of_lt (by omega)
  obtain ⟨newSize, hadd, hsum⟩ := Offset.add_eq_some (x := size.setWidth 64) (y := offset)
    (by rw [toInt_size]; omega) (by rw [toInt_size]; omega)
  rw [toInt_size, hoff] at hsum
  have hnat := Offset.toNat_of_nonneg (x := newSize) (by omega)
  obtain ⟨grown, hgrown, hsize, hbyte⟩ := file.grow_spec (show newSize.toNat ≤ maxSize by omega)
  have hplace : (offset.setWidth 32).toNat = offset.toNat := by
    rw [BitVec.toNat_setWidth, Nat.mod_eq_of_lt (by omega)]
  obtain ⟨file', hstore, hsize', hbyte'⟩ := grown.store_spec offset.toNat
    ((List.range size.toNat).map buf) (by rw [List.length_map, List.length_range]; omega)
  rw [List.length_map, List.length_range] at hbyte'
  refine ⟨file', ?_, by omega, fun i => ?_⟩
  · simp only [write, hadd, Option.bind_eq_bind, Option.bind_some, hgrown, hplace, hstore, hret,
      Option.pure_def]
  · rw [hbyte', hbyte]
    split
    · rename_i hinside
      rw [List.getD_eq_getElem?_getD, List.getElem?_map, List.getElem?_range (by omega)]
      rfl
    · rfl

end RamFSFile

namespace VNodeFileObj

variable {obj : VNodeFileObj} {file : RamFSFile} {size : BitVec 32}

end VNodeFileObj

/-- The reference: an array of bytes that is zero from its end on, and the file
objects. -/
structure ReferenceFiles where
  length : Nat
  byte : Nat → Byte
  zero : ∀ i, length ≤ i → byte i = 0#8
  objs : Nat → VNodeFileObj

namespace ReferenceFiles

/-- The bytes of an object's `read`. -/
def readBytes (r : ReferenceFiles) (obj : VNodeFileObj) (size : BitVec 32) : List Byte :=
  (List.range (min (r.length - obj.offset.toNat) size.toNat)).map fun i =>
    r.byte (obj.offset.toNat + i)

/-- Where an object writes. -/
def place (r : ReferenceFiles) (obj : VNodeFileObj) : Nat :=
  if obj.append then r.length else obj.offset.toNat

/-- A write of `n` bytes at `place` sets exactly the places from there on. -/
def store (r : ReferenceFiles) (place n : Nat) (buf : Nat → Byte) : ReferenceFiles where
  length := max r.length (place + n)
  byte i := if place ≤ i ∧ i < place + n then buf (i - place) else r.byte i
  zero i hi := by
    rw [if_neg (by omega)]
    exact r.zero i (by omega)
  objs := r.objs

def setObj (r : ReferenceFiles) (i : Nat) (obj : VNodeFileObj) : ReferenceFiles :=
  { r with objs := Function.update r.objs i obj }

/-- The operations on the array. A write whose end does not fit 32 bits fails with
`tooLarge`. Offsets move as `seek` moves them. -/
def step (tooLarge : Errno) (r : ReferenceFiles) : FileOp → FileAnswer × ReferenceFiles
  | .read i size =>
      let obj := r.objs i
      let bytes := r.readBytes obj size
      (.bytes (.ok bytes),
        r.setObj i { obj with offset := BitVec.ofNat 64 (obj.offset.toNat + bytes.length) })
  | .write i buf size =>
      let obj := r.objs i
      let last := r.place obj + size.toNat
      if 2 ^ 32 ≤ last then
        (.count (.error tooLarge), r)
      else
        (.count (.ok size.toNat),
          (r.store (r.place obj) size.toNat buf).setObj i
            { obj with offset := BitVec.ofNat 64 last })
  | .seek i offset whence =>
      let (result, obj) := (r.objs i).seek .regular r.length offset whence
      (.position result, r.setObj i obj)
  | .truncate => (.done, { r with length := 0, byte := fun _ => 0#8, zero := fun _ _ => rfl })

end ReferenceFiles

namespace OpenFiles

variable {s : OpenFiles} {r : ReferenceFiles}

/-- The file is the array, and no offset is negative. -/
structure Represents (s : OpenFiles) (r : ReferenceFiles) : Prop where
  length : r.length = s.file.size
  byte : ∀ i, r.byte i = s.file.byte i
  objs : r.objs = s.objs
  nonneg : ∀ i, 0 ≤ (s.objs i).offset.toInt

/-- A write ends within the largest vector. -/
def Fits (s : OpenFiles) : FileOp → Prop
  | .write i _ size =>
      (if (s.objs i).append then s.file.size else (s.objs i).offset.toNat) + size.toNat ≤ maxSize
  | _ => True

theorem Represents.setObj (h : s.Represents r) (i : Nat) (obj : VNodeFileObj)
    (hobj : 0 ≤ obj.offset.toInt) : (s.setObj i obj).Represents (r.setObj i obj) := by
  refine ⟨h.length, h.byte, by rw [ReferenceFiles.setObj, OpenFiles.setObj, h.objs], fun j => ?_⟩
  by_cases hj : j = i
  · subst hj
    simpa [OpenFiles.setObj] using hobj
  · simpa [OpenFiles.setObj, hj] using h.nonneg j

/-- The bytes that `read` copies are those of the array. -/
theorem Represents.read (h : s.Represents r) (i : Nat) (size : BitVec 32) :
    s.file.read size (s.objs i).offset = .ok (r.readBytes (r.objs i) size) := by
  have hoffset := h.nonneg i
  have hnat := Offset.toNat_of_nonneg hoffset
  unfold RamFSFile.read ReferenceFiles.readBytes
  rw [if_neg (by omega), h.length, h.objs]
  split
  · rw [Nat.sub_eq_zero_of_le (by omega), Nat.zero_min]
    rfl
  · congr 1
    refine List.ext_getElem ?_ fun j hj hj' => ?_
    · simp [RamFSFile.size]
    · simp only [List.getElem_take, List.getElem_drop, List.getElem_map, List.getElem_range, h.byte,
        RamFSFile.byte]
      exact (List.getD_eq_getElem _ _ _).symm

/-- A file of five bytes with an object at its start. -/
def fiveBytes : OpenFiles where
  file := ⟨[0x68#8, 0x65#8, 0x6C#8, 0x6C#8, 0x6F#8], by decide⟩
  objs := fun _ => ⟨false, 0#64⟩

end OpenFiles

end Nyan.Fs
