import Nyan.Fs.FileContents

/-!
Seeking in a regular file, against `lseek`: the new position is the base plus the
offset, unless the whence is none of the three, the sum overflows or is negative. The
source forgets the offset for `SEEK_SET` and always returns zero, so it agrees exactly
where it fails rightly or the new position is zero.
-/

namespace Nyan.Fs

namespace VNodeFileObj

variable {obj : VNodeFileObj} {file : RamFSFile} {offset : Offset} {whence : Int}

/-- Where an offset counts from. -/
def base (obj : VNodeFileObj) (file : RamFSFile) (whence : Int) : Option Int :=
  if whence = SEEK_SET then
    some 0
  else if whence = SEEK_CUR then
    some obj.offset.toInt
  else if whence = SEEK_END then
    some file.size
  else
    none

/-- The position that `lseek` moves to, if it does not fail. -/
def lseek (obj : VNodeFileObj) (file : RamFSFile) (offset : Offset) (whence : Int) : Option Int :=
  (obj.base file whence).bind fun base =>
    if 0 ≤ base + offset.toInt ∧ base + offset.toInt < 2 ^ 63 then
      some (base + offset.toInt)
    else
      none

/-- `seek` fails and changes nothing, or moves to the position and returns it, as
`lseek` does; and `llseek` stores the new offset. -/
structure SeekFollows (obj : VNodeFileObj) (file : RamFSFile) (offset : Offset) (whence : Int) :
    Prop where
  fails : obj.lseek file offset whence = none →
    ∃ e, obj.seek .regular file.size offset whence = (.error e, obj)
  moves : ∀ position, obj.lseek file offset whence = some position →
    ∃ newOff : Offset, newOff.toInt = position ∧
      obj.seek .regular file.size offset whence = (.ok newOff, { obj with offset := newOff })
  stores : ∀ high low result obj', high ++ low = offset →
    obj.llseek .regular file.size high low whence = (.ok result, obj') → result = obj'.offset

/-- `SEEK_SET` asks for the start; the others ask for the start or for a position that
there is not. -/
def ToStart (obj : VNodeFileObj) (file : RamFSFile) (offset : Offset) (whence : Int) : Prop :=
  (whence = SEEK_SET → offset = 0#64) ∧
    (whence = SEEK_CUR → obj.offset.toInt + offset.toInt ≤ 0 ∨
      2 ^ 63 ≤ obj.offset.toInt + offset.toInt) ∧
    (whence = SEEK_END → file.size + offset.toInt ≤ 0 ∨ 2 ^ 63 ≤ file.size + offset.toInt)

/-- The end of `seek`: a sum that is not negative becomes the offset. -/
def settle (obj : VNodeFileObj) : Except Errno Offset → Except Errno Offset × VNodeFileObj
  | .error e => (.error e, obj)
  | .ok newOff =>
      if newOff.toInt < 0 then (.error .EINVAL, obj) else (.ok 0#64, { obj with offset := newOff })

/-- The sum of the base and the offset, if it does not overflow. -/
def sum (base offset : Offset) : Except Errno Offset :=
  (Offset.add base offset).elim (.error .EOVERFLOW) .ok

theorem seek_set : obj.seek .regular file.size offset SEEK_SET = obj.settle (.ok 0#64) := by
  unfold seek settle
  rfl

theorem seek_cur :
    obj.seek .regular file.size offset SEEK_CUR = obj.settle (sum obj.offset offset) := by
  unfold seek settle sum
  rfl

theorem seek_end_eq :
    obj.seek .regular file.size offset SEEK_END =
      obj.settle (sum (BitVec.ofNat 64 file.size) offset) := by
  unfold seek settle sum
  rfl

theorem seek_other (hset : whence ≠ SEEK_SET) (hcur : whence ≠ SEEK_CUR)
    (hend : whence ≠ SEEK_END) :
    obj.seek .regular file.size offset whence = (.error .EINVAL, obj) := by
  simp only [seek, if_neg hset, if_neg hcur, if_neg hend]

theorem settle_sum_fails (obj : VNodeFileObj) {base : Offset}
    (h : ¬ (0 ≤ base.toInt + offset.toInt ∧ base.toInt + offset.toInt < 2 ^ 63)) :
    ∃ e, obj.settle (sum base offset) = (.error e, obj) := by
  unfold sum
  cases hadd : Offset.add base offset with
  | none => exact ⟨.EOVERFLOW, rfl⟩
  | some newOff =>
      have hsum := Offset.toInt_of_add hadd
      have hlt := BitVec.toInt_lt (x := newOff)
      exact ⟨.EINVAL, if_pos (by omega)⟩

theorem settle_sum_moves (obj : VNodeFileObj) {base : Offset}
    (h : 0 ≤ base.toInt + offset.toInt)
    (h' : base.toInt + offset.toInt < 2 ^ 63) :
    ∃ newOff : Offset, newOff.toInt = base.toInt + offset.toInt ∧
      obj.settle (sum base offset) = (.ok 0#64, { obj with offset := newOff }) := by
  obtain ⟨newOff, hadd, hsum⟩ := Offset.add_eq_some (by omega) h'
  refine ⟨newOff, hsum, ?_⟩
  rw [sum, hadd]
  exact if_neg (by omega)

theorem llseek_ok {high low : BitVec 32} {result : Offset} {obj' : VNodeFileObj}
    (h : obj.llseek .regular file.size high low whence = (.ok result, obj')) :
    obj.seek .regular file.size (high ++ low) whence = (.ok result, obj') := by
  unfold llseek at h
  split at h
  · cases h
  · exact h

/-- What is to be stored follows from what `seek` returns. -/
theorem SeekFollows.of_seek
    (hfails : obj.lseek file offset whence = none →
      ∃ e, obj.seek .regular file.size offset whence = (.error e, obj))
    (hmoves : ∀ position, obj.lseek file offset whence = some position →
      ∃ newOff : Offset, newOff.toInt = position ∧
        obj.seek .regular file.size offset whence = (.ok newOff, { obj with offset := newOff })) :
    obj.SeekFollows file offset whence := by
  refine ⟨hfails, hmoves, ?_⟩
  rintro high low result obj' rfl hllseek
  have hseek := llseek_ok hllseek
  cases hlseek : obj.lseek file (high ++ low) whence with
  | none =>
      obtain ⟨e, herror⟩ := hfails hlseek
      cases hseek.symm.trans herror
  | some position =>
      obtain ⟨newOff, _, hok⟩ := hmoves position hlseek
      obtain ⟨hresult, rfl⟩ := Prod.mk.inj (hok.symm.trans hseek)
      exact (Except.ok.inj hresult).symm

/-- A `seek` from a base that it adds the offset to. -/
theorem seekFollows_iff_of_base {base : Offset} (hbase : obj.base file whence = some base.toInt)
    (hseek : obj.seek .regular file.size offset whence = obj.settle (sum base offset)) :
    obj.SeekFollows file offset whence ↔
      base.toInt + offset.toInt ≤ 0 ∨ 2 ^ 63 ≤ base.toInt + offset.toInt := by
  by_cases hrange : 0 ≤ base.toInt + offset.toInt ∧ base.toInt + offset.toInt < 2 ^ 63
  · have hlseek : obj.lseek file offset whence = some (base.toInt + offset.toInt) := by
      rw [lseek, hbase]
      exact if_pos hrange
    obtain ⟨newOff, hsum, hsettle⟩ := settle_sum_moves obj hrange.1 hrange.2
    constructor
    · intro h
      obtain ⟨position, hposition, hok⟩ := h.moves _ hlseek
      have heq := (Prod.mk.inj ((hseek.trans hsettle).symm.trans hok)).1
      obtain rfl := Except.ok.inj heq
      have hzero : (0#64 : Offset).toInt = 0 := rfl
      omega
    · intro h
      obtain rfl : newOff = 0#64 := BitVec.eq_of_toInt_eq (by
        have hzero : (0#64 : Offset).toInt = 0 := rfl
        omega)
      refine .of_seek (fun hnone => ?_) fun position hposition => ?_
      · cases hlseek.symm.trans hnone
      · obtain rfl := Option.some.inj (hlseek.symm.trans hposition)
        exact ⟨0#64, hsum, hseek.trans hsettle⟩
  · have hlseek : obj.lseek file offset whence = none := by
      rw [lseek, hbase]
      exact if_neg hrange
    refine iff_of_true (.of_seek (fun _ => ?_) fun position hposition => ?_) (by omega)
    · obtain ⟨e, herror⟩ := settle_sum_fails obj hrange
      exact ⟨e, hseek.trans herror⟩
    · cases hlseek.symm.trans hposition

theorem seekFollows_set_iff : obj.SeekFollows file offset SEEK_SET ↔ offset = 0#64 := by
  have hseek : obj.seek .regular file.size offset SEEK_SET =
      (.ok 0#64, { obj with offset := 0#64 }) := seek_set
  have hzero : (0#64 : Offset).toInt = 0 := rfl
  have hlt := BitVec.toInt_lt (x := offset)
  constructor
  · intro h
    by_cases hnonneg : 0 ≤ offset.toInt
    · obtain ⟨newOff, hsum, hok⟩ := h.moves (0 + offset.toInt) (if_pos (by omega))
      obtain rfl := Except.ok.inj (Prod.mk.inj (hseek.symm.trans hok)).1
      exact BitVec.eq_of_toInt_eq (by omega)
    · obtain ⟨e, herror⟩ := h.fails (if_neg (by omega))
      cases hseek.symm.trans herror
  · rintro rfl
    refine .of_seek (fun hnone => ?_) fun position hposition => ?_
    · cases (show obj.lseek file 0#64 SEEK_SET = some 0 from rfl).symm.trans hnone
    · obtain rfl := Option.some.inj hposition
      exact ⟨0#64, rfl, hseek⟩

/-- `seek` follows `lseek` exactly where the new position is zero, or where it fails
as it is to. -/
theorem seek_follows_iff (obj : VNodeFileObj) (file : RamFSFile) (offset : Offset)
    (whence : Int) : obj.SeekFollows file offset whence ↔ obj.ToStart file offset whence := by
  have hmax : maxSize = 0x7FFFFFFF := rfl
  have hfile : file.size ≤ maxSize := file.fits
  have hsize : (BitVec.ofNat 64 file.size : Offset).toInt = file.size :=
    Offset.toInt_ofNat (by omega)
  by_cases hset : whence = SEEK_SET
  · subst hset
    rw [seekFollows_set_iff]
    simp [ToStart, SEEK_SET, SEEK_CUR, SEEK_END]
  by_cases hcur : whence = SEEK_CUR
  · subst hcur
    rw [seekFollows_iff_of_base rfl seek_cur]
    simp [ToStart, SEEK_SET, SEEK_CUR, SEEK_END]
  by_cases hend : whence = SEEK_END
  · subst hend
    have hbase : obj.base file SEEK_END = some (BitVec.ofNat 64 file.size : Offset).toInt :=
      congrArg some hsize.symm
    rw [seekFollows_iff_of_base hbase seek_end_eq, hsize]
    simp [ToStart, SEEK_SET, SEEK_CUR, SEEK_END]
  · have hlseek : obj.lseek file offset whence = none := by
      simp only [lseek, base, if_neg hset, if_neg hcur, if_neg hend, Option.bind_none]
    refine iff_of_true (.of_seek (fun _ => ⟨.EINVAL, seek_other hset hcur hend⟩) ?_) ?_
    · intro position hposition
      cases hlseek.symm.trans hposition
    · exact ⟨fun h => absurd h hset, fun h => absurd h hcur, fun h => absurd h hend⟩

/-- `SEEK_SET` to the third byte goes to the start, and `SEEK_END` returns zero although
the offset is the size of the file. -/
theorem seek_ignores_set_and_returns_zero :
    (⟨false, 4#64⟩ : VNodeFileObj).llseek .regular OpenFiles.fiveBytes.file.size 0#32 3#32
      SEEK_SET = (.ok 0#64, ⟨false, 0#64⟩) ∧
      ¬ (⟨false, 4#64⟩ : VNodeFileObj).SeekFollows OpenFiles.fiveBytes.file 3#64 SEEK_SET ∧
      (⟨false, 4#64⟩ : VNodeFileObj).llseek .regular OpenFiles.fiveBytes.file.size 0#32 0#32
        SEEK_END = (.ok 0#64, ⟨false, 5#64⟩) ∧
      ¬ (⟨false, 4#64⟩ : VNodeFileObj).SeekFollows OpenFiles.fiveBytes.file 0#64 SEEK_END := by
  refine ⟨by decide, ?_, by decide, ?_⟩
  · rw [seekFollows_set_iff]
    decide
  · intro h
    obtain ⟨newOff, hsum, hok⟩ := h.moves 5 (by decide)
    obtain rfl : newOff = 0#64 := by
      have hseek : (⟨false, 4#64⟩ : VNodeFileObj).seek .regular OpenFiles.fiveBytes.file.size 0#64
        SEEK_END = (.ok 0#64, ⟨false, 5#64⟩) := by decide
      exact (Except.ok.inj (Prod.mk.inj (hseek.symm.trans hok)).1).symm
    exact absurd hsum (by decide)

end VNodeFileObj

end Nyan.Fs
