import Nyan.Fs.DirectoryMap
import Nyan.Fs.DirectoryStream
import Nyan.Library.Cursor

/-!
Reading an open directory while entries are added and removed. The offset of the open
directory is an index into the vector of its entries, and `unlink` moves the entries
behind the one that it removes. When that one has been returned already, the entry at
the offset moves before it and is never returned. A buffer that is too small for the
next record makes `getdents64` return zero as if it had reached the end.
-/

namespace Nyan.Fs

open Library

/-- A name that was copied from the memory of a task, of which there are 128 MiB. -/
structure EntryName extends CName where
  short : bytes.length < 2 ^ 27
  deriving DecidableEq

/-- A buffer below the kernel's part of the address space. -/
structure TaskBuffer extends UserBuffer where
  below : bytes.length ≤ 0xC0000000

/-- What `readdir` reads of an entry. -/
def RamFS.dirent (s : RamFS EntryName) (entry : EntryName × VNodeId) : Dirent where
  ino := s.inode entry.2
  type := s.type entry.2
  name := entry.1.toCName

/-- The `max_size()` of a vector of entries, which take 16 bytes. -/
def maxEntries : Nat := 0xFFFFFFFF / 16

/-- The nodes, the offset of the open directory, and the entries whose records have been
returned, in their order. -/
structure DirectoryScan where
  ram : RamFS EntryName
  offset : Offset
  returned : List (EntryName × VNodeId)

/-- A call on the open directory, or an operation on some directory. -/
inductive ScanOp where
  | getdents64 (buf : TaskBuffer)
  | perform (op : DirectoryOp EntryName)

inductive ScanAnswer where
  | count (bytes : Int)
  | performed (answer : DirectoryAnswer)

namespace DirectoryScan

/-- One call or operation. A vector that cannot grow halts the kernel. -/
def step (directory : VNodeId) (s : DirectoryScan) : ScanOp → Option (ScanAnswer × DirectoryScan)
  | .getdents64 buf => do
      let entries := s.ram.entries directory
      let ((count, _), next) ← readdir (entries.map s.ram.dirent) buf.toUserBuffer s.offset
      return (.count count,
        { s with
          offset := next
          returned := s.returned ++
            (entries.drop s.offset.toNat).take (next.toNat - s.offset.toNat) })
  | .perform op =>
      let (answer, ram) := s.ram.perform op
      if (ram.entries directory).length ≤ maxEntries then
        some (.performed answer, { s with ram })
      else
        none

/-- The directory has just been opened. -/
structure Opened (directory : VNodeId) (s : DirectoryScan) : Prop where
  known : directory < s.ram.nextNode
  distinct : ((s.ram.entries directory).map Prod.fst).Nodup
  few : (s.ram.entries directory).length ≤ maxEntries
  offset : s.offset = 0#64
  returned : s.returned = []

/-- A buffer has room for the next record, and an entry that is removed has not been
returned yet, unless all have. -/
def Undisturbed (directory : VNodeId) (s : DirectoryScan) : ScanOp → Prop
  | .getdents64 buf => ∀ entry, (s.ram.entries directory)[s.offset.toNat]? = some entry →
      (s.ram.dirent entry).length ≤ buf.bytes.length
  | .perform (.unlink d name) => d = directory →
      ∀ i entry, (s.ram.entries directory)[i]? = some entry → entry.1 = name →
        s.offset.toNat ≤ i ∨ (s.ram.entries directory).length ≤ s.offset.toNat
  | .perform _ => True

/-- The operation does not remove the entry from the directory. -/
def Keeps (directory : VNodeId) (entry : EntryName × VNodeId) : ScanOp → Prop
  | .perform op => op.removes directory entry.1 = false
  | .getdents64 _ => True

end DirectoryScan

/-- The loop goes on as long as records fit; it stores nothing only if the first one does
not fit or there is none. -/
theorem readdirLoop_index {size : BitVec 32} {entries : List Dirent} (buf : List Byte)
    (written : BitVec 32) (idx : Nat) (hshort : ∀ entry ∈ entries, entry.name.bytes.length < 2 ^ 27)
    (hsize : size.toNat ≤ 0xC0000000) (hwritten : written.toNat ≤ size.toNat) :
    ∃ k bytes written', readdirLoop size entries buf written idx = (bytes, written', idx + k) ∧
      k ≤ entries.length ∧ written.toNat ≤ written'.toNat ∧
      (written' = written → k = 0 ∧
        ∀ entry, entries[0]? = some entry → size.toNat < written.toNat + entry.length) := by
  induction entries generalizing buf written idx with
  | nil => exact ⟨0, buf, written, rfl, le_rfl, le_rfl, fun _ => ⟨rfl, by simp⟩⟩
  | cons entry rest ih =>
      have hentry := hshort entry (by simp)
      have hreclen := Dirent.toNat_reclen (by omega : entry.name.bytes.length < 2 ^ 31)
      have hlength : 0 < entry.length ∧ entry.length < 2 ^ 28 := by
        unfold Dirent.length
        omega
      have hsum : (written + entry.reclen).toNat = written.toNat + entry.length := by
        rw [BitVec.toNat_add, hreclen, Nat.mod_eq_of_lt (by omega)]
      by_cases hfull : size < written + entry.reclen
      · refine ⟨0, buf, written, by rw [readdirLoop, if_pos hfull]; rfl, by simp, le_rfl, ?_⟩
        refine fun _ => ⟨rfl, fun e he => ?_⟩
        obtain rfl : entry = e := by simpa using he
        rwa [BitVec.lt_def, hsum] at hfull
      · have hroom : written.toNat + entry.length ≤ size.toNat := by
          rw [BitVec.lt_def, hsum] at hfull
          omega
        obtain ⟨k, bytes, written', hloop, hk, hle, _⟩ :=
          ih (overlay buf written.toNat (entry.record (BitVec.ofNat 64 (idx + 1))))
            (written + entry.reclen) (idx + 1)
            (fun e he => hshort e (List.mem_cons_of_mem _ he)) (by omega)
        refine ⟨k + 1, bytes, written', ?_, by simpa using hk, by omega, ?_⟩
        · rw [readdirLoop, if_neg hfull, hloop]
          simp only [Prod.mk.injEq, true_and]
          omega
        · rintro rfl
          omega

namespace RamFS

variable {N : Type} [DecidableEq N] {s : RamFS N} {directory : VNodeId}

/-- What an operation that removes nothing does to a directory. -/
def Extends (s t : RamFS N) (directory : VNodeId) : Prop :=
  directory < t.nextNode ∧ (t.entries directory = s.entries directory ∨
    ∃ name node, existsEntry (s.entries directory) name = false ∧
      t.entries directory = s.entries directory ++ [(name, node)])

theorem Extends.pushEntry (h : directory < s.nextNode) {d : VNodeId} {name : N}
    (hnew : existsEntry (s.entries d) name = false) (node : VNodeId) :
    s.Extends (s.pushEntry d name node) directory := by
  refine ⟨h, ?_⟩
  by_cases hd : directory = d
  · subst hd
    exact .inr ⟨name, node, hnew, by simp [RamFS.pushEntry]⟩
  · exact .inl (Function.update_of_ne hd ..)

theorem Extends.addNew (h : directory < s.nextNode) (d : VNodeId) (name : N) (type : VNodeType) :
    s.Extends (s.addNew d name type).2 directory := by
  unfold RamFS.addNew
  split
  · exact ⟨h, .inl rfl⟩
  · rename_i hexists
    have hold : (s.makeNode (s.superBlock d) type).entries directory = s.entries directory :=
      Function.update_of_ne (Nat.ne_of_lt h) ..
    refine ⟨Nat.lt_succ_of_lt h, ?_⟩
    by_cases hd : directory = d
    · subst hd
      refine .inr ⟨name, s.nextNode, by simpa using hexists, ?_⟩
      simp [RamFS.pushEntry, hold]
    · exact .inl ((Function.update_of_ne hd ..).trans hold)

theorem Extends.link (h : directory < s.nextNode) (d : VNodeId) (name : N) (target : VNodeId) :
    s.Extends (s.link d name target).2 directory := by
  unfold RamFS.link
  split
  · exact ⟨h, .inl rfl⟩
  · split
    · exact ⟨h, .inl rfl⟩
    · rename_i hexists
      exact Extends.pushEntry h (by simpa using hexists) target

/-- What an operation does to a directory that there is. -/
theorem perform_entries (h : directory < s.nextNode) (op : DirectoryOp N) :
    s.Extends (s.perform op).2 directory ∨ directory < (s.perform op).2.nextNode ∧
      ∃ name, op = .unlink directory name ∧
        (s.perform op).2.entries directory = eraseEntry (s.entries directory) name := by
  cases op with
  | lookup d name => exact .inl ⟨h, .inl rfl⟩
  | mkdir d name => exact .inl (Extends.addNew h d name .directory)
  | create d name => exact .inl (Extends.addNew h d name .regular)
  | symlink d name => exact .inl (Extends.addNew h d name .symlink)
  | link d name target => exact .inl (Extends.link h d name target)
  | unlink d name =>
      simp only [perform, RamFS.unlink]
      split
      · by_cases hd : directory = d
        · subst hd
          exact .inr ⟨h, name, rfl, by simp⟩
        · exact .inl ⟨h, .inl (Function.update_of_ne hd ..)⟩
      · exact .inl ⟨h, .inl rfl⟩

end RamFS

namespace DirectoryScan

variable {directory : VNodeId} {s t : DirectoryScan} {buf : TaskBuffer} {answer : ScanAnswer}
  {op : ScanOp} {entry : EntryName × VNodeId}

/-- What holds of the directory and the offset along a run. -/
structure Sound (directory : VNodeId) (s : DirectoryScan) : Prop where
  known : directory < s.ram.nextNode
  distinct : ((s.ram.entries directory).map Prod.fst).Nodup
  few : (s.ram.entries directory).length ≤ maxEntries
  inside : s.offset.toNat ≤ maxEntries

/-- A call moves the offset over the entries that it returns. -/
theorem getdents64_moves (h : s.Sound directory)
    (hstep : s.step directory (.getdents64 buf) = some (answer, t)) :
    ∃ k, t.ram = s.ram ∧ t.offset.toNat = s.offset.toNat + k ∧ t.offset.toNat ≤ maxEntries ∧
      t.returned = s.returned ++ ((s.ram.entries directory).drop s.offset.toNat).take k ∧
      (answer = .count 0 → s.Undisturbed directory (.getdents64 buf) →
        (s.ram.entries directory).length ≤ s.offset.toNat) := by
  have hfew := h.few
  have hinside := h.inside
  have hsmall : maxEntries < 2 ^ 28 := by decide
  have hnonneg : ¬ s.offset.toInt < 0 := by
    rw [BitVec.toInt_eq_toNat_of_lt (by omega)]
    omega
  have hsize : buf.size.toNat = buf.bytes.length := by
    rw [UserBuffer.size, BitVec.toNat_ofNat, Nat.mod_eq_of_lt buf.fits]
  have hbelow := buf.below
  have hshort : ∀ e ∈ ((s.ram.entries directory).map s.ram.dirent).drop s.offset.toNat,
      e.name.bytes.length < 2 ^ 27 := by
    intro e he
    obtain ⟨entry, _, rfl⟩ := List.mem_map.mp (List.mem_of_mem_drop he)
    exact entry.1.short
  obtain ⟨k, bytes, written, hloop, hk, _, hzero⟩ := readdirLoop_index buf.bytes 0#32
    s.offset.toNat hshort (by omega : buf.size.toNat ≤ 0xC0000000) (by simp)
  rw [List.length_drop, List.length_map] at hk
  have hnext : (BitVec.ofNat 64 (s.offset.toNat + k) : Offset).toNat = s.offset.toNat + k := by
    rw [BitVec.toNat_ofNat, Nat.mod_eq_of_lt (by omega)]
  simp only [step, readdir, if_neg hnonneg, hloop, Option.bind_eq_bind, Option.bind_some,
    Option.pure_def, Option.some_inj, Prod.mk.injEq] at hstep
  obtain ⟨rfl, rfl⟩ := hstep
  refine ⟨k, rfl, hnext, by simp only [hnext]; omega, ?_, fun hcount hroom => ?_⟩
  · simp only [hnext, Nat.add_sub_cancel_left]
  · have hwritten : written = 0#32 := by
      rw [ScanAnswer.count.injEq] at hcount
      exact BitVec.toInt_inj.mp (by simpa using hcount)
    by_contra hmore
    obtain ⟨_, hfirst⟩ := hzero hwritten
    obtain ⟨entry, hentry⟩ : ∃ entry, (s.ram.entries directory)[s.offset.toNat]? = some entry :=
      ⟨_, List.getElem?_eq_getElem (by omega)⟩
    have hlarge := hroom entry hentry
    have hsmaller := hfirst (s.ram.dirent entry) (by simp [hentry])
    simp only [BitVec.toNat_ofNat, Nat.zero_mod, Nat.zero_add] at hsmaller
    omega

/-- The entry is in the directory, and was returned once if the offset is behind it. -/
def Follows (directory : VNodeId) (entry : EntryName × VNodeId) (s : DirectoryScan) : Prop :=
  s.Sound directory ∧
    Tracked (s.ram.entries directory) s.offset.toNat s.returned entry

theorem Sound.nodup (h : s.Sound directory) : (s.ram.entries directory).Nodup :=
  h.distinct.of_map Prod.fst

/-- An operation keeps the entry in view. -/
theorem follows_perform {op : DirectoryOp EntryName} (h : s.Follows directory entry)
    (hok : s.Undisturbed directory (.perform op)) (hkeeps : Keeps directory entry (.perform op))
    (hstep : s.step directory (.perform op) = some (answer, t)) : t.Follows directory entry := by
  obtain ⟨hsound, htracked⟩ := h
  simp only [step] at hstep
  split at hstep
  · rename_i hfew
    obtain ⟨-, rfl⟩ := Prod.mk.inj (Option.some.inj hstep)
    rcases RamFS.perform_entries hsound.known op with
      ⟨hknown, hsame | ⟨name, node, hnew, hpush⟩⟩ | ⟨hknown, name, rfl, herase⟩
    · exact ⟨⟨hknown, by rw [hsame]; exact hsound.distinct, hfew, hsound.inside⟩,
        by rw [hsame]; exact htracked⟩
    · refine ⟨⟨hknown, ?_, hfew, hsound.inside⟩, ?_⟩
      · rw [hpush]
        exact nodup_push hsound.distinct hnew
      · rw [hpush]
        exact htracked.push (name, node)
    · refine ⟨⟨hknown, ?_, hfew, hsound.inside⟩, ?_⟩
      · rw [herase]
        exact nodup_erase hsound.distinct
      · rw [herase]
        refine htracked.erase ?_ fun i e he hname => hok rfl i e he (by simpa using hname)
        simpa [Keeps, DirectoryOp.removes, eq_comm] using hkeeps
  · simp at hstep

theorem follows_step (h : s.Follows directory entry) (hok : s.Undisturbed directory op)
    (hkeeps : Keeps directory entry op) (hstep : s.step directory op = some (answer, t)) :
    t.Follows directory entry := by
  cases op with
  | perform op => exact follows_perform h hok hkeeps hstep
  | getdents64 buf =>
      obtain ⟨hsound, htracked⟩ := h
      obtain ⟨k, hram, hoffset, hinside, hreturned, _⟩ := getdents64_moves hsound hstep
      refine ⟨⟨?_, ?_, ?_, hinside⟩, ?_⟩
      · rw [hram]
        exact hsound.known
      · rw [hram]
        exact hsound.distinct
      · rw [hram]
        exact hsound.few
      · rw [hram, hoffset, hreturned]
        exact htracked.advance hsound.nodup k

theorem Opened.follows (h : s.Opened directory) (hentry : entry ∈ s.ram.entries directory) :
    s.Follows directory entry := by
  refine ⟨⟨h.known, h.distinct, h.few, by simp [h.offset]⟩, ?_⟩
  rw [h.offset, h.returned]
  exact Tracked.start hentry

/-- In a run that removes no entry from before the offset while there are entries behind
it, and gives every call room for the next record, an entry that stays in the directory
has been returned once by the time that a call returns zero. -/
theorem scan_returns_each_once {ops : List ScanOp} {rs : List ScanAnswer} {u : DirectoryScan}
    (hopened : s.Opened directory) (hok : Guarded (step directory) (Undisturbed directory) s ops)
    (hrun : answers (step directory) s ops = some (rs, t))
    (hlast : t.step directory (.getdents64 buf) = some (.count 0, u))
    (hroom : t.Undisturbed directory (.getdents64 buf))
    (hentry : entry ∈ s.ram.entries directory) (hkept : ∀ op ∈ ops, Keeps directory entry op) :
    u.returned.count entry = 1 := by
  have hstep : ∀ s op answer t, Follows directory entry s → Undisturbed directory s op →
      Keeps directory entry op → step directory s op = some (answer, t) →
      Follows directory entry t := fun _ _ _ _ => follows_step
  have hfollows := hok.invariant hstep hkept (hopened.follows hentry) hrun
  obtain ⟨k, hram, hoffset, -, -, hend⟩ := getdents64_moves hfollows.1 hlast
  have hlength := hend rfl hroom
  refine (follows_step hfollows hroom trivial hlast).2.finished ?_
  rw [hram]
  omega

def nameA : EntryName := ⟨⟨[65#8], by decide⟩, by decide⟩

def nameB : EntryName := ⟨⟨[66#8], by decide⟩, by decide⟩

/-- A directory, the node 0, with two regular files. -/
def twoFiles : DirectoryScan where
  ram :=
    { type := fun node => if node = 0 then .directory else .regular
      superBlock := fun _ => 0
      inode := BitVec.ofNat 64
      entries := fun node => if node = 0 then [(nameA, 1), (nameB, 2)] else []
      nextNode := 3
      fs := fun _ => 0
      counter := fun _ => 2#64 }
  offset := 0#64
  returned := []

/-- Room for a number of records of short names. -/
def roomFor (records : Fin 8) : TaskBuffer where
  bytes := List.replicate (24 * records.val) 0#8
  fits := by
    rw [List.length_replicate]
    omega
  below := by
    rw [List.length_replicate]
    omega

theorem opened_twoFiles : twoFiles.Opened 0 := ⟨by decide, by decide, by decide, rfl, rfl⟩

/-- The second file is removed before its turn, and the first one is returned. -/
theorem scan_returns_first_file :
    ∃ t u rs, answers (step 0) twoFiles
        [.getdents64 (roomFor 1), .perform (.unlink 0 nameB)] = some (rs, t) ∧
      t.step 0 (.getdents64 (roomFor 1)) = some (.count 0, u) ∧
      u.returned.count (nameA, 1) = 1 := by
  obtain ⟨t, u, rs, hrun, hlast, hend⟩ : ∃ t u rs, answers (step 0) twoFiles
        [.getdents64 (roomFor 1), .perform (.unlink 0 nameB)] = some (rs, t) ∧
      t.step 0 (.getdents64 (roomFor 1)) = some (.count 0, u) ∧
      (t.ram.entries 0)[t.offset.toNat]? = none := ⟨_, _, _, rfl, rfl, rfl⟩
  refine ⟨t, u, rs, hrun, hlast, ?_⟩
  refine scan_returns_each_once opened_twoFiles ?_ hrun hlast ?_ (by decide) ?_
  · refine ⟨?_, fun r t hstep => ⟨fun _ => ?_, fun _ _ _ => trivial⟩⟩
    · intro entry hentry
      obtain rfl := Option.some.inj hentry
      decide
    · obtain ⟨-, rfl⟩ := Prod.mk.inj (Option.some.inj hstep)
      intro i entry hentry hname
      cases i with
      | zero =>
          obtain rfl := Option.some.inj hentry
          exact absurd hname (by decide)
      | succ i => exact .inl (Nat.succ_le_succ (Nat.zero_le i))
  · intro entry hentry
    exact absurd (hend.symm.trans hentry) (by simp)
  · simp [Keeps, DirectoryOp.removes]
    decide

/-- An entry that has been returned is removed: the one behind it is not returned at all,
though it was there all the time. Nor is any entry when the buffer has no room. -/
theorem unlink_skips_next_entry :
    (∃ u, twoFiles.step 0 (.getdents64 (roomFor 0)) = some (.count 0, u) ∧ u.returned = []) ∧
    ∃ t u rs, answers (step 0) twoFiles
        [.getdents64 (roomFor 1), .perform (.unlink 0 nameA)] = some (rs, t) ∧
      t.step 0 (.getdents64 (roomFor 1)) = some (.count 0, u) ∧
      (nameB, 2) ∈ twoFiles.ram.entries 0 ∧
      (∀ op ∈ [ScanOp.getdents64 (roomFor 1), .perform (.unlink 0 nameA)],
        Keeps 0 (nameB, 2) op) ∧
      u.returned.count (nameB, 2) = 0 := by
  refine ⟨⟨_, rfl, rfl⟩, _, _, _, rfl, rfl, by decide, ?_, by decide +kernel⟩
  simp [Keeps, DirectoryOp.removes]
  decide

end DirectoryScan

end Nyan.Fs
