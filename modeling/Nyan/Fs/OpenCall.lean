import Nyan.Fs.Descriptor
import Nyan.Fs.PathWalk
import Nyan.Fs.RegularFile

/-!
The system call `open` with all that it changes. `fs::open` creates a file that is
missing and truncates one that is there, and only then a slot of the descriptor table is
looked for; whether a directory was asked for is checked after the creation. So a call
that fails may have created or truncated a file.
-/

namespace Nyan.Fs

open Library

def O_RDONLY : BitVec 32 := 0#32
def O_WRONLY : BitVec 32 := 0o1#32
def O_RDWR : BitVec 32 := 0o2#32
def O_ACCMODE : BitVec 32 := 0o10000003#32
def O_CREAT : BitVec 32 := 0o100#32
def O_EXCL : BitVec 32 := 0o200#32
def O_TRUNC : BitVec 32 := 0o1000#32
def O_DIRECTORY : BitVec 32 := 0o200000#32
def O_NOFOLLOW : BitVec 32 := 0o400000#32
def O_CLOEXEC : BitVec 32 := 0o2000000#32

/-- The flags that decide what is opened. -/
def FileSystem.OpenFlags.ofWord (flags : BitVec 32) : OpenFlags where
  O_CREAT := flags &&& Fs.O_CREAT ≠ 0#32
  O_EXCL := flags &&& Fs.O_EXCL ≠ 0#32
  O_NOFOLLOW := flags &&& Fs.O_NOFOLLOW ≠ 0#32
  O_DIRECTORY := flags &&& Fs.O_DIRECTORY ≠ 0#32

theorem FileSystem.OpenFlags.ofWord_directory {flags : BitVec 32} :
    (ofWord flags).O_DIRECTORY = true ↔ flags &&& Fs.O_DIRECTORY ≠ 0#32 :=
  decide_eq_true_iff

/-- The mode of the new descriptor. The table does not look at it. -/
def AccessMode.ofWord (flags : BitVec 32) : AccessMode :=
  if flags &&& O_ACCMODE = Fs.O_WRONLY then .O_WRONLY
  else if flags &&& O_ACCMODE = Fs.O_RDWR then .O_RDWR
  else .O_RDONLY

/-- With these flags a regular file is truncated. -/
def truncates (flags : BitVec 32) : Prop :=
  flags &&& O_ACCMODE ≠ O_RDONLY ∧ flags &&& O_TRUNC ≠ 0#32

instance (flags : BitVec 32) : Decidable (truncates flags) := inferInstanceAs (Decidable (_ ∧ _))

/-- The directories, the data of the regular files, and the descriptor tables. -/
structure OpenState where
  fs : FileSystem
  data : VNodeId → RamFSFile
  files : Descriptors

namespace OpenState

/-- `vnode->truncate(0)`. -/
def truncate (s : OpenState) (node : VNodeId) : Option OpenState := do
  let file ← (s.data node).truncate
  return { s with data := Function.update s.data node file }

/-- `fs::open`, with the node that is opened. -/
def openFile (s : OpenState) (caller : FileSystem.Caller) (name : Name) (flags : BitVec 32) :
    Option (Except Errno VNodeId × OpenState) :=
  (s.fs.open caller name (.ofWord flags)).bind fun
    | (.error e, fs) => some (.error e, { s with fs })
    | (.ok node, fs) =>
        if (Path.ofName name).portions ≠ [] ∧ truncates flags ∧ fs.nodes node = .regular then
          ({ s with fs }.truncate node).map fun s₁ => (.ok node, s₁)
        else
          some (.ok node, { s with fs })

/-- The system call, once the name has been copied. -/
def «open» (s : OpenState) (caller : FileSystem.Caller) (task : TaskId) (name : Name)
    (flags : BitVec 32) : Option (Except Errno Int × OpenState) :=
  (s.openFile caller name flags).bind fun
    | (.error e, s₁) => some (.error e, s₁)
    | (.ok _, s₁) =>
        (s₁.files.open task (.ofWord flags) (flags &&& O_CLOEXEC ≠ 0#32)).map fun (fd, files) =>
          (fd, { s₁ with files })

end OpenState

namespace FileSystem

variable {s s' : FileSystem} {kinds : VNodeId → Bool} {caller : Caller} {name : Name} {path : Path}
  {flags : OpenFlags} {node : VNodeId} {place : DEntry}

/-- The path leads to a directory without its last name, and a file is to be created. -/
structure Creates (s : FileSystem) (caller : Caller) (path : Path) (flags : OpenFlags) : Prop where
  portions : path.portions ≠ []
  create : flags.O_CREAT = true
  slash : path.trailingSlash = false
  missing : ∃ place, s.Denotes caller.tty 9 path.parent (caller.cwd.map DEntry.erase) place ∧
    s.lookupNode place path.last = some (.error .ENOENT)

/-- The path leads to a regular file, which may be opened. -/
structure FindsFile (s : FileSystem) (caller : Caller) (path : Path) (flags : OpenFlags)
    (node : VNodeId) : Prop where
  portions : path.portions ≠ []
  shared : ¬ (flags.O_CREAT = true ∧ flags.O_EXCL = true)
  anyKind : flags.O_DIRECTORY = false ∧ path.trailingSlash = false
  found : ∃ place entry, s.Denotes caller.tty 9 path.parent (caller.cwd.map DEntry.erase) place ∧
    s.lookupNode place path.last = some (.ok (some entry)) ∧ s.OpensEntry caller flags entry node
  regular : s.nodes node = .regular

/-- The file is created, and a directory was asked for or not. -/
theorem open_created (h : s.Lodged kinds caller)
    (hcreates : s.Creates caller (Path.ofName name) flags) :
    ∃ s', s.open caller name flags =
        some (if flags.O_DIRECTORY then .error .ENOTDIR else .ok s.nextNode, s') ∧
      s'.nodes ≠ s.nodes := by
  obtain ⟨place, hplace, hmissing⟩ := hcreates.missing
  obtain ⟨d, s₁, hresolve, rfl, hreached⟩ := reached_of_denotes h hplace
  obtain ⟨directory, hdirectory⟩ := hreached.node
  have hlookup : (s₁.nodes directory).lookup (Path.ofName name).last = .error .ENOENT := by
    rw [hreached.lookupNode hdirectory] at hmissing
    exact Option.some.inj hmissing
  obtain ⟨s₂, hadd, hfound, hnew⟩ :=
    addNode_of_missing hreached.lodged.kinded hlookup .regular
  have hopen : s₁.openAt caller (Path.ofName name) flags directory =
      some (if flags.O_DIRECTORY then .error .ENOTDIR else .ok s₁.nextNode, s₂) := by
    simp only [openAt, hlookup, ne_eq, not_true_eq_false, if_false, hcreates.create,
      hcreates.slash, Bool.not_false, Bool.and_self, if_true, hadd, Outcome.andThen,
      openNode_regular hfound hnew, Bool.or_false]
    split <;> rfl
  refine ⟨s₂, ?_, fun hnodes => ?_⟩
  · rw [open_eq_openAt (Path.ofName_valid hcreates.portions) hcreates.portions, hresolve,
      ← hreached.grown.nextNode]
    simp only [Outcome.andThen, hdirectory, Option.bind_some, hopen]
  · rw [hnodes, ← hreached.grown.nodes, hlookup] at hfound
    cases hfound

/-- Following a link and checking the kind change no directory. -/
theorem openNode_nodes (h : s.CacheShape) (hcaller : s.KnownCaller caller) {directory : VNodeId}
    {r : Except Errno VNodeId} (heq : s.openNode caller path flags directory = some (r, s')) :
    s'.nodes = s.nodes := by
  have hsame : Lookable fun t => t.nodes = s.nodes := fun _ _ hextends ht => hextends.nodes.trans ht
  exact (openNode_leaves hsame h rfl hcaller path flags directory r s' heq).2

/-- In the directory, `open` changes something only if it creates the file. -/
theorem openAt_nodes (h : s.CacheShape) (hcaller : s.KnownCaller caller) {directory : VNodeId}
    {r : Except Errno VNodeId} (hkeeps : (s.nodes directory).lookup path.last = .error .ENOENT →
      (flags.O_CREAT && !path.trailingSlash) = false)
    (heq : s.openAt caller path flags directory = some (r, s')) : s'.nodes = s.nodes := by
  unfold openAt at heq
  split at heq
  · rename_i e hlookup
    split at heq
    · obtain ⟨_, rfl⟩ := Prod.mk.inj (Option.some.inj heq)
      rfl
    · rename_i he
      obtain rfl : e = .ENOENT := by simpa using he
      rw [hkeeps hlookup] at heq
      obtain ⟨_, rfl⟩ := Prod.mk.inj (Option.some.inj heq)
      rfl
  · split at heq
    · obtain ⟨_, rfl⟩ := Prod.mk.inj (Option.some.inj heq)
      rfl
    · exact openNode_nodes h hcaller heq

/-- A call on a path with a last name fails on the way, or gets to its directory. -/
theorem open_reached (h : s.Lodged kinds caller) (hportions : (Path.ofName name).portions ≠ [])
    {r : Except Errno VNodeId} (heq : s.open caller name flags = some (r, s')) :
    (∃ e, r = .error e ∧ s'.nodes = s.nodes) ∨
      ∃ d s₁ directory, s.Reached kinds s₁ caller (Path.ofName name).parent d ∧
        s₁.effectiveVNode d = some directory ∧
        s₁.openAt caller (Path.ofName name) flags directory = some (r, s') := by
  rw [open_eq_openAt (Path.ofName_valid hportions) hportions] at heq
  cases hresolve : s.resolve caller (Path.ofName name).parent true with
  | none => simp [hresolve, Outcome.andThen] at heq
  | some result =>
      obtain ⟨found, s₁⟩ := result
      rw [hresolve] at heq
      cases found with
      | error e =>
          obtain ⟨rfl, rfl⟩ := Prod.mk.inj (Option.some.inj heq)
          exact .inl ⟨e, rfl, (resolve_finds h.shape h.known _ true _ _ hresolve).1.nodes⟩
      | ok d =>
          obtain ⟨directory, hdirectory, hopen⟩ := Option.bind_eq_some_iff.mp heq
          exact .inr ⟨d, s₁, directory, resolve_reached h hresolve, hdirectory, hopen⟩

/-- Where nothing is to be created, the directory has the name or it is not asked for. -/
theorem Reached.keeps {s₁ : FileSystem} {d : DEntry} {directory : VNodeId}
    (hreached : s.Reached kinds s₁ caller path.parent d)
    (hkeeps : ¬ s.Creates caller path flags) (hportions : path.portions ≠ [])
    (hd : s₁.effectiveVNode d = some directory)
    (hmissing : (s₁.nodes directory).lookup path.last = .error .ENOENT) :
    (flags.O_CREAT && !path.trailingSlash) = false := by
  by_contra hcreate
  rw [Bool.not_eq_false, Bool.and_eq_true, Bool.not_eq_true'] at hcreate
  refine hkeeps ⟨hportions, hcreate.1, hcreate.2, d.erase, hreached.denotes, ?_⟩
  rw [hreached.lookupNode hd, hmissing]

/-- Without creation, no directory is changed. -/
theorem open_nodes (h : s.Lodged kinds caller)
    (hkeeps : ¬ s.Creates caller (Path.ofName name) flags) {r : Except Errno VNodeId}
    (heq : s.open caller name flags = some (r, s')) : s'.nodes = s.nodes := by
  by_cases hportions : (Path.ofName name).portions = []
  · have hsame : Lookable fun t => t.nodes = s.nodes :=
      fun _ _ hextends ht => hextends.nodes.trans ht
    refine (open_leaves hsame h.shape rfl h.known name flags ?_ r s' heq).2
    exact fun _ _ _ _ _ _ _ _ hne => absurd hportions hne
  · rcases open_reached h hportions heq with ⟨_, _, hnodes⟩ | ⟨d, s₁, directory, hreached, hd, hopen⟩
    · exact hnodes
    · exact (openAt_nodes hreached.lodged.shape hreached.lodged.known
        (hreached.keeps hkeeps hportions hd) hopen).trans hreached.grown.nodes

theorem Extends.opensEntry (h : s.Extends s') {entry : VNodeId} :
    s'.OpensEntry caller flags entry node ↔ s.OpensEntry caller flags entry node := by
  simp only [OpensEntry, h.standsFor]

/-- In the directory, without creation: the entry that is there is opened. -/
theorem openAt_ok {directory : VNodeId}
    (hkeeps : (s.nodes directory).lookup path.last = .error .ENOENT →
      (flags.O_CREAT && !path.trailingSlash) = false) :
    s.openAt caller path flags directory = some (.ok node, s') ↔
      ∃ entry, (s.nodes directory).lookup path.last = .ok (some entry) ∧
        (flags.O_CREAT && flags.O_EXCL) = false ∧
        s.openNode caller path flags directory = some (.ok node, s') := by
  unfold openAt
  cases hlookup : (s.nodes directory).lookup path.last with
  | error e =>
      by_cases he : e = .ENOENT
      · simp [he, hkeeps (he ▸ hlookup)]
      · simp [he]
  | ok found =>
      cases found with
      | none => simp [openNode_null hlookup]
      | some entry => cases hexclusive : flags.O_CREAT && flags.O_EXCL <;> simp

/-- The regular files that are opened without being created. -/
theorem open_file_iff (h : s.Lodged kinds caller)
    (hkeeps : ¬ s.Creates caller (Path.ofName name) flags)
    (hportions : (Path.ofName name).portions ≠ []) (hnode : s.nodes node = .regular) :
    (∃ s', s.open caller name flags = some (.ok node, s')) ↔
      s.FindsFile caller (Path.ofName name) flags node := by
  have hfile : (s.nodes node).isDirectory = false := by rw [hnode]; rfl
  constructor
  · rintro ⟨s', heq⟩
    rcases open_reached h hportions heq with ⟨_, hr, _⟩ | ⟨d, s₁, directory, hreached, hd, hopen⟩
    · cases hr
    · have hlast := hreached.lookupNode hd (Path.ofName name).last
      rw [openAt_ok (hreached.keeps hkeeps hportions hd)] at hopen
      obtain ⟨entry, hlookup, hshared, hnodeOpen⟩ := hopen
      obtain ⟨hopens, hkind⟩ := (openNode_opens hreached.lodged.shape hreached.lodged.known
        hlookup).mp ⟨s', hnodeOpen⟩
      rw [hreached.grown.nodes, hfile] at hkind
      rw [hlookup] at hlast
      refine ⟨hportions, by simpa using hshared, by simpa using hkind, ?_, hnode⟩
      exact ⟨d.erase, entry, hreached.denotes, hlast, hreached.grown.opensEntry.mp hopens⟩
  · rintro ⟨_, hshared, ⟨hkind, hslash⟩, ⟨place, entry, hplace, hlookup, hopens⟩, _⟩
    obtain ⟨d, s₁, hresolve, rfl, hreached⟩ := reached_of_denotes h hplace
    obtain ⟨directory, hdirectory⟩ := hreached.node
    rw [hreached.lookupNode hdirectory] at hlookup
    have hfound := Option.some.inj hlookup
    obtain ⟨s', hopen⟩ := (openNode_opens hreached.lodged.shape hreached.lodged.known hfound).mpr
      ⟨hreached.grown.opensEntry.mpr hopens, by simp [hkind, hslash]⟩
    refine ⟨s', ?_⟩
    rw [open_eq_openAt (Path.ofName_valid hportions) hportions, hresolve]
    simp only [Outcome.andThen, hdirectory, Option.bind_some]
    rw [openAt_ok (hreached.keeps hkeeps hportions hdirectory)]
    exact ⟨entry, hfound, by simpa using hshared, hopen⟩

end FileSystem

namespace Descriptors

variable {s : Descriptors} {task : TaskId} {mode : AccessMode} {closeOnExec : Bool}

/-- The task has no free slot. -/
def Full (s : Descriptors) (task : TaskId) : Prop := ∀ i : Fin maxFd, s.slots (task, i) ≠ none

instance (s : Descriptors) (task : TaskId) : Decidable (s.Full task) :=
  inferInstanceAs (Decidable (∀ _, _))

theorem open_full (h : s.Full task) :
    s.open task mode closeOnExec = some (.error .EMFILE, s) := by
  have hnone : s.findFileSlot task 0 = .error .EMFILE := by
    unfold findFileSlot
    rw [List.find?_eq_none.mpr]
    intro i _
    simpa [Option.isNone_iff_eq_none] using h i
  rw [Descriptors.open, hnone]
  rfl

theorem open_free (h : ¬ s.Full task) (mode : AccessMode) (closeOnExec : Bool) :
    ∃ fd s', s.open task mode closeOnExec = some (.ok fd, s') := by
  have hfree : ∃ i, s.slots (task, i) = none := by simpa [Full] using h
  obtain ⟨i, hi⟩ : ∃ i, (List.finRange maxFd).find? (fun i =>
      decide (0 ≤ i.val) && (s.slots (task, i)).isNone) = some i := by
    rw [← Option.isSome_iff_exists, List.find?_isSome]
    simpa [Option.isNone_iff_eq_none] using hfree
  have hempty : s.slots (task, i) = none := by
    simpa [Option.isNone_iff_eq_none] using List.find?_some hi
  simp only [Descriptors.open, findFileSlot, hi, attempt, assignNew, reset, hempty]
  exact ⟨_, _, rfl⟩

end Descriptors

theorem RamFSFile.truncate_empty (file : RamFSFile) :
    ∃ file', file.truncate = some file' ∧ file'.data = [] := by
  by_cases hsize : 0 < file.size
  · exact ⟨_, by rw [truncate, if_pos hsize, resize, dif_pos (by simp)], by simp⟩
  · refine ⟨file, by rw [truncate, if_neg hsize], ?_⟩
    exact List.eq_nil_of_length_eq_zero (Nat.eq_zero_of_not_pos hsize)

namespace OpenState

variable {s after : OpenState} {kinds : VNodeId → Bool} {caller : FileSystem.Caller}
  {task : TaskId} {name : Name} {flags : BitVec 32}

/-- No directory entry was made, and no file was truncated. -/
def Untouched (s after : OpenState) : Prop :=
  after.fs.nodes = s.fs.nodes ∧ after.data = s.data

/-- A file is created although a directory was asked for or there is no free slot, or a
file that is not empty is truncated and there is no free slot. -/
def Spoils (s : OpenState) (caller : FileSystem.Caller) (task : TaskId) (name : Name)
    (flags : BitVec 32) : Prop :=
  s.fs.Creates caller (Path.ofName name) (.ofWord flags) ∧
      (flags &&& O_DIRECTORY ≠ 0#32 ∨ s.files.Full task) ∨
    s.files.Full task ∧ truncates flags ∧
      ∃ node, s.fs.FindsFile caller (Path.ofName name) (.ofWord flags) node ∧
        (s.data node).data ≠ []

/-- What `fs::open` truncates. -/
def Truncated (s s₁ : OpenState) (name : Name) (flags : BitVec 32) (node : VNodeId) : Prop :=
  if (Path.ofName name).portions ≠ [] ∧ truncates flags ∧ s₁.fs.nodes node = .regular then
    ∃ file, file.data = [] ∧ s₁.data = Function.update s.data node file
  else
    s₁.data = s.data

theorem openFile_ok {fs : FileSystem} {node : VNodeId}
    (h : s.fs.open caller name (.ofWord flags) = some (.ok node, fs)) :
    ∃ s₁, s.openFile caller name flags = some (.ok node, s₁) ∧ s₁.fs = fs ∧
      s₁.files = s.files ∧ s.Truncated s₁ name flags node := by
  rw [openFile, h, Option.bind_some]
  by_cases htruncates :
      (Path.ofName name).portions ≠ [] ∧ truncates flags ∧ fs.nodes node = .regular
  · obtain ⟨file, hfile, hempty⟩ := RamFSFile.truncate_empty (s.data node)
    refine ⟨{ s with fs, data := Function.update s.data node file }, ?_, rfl, rfl, ?_⟩
    · simp only [if_pos htruncates, truncate, hfile]
      rfl
    · rw [Truncated, if_pos htruncates]
      exact ⟨file, hempty, rfl⟩
  · exact ⟨{ s with fs }, if_neg htruncates, rfl, rfl, by rw [Truncated, if_neg htruncates]⟩

theorem open_error {fs : FileSystem} {e : Errno}
    (h : s.fs.open caller name (.ofWord flags) = some (.error e, fs)) :
    s.open caller task name flags = some (.error e, { s with fs }) := by
  simp [OpenState.open, openFile, h]

/-- Without a free slot the call fails, after all that `fs::open` did. -/
theorem open_full {fs : FileSystem} {node : VNodeId} (hfull : s.files.Full task)
    (h : s.fs.open caller name (.ofWord flags) = some (.ok node, fs)) :
    ∃ s₁, s.open caller task name flags = some (.error .EMFILE, s₁) ∧ s₁.fs = fs ∧
      s.Truncated s₁ name flags node := by
  obtain ⟨s₁, hopen, hfs, hfiles, htruncated⟩ := openFile_ok h
  refine ⟨s₁, ?_, hfs, htruncated⟩
  rw [← hfiles] at hfull
  simp [OpenState.open, hopen, Descriptors.open_full hfull]

theorem open_free {fs : FileSystem} {node : VNodeId} (hfree : ¬ s.files.Full task)
    (h : s.fs.open caller name (.ofWord flags) = some (.ok node, fs)) :
    ∃ fd s₁, s.open caller task name flags = some (.ok fd, s₁) := by
  obtain ⟨s₁, hopen, _, hfiles, _⟩ := openFile_ok h
  rw [← hfiles] at hfree
  obtain ⟨fd, files, hslot⟩ :=
    Descriptors.open_free hfree (.ofWord flags) (flags &&& O_CLOEXEC ≠ 0#32)
  refine ⟨fd, { s₁ with files }, ?_⟩
  rw [OpenState.open, hopen, Option.bind_some]
  simp only [hslot]
  rfl

/-- A call that spoils something fails. -/
theorem Spoils.touches (h : s.fs.Lodged kinds caller) (hspoils : s.Spoils caller task name flags) :
    ∃ e after, s.open caller task name flags = some (.error e, after) ∧ ¬ s.Untouched after := by
  by_cases hcreates : s.fs.Creates caller (Path.ofName name) (.ofWord flags)
  · obtain ⟨fs, hopen, hnodes⟩ := FileSystem.open_created h hcreates
    by_cases hdirectory : flags &&& O_DIRECTORY ≠ 0#32
    · rw [if_pos (FileSystem.OpenFlags.ofWord_directory.mpr hdirectory)] at hopen
      exact ⟨_, _, open_error hopen, fun huntouched => hnodes huntouched.1⟩
    · have hfull : s.files.Full task := by
        rcases hspoils with ⟨_, hdir | hfull⟩ | ⟨hfull, _⟩
        · exact absurd hdir hdirectory
        · exact hfull
        · exact hfull
      rw [if_neg (mt FileSystem.OpenFlags.ofWord_directory.mp hdirectory)] at hopen
      obtain ⟨s₁, hfails, rfl, _⟩ := open_full hfull hopen
      exact ⟨_, s₁, hfails, fun huntouched => hnodes huntouched.1⟩
  · rcases hspoils with ⟨hcreate, _⟩ | ⟨hfull, htruncates, node, hfinds, hdata⟩
    · exact absurd hcreate hcreates
    · obtain ⟨fs, hopen⟩ :=
        (FileSystem.open_file_iff h hcreates hfinds.portions hfinds.regular).mpr hfinds
      have hnodes := FileSystem.open_nodes h hcreates hopen
      obtain ⟨s₁, hfails, rfl, htruncated⟩ := open_full hfull hopen
      have hregular : s₁.fs.nodes node = .regular := by rw [hnodes, hfinds.regular]
      rw [Truncated, if_pos ⟨hfinds.portions, htruncates, hregular⟩] at htruncated
      obtain ⟨file, hempty, hupdate⟩ := htruncated
      refine ⟨_, s₁, hfails, fun huntouched => hdata ?_⟩
      rw [← huntouched.2, hupdate, Function.update_self, hempty]

/-- A call that fails without spoiling anything did not come to create the file. -/
theorem not_creates (h : s.fs.Lodged kinds caller) (hkeeps : ¬ s.Spoils caller task name flags)
    {e : Errno} (hfails : s.open caller task name flags = some (.error e, after)) :
    ¬ s.fs.Creates caller (Path.ofName name) (.ofWord flags) := by
  intro hcreates
  obtain ⟨fs, hopen, _⟩ := FileSystem.open_created h hcreates
  have hdirectory : ¬ flags &&& O_DIRECTORY ≠ 0#32 :=
    fun hdir => hkeeps (.inl ⟨hcreates, .inl hdir⟩)
  rw [if_neg (mt FileSystem.OpenFlags.ofWord_directory.mp hdirectory)] at hopen
  obtain ⟨fd, s₁, hok⟩ := open_free (fun hfull => hkeeps (.inl ⟨hcreates, .inr hfull⟩)) hopen
  cases hok.symm.trans hfails

/-- A call that fails for want of a slot has truncated nothing but an empty file. -/
theorem data_of_full (h : s.fs.Lodged kinds caller) (hkeeps : ¬ s.Spoils caller task name flags)
    (hcreates : ¬ s.fs.Creates caller (Path.ofName name) (.ofWord flags))
    (hfull : s.files.Full task) {fs : FileSystem} {node : VNodeId}
    (hopen : s.fs.open caller name (.ofWord flags) = some (.ok node, fs)) (hfs : after.fs = fs)
    (htruncated : s.Truncated after name flags node) : after.data = s.data := by
  unfold Truncated at htruncated
  split at htruncated
  · rename_i htruncates
    obtain ⟨hportions, hflags, hregular⟩ := htruncates
    rw [hfs, FileSystem.open_nodes h hcreates hopen] at hregular
    have hfinds := (FileSystem.open_file_iff h hcreates hportions hregular).mp ⟨fs, hopen⟩
    obtain ⟨file, hempty, hupdate⟩ := htruncated
    have hdata : (s.data node).data = [] := by
      by_contra hdata
      exact hkeeps (.inr ⟨hfull, hflags, node, hfinds, hdata⟩)
    have hsame : file = s.data node := by
      rw [RamFSFile.mk.injEq, hempty, hdata]
    rw [hupdate, hsame, Function.update_eq_self]
  · exact htruncated

/-- The call leaves everything alone when it fails, exactly if it does not spoil. -/
theorem untouched_iff (h : s.fs.Lodged kinds caller) :
    (∀ e after, s.open caller task name flags = some (.error e, after) → s.Untouched after) ↔
      ¬ s.Spoils caller task name flags := by
  constructor
  · intro hall hspoils
    obtain ⟨e, after, hfails, htouched⟩ := hspoils.touches h
    exact htouched (hall e after hfails)
  · intro hkeeps e after hfails
    have hcreates := not_creates h hkeeps hfails
    cases hopen : s.fs.open caller name (.ofWord flags) with
    | none => simp [OpenState.open, openFile, hopen] at hfails
    | some result =>
        obtain ⟨found, fs⟩ := result
        have hnodes := FileSystem.open_nodes h hcreates hopen
        cases found with
        | error e' =>
            obtain ⟨_, rfl⟩ := Prod.mk.inj (Option.some.inj ((open_error hopen).symm.trans hfails))
            exact ⟨hnodes, rfl⟩
        | ok node =>
            by_cases hfull : s.files.Full task
            · obtain ⟨s₁, hfails', rfl, htruncated⟩ := open_full hfull hopen
              obtain ⟨_, rfl⟩ := Prod.mk.inj (Option.some.inj (hfails'.symm.trans hfails))
              exact ⟨hnodes, data_of_full h hkeeps hcreates hfull hopen rfl htruncated⟩
            · obtain ⟨fd, s₁, hok⟩ := open_free hfull hopen
              cases hok.symm.trans hfails

/-- In every state of every run, over any directory tree, whatever the files and the
descriptor tables hold: a call of `open` that fails leaves all of it alone, exactly if it
does not create a file and then fail, and does not truncate one without a free slot. -/
theorem run_open_untouched_iff {nodes : VNodeId → VNode} {nextNode rootNode : VNodeId}
    (htree : (Vfs.load nodes nextNode rootNode).fs.DirectoriesOk) {requests : List Vfs.Request}
    {vfs : Vfs} (hrun : Run Vfs.step anyStep (Vfs.load nodes nextNode rootNode) requests vfs)
    (request : Vfs.Request) (data : VNodeId → RamFSFile) (files : Descriptors) (name : Name)
    (flags : BitVec 32) :
    (∀ e after, OpenState.open ⟨vfs.fs, data, files⟩ (vfs.caller request) request.task name flags =
        some (.error e, after) → Untouched ⟨vfs.fs, data, files⟩ after) ↔
      ¬ Spoils ⟨vfs.fs, data, files⟩ (vfs.caller request) request.task name flags :=
  untouched_iff ((Vfs.run_kinded htree hrun).lodged request)

/-- One file of one byte, and a table that is full or not. -/
def oneByteFile (slot : Option FdId) : OpenState where
  fs := (Vfs.load Vfs.oneFile 2 0).fs
  data _ := ⟨[7#8], by decide⟩
  files := { Descriptors.boot (fun _ => PipeState.new (List.Vector.replicate _ 0#8)) with
    slots := fun _ => slot }

def kernelCaller : FileSystem.Caller := ⟨none, .error Errno.ENXIO⟩

/-- A file that is not there is opened for reading, with free slots. -/
theorem run_open_untouched_missing :
    (Vfs.load Vfs.oneFile 2 0).fs.DirectoriesOk ∧
      ∀ e after, (oneByteFile none).open kernelCaller 0 ['/', 'b'] O_RDONLY =
        some (.error e, after) → (oneByteFile none).Untouched after := by
  refine ⟨Vfs.oneFile_directoriesOk, ?_⟩
  refine (run_open_untouched_iff Vfs.oneFile_directoriesOk (Run.nil _)
    ⟨0, .error Errno.ENXIO, .fork 1⟩ _ _ ['/', 'b'] O_RDONLY).mpr ?_
  rintro (⟨hcreates, _⟩ | ⟨hfull, _⟩)
  · exact absurd hcreates.create (by decide)
  · exact hfull 0 rfl

/-- A file is created and then found to be no directory, created without a slot for it,
and truncated without one. -/
theorem open_fails_after_change :
    (∃ after, (oneByteFile none).open kernelCaller 0 ['/', 'b'] (O_CREAT ||| O_DIRECTORY) =
        some (.error .ENOTDIR, after) ∧ after.fs.nodes 0 ≠ (oneByteFile none).fs.nodes 0) ∧
    (∃ after, (oneByteFile (some 0)).open kernelCaller 0 ['/', 'b'] O_CREAT =
        some (.error .EMFILE, after) ∧ after.fs.nodes 0 ≠ (oneByteFile (some 0)).fs.nodes 0) ∧
    ∃ after, (oneByteFile (some 0)).open kernelCaller 0 ['/', 'a'] (O_WRONLY ||| O_TRUNC) =
      some (.error .EMFILE, after) ∧ (after.data 1).data = [] := by
  refine ⟨⟨_, rfl, ?_⟩, ⟨_, rfl, ?_⟩, _, rfl, ?_⟩
  · decide
  · decide
  · decide

end OpenState

end Nyan.Fs
