import Mathlib.Data.List.Induction
import Nyan.Logger.Parser
import Nyan.Logger.Record

/-!
The log codec. The reader gives back every record that the kernel wrote, in order,
however the bytes are cut into chunks: after each chunk it has yielded exactly the
records whose last byte has arrived.
-/

namespace Nyan.Logger

open Library

variable {τ : Type} {toText : List Byte → τ} {buffer rest : List Byte} {offset ptr : Nat}

/-- The fields of a header as the reader's numbers. -/
def Payload.toHeader (p : Payload) : Header where
  payload := ⟨p.ts.toNat, p.eip.toNat, p.pid.toInt, p.pgid.toInt, p.len.toNat⟩
  type := p.type.code.toNat
  typeExt := p.ext.toNat

/-- The entry with the fields of a record. The text is given to `toText` as it was
emitted. -/
def Record.entry (toText : List Byte → τ) (r : Record) : Entry τ :=
  let payload := r.header.toHeader.payload
  match r.call with
  | .log _ level text => .log payload level.code.toNat (toText text)
  | .syscall _ role c => .syscall payload role.code.toNat c.ret.toNat c.id.toNat
      [c.ebx.toNat, c.ecx.toNat, c.edx.toNat, c.esi.toNat, c.edi.toNat, c.ebp.toNat]
  | .exception _ c => .exception payload c.num.toNat c.errcode.toNat c.cs.toNat c.eip.toNat
      c.cr2.toNat
  | .fatal _ => .fatal payload

theorem drop_field {field : List Byte} (h : buffer.drop offset = field ++ rest) :
    buffer.drop (offset + field.length) = rest := by
  rw [← List.drop_drop, h, List.drop_left]

theorem readUint_field {field : List Byte} (hpos : 0 < field.length)
    (h : buffer.drop offset = field ++ rest) :
    readUint field.length buffer offset = some (valueOf field) := by
  have hlen := congrArg List.length h
  simp only [List.length_drop, List.length_append] at hlen
  rw [readUint, if_pos (by omega), h, List.take_left]

theorem readUint_toBytes {w n : Nat} {v : BitVec w} (hpos : 0 < n) (hfits : w ≤ 8 * n)
    (h : buffer.drop offset = toBytes n v ++ rest) : readUint n buffer offset = some v.toNat := by
  have hread := readUint_field (by simpa using hpos) h
  rw [length_toBytes] at hread
  rw [hread, valueOf_toBytes, Nat.mod_eq_of_lt]
  calc v.toNat < 2 ^ w := v.isLt
    _ ≤ 2 ^ (8 * n) := Nat.pow_le_pow_right (by decide) hfits
    _ = 256 ^ n := pow_mul 2 8 n

/-- One of several consecutive words. -/
theorem readUint_word {words : List (BitVec 32)} {i : Nat} {w : BitVec 32}
    (hword : words[i]? = some w) (h : buffer.drop offset = encodeWords words ++ rest) :
    readUint 4 buffer (offset + 4 * i) = some w.toNat := by
  induction words generalizing offset i with
  | nil => simp at hword
  | cons word others ih =>
      have hfirst : buffer.drop offset = toBytes 4 word ++ (encodeWords others ++ rest) := by
        rw [h, encodeWords, List.flatMap_cons, List.append_assoc, ← encodeWords]
      cases i with
      | zero =>
          obtain rfl : word = w := by simpa using hword
          exact readUint_toBytes (by decide) (by decide) hfirst
      | succ i =>
          have hdrop := drop_field hfirst
          rw [length_toBytes] at hdrop
          have hread := ih (by simpa using hword) hdrop
          rwa [show offset + 4 + 4 * i = offset + 4 * (i + 1) by omega] at hread

theorem readUint_byte {b : Byte} (h : buffer.drop offset = b :: rest) :
    readUint 1 buffer offset = some b.toNat := by
  have hfield : buffer.drop offset = [b] ++ rest := h
  simpa [valueOf] using readUint_field (by simp) hfield

/-- A header is read as it was written. -/
theorem readHeader_encode {p : Payload} (h : buffer.drop ptr = p.encode ++ rest) :
    readHeader buffer ptr = some p.toHeader := by
  have hwords : buffer.drop ptr = encodeWords [p.ts, p.eip, p.pid, p.pgid] ++
      (toBytes 2 p.len ++ (p.type.code :: p.ext :: rest)) := by
    simp [h, Payload.encode]
  have hlen : buffer.drop (ptr + 16) = toBytes 2 p.len ++ (p.type.code :: p.ext :: rest) := by
    simpa using drop_field hwords
  have htype : buffer.drop (ptr + 18) = p.type.code :: (p.ext :: rest) := by
    simpa using drop_field hlen
  have hext : buffer.drop (ptr + 19) = p.ext :: rest := by
    have hfield : buffer.drop (ptr + 18) = [p.type.code] ++ (p.ext :: rest) := htype
    simpa using drop_field hfield
  have hword : ∀ i w, [p.ts, p.eip, p.pid, p.pgid][i]? = some w →
      readUint 4 buffer (ptr + 4 * i) = some w.toNat := fun i w hi => readUint_word hi hwords
  have hts := hword 0 p.ts rfl
  have heip := hword 1 p.eip rfl
  have hpid := hword 2 p.pid rfl
  have hpgid := hword 3 p.pgid rfl
  simp only [Nat.mul_zero, Nat.add_zero, Nat.reduceMul] at hts heip hpid hpgid
  have hreadLen : readUint 2 buffer (ptr + 16) = some p.len.toNat :=
    readUint_toBytes (by decide) (by decide) hlen
  simp [readHeader, readInt32LE, hts, heip, hpid, hpgid, hreadLen, readUint_byte htype,
    readUint_byte hext, Payload.toHeader]

theorem contents_word (words : List (BitVec 32)) (i : Nat) (w : BitVec 32)
    (hword : words[i]? = some w) : readUint 4 (encodeWords words) (4 * i) = some w.toNat := by
  have hbytes : (encodeWords words).drop 0 = encodeWords words ++ [] := by simp
  simpa using readUint_word hword hbytes

/-- The content behind a header is read as it was written. -/
theorem readEntry_content (r : Record) :
    readEntry toText r.header.toHeader r.content = some (some (r.entry toText)) := by
  obtain ⟨kernel, call⟩ := r
  cases call with
  | log eip level text => rfl
  | syscall eip role c =>
      have hword := contents_word [c.ret, c.id, c.ebx, c.ecx, c.edx, c.esi, c.edi, c.ebp]
      have htype : Header.type (Record.header ⟨kernel, .syscall eip role c⟩).toHeader = 1 := rfl
      simp only [readEntry, htype, Record.content, SyscallContent.encode]
      simp [hword 0 _ rfl, hword 1 _ rfl, hword 2 _ rfl, hword 3 _ rfl, hword 4 _ rfl,
        hword 5 _ rfl, hword 6 _ rfl, hword 7 _ rfl]
      rfl
  | exception eip c =>
      have hword := contents_word [c.num, c.errcode, c.cs, c.eip, c.cr2]
      have htype : Header.type (Record.header ⟨kernel, .exception eip c⟩).toHeader = 2 := rfl
      simp only [readEntry, htype, Record.content, ExceptionContent.encode]
      simp [hword 0 _ rfl, hword 1 _ rfl, hword 2 _ rfl, hword 3 _ rfl, hword 4 _ rfl]
      rfl
  | fatal eip => rfl

theorem length_of_drop {bytes : List Byte} (hptr : ptr ≤ buffer.length)
    (h : buffer.drop ptr = bytes) : buffer.length = ptr + bytes.length := by
  have hlen := congrArg List.length h
  rw [List.length_drop] at hlen
  omega

/-- Too few bytes for a header. -/
theorem run_short_header (h : (buffer.drop ptr).length < 20) :
    run toText buffer ptr none = (.null, ⟨buffer.drop ptr, 0, .inHeader⟩) := by
  rw [List.length_drop] at h
  rw [run, if_pos (by omega), waitForData]

/-- Too few bytes for the content. -/
theorem run_short_content {r : Record} (hptr : ptr ≤ buffer.length)
    (h : (buffer.drop ptr).length < r.content.length) :
    run toText buffer ptr (some r.header.toHeader) =
      (.null, ⟨buffer.drop ptr, 0, .inContent r.header.toHeader⟩) := by
  have hcontent : r.header.toHeader.payload.len = r.content.length := r.length_content.symm
  rw [List.length_drop] at h
  rw [run, if_pos (by omega), waitForData]

theorem run_header {p : Payload} (hptr : ptr ≤ buffer.length)
    (h : buffer.drop ptr = p.encode ++ rest) :
    run toText buffer ptr none = run toText buffer (ptr + 20) (some p.toHeader) := by
  have hlen := length_of_drop hptr h
  rw [List.length_append, Payload.length_encode] at hlen
  rw [run, if_neg (by omega), readHeader_encode h]

theorem run_content {r : Record} (hptr : ptr ≤ buffer.length)
    (h : buffer.drop ptr = r.content ++ rest) :
    run toText buffer ptr (some r.header.toHeader) =
      (.entry (r.entry toText), ⟨buffer, ptr + r.content.length, .afterEntry⟩) := by
  have hlen := length_of_drop hptr h
  have hcontent : r.header.toHeader.payload.len = r.content.length := r.length_content.symm
  rw [List.length_append] at hlen
  rw [run, if_neg (by omega), hcontent, h, List.take_left]
  dsimp only
  rw [readEntry_content]

/-- A record that has arrived. -/
theorem run_record {r : Record} (hptr : ptr ≤ buffer.length)
    (h : buffer.drop ptr = r.emit ++ rest) :
    run toText buffer ptr none =
      (.entry (r.entry toText), ⟨buffer, ptr + r.emit.length, .afterEntry⟩) := by
  rw [r.emit_eq, List.append_assoc] at h
  have hlen := length_of_drop hptr h
  have hdrop := drop_field h
  rw [List.length_append, Payload.length_encode] at hlen
  rw [Payload.length_encode] at hdrop
  rw [run_header hptr h, run_content (by omega) hdrop, r.length_emit, r.length_content,
    Nat.add_assoc]

theorem drain_entry {g g' : Generator} {data : Option (List Byte)} {entry : Entry τ}
    (h : g.next toText data = (.entry entry, g')) :
    drain toText g data = (entry :: (drain toText g' none).1, (drain toText g' none).2) := by
  rw [drain]
  split
  · rename_i hnext
    rw [h] at hnext
    cases hnext
    rfl
  · rename_i hother hnext
    rw [h] at hnext
    cases hnext
    exact absurd rfl (hother _)

theorem drain_null {g g' : Generator} {data : Option (List Byte)}
    (h : g.next toText data = (.null, g')) : drain toText g data = ([], g') := by
  rw [drain]
  split
  · rename_i hnext
    rw [h] at hnext
    cases hnext
  · rename_i hnext
    rw [h] at hnext
    cases hnext
    rfl

/-- The generator waits for the first of the records, of which the bytes `pending`
have arrived. -/
inductive Expects : Generator → List Record → List Byte → Prop where
  | header {records : List Record} {pending : List Byte} (short : pending.length < 20) :
      Expects ⟨pending, 0, .inHeader⟩ records pending
  | content {r : Record} {records : List Record} {pending : List Byte}
      (short : pending.length < r.content.length) :
      Expects ⟨pending, 0, .inContent r.header.toHeader⟩ (r :: records)
        (r.header.encode ++ pending)

theorem Expects.short {g : Generator} {r : Record} {records : List Record} {pending : List Byte}
    (h : Expects g (r :: records) pending) : pending.length < r.emit.length := by
  rw [r.length_emit]
  cases h with
  | header hshort => omega
  | content hshort =>
      rw [List.length_append, Payload.length_encode, ← r.length_content]
      omega

/-- The generator has consumed the records that have arrived completely. -/
structure Caught (toText : List Byte → τ) (records : List Record) (bytes : List Byte)
    (result : List (Entry τ) × Generator) : Prop where
  split : ∃ done rest pending, records = done ++ rest ∧ bytes = stream done ++ pending ∧
    result.1 = done.map (Record.entry toText) ∧ Expects result.2 rest pending

theorem stream_cons (r : Record) (records : List Record) :
    stream (r :: records) = r.emit ++ stream records :=
  List.flatMap_cons

theorem stream_append (records others : List Record) :
    stream (records ++ others) = stream records ++ stream others :=
  List.flatMap_append

theorem Caught.waiting {records : List Record} {bytes : List Byte} {g : Generator}
    (h : Expects g records bytes) : Caught toText records bytes ([], g) :=
  ⟨[], records, bytes, rfl, rfl, rfl, h⟩

theorem Caught.cons {r : Record} {records : List Record} {bytes : List Byte}
    {result : List (Entry τ) × Generator} (h : Caught toText records bytes result) :
    Caught toText (r :: records) (r.emit ++ bytes) (r.entry toText :: result.1, result.2) := by
  obtain ⟨done, rest, pending, rfl, rfl, hentries, hexpects⟩ := h.split
  refine ⟨r :: done, rest, pending, rfl, ?_, ?_, hexpects⟩
  · rw [stream_cons, List.append_assoc]
  · rw [hentries, List.map_cons]

theorem prefix_split {first others bytes : List Byte} (h : bytes <+: first ++ others)
    (hlen : first.length ≤ bytes.length) : ∃ more, bytes = first ++ more ∧ more <+: others := by
  obtain ⟨more, rfl⟩ := List.prefix_of_prefix_length_le (List.prefix_append first others) h hlen
  exact ⟨more, rfl, (List.prefix_append_right_inj first).mp h⟩

/-- From the top of its loop the generator catches up with what has arrived. The
induction is on the records. -/
theorem drain_caught (records : List Record) {g : Generator} {data : Option (List Byte)}
    (hnext : g.next toText data = run toText buffer ptr none) (hptr : ptr ≤ buffer.length)
    (harrived : buffer.drop ptr <+: stream records) :
    Caught toText records (buffer.drop ptr) (drain toText g data) := by
  induction records generalizing g data ptr with
  | nil =>
      have hnil : buffer.drop ptr = [] := List.prefix_nil.mp harrived
      rw [run_short_header (by simp [hnil])] at hnext
      rw [drain_null hnext]
      exact .waiting (.header (by simp [hnil]))
  | cons r records ih =>
      rw [stream_cons] at harrived
      by_cases hcomplete : r.emit.length ≤ (buffer.drop ptr).length
      · obtain ⟨more, hmore, hbegin⟩ := prefix_split harrived hcomplete
        have hlen := length_of_drop hptr hmore
        have hdrop := drop_field hmore
        rw [run_record hptr hmore] at hnext
        rw [drain_entry hnext, hmore, ← hdrop]
        rw [List.length_append] at hlen
        exact (ih rfl (by omega) (hdrop ▸ hbegin)).cons
      · by_cases hheader : (buffer.drop ptr).length < 20
        · rw [run_short_header hheader] at hnext
          rw [drain_null hnext]
          exact .waiting (.header hheader)
        · rw [r.emit_eq, List.append_assoc] at harrived
          obtain ⟨more, hmore, hbegin⟩ := prefix_split harrived (by simpa using hheader)
          have hdrop := drop_field hmore
          have hlen := length_of_drop hptr hmore
          rw [List.length_append, Payload.length_encode] at hlen
          rw [Payload.length_encode] at hdrop
          have hshort : more.length < r.content.length := by
            rw [hmore, List.length_append, Payload.length_encode, r.length_emit,
              ← r.length_content] at hcomplete
            omega
          rw [run_header hptr hmore, run_short_content (by omega) (hdrop ▸ hshort)] at hnext
          rw [drain_null hnext, hdrop, hmore]
          exact .waiting (.content hshort)

/-- A chunk that continues what has arrived. -/
theorem Expects.drain {g : Generator} {records : List Record} {pending chunk : List Byte}
    (h : Expects g records pending) (harrived : pending ++ chunk <+: stream records) :
    Caught toText records (pending ++ chunk) (drain toText g (some chunk)) := by
  cases h with
  | header hshort => exact drain_caught records rfl (Nat.zero_le _) harrived
  | @content r records buffer hshort =>
      have hnext : Generator.next toText ⟨buffer, 0, .inContent r.header.toHeader⟩ (some chunk) =
          run toText (buffer ++ chunk) 0 (some r.header.toHeader) := rfl
      rw [stream_cons, r.emit_eq, List.append_assoc, List.append_assoc,
        List.prefix_append_right_inj] at harrived
      rw [List.append_assoc]
      by_cases hcomplete : r.content.length ≤ (buffer ++ chunk).length
      · obtain ⟨more, hmore, hbegin⟩ := prefix_split harrived hcomplete
        have hdrop : (buffer ++ chunk).drop r.content.length = more := by
          rw [hmore, List.drop_left]
        rw [run_content (Nat.zero_le _) hmore, Nat.zero_add] at hnext
        rw [drain_entry hnext, hmore, ← List.append_assoc, ← r.emit_eq, ← hmore, ← hdrop]
        exact (drain_caught records rfl hcomplete (hdrop ▸ hbegin)).cons
      · rw [Nat.not_le] at hcomplete
        rw [run_short_content (Nat.zero_le _) hcomplete] at hnext
        rw [drain_null hnext]
        exact .waiting (.content hcomplete)

/-- One more chunk, after some were fed. -/
theorem Caught.feed {records : List Record} {bytes chunk : List Byte}
    {result : List (Entry τ) × Generator} (h : Caught toText records bytes result)
    (harrived : bytes ++ chunk <+: stream records) :
    Caught toText records (bytes ++ chunk)
      (result.1 ++ (drain toText result.2 (some chunk)).1,
        (drain toText result.2 (some chunk)).2) := by
  obtain ⟨done, rest, pending, rfl, rfl, hentries, hexpects⟩ := h.split
  rw [stream_append, List.append_assoc, List.prefix_append_right_inj] at harrived
  have hcaught : Caught toText rest (pending ++ chunk) _ := hexpects.drain harrived
  obtain ⟨done', rest', pending', rfl, hbytes, hentries', hexpects'⟩ := hcaught.split
  refine ⟨done ++ done', rest', pending', by simp, ?_, ?_, hexpects'⟩
  · rw [List.append_assoc, hbytes, stream_append, List.append_assoc]
  · rw [hentries, hentries', List.map_append]

/-- After any chunks of the stream the generator has caught up. -/
theorem feed_caught (records : List Record) (initial : List Byte) (chunks : List (List Byte))
    (harrived : initial ++ chunks.flatten <+: stream records) :
    Caught toText records (initial ++ chunks.flatten) (feed toText initial chunks) := by
  induction chunks using List.reverseRecOn with
  | nil =>
      rw [List.flatten_nil, List.append_nil] at harrived ⊢
      exact drain_caught records rfl (Nat.zero_le _) harrived
  | append_singleton chunks chunk ih =>
      rw [List.flatten_concat, ← List.append_assoc] at harrived ⊢
      have hfeed := (ih ((List.prefix_append _ _).trans harrived)).feed harrived
      rwa [feed, List.foldl_append]

theorem length_stream_take_le (records : List Record) (n : Nat) :
    (stream (records.take n)).length ≤ (stream records).length := by
  rw [← List.take_append_drop n records, stream_append, List.length_append,
    List.take_append_drop]
  exact Nat.le_add_right _ _

/-- A record is yielded exactly if its last byte has arrived. -/
theorem Caught.yielded_iff {records : List Record} {bytes : List Byte}
    {result : List (Entry τ) × Generator} (h : Caught toText records bytes result) {j : Nat}
    (hj : j < records.length) :
    j < result.1.length ↔ (stream (records.take (j + 1))).length ≤ bytes.length := by
  obtain ⟨done, rest, pending, rfl, rfl, hentries, hexpects⟩ := h.split
  rw [hentries, List.length_map, List.length_append]
  constructor
  · intro hdone
    have hle := length_stream_take_le done (j + 1)
    rw [List.take_append_of_le_length (Nat.succ_le_of_lt hdone)]
    exact hle.trans (Nat.le_add_right _ _)
  · intro hbytes
    by_contra hrest
    cases rest with
    | nil => simp at hj; omega
    | cons r rest =>
        have htake : (stream (done ++ [r])).length ≤
            (stream ((done ++ r :: rest).take (j + 1))).length := by
          have hfirst : done ++ [r] = ((done ++ r :: rest).take (j + 1)).take (done.length + 1) := by
            rw [List.take_take, Nat.min_eq_left (by omega), List.take_append,
              List.take_of_length_le (Nat.le_succ _)]
            simp
          rw [hfirst]
          exact length_stream_take_le _ _
        have hshort := hexpects.short
        rw [stream_append, List.length_append, stream_cons] at htake
        simp only [stream, List.flatMap_nil, List.append_nil] at htake hbytes
        omega

theorem Caught.in_order {records : List Record} {bytes : List Byte}
    {result : List (Entry τ) × Generator} (h : Caught toText records bytes result) :
    result.1 <+: records.map (Record.entry toText) := by
  obtain ⟨done, rest, pending, rfl, _, hentries, _⟩ := h.split
  rw [hentries, List.map_append]
  exact List.prefix_append _ _

/-- When all bytes have arrived, all records are out. -/
theorem Caught.complete {records : List Record} {result : List (Entry τ) × Generator}
    (h : Caught toText records (stream records) result) :
    result.1 = records.map (Record.entry toText) := by
  refine h.in_order.eq_of_length_le ?_
  rw [List.length_map]
  by_contra hless
  have hmissing := (h.yielded_iff (Nat.lt_of_not_le hless)).not.mp (Nat.lt_irrefl _)
  exact hmissing (length_stream_take_le records _)

/-- The log goes through the reader unchanged, for every sequence of records and
every way its bytes are cut, with any bytes in the buffer that the reader starts on.
All records come out, in order and with their fields; after any number of chunks
exactly those have come out whose last byte has arrived. -/
theorem feed_stream (toText : List Byte → τ) (records : List Record) (initial : List Byte)
    (chunks : List (List Byte)) (hcut : initial ++ chunks.flatten = stream records) :
    (feed toText initial chunks).1 = records.map (Record.entry toText) ∧
    ∀ k, (feed toText initial (chunks.take k)).1 <+: records.map (Record.entry toText) ∧
      ∀ j, j < records.length → (j < (feed toText initial (chunks.take k)).1.length ↔
        (stream (records.take (j + 1))).length ≤
          (initial ++ (chunks.take k).flatten).length) := by
  constructor
  · have hcaught : Caught toText records _ _ :=
      feed_caught records initial chunks (hcut ▸ List.prefix_refl _)
    rw [hcut] at hcaught
    exact hcaught.complete
  · intro k
    have hbegin : initial ++ (chunks.take k).flatten <+: stream records := by
      rw [← hcut, ← List.take_append_drop k chunks, List.flatten_append, List.take_append_drop,
        ← List.append_assoc]
      exact List.prefix_append _ _
    have hcaught : Caught toText records _ _ := feed_caught records initial (chunks.take k) hbegin
    exact ⟨hcaught.in_order, fun j hj => hcaught.yielded_iff hj⟩

/-- A warning and a fatal record, cut inside the header, inside the text and at an
empty chunk. -/
theorem feed_stream_two_records :
    ∃ records chunks, records.length = 2 ∧ chunks.length = 4 ∧
      ([] : List Byte) ++ chunks.flatten = stream records ∧
      (feed id [] chunks).1 = records.map (Record.entry id) := by
  let kernel : Kernel := ⟨1234, some (7, 5)⟩
  let records : List Record :=
    [⟨kernel, .log 0xC0100000 .warn ⟨[0x6F, 0x6B], by decide⟩⟩, ⟨kernel, .fatal 0⟩]
  let chunks : List (List Byte) := [(stream records).take 7, [], ((stream records).drop 7).take 14,
    (stream records).drop 21]
  have hcut : ([] : List Byte) ++ chunks.flatten = stream records := by decide +kernel
  exact ⟨records, chunks, rfl, rfl, hcut, (feed_stream id records [] chunks hcut).1⟩

end Nyan.Logger
