import Kevo.Wal.Batch

/-! The log read back. The WAL's reader is not among the sources, so it is modelled from the
spec: `readRecord` takes one physical record off the front of a segment and checks its CRC,
`readRecords` reads records until the first torn or corrupt one, `assemble` joins a First record,
its Middles and its Last into one payload, and `readEntries` decodes the payloads. Every record
the WAL writes reads back whatever follows it (`readRecords_frames`), the records of one entry
join into its payload (`assemble_entryRecords`), and so the log of any run of append calls in which
no failing call wrote reads back as exactly the entries of the successful calls, in call order,
each batch's entries under the batch's sequence number (`readEntries_written`). -/

namespace Kevo.Wal

/-- Modelled from the spec: one physical record off the front of `bs`, its type and payload and
the bytes after it, when a whole header and payload are there and the CRC matches. -/
def readRecord (bs : Bytes) : Option ((UInt8 × Bytes) × Bytes) :=
  if headerSize ≤ bs.length then
    let header := headerFields (bs.take headerSize)
    let body := bs.drop headerSize
    if header.2.1 ≤ body.length ∧ header.1 = (checksumIEEE (body.take header.2.1)).toNat then
      some ((header.2.2, body.take header.2.1), body.drop header.2.1)
    else none
  else none

theorem readRecord_length {bs rest : Bytes} {r : UInt8 × Bytes}
    (h : readRecord bs = some (r, rest)) : rest.length < bs.length := by
  simp only [readRecord] at h
  split_ifs at h with h1
  cases h
  simp only [List.length_drop, headerSize] at h1 ⊢
  omega

/-- The records of `bs`, up to the first torn or corrupt one, in at most `fuel` reads. -/
def readRecordsFuel : Nat → Bytes → List (UInt8 × Bytes)
  | 0, _ => []
  | fuel + 1, bs =>
    match readRecord bs with
    | none => []
    | some (r, rest) => r :: readRecordsFuel fuel rest

/-- Modelled from the spec: the physical records of a segment, up to the first torn or corrupt
one, which ends the segment. A record takes at least its header's bytes, so as many reads as the
segment has bytes read them all (`readRecordsFuel_eq`). -/
def readRecords (bs : Bytes) : List (UInt8 × Bytes) := readRecordsFuel bs.length bs

theorem readRecordsFuel_nil (fuel : Nat) : readRecordsFuel fuel [] = [] := by
  cases fuel <;> rfl

/-- More reads than the bytes of a segment read nothing more. -/
theorem readRecordsFuel_eq : ∀ (n m : Nat) (bs : Bytes), bs.length ≤ n → bs.length ≤ m →
    readRecordsFuel n bs = readRecordsFuel m bs
  | 0, m, bs, hn, _ => by
    rw [List.eq_nil_of_length_eq_zero (Nat.le_zero.mp hn), readRecordsFuel_nil, readRecordsFuel_nil]
  | n + 1, 0, bs, _, hm => by
    rw [List.eq_nil_of_length_eq_zero (Nat.le_zero.mp hm), readRecordsFuel_nil, readRecordsFuel_nil]
  | n + 1, m + 1, bs, hn, hm => by
    simp only [readRecordsFuel]
    rcases h : readRecord bs with _ | ⟨r, rest⟩
    · rfl
    · have hlt := readRecord_length h
      dsimp only
      rw [readRecordsFuel_eq n m rest (by omega) (by omega)]

theorem readRecords_of_none {bs : Bytes} (h : readRecord bs = none) : readRecords bs = [] := by
  unfold readRecords
  cases hlen : bs.length with
  | zero => rfl
  | succ n => simp only [readRecordsFuel, h]

@[simp] theorem readRecords_nil : readRecords [] = [] := rfl

theorem readRecords_of_some {bs rest : Bytes} {r : UInt8 × Bytes}
    (h : readRecord bs = some (r, rest)) : readRecords bs = r :: readRecords rest := by
  have hlt := readRecord_length h
  unfold readRecords
  obtain ⟨n, hn⟩ : ∃ n, bs.length = n + 1 := ⟨bs.length - 1, by omega⟩
  rw [hn, readRecordsFuel, h]
  simp only [readRecordsFuel_eq n rest.length rest (by omega) le_rfl]

/-- A record that the WAL writes reads back, whatever follows it. -/
theorem readRecord_frame (r : UInt8 × Bytes) (h : r.2.length < 2 ^ 16) (tail : Bytes) :
    readRecord (frame r ++ tail) = some (r, tail) := by
  have hlen := recordHeader_length r.1 r.2
  have htake : (frame r ++ tail).take headerSize = recordHeader r.1 r.2 := by
    rw [frame, List.append_assoc, ← hlen, List.take_left]
  have hdrop : (frame r ++ tail).drop headerSize = r.2 ++ tail := by
    rw [frame, List.append_assoc, ← hlen, List.drop_left]
  have hsize : headerSize ≤ (frame r ++ tail).length := by
    simp only [frame, List.length_append, hlen]; omega
  rw [readRecord, if_pos hsize]
  simp only [htake, hdrop, headerFields_recordHeader r.1 r.2 h, List.take_left, List.drop_left,
    List.length_append]
  rw [if_pos ⟨by omega, trivial⟩]

/-- The records that the WAL writes read back one by one, whatever follows them. -/
theorem readRecords_frames (recs : List (UInt8 × Bytes)) (h : ∀ r ∈ recs, r.2.length < 2 ^ 16)
    (tail : Bytes) : readRecords ((recs.map frame).flatten ++ tail) = recs ++ readRecords tail := by
  induction recs with
  | nil => rfl
  | cons r rest ih =>
    rw [List.map_cons, List.flatten_cons, List.append_assoc,
      readRecords_of_some (readRecord_frame r (h r (List.mem_cons_self _ _)) _),
      ih fun r hr => h r (List.mem_cons_of_mem _ hr), List.cons_append]

/-- A record cut short does not read back: its header is missing bytes, or its header asks for
more payload than is left. -/
theorem readRecord_take_frame (r : UInt8 × Bytes) (h : r.2.length < 2 ^ 16) {n : Nat}
    (hn : n < (frame r).length) : readRecord ((frame r).take n) = none := by
  have hlen := recordHeader_length r.1 r.2
  have hflen : (frame r).length = headerSize + r.2.length := by simp [frame, hlen]
  rw [readRecord]
  by_cases h1 : headerSize ≤ ((frame r).take n).length
  · have hn' : headerSize ≤ n := by simp only [List.length_take] at h1; omega
    have hhead : ((frame r).take n).take headerSize = recordHeader r.1 r.2 := by
      rw [List.take_take, min_eq_left hn', frame, ← hlen, List.take_left]
    dsimp only
    rw [if_pos h1, hhead, headerFields_recordHeader r.1 r.2 h, if_neg]
    simp only [List.length_drop, List.length_take]
    omega
  · rw [if_neg h1]

/-- A cut of the records that the WAL writes reads as a prefix of them: a torn last record is not
read. -/
theorem readRecords_take_frames (recs : List (UInt8 × Bytes)) (h : ∀ r ∈ recs, r.2.length < 2 ^ 16)
    (n : Nat) : readRecords (((recs.map frame).flatten).take n) <+: recs := by
  induction recs generalizing n with
  | nil => simp
  | cons r rest ih =>
    have hr := h r (List.mem_cons_self _ _)
    rw [List.map_cons, List.flatten_cons]
    by_cases hn : (frame r).length ≤ n
    · rw [List.take_append_eq_append_take, List.take_of_length_le hn,
        readRecords_of_some (readRecord_frame r hr _)]
      exact (List.prefix_cons_inj r).mpr (ih (fun r hr => h r (List.mem_cons_of_mem _ hr)) _)
    · rw [List.take_append_of_le_length (by omega),
        readRecords_of_none (readRecord_take_frame r hr (by omega))]
      exact List.nil_prefix

/-! ### Joining fragments -/

/-- Modelled from the spec: the logical payloads of a segment's records. A Full record is one
payload; a First record starts one, Middle records extend it and a Last record completes it. A
First or a Full drops a run it interrupts, a Middle or a Last with no run open is dropped, and a
record of any other type ends the segment. -/
def assemble : List (UInt8 × Bytes) → Option Bytes → List Bytes
  | [], _ => []
  | (t, p) :: rest, acc =>
    if t = recordTypeFull then p :: assemble rest none
    else if t = recordTypeFirst then assemble rest (some p)
    else if t = recordTypeMiddle then assemble rest (acc.map (· ++ p))
    else if t = recordTypeLast then
      match acc with
      | some a => (a ++ p) :: assemble rest none
      | none => assemble rest none
    else []

theorem assemble_full (p : Bytes) (rest : List (UInt8 × Bytes)) (acc : Option Bytes) :
    assemble ((recordTypeFull, p) :: rest) acc = p :: assemble rest none := by
  cases acc <;> rw [assemble, if_pos rfl]

theorem assemble_first (p : Bytes) (rest : List (UInt8 × Bytes)) (acc : Option Bytes) :
    assemble ((recordTypeFirst, p) :: rest) acc = assemble rest (some p) := by
  cases acc <;> rw [assemble, if_neg (by decide), if_pos rfl]

theorem assemble_middles (ms : List Bytes) (rest : List (UInt8 × Bytes)) (a : Bytes) :
    assemble (ms.map (recordTypeMiddle, ·) ++ rest) (some a) =
      assemble rest (some (a ++ ms.flatten)) := by
  induction ms generalizing a with
  | nil => simp
  | cons m ms ih =>
    rw [List.map_cons, List.cons_append, assemble, if_neg (by decide), if_neg (by decide),
      if_pos rfl, Option.map_some', ih, List.flatten_cons, List.append_assoc]

theorem assemble_last (p : Bytes) (rest : List (UInt8 × Bytes)) (a : Bytes) :
    assemble ((recordTypeLast, p) :: rest) (some a) = (a ++ p) :: assemble rest none := by
  rw [assemble, if_neg (by decide), if_neg (by decide), if_neg (by decide), if_pos rfl]

/-- The records of one entry join into its payload, whatever follows them. -/
theorem assemble_entryRecords (entryType : UInt8) (seqNum : UInt64) (key value : Bytes)
    (rest : List (UInt8 × Bytes)) :
    assemble (entryRecords entryType seqNum key value ++ rest) none =
      encodePayload entryType seqNum key value :: assemble rest none := by
  rw [← entryRecords_payloads]
  unfold entryRecords
  split
  · simp [assemble_full]
  · rename_i hbig
    have hrest := (middleChunks_rest _ (fragment_rest_ne (Nat.lt_of_not_le hbig))).1
    simp only [fragments, if_pos (List.length_pos.mpr hrest), List.cons_append, List.append_assoc,
      List.singleton_append, assemble_first, assemble_middles, assemble_last, List.map_cons,
      List.map_append, List.flatten_cons, List.flatten_append, List.map_map, Function.comp_def,
      List.map_id', List.flatten_singleton, List.map_nil]
    simp

/-- The records of a batch join into its entries' payloads, whatever follows them. -/
theorem assemble_batchRecords (entries : List Entry) (seqNum : UInt64)
    (rest : List (UInt8 × Bytes)) :
    assemble (batchRecords entries seqNum ++ rest) none =
      entries.map (fun e => encodePayload e.type seqNum e.key e.value) ++ assemble rest none := by
  induction entries with
  | nil => rfl
  | cons e es ih =>
    simp only [batchRecords] at ih ⊢
    rw [List.map_cons, List.cons_append, assemble_full, ih, List.map_cons, List.cons_append]

/-- Joining the records of a prefix gives a prefix of the payloads. -/
theorem assemble_extends (l1 l2 : List (UInt8 × Bytes)) (acc : Option Bytes) :
    assemble l1 acc <+: assemble (l1 ++ l2) acc := by
  induction l1 generalizing acc with
  | nil => exact List.nil_prefix
  | cons r rest ih =>
    obtain ⟨t, p⟩ := r
    rw [List.cons_append]
    cases acc <;> simp only [assemble] <;> split_ifs <;>
      first
      | exact ih _
      | exact (List.prefix_cons_inj _).mpr (ih _)
      | exact List.nil_prefix

/-! ### Entries -/

/-- Modelled from the spec: the logical entries of a segment, in order: its records read up to the
first corrupt one, joined, and decoded, a payload that does not decode dropped. -/
def readEntries (bs : Bytes) : List Entry := (assemble (readRecords bs) none).filterMap decodeEntry

@[simp] theorem readEntries_nil : readEntries [] = [] := by simp [readEntries, assemble]

/-- An entry as the reader gives it back: a Delete's value is not logged. -/
def Entry.logged (e : Entry) : Entry :=
  ⟨e.sequenceNumber, e.type, e.key, if e.type = opTypeDelete then [] else e.value⟩

/-- Decoding the payload of an entry gives the entry back as logged, when its key, and its value
unless it is a Delete, are shorter than `2^32` bytes. -/
theorem decodeEntry_logged (entryType : UInt8) (seqNum : UInt64) (key value : Bytes)
    (hk : key.length < 2 ^ 32) (hv : entryType ≠ opTypeDelete → value.length < 2 ^ 32) :
    decodeEntry (encodePayload entryType seqNum key value) =
      some (Entry.logged ⟨seqNum, entryType, key, value⟩) := by
  by_cases hd : entryType = opTypeDelete
  · have he : encodePayload entryType seqNum key value = encodePayload entryType seqNum key [] := by
      simp [encodePayload, valuePart, hd]
    rw [he, decodeEntry_encodePayload _ _ _ _ hk (by simp)]
    simp [Entry.logged, hd]
  · exact decodeEntry_encodePayload _ _ _ _ hk (hv hd)

theorem frame_fits {r : UInt8 × Bytes} (h : r.2.length ≤ maxRecordSize) : r.2.length < 2 ^ 16 := by
  simp only [maxRecordSize] at h; omega

/-- An entry that `Append` wrote reads back, whatever follows it, when its key and value are
shorter than `2^32` bytes. -/
theorem readEntries_entryRecords (entryType : UInt8) (seqNum : UInt64) (key value : Bytes)
    (hk : key.length < 2 ^ 32) (hv : value.length < 2 ^ 32) (tail : Bytes) :
    readEntries (((entryRecords entryType seqNum key value).map frame).flatten ++ tail) =
      Entry.logged ⟨seqNum, entryType, key, value⟩ :: readEntries tail := by
  rw [readEntries, readRecords_frames _ (fun r hr => frame_fits (entryRecords_fits _ _ _ _ r hr)),
    assemble_entryRecords, List.filterMap_cons, decodeEntry_logged _ _ _ _ hk fun _ => hv]
  rfl

theorem batchRecords_fit {entries : List Entry} {seqNum : UInt64}
    (hfit : ∀ e ∈ entries, entrySize e.type e.key e.value ≤ maxRecordSize) :
    ∀ r ∈ batchRecords entries seqNum, r.2.length < 2 ^ 16 := by
  simp only [batchRecords, List.mem_map]
  rintro r ⟨e, he, rfl⟩
  exact frame_fits (by simpa using hfit e he)

/-- The entries of a batch that `AppendBatch` wrote read back, whatever follows them, all under
the batch's sequence number. -/
theorem readEntries_batchRecords (entries : List Entry) (seqNum : UInt64)
    (hfit : ∀ e ∈ entries, entrySize e.type e.key e.value ≤ maxRecordSize) (tail : Bytes) :
    readEntries (((batchRecords entries seqNum).map frame).flatten ++ tail) =
      entries.map (fun e => Entry.logged ⟨seqNum, e.type, e.key, e.value⟩) ++ readEntries tail := by
  have hlen : ∀ e ∈ entries,
      e.key.length < 2 ^ 32 ∧ (e.type ≠ opTypeDelete → e.value.length < 2 ^ 32) := fun e he => by
    have := hfit e he
    simp only [entrySize, maxRecordSize] at this
    split at this
    · exact ⟨by omega, fun _ => by omega⟩
    · rename_i hd
      exact ⟨by omega, fun h => absurd h hd⟩
  rw [readEntries, readRecords_frames _ (batchRecords_fit hfit), assemble_batchRecords,
    List.filterMap_append, List.filterMap_map]
  congr 1
  rw [List.filterMap_eq_map_iff_forall_eq_some]
  intro e he
  exact decodeEntry_logged _ _ _ _ (hlen e he).1 (hlen e he).2

/-- What the WAL writes reads back up to any cut as a prefix of what it reads back whole. -/
theorem readEntries_take_frames (recs : List (UInt8 × Bytes)) (h : ∀ r ∈ recs, r.2.length < 2 ^ 16)
    (n : Nat) :
    readEntries (((recs.map frame).flatten).take n) <+: readEntries (recs.map frame).flatten := by
  obtain ⟨l2, hl2⟩ := readRecords_take_frames recs h n
  have hall : readRecords (recs.map frame).flatten = recs := by
    simpa using readRecords_frames recs h []
  have hpre := (assemble_extends (readRecords (((recs.map frame).flatten).take n)) l2 none).filterMap
    decodeEntry
  rw [hl2] at hpre
  rwa [readEntries, readEntries, hall]

/-! ### Batches that succeed -/

/-- The write loop of a batch succeeds only when every entry fits one record. -/
theorem writeEntries_fit {w : WAL} {seqNum : UInt64} {i : Nat} {entries : List Entry}
    (h : (writeEntries w seqNum i entries).1 = none) :
    ∀ e ∈ entries, entrySize e.type e.key e.value ≤ maxRecordSize := by
  induction entries generalizing w i with
  | nil => nofun
  | cons e rest ih =>
    by_cases hfit : entrySize e.type e.key e.value ≤ maxRecordSize
    · rcases hr : writeRecord w recordTypeFull e.type seqNum e.key e.value with ⟨_ | err, w'⟩ <;>
        simp only [writeEntries, hr] at h
      · rintro x (_ | ⟨_, hx⟩)
        exacts [hfit, ih h x hx]
      · cases h
    · simp [writeEntries, writeRecord_tooLarge (Nat.lt_of_not_le hfit)] at h

/-- The end that both batch paths share returns a sequence number only when every entry of the
batch fits one record. -/
theorem writeBatch_sync_fit {w0 : WAL} {entries : List Entry} {s s' : UInt64} (raise : WAL → WAL)
    (h : (match writeBatch w0 entries s with
        | (some e, w') => ((.error e : Outcome UInt64), w')
        | (none, w') =>
          match maybeSync (raise w') with
          | (some e, w'') => (.error e, w'')
          | (none, w'') => (.ok s, w'')).1 = .ok s') :
    ∀ e ∈ entries, entrySize e.type e.key e.value ≤ maxRecordSize := by
  rcases hb : writeBatch w0 entries s with ⟨_ | err, w'⟩
  · rcases writeBatch_cases w0 entries s with ⟨e, he, -⟩ | ⟨w1, -, -, -, heq⟩
    · rw [hb] at he; cases he
    · rw [heq] at hb; exact writeEntries_fit (by rw [hb])
  · rw [hb] at h; cases h

theorem appendBatch_fit {w : WAL} {entries : List Entry} {s : UInt64}
    (h : (appendBatch w entries).1 = .ok s) :
    ∀ e ∈ entries, entrySize e.type e.key e.value ≤ maxRecordSize := by
  unfold appendBatch at h
  rcases hst : statusError w.status with _ | err <;> simp only [hst] at h
  · by_cases hnil : entries = []
    · subst hnil; nofun
    rw [if_neg hnil] at h
    by_cases hover : w.nextSequence ≥ maxSequenceNumber
    · rw [if_pos hover] at h; cases h
    rw [if_neg hover] at h
    exact writeBatch_sync_fit _ h
  · cases h

theorem appendBatchWithSequence_fit {w : WAL} {entries : List Entry} {startSequence s : UInt64}
    (h : (appendBatchWithSequence w entries startSequence).1 = .ok s) :
    ∀ e ∈ entries, entrySize e.type e.key e.value ≤ maxRecordSize := by
  unfold appendBatchWithSequence at h
  rcases hst : statusError w.status with _ | err <;> simp only [hst] at h
  · by_cases hnil : entries = []
    · subst hnil; nofun
    rw [if_neg hnil] at h
    by_cases hover : startSequence ≥ maxSequenceNumber
    · rw [if_pos hover] at h; cases h
    rw [if_neg hover] at h
    exact writeBatch_sync_fit _ h
  · cases h

end Kevo.Wal
