import Kevo.Wal.Framing

/-! The batch paths, `AppendBatch` and `AppendBatchWithSequence`. On success a batch adds one Full
record per entry, in order, all under the returned sequence number (`appendBatch_logged`,
`appendBatchWithSequence_logged`). A batch is not all-or-nothing: the write loop stops at the first
entry that fails and returns its error, and the records of the entries before it stay in the
buffer, to be flushed with the next write (`appendBatch_keeps_prefix`). -/

namespace Kevo.Wal

/-- The records of a batch: each entry as a Full record under `seqNum`. -/
def batchRecords (entries : List Entry) (seqNum : UInt64) : List (UInt8 × Bytes) :=
  entries.map fun e => (recordTypeFull, encodePayload e.type seqNum e.key e.value)

theorem writeRecord_tooLarge {w : WAL} {recordType entryType : UInt8} {seqNum : UInt64}
    {key value : Bytes} (h : maxRecordSize < entrySize entryType key value) :
    writeRecord w recordType entryType seqNum key value =
      (some (.recordTooLarge (entrySize entryType key value) maxRecordSize), w) := by
  simp [writeRecord, h]

theorem writeRecord_wrote (w : WAL) (recordType entryType : UInt8) (seqNum : UInt64)
    {key value : Bytes} (h : entrySize entryType key value ≤ maxRecordSize) :
    Wrote w (writeRecord w recordType entryType seqNum key value)
      (frame (recordType, encodePayload entryType seqNum key value)) := by
  rw [writeRecord, if_neg (Nat.not_lt.mpr h)]
  exact writeRawRecord_wrote w recordType (by simpa using h)

/-- The write loop keeps the frame, and on success it has added the batch's records. -/
theorem writeEntries_ok (w : WAL) (seqNum : UInt64) (i : Nat) (entries : List Entry) :
    Frame w (writeEntries w seqNum i entries).2 ∧
      ((writeEntries w seqNum i entries).1 = none →
        (writeEntries w seqNum i entries).2.log =
          w.log ++ ((batchRecords entries seqNum).map frame).flatten) := by
  induction entries generalizing w i with
  | nil => exact ⟨Frame.refl w, fun _ => by simp [writeEntries, batchRecords]⟩
  | cons e rest ih =>
    by_cases hfit : entrySize e.type e.key e.value ≤ maxRecordSize
    · have hw := writeRecord_wrote w recordTypeFull e.type seqNum hfit
      rcases hr : writeRecord w recordTypeFull e.type seqNum e.key e.value with ⟨_ | err, w'⟩ <;>
        rw [hr] at hw <;> simp only [writeEntries, hr]
      · obtain ⟨hf, hl⟩ := ih w' (i + 1)
        refine ⟨hw.frame.trans hf, fun h => ?_⟩
        rw [hl h, hw.ok rfl]
        simp [batchRecords]
      · exact ⟨hw.frame, nofun⟩
    · simp only [writeEntries, writeRecord_tooLarge (Nat.lt_of_not_le hfit)]
      exact ⟨Frame.refl w, nofun⟩

/-- The preparation of a batch either fails to flush, keeping the log, or hands the write loop a
state with the same log and room for the whole batch: the writer is flushed when the batch does not
fit its free bytes, and replaced by a larger one when it does not fit its size. -/
theorem writeBatch_cases (w : WAL) (entries : List Entry) (seqNum : UInt64) :
    (∃ e, (writeBatch w entries seqNum).1 = some (.flushBeforeBatch e) ∧
      Frame w (writeBatch w entries seqNum).2 ∧ (writeBatch w entries seqNum).2.log = w.log) ∨
    ∃ w1, Frame w w1 ∧ w1.log = w.log ∧ totalSize entries ≤ w1.writer.available ∧
      writeBatch w entries seqNum = writeEntries w1 seqNum 0 entries := by
  unfold writeBatch
  by_cases hc : totalSize entries > w.writer.available
  · have hl := Writer.flush_log w.writer w.file
    have hok := @Writer.flush_ok w.writer w.file
    have ho := Writer.flush_isOpen w.writer w.file
    have hsz := Writer.flush_size w.writer w.file
    rcases hf : w.writer.flush w.file with ⟨_ | e, wr, f⟩ <;> rw [hf] at hl hok ho hsz <;>
      dsimp only at hl hok ho hsz <;> simp only [if_pos hc, hf]
    · have hbuf := hok rfl
      refine .inr ⟨{ w with file := f,
                            writer := if totalSize entries > w.writer.size then
                              Writer.new (totalSize entries + 1024) else wr },
        ⟨rfl, rfl, rfl, rfl, ho⟩, ?_, ?_, rfl⟩ <;>
        by_cases hs : totalSize entries > w.writer.size
      · simpa [WAL.log, Writer.log, hbuf, hs, Writer.new] using hl
      · simpa [WAL.log, Writer.log, hbuf, hs] using hl
      · simp [hs, Writer.available, Writer.new]
      · simp only [hs, if_false, Writer.available, hbuf, hsz, List.length_nil, Nat.sub_zero]
        omega
    · exact .inl ⟨e, rfl, ⟨rfl, rfl, rfl, rfl, ho⟩, hl⟩
  · simp only [if_neg hc]
    exact .inr ⟨w, Frame.refl w, rfl, Nat.not_lt.mp hc, rfl⟩

theorem writeBatch_of_room {w : WAL} {entries : List Entry} (seqNum : UInt64)
    (hroom : totalSize entries ≤ w.writer.available) :
    writeBatch w entries seqNum = writeEntries w seqNum 0 entries := by
  rw [writeBatch, if_neg (Nat.not_lt.mpr hroom)]

/-- The preparation of a batch keeps the frame and the log. -/
theorem writeBatch_ok (w : WAL) (entries : List Entry) (startSeqNum : UInt64) :
    Frame w (writeBatch w entries startSeqNum).2 ∧
      ((writeBatch w entries startSeqNum).1 = none →
        (writeBatch w entries startSeqNum).2.log =
          w.log ++ ((batchRecords entries startSeqNum).map frame).flatten) := by
  rcases writeBatch_cases w entries startSeqNum with ⟨e, he, hfr, -⟩ | ⟨w1, hfr, hlog, -, heq⟩
  · exact ⟨hfr, fun h => by rw [he] at h; cases h⟩
  · obtain ⟨hf1, hl1⟩ := writeEntries_ok w1 startSeqNum 0 entries
    rw [heq]
    exact ⟨hfr.trans hf1, fun h => by rw [hl1 h, hlog]⟩

/-- The end that both batch paths share keeps the status and, on success, adds the batch's records
under `s`: the write loop, a change of `nextSequence` by `raise`, and `maybeSync`. -/
theorem writeBatch_sync_logged {w w0 : WAL} {entries : List Entry} {s : UInt64} (raise : WAL → WAL)
    (hact : w.status = .active) (hlog : w0.log = w.log) (hstatus : w0.status = w.status)
    (hraise : ∀ w', (raise w').log = w'.log ∧ (raise w').status = w'.status) :
    Logged w
      (match writeBatch w0 entries s with
        | (some e, w') => (.error e, w')
        | (none, w') =>
          match maybeSync (raise w') with
          | (some e, w'') => (.error e, w'')
          | (none, w'') => (.ok s, w''))
      fun s => ((batchRecords entries s).map frame).flatten := by
  obtain ⟨hfr, hok⟩ := writeBatch_ok w0 entries s
  rcases hb : writeBatch w0 entries s with ⟨_ | e, w'⟩ <;> rw [hb] at hfr hok <;> dsimp only
  · have hsy := maybeSync_synced (raise w')
    have hst : (maybeSync (raise w')).2.status = w.status := by
      rw [hsy.frame.status, (hraise w').2, hfr.status, hstatus]
    rcases hm : maybeSync (raise w') with ⟨_ | e, w''⟩ <;> rw [hm] at hsy hst <;> dsimp only
    · refine ⟨hst, fun h => absurd hact h, fun s' h => ?_⟩
      cases h
      rw [hsy.log, (hraise w').1, hok rfl, hlog]
    · exact ⟨hst, fun h => absurd hact h, nofun⟩
  · exact ⟨by rw [hfr.status, hstatus], fun h => absurd hact h, nofun⟩

/-- `AppendBatch` keeps the status, and on success it has added one Full record per entry, in
order, all under the returned sequence number. -/
theorem appendBatch_logged (w : WAL) (entries : List Entry) :
    Logged w (appendBatch w entries) fun s => ((batchRecords entries s).map frame).flatten := by
  unfold appendBatch
  split
  · exact .of_guard _ rfl rfl
  rename_i hs
  have hact := statusError_eq_none.mp hs
  split
  · rename_i hnil
    exact ⟨rfl, fun h => absurd hact h, fun s h => by cases h; simp [batchRecords, hnil]⟩
  split
  · exact .of_guard _ rfl rfl
  simp only [warnOverflow_nextSequence]
  exact writeBatch_sync_logged (fun w' => { w' with nextSequence := w.nextSequence + 1 }) hact
    (warnOverflow_log w _) (warnOverflow_status w _) fun _ => ⟨rfl, rfl⟩

/-- `AppendBatchWithSequence` keeps the status, and on success it has added one Full record per
entry, in order, all under the returned sequence number. -/
theorem appendBatchWithSequence_logged (w : WAL) (entries : List Entry) (startSequence : UInt64) :
    Logged w (appendBatchWithSequence w entries startSequence)
      fun s => ((batchRecords entries s).map frame).flatten := by
  unfold appendBatchWithSequence
  split
  · exact .of_guard _ rfl rfl
  rename_i hs
  have hact := statusError_eq_none.mp hs
  split
  · rename_i hnil
    exact ⟨rfl, fun h => absurd hact h, fun s h => by cases h; simp [batchRecords, hnil]⟩
  split
  · exact .of_guard _ rfl rfl
  exact writeBatch_sync_logged
    (fun w' => if startSequence + 1 > w'.nextSequence then
      { w' with nextSequence := startSequence + 1 } else w') hact
    (warnOverflow_log w _) (warnOverflow_status w _) fun w' => by
      dsimp only; split <;> exact ⟨rfl, rfl⟩

/-! ### A batch that fits the buffer -/

@[simp] theorem totalSize_nil : totalSize [] = 0 := rfl

@[simp] theorem totalSize_cons (e : Entry) (rest : List Entry) :
    totalSize (e :: rest) = headerSize + entrySize e.type e.key e.value + totalSize rest := rfl

@[simp] theorem totalSize_append (a b : List Entry) :
    totalSize (a ++ b) = totalSize a + totalSize b := by
  induction a with
  | nil => simp
  | cons x rest ih => simp only [List.cons_append, totalSize_cons, ih]; omega

/-- A writer call that put `n` bytes into the free buffer of `w`: no error, `n` fewer free bytes,
and no system call, so the file is as it was. -/
structure Buffered (w : WAL) (r : Option WalError × WAL) (n : Nat) : Prop where
  ok : r.1 = none
  err : r.2.writer.err = none
  available : r.2.writer.available + n = w.writer.available
  file : r.2.file = w.file

theorem writeRecordData_buffered (w : WAL) (header payload : Bytes) (he : w.writer.err = none)
    (hroom : header.length + payload.length ≤ w.writer.available) :
    Buffered w (writeRecordData w header payload) (header.length + payload.length) := by
  have h2 : payload.length ≤ ({ w.writer with buf := w.writer.buf ++ header } : Writer).available := by
    simp only [Writer.available, List.length_append] at hroom ⊢; omega
  simp only [writeRecordData, Writer.write_fits w.file (Nat.le_of_add_right_le hroom) he,
    Writer.write_fits w.file h2 he]
  refine ⟨rfl, he, ?_, rfl⟩
  simp only [Writer.available, List.length_append] at hroom ⊢; omega

theorem writeRecord_buffered (w : WAL) (recordType entryType : UInt8) (seqNum : UInt64)
    {key value : Bytes} (hfit : entrySize entryType key value ≤ maxRecordSize)
    (he : w.writer.err = none) (hroom : headerSize + entrySize entryType key value ≤ w.writer.available) :
    Buffered w (writeRecord w recordType entryType seqNum key value)
      (headerSize + entrySize entryType key value) := by
  rw [writeRecord, if_neg (Nat.not_lt.mpr hfit), writeRawRecord,
    if_neg (by simpa using Nat.not_lt.mpr hfit)]
  simpa using writeRecordData_buffered w (recordHeader recordType (encodePayload entryType seqNum key value))
    (encodePayload entryType seqNum key value) he (by simpa using hroom)

/-- A batch of entries that fit records and, together, the free buffer is copied into the buffer. -/
theorem writeEntries_buffered (w : WAL) (seqNum : UInt64) (i : Nat) (entries : List Entry)
    (hfit : ∀ x ∈ entries, entrySize x.type x.key x.value ≤ maxRecordSize)
    (he : w.writer.err = none) (hroom : totalSize entries ≤ w.writer.available) :
    Buffered w (writeEntries w seqNum i entries) (totalSize entries) := by
  induction entries generalizing w i with
  | nil => exact ⟨rfl, he, by simp [writeEntries], rfl⟩
  | cons x rest ih =>
    rw [totalSize_cons] at hroom
    have hb := writeRecord_buffered w recordTypeFull x.type seqNum
      (hfit x (List.mem_cons_self _ _)) he (by omega)
    rcases hr : writeRecord w recordTypeFull x.type seqNum x.key x.value with ⟨_ | err, w'⟩ <;>
      rw [hr] at hb
    · have hav : w'.writer.available + _ = _ := hb.available
      have hrest := ih w' (i + 1) (fun y hy => hfit y (List.mem_cons_of_mem _ hy)) hb.err
        (by omega)
      simp only [writeEntries, hr]
      exact ⟨hrest.ok, hrest.err, by rw [totalSize_cons]; have := hrest.available; omega,
        hrest.file.trans hb.file⟩
    · exact absurd hb.ok nofun

theorem writeEntries_append (w : WAL) (seqNum : UInt64) (i : Nat) (a b : List Entry) :
    writeEntries w seqNum i (a ++ b) =
      match writeEntries w seqNum i a with
      | (some e, w') => (some e, w')
      | (none, w') => writeEntries w' seqNum (i + a.length) b := by
  induction a generalizing w i with
  | nil => rfl
  | cons x rest ih =>
    simp only [List.cons_append, writeEntries, List.length_cons, List.append_eq]
    split
    · rfl
    · rw [ih, Nat.add_assoc, Nat.add_comm 1]

/-- The write loop of a batch that fits the buffer stops at its first entry too large for a record,
with that entry's error, in the state in which the entries before it were written. -/
theorem writeBatch_stops (w : WAL) (pre rest : List Entry) (e : Entry) (seqNum : UInt64)
    (herr : w.writer.err = none) (hroom : totalSize (pre ++ e :: rest) ≤ w.writer.available)
    (hpre : ∀ x ∈ pre, entrySize x.type x.key x.value ≤ maxRecordSize)
    (hbig : maxRecordSize < entrySize e.type e.key e.value) :
    writeBatch w (pre ++ e :: rest) seqNum =
      (some (.writeEntry pre.length (.recordTooLarge (entrySize e.type e.key e.value) maxRecordSize)),
        (writeEntries w seqNum 0 pre).2) := by
  have hb := writeEntries_buffered w seqNum 0 pre hpre herr
    (by rw [totalSize_append] at hroom; omega)
  rw [writeBatch_of_room seqNum hroom, writeEntries_append]
  rcases hw : writeEntries w seqNum 0 pre with ⟨_ | err, w'⟩
  · simp only [writeEntries, writeRecord_tooLarge hbig, Nat.zero_add]
  · rw [hw] at hb; exact absurd hb.ok nofun

/-- A failed batch is not undone. On an active WAL whose writer has no error and room for the whole
batch, `AppendBatch` and `AppendBatchWithSequence` on a batch whose entry at index `pre.length` is
too large for a record fail with that entry's error, after the records of the entries before it
went into the buffer, and `nextSequence` is not raised. -/
theorem appendBatch_keeps_prefix (w : WAL) (pre rest : List Entry) (e : Entry) (seq : UInt64)
    (hact : w.status = .active) (hnext : w.nextSequence < maxSequenceNumber)
    (hseq : seq < maxSequenceNumber) (herr : w.writer.err = none)
    (hroom : totalSize (pre ++ e :: rest) ≤ w.writer.available)
    (hpre : ∀ x ∈ pre, entrySize x.type x.key x.value ≤ maxRecordSize)
    (hbig : maxRecordSize < entrySize e.type e.key e.value) :
    ((appendBatch w (pre ++ e :: rest)).1 = .error (.writeEntry pre.length
        (.recordTooLarge (entrySize e.type e.key e.value) maxRecordSize)) ∧
      (appendBatch w (pre ++ e :: rest)).2.log =
        w.log ++ ((batchRecords pre w.nextSequence).map frame).flatten ∧
      (appendBatch w (pre ++ e :: rest)).2.nextSequence = w.nextSequence) ∧
    ((appendBatchWithSequence w (pre ++ e :: rest) seq).1 = .error (.writeEntry pre.length
        (.recordTooLarge (entrySize e.type e.key e.value) maxRecordSize)) ∧
      (appendBatchWithSequence w (pre ++ e :: rest) seq).2.log =
        w.log ++ ((batchRecords pre seq).map frame).flatten ∧
      (appendBatchWithSequence w (pre ++ e :: rest) seq).2.nextSequence = w.nextSequence) := by
  have hne : pre ++ e :: rest ≠ [] := by simp
  have hfit : ∀ s : UInt64, (writeEntries (warnOverflow w s) s 0 pre).2.log =
      w.log ++ ((batchRecords pre s).map frame).flatten ∧
      (writeEntries (warnOverflow w s) s 0 pre).2.nextSequence = w.nextSequence := fun s => by
    have hb := writeEntries_buffered (warnOverflow w s) s 0 pre hpre (by simpa using herr)
      (by rw [totalSize_append] at hroom; simpa using (by omega : totalSize pre ≤ _))
    obtain ⟨hf, hl⟩ := writeEntries_ok (warnOverflow w s) s 0 pre
    exact ⟨by rw [hl hb.ok, warnOverflow_log], by rw [hf.nextSequence, warnOverflow_nextSequence]⟩
  have hstop := fun s => writeBatch_stops (warnOverflow w s) pre rest e s (by simpa using herr)
    (by simpa using hroom) hpre hbig
  simp only [appendBatch, appendBatchWithSequence, hact, statusError, if_neg hne,
    if_neg (UInt64.not_le.mpr hnext), if_neg (UInt64.not_le.mpr hseq), warnOverflow_nextSequence,
    hstop]
  exact ⟨⟨trivial, hfit _⟩, ⟨trivial, hfit _⟩⟩

theorem appendBatch_keeps_prefix_put :
    (newWAL ⟨.syncNone, 0⟩ []).status = .active ∧
    (newWAL ⟨.syncNone, 0⟩ []).nextSequence < maxSequenceNumber ∧
    (7 : UInt64) < maxSequenceNumber ∧ (newWAL ⟨.syncNone, 0⟩ []).writer.err = none ∧
    totalSize ([⟨0, opTypePut, [1], [2]⟩] ++ [⟨0, opTypePut, [3], List.replicate 40000 0⟩]) ≤
      (newWAL ⟨.syncNone, 0⟩ []).writer.available ∧
    (∀ x ∈ [(⟨0, opTypePut, [1], [2]⟩ : Entry)], entrySize x.type x.key x.value ≤ maxRecordSize) ∧
    maxRecordSize < entrySize (Entry.type ⟨0, opTypePut, [3], List.replicate 40000 0⟩)
      (Entry.key ⟨0, opTypePut, [3], List.replicate 40000 0⟩)
      (Entry.value ⟨0, opTypePut, [3], List.replicate 40000 0⟩) ∧
    ((appendBatch (newWAL ⟨.syncNone, 0⟩ [])
        ([⟨0, opTypePut, [1], [2]⟩] ++ [⟨0, opTypePut, [3], List.replicate 40000 0⟩])).1 =
        .error (.writeEntry 1 (.recordTooLarge
          (entrySize (Entry.type ⟨0, opTypePut, [3], List.replicate 40000 0⟩)
            (Entry.key ⟨0, opTypePut, [3], List.replicate 40000 0⟩)
            (Entry.value ⟨0, opTypePut, [3], List.replicate 40000 0⟩)) maxRecordSize)) ∧
      (appendBatch (newWAL ⟨.syncNone, 0⟩ [])
        ([⟨0, opTypePut, [1], [2]⟩] ++ [⟨0, opTypePut, [3], List.replicate 40000 0⟩])).2.log =
        (newWAL ⟨.syncNone, 0⟩ []).log ++ ((batchRecords [⟨0, opTypePut, [1], [2]⟩]
          (newWAL ⟨.syncNone, 0⟩ []).nextSequence).map frame).flatten ∧
      (appendBatch (newWAL ⟨.syncNone, 0⟩ [])
        ([⟨0, opTypePut, [1], [2]⟩] ++ [⟨0, opTypePut, [3], List.replicate 40000 0⟩])).2.nextSequence =
        (newWAL ⟨.syncNone, 0⟩ []).nextSequence) ∧
    ((appendBatchWithSequence (newWAL ⟨.syncNone, 0⟩ [])
        ([⟨0, opTypePut, [1], [2]⟩] ++ [⟨0, opTypePut, [3], List.replicate 40000 0⟩]) 7).1 =
        .error (.writeEntry 1 (.recordTooLarge
          (entrySize (Entry.type ⟨0, opTypePut, [3], List.replicate 40000 0⟩)
            (Entry.key ⟨0, opTypePut, [3], List.replicate 40000 0⟩)
            (Entry.value ⟨0, opTypePut, [3], List.replicate 40000 0⟩)) maxRecordSize)) ∧
      (appendBatchWithSequence (newWAL ⟨.syncNone, 0⟩ [])
        ([⟨0, opTypePut, [1], [2]⟩] ++ [⟨0, opTypePut, [3], List.replicate 40000 0⟩]) 7).2.log =
        (newWAL ⟨.syncNone, 0⟩ []).log ++
          ((batchRecords [⟨0, opTypePut, [1], [2]⟩] 7).map frame).flatten ∧
      (appendBatchWithSequence (newWAL ⟨.syncNone, 0⟩ [])
        ([⟨0, opTypePut, [1], [2]⟩] ++ [⟨0, opTypePut, [3], List.replicate 40000 0⟩]) 7).2.nextSequence =
        (newWAL ⟨.syncNone, 0⟩ []).nextSequence) := by
  have hsize : entrySize (Entry.type ⟨0, opTypePut, [3], List.replicate 40000 0⟩)
      (Entry.key ⟨0, opTypePut, [3], List.replicate 40000 0⟩)
      (Entry.value ⟨0, opTypePut, [3], List.replicate 40000 0⟩) = 40018 := by
    have hlen : (Entry.value ⟨0, opTypePut, [3], List.replicate 40000 0⟩).length = 40000 :=
      List.length_replicate 40000 0
    rw [entrySize, hlen]; decide
  have hroom : totalSize ([⟨0, opTypePut, [1], [2]⟩] ++ [⟨0, opTypePut, [3], List.replicate 40000 0⟩]) ≤
      (newWAL ⟨.syncNone, 0⟩ []).writer.available := by
    rw [totalSize_append, totalSize_cons, totalSize_cons, hsize]; decide
  have hbig := hsize ▸ (by decide : maxRecordSize < 40018)
  exact ⟨rfl, by decide, by decide, rfl, hroom, by decide, hbig,
    appendBatch_keeps_prefix _ _ _ _ 7 rfl (by decide) (by decide) rfl hroom (by decide) hbig⟩

/-! ### One flush per batch -/

/-- The records of a batch take `totalSize` bytes: a header and a payload per entry. -/
theorem batchRecords_length (entries : List Entry) (seqNum : UInt64) :
    ((batchRecords entries seqNum).map frame).flatten.length = totalSize entries := by
  induction entries with
  | nil => rfl
  | cons e rest ih =>
    have hframe : (frame (recordTypeFull, encodePayload e.type seqNum e.key e.value)).length =
        headerSize + entrySize e.type e.key e.value := by
      simp [frame]
    show (frame _ ++ ((batchRecords rest seqNum).map frame).flatten).length = _
    rw [List.length_append, ih, hframe, totalSize_cons]

/-- From a writer holding an error, the write loop stops at its first record and changes
nothing. -/
theorem writeEntries_err {w : WAL} {e : IOError} (he : w.writer.err = some e) (seqNum : UInt64)
    (i : Nat) {x : Entry} (rest : List Entry) (hfit : entrySize x.type x.key x.value ≤ maxRecordSize) :
    writeEntries w seqNum i (x :: rest) = (some (.writeEntry i (.writeRecordHeader e)), w) := by
  rw [writeEntries, writeRecord, if_neg (Nat.not_lt.mpr hfit), writeRawRecord,
    if_neg (by simpa using Nat.not_lt.mpr hfit), writeRecordData, Writer.write_err _ _ he]

/-- From a writer with room for the whole batch, the write loop makes no system call. -/
theorem writeEntries_file (w : WAL) (seqNum : UInt64) (entries : List Entry)
    (hfit : ∀ x ∈ entries, entrySize x.type x.key x.value ≤ maxRecordSize)
    (hroom : totalSize entries ≤ w.writer.available) :
    (writeEntries w seqNum 0 entries).2.file = w.file := by
  rcases he : w.writer.err with _ | e
  · exact (writeEntries_buffered w seqNum 0 entries hfit he hroom).file
  · cases entries with
    | nil => rfl
    | cons x rest => rw [writeEntries_err he seqNum 0 rest (hfit x (List.mem_cons_self _ _))]

/-- A batch reaches the file in one flush. Whatever the writer holds, `totalSize` is the number of
bytes of the batch's records, and the preparation either fails or leaves the write loop a state
with room for all of them. From there the loop makes no system call: the records go into the
buffer one after the other, behind the bytes already there, and the next flush that succeeds
writes them to the file together. -/
theorem writeBatch_single_flush (w : WAL) (entries : List Entry) (seqNum : UInt64)
    (hfit : ∀ x ∈ entries, entrySize x.type x.key x.value ≤ maxRecordSize) :
    totalSize entries = ((batchRecords entries seqNum).map frame).flatten.length ∧
    ((∃ e, (writeBatch w entries seqNum).1 = some (.flushBeforeBatch e)) ∨
      ∃ w1, w1.log = w.log ∧ totalSize entries ≤ w1.writer.available ∧
        writeBatch w entries seqNum = writeEntries w1 seqNum 0 entries ∧
        (writeBatch w entries seqNum).2.file = w1.file ∧
        ((writeBatch w entries seqNum).1 = none →
          (writeBatch w entries seqNum).2.writer.buf =
            w1.writer.buf ++ ((batchRecords entries seqNum).map frame).flatten ∧
          (((writeBatch w entries seqNum).2.writer.flush w1.file).1 = none →
            ((writeBatch w entries seqNum).2.writer.flush w1.file).2.2.data =
              w1.file.data ++ w1.writer.buf ++ ((batchRecords entries seqNum).map frame).flatten))) := by
  refine ⟨(batchRecords_length entries seqNum).symm, ?_⟩
  rcases writeBatch_cases w entries seqNum with ⟨e, he, -, -⟩ | ⟨w1, -, hlog, hroom, heq⟩
  · exact .inl ⟨e, he⟩
  have hfile := writeEntries_file w1 seqNum entries hfit hroom
  obtain ⟨-, hok⟩ := writeEntries_ok w1 seqNum 0 entries
  rw [heq]
  refine .inr ⟨w1, hlog, hroom, rfl, hfile, fun h => ?_⟩
  have hbuf : (writeEntries w1 seqNum 0 entries).2.writer.buf =
      w1.writer.buf ++ ((batchRecords entries seqNum).map frame).flatten := by
    have hl := hok h
    simp only [WAL.log, Writer.log, hfile, List.append_assoc] at hl
    exact List.append_cancel_left hl
  refine ⟨hbuf, fun hfl => ?_⟩
  have hl := Writer.flush_log (writeEntries w1 seqNum 0 entries).2.writer w1.file
  simp only [Writer.log, Writer.flush_ok hfl, List.append_nil, hbuf] at hl
  rw [hl, List.append_assoc]

theorem writeBatch_single_flush_put :
    (∀ x ∈ [(⟨0, opTypePut, [1], [2]⟩ : Entry)], entrySize x.type x.key x.value ≤ maxRecordSize) ∧
    totalSize [(⟨0, opTypePut, [1], [2]⟩ : Entry)] = ((batchRecords [(⟨0, opTypePut, [1], [2]⟩ : Entry)] 1).map frame).flatten.length ∧
    ((∃ e, (writeBatch (newWAL ⟨.syncNone, 0⟩ []) [(⟨0, opTypePut, [1], [2]⟩ : Entry)] 1).1 = some (.flushBeforeBatch e)) ∨
      ∃ w1, w1.log = (newWAL ⟨.syncNone, 0⟩ []).log ∧ totalSize [(⟨0, opTypePut, [1], [2]⟩ : Entry)] ≤ w1.writer.available ∧
        writeBatch (newWAL ⟨.syncNone, 0⟩ []) [(⟨0, opTypePut, [1], [2]⟩ : Entry)] 1 = writeEntries w1 1 0 [(⟨0, opTypePut, [1], [2]⟩ : Entry)] ∧
        (writeBatch (newWAL ⟨.syncNone, 0⟩ []) [(⟨0, opTypePut, [1], [2]⟩ : Entry)] 1).2.file = w1.file ∧
        ((writeBatch (newWAL ⟨.syncNone, 0⟩ []) [(⟨0, opTypePut, [1], [2]⟩ : Entry)] 1).1 = none →
          (writeBatch (newWAL ⟨.syncNone, 0⟩ []) [(⟨0, opTypePut, [1], [2]⟩ : Entry)] 1).2.writer.buf = w1.writer.buf ++ ((batchRecords [(⟨0, opTypePut, [1], [2]⟩ : Entry)] 1).map frame).flatten ∧
          (((writeBatch (newWAL ⟨.syncNone, 0⟩ []) [(⟨0, opTypePut, [1], [2]⟩ : Entry)] 1).2.writer.flush w1.file).1 = none →
            ((writeBatch (newWAL ⟨.syncNone, 0⟩ []) [(⟨0, opTypePut, [1], [2]⟩ : Entry)] 1).2.writer.flush w1.file).2.2.data = w1.file.data ++ w1.writer.buf ++ ((batchRecords [(⟨0, opTypePut, [1], [2]⟩ : Entry)] 1).map frame).flatten))) :=
  ⟨by decide, writeBatch_single_flush _ _ _ (by decide)⟩

/-! ### Op types -/

/-- A batch of entries that fit records and the free buffer of a writer with no error is written
whole by the write loop. -/
theorem writeBatch_fits (w : WAL) (entries : List Entry) (seqNum : UInt64)
    (herr : w.writer.err = none) (hroom : totalSize entries ≤ w.writer.available)
    (hfit : ∀ x ∈ entries, entrySize x.type x.key x.value ≤ maxRecordSize) :
    (writeBatch w entries seqNum).1 = none ∧ Frame w (writeBatch w entries seqNum).2 ∧
      (writeBatch w entries seqNum).2.log =
        w.log ++ ((batchRecords entries seqNum).map frame).flatten := by
  rw [writeBatch_of_room seqNum hroom]
  have hb := writeEntries_buffered w seqNum 0 entries hfit herr hroom
  obtain ⟨hf, hl⟩ := writeEntries_ok w seqNum 0 entries
  exact ⟨hb.ok, hf, hl hb.ok⟩

/-- After a write loop with no error, both batch paths end in the state that `maybeSync` leaves. -/
theorem writeBatch_sync_snd {w0 w' : WAL} {entries : List Entry} {s : UInt64} (raise : WAL → WAL)
    (hb : writeBatch w0 entries s = (none, w')) :
    (match writeBatch w0 entries s with
      | (some e, w') => ((.error e : Outcome UInt64), w')
      | (none, w') =>
        match maybeSync (raise w') with
        | (some e, w'') => (.error e, w'')
        | (none, w'') => (.ok s, w'')).2 = (maybeSync (raise w')).2 := by
  rw [hb]
  dsimp only
  rcases maybeSync (raise w') with ⟨_ | e, w''⟩ <;> rfl

/-- Only the single-entry paths check the op type. On an active WAL, `Append` and
`AppendWithSequence` refuse an entry whose op type is not Put, Delete or Merge with
`ErrInvalidOpType` and change nothing, while `AppendBatch` and `AppendBatchWithSequence` write
every entry of a batch that fits records and the free buffer, whatever its op type, and
`AppendBatch` raises `nextSequence`. -/
theorem appendBatch_skips_opType_check (w : WAL) (entries : List Entry) (seq : UInt64)
    (hact : w.status = .active) (hne : entries ≠ []) (hnext : w.nextSequence < maxSequenceNumber)
    (hseq : seq < maxSequenceNumber) (herr : w.writer.err = none)
    (hroom : totalSize entries ≤ w.writer.available)
    (hfit : ∀ x ∈ entries, entrySize x.type x.key x.value ≤ maxRecordSize) :
    (∀ entryType key value, ¬validOpType entryType →
      append w entryType key value = (.error .invalidOpType, w) ∧
      appendWithSequence w entryType key value seq = (.error .invalidOpType, w)) ∧
    (appendBatch w entries).2.log =
      w.log ++ ((batchRecords entries w.nextSequence).map frame).flatten ∧
    (appendBatch w entries).2.nextSequence = w.nextSequence + 1 ∧
    (appendBatchWithSequence w entries seq).2.log =
      w.log ++ ((batchRecords entries seq).map frame).flatten := by
  refine ⟨fun t k v hop => by simp [append, appendWithSequence, hact, statusError, hop], ?_⟩
  obtain ⟨hok, -, hlog⟩ := writeBatch_fits (warnOverflow w w.nextSequence) entries
    w.nextSequence (by simpa using herr) (by simpa using hroom) hfit
  obtain ⟨hok', -, hlog'⟩ := writeBatch_fits (warnOverflow w seq) entries seq
    (by simpa using herr) (by simpa using hroom) hfit
  obtain ⟨w1, hb⟩ : ∃ w1, writeBatch (warnOverflow w w.nextSequence) entries w.nextSequence =
      (none, w1) := ⟨_, Prod.ext hok rfl⟩
  obtain ⟨w2, hb'⟩ : ∃ w2, writeBatch (warnOverflow w seq) entries seq = (none, w2) :=
    ⟨_, Prod.ext hok' rfl⟩
  rw [hb] at hlog
  rw [hb'] at hlog'
  have htail : (appendBatch w entries).2 =
      (maybeSync { w1 with nextSequence := w.nextSequence + 1 }).2 := by
    simp only [appendBatch, hact, statusError, if_neg hne, if_neg (UInt64.not_le.mpr hnext),
      warnOverflow_nextSequence]
    exact writeBatch_sync_snd (fun w' => { w' with nextSequence := w.nextSequence + 1 }) hb
  have htail' : (appendBatchWithSequence w entries seq).2 = (maybeSync
      (if seq + 1 > w2.nextSequence then { w2 with nextSequence := seq + 1 } else w2)).2 := by
    simp only [appendBatchWithSequence, hact, statusError, if_neg hne,
      if_neg (UInt64.not_le.mpr hseq)]
    exact writeBatch_sync_snd
      (fun w' => if seq + 1 > w'.nextSequence then { w' with nextSequence := seq + 1 } else w') hb'
  have hsy := maybeSync_synced { w1 with nextSequence := w.nextSequence + 1 }
  have hsy' := maybeSync_synced
    (if seq + 1 > w2.nextSequence then { w2 with nextSequence := seq + 1 } else w2)
  have hraise : (if seq + 1 > w2.nextSequence then { w2 with nextSequence := seq + 1 }
      else w2).log = w2.log := by
    split <;> rfl
  refine ⟨?_, by rw [htail, hsy.frame.nextSequence], ?_⟩
  · rw [htail, hsy.log, ← warnOverflow_log w w.nextSequence]
    exact hlog
  · rw [htail', hsy'.log, hraise, ← warnOverflow_log w seq]
    exact hlog'

theorem appendBatch_skips_opType_check_zero :
    (newWAL ⟨.syncNone, 0⟩ []).status = .active ∧ [(⟨0, 0, [1], [2]⟩ : Entry)] ≠ [] ∧ (newWAL ⟨.syncNone, 0⟩ []).nextSequence < maxSequenceNumber ∧
    (7 : UInt64) < maxSequenceNumber ∧ (newWAL ⟨.syncNone, 0⟩ []).writer.err = none ∧
    totalSize [(⟨0, 0, [1], [2]⟩ : Entry)] ≤ (newWAL ⟨.syncNone, 0⟩ []).writer.available ∧
    (∀ x ∈ [(⟨0, 0, [1], [2]⟩ : Entry)], entrySize x.type x.key x.value ≤ maxRecordSize) ∧
    ((∀ entryType key value, ¬validOpType entryType →
      append (newWAL ⟨.syncNone, 0⟩ []) entryType key value = (.error .invalidOpType, (newWAL ⟨.syncNone, 0⟩ [])) ∧
      appendWithSequence (newWAL ⟨.syncNone, 0⟩ []) entryType key value 7 = (.error .invalidOpType, (newWAL ⟨.syncNone, 0⟩ []))) ∧
    (appendBatch (newWAL ⟨.syncNone, 0⟩ []) [(⟨0, 0, [1], [2]⟩ : Entry)]).2.log =
      (newWAL ⟨.syncNone, 0⟩ []).log ++ ((batchRecords [(⟨0, 0, [1], [2]⟩ : Entry)] (newWAL ⟨.syncNone, 0⟩ []).nextSequence).map frame).flatten ∧
    (appendBatch (newWAL ⟨.syncNone, 0⟩ []) [(⟨0, 0, [1], [2]⟩ : Entry)]).2.nextSequence = (newWAL ⟨.syncNone, 0⟩ []).nextSequence + 1 ∧
    (appendBatchWithSequence (newWAL ⟨.syncNone, 0⟩ []) [(⟨0, 0, [1], [2]⟩ : Entry)] 7).2.log =
      (newWAL ⟨.syncNone, 0⟩ []).log ++ ((batchRecords [(⟨0, 0, [1], [2]⟩ : Entry)] 7).map frame).flatten) :=
  ⟨rfl, by decide, by decide, by decide, rfl, by decide, by decide,
    appendBatch_skips_opType_check _ _ 7 rfl (by decide) (by decide) (by decide) rfl (by decide)
      (by decide)⟩

end Kevo.Wal
