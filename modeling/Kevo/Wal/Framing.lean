import Kevo.Wal.Log

/-! What the record writers put in the log. `writeRecords` writes a list of records, each a type
and a payload, one after another. `writeFragmentedRecord` is `writeRecords` on `fragments`, and
`writeRecord` on one Full record, so `Append` adds to the log the frames of `entryRecords`. The
main result, `append_frames`, is the framing of one entry: the records' shape, their header fields,
the decoding of their payloads, and that no append fails because a record is too large. -/

namespace Kevo.Wal

/-- `w'` agrees with `w` on all but the writer, the file's contents and answers, and the byte
counters: what writing records changes. -/
structure Frame (w w' : WAL) : Prop where
  cfg : w'.cfg = w.cfg
  nextSequence : w'.nextSequence = w.nextSequence
  status : w'.status = w.status
  overflowWarning : w'.overflowWarning = w.overflowWarning
  isOpen : w'.file.isOpen = w.file.isOpen

theorem Frame.refl (w : WAL) : Frame w w := ⟨rfl, rfl, rfl, rfl, rfl⟩

theorem Frame.trans {w1 w2 w3 : WAL} (h1 : Frame w1 w2) (h2 : Frame w2 w3) : Frame w1 w3 :=
  ⟨h2.cfg.trans h1.cfg, h2.nextSequence.trans h1.nextSequence, h2.status.trans h1.status,
    h2.overflowWarning.trans h1.overflowWarning, h2.isOpen.trans h1.isOpen⟩

/-- An error of a write into the buffered writer. -/
def WalError.IsWrite (e : WalError) : Prop :=
  ∃ io, e = .writeRecordHeader io ∨ e = .writeRecordPayload io

/-- What a record writer did from `w`: it kept the frame, added a prefix of `bytes` to the log,
all of `bytes` when it reports no error, and otherwise an error of a write. -/
structure Wrote (w : WAL) (r : Option WalError × WAL) (bytes : Bytes) : Prop where
  frame : Frame w r.2
  grows : ∃ pre, pre <+: bytes ∧ r.2.log = w.log ++ pre
  ok : r.1 = none → r.2.log = w.log ++ bytes
  error : ∀ e, r.1 = some e → e.IsWrite

theorem writeRecordData_wrote (w : WAL) (header payload : Bytes) :
    Wrote w (writeRecordData w header payload) (header ++ payload) := by
  rcases h1 : w.writer.write w.file header with ⟨⟨n1, e1⟩, wr, f⟩
  obtain ⟨l1, le1, n1ok, o1⟩ := Writer.write_eq h1
  cases e1 with
  | some e =>
    simp only [writeRecordData, h1]
    refine ⟨⟨rfl, rfl, rfl, rfl, o1⟩, ⟨header.take n1, ?_, l1⟩, nofun,
      fun _ h => ⟨e, .inl (by cases h; rfl)⟩⟩
    exact (List.take_prefix _ _).trans (List.prefix_append _ _)
  | none =>
    have hn1 := n1ok rfl
    rcases h2 : wr.write f payload with ⟨⟨n2, e2⟩, wr', f'⟩
    obtain ⟨l2, -, n2ok, o2⟩ := Writer.write_eq h2
    rw [hn1, List.take_length] at l1
    cases e2 with
    | some e =>
      simp only [writeRecordData, h1, h2]
      refine ⟨⟨rfl, rfl, rfl, rfl, o2.trans o1⟩, ⟨header ++ payload.take n2,
        (List.prefix_append_right_inj header).mpr (List.take_prefix _ _), ?_⟩, nofun,
        fun _ h => ⟨e, .inr (by cases h; rfl)⟩⟩
      simp [WAL.log, l2, l1]
    | none =>
      simp only [writeRecordData, h1, h2]
      have hlog : wr'.log f' = w.log ++ (header ++ payload) := by
        rw [l2, l1, n2ok rfl, List.take_length, List.append_assoc]; rfl
      exact ⟨⟨rfl, rfl, rfl, rfl, o2.trans o1⟩, ⟨_, List.prefix_refl _, hlog⟩, fun _ => hlog,
        nofun⟩

/-- A writer that failed wrote a prefix of anything its bytes begin. -/
theorem Wrote.extend {w : WAL} {r : Option WalError × WAL} {a : Bytes} (h : Wrote w r a)
    (hr : r.1 ≠ none) (b : Bytes) : Wrote w r (a ++ b) :=
  ⟨h.frame, by obtain ⟨pre, hp, hl⟩ := h.grows; exact ⟨pre, hp.trans (List.prefix_append _ _), hl⟩,
    fun h' => absurd h' hr, h.error⟩

/-- A writer that succeeded, then another: their bytes one after the other. -/
theorem Wrote.seq {w : WAL} {r1 r2 : Option WalError × WAL} {a b : Bytes} (h1 : Wrote w r1 a)
    (hr : r1.1 = none) (h2 : Wrote r1.2 r2 b) : Wrote w r2 (a ++ b) := by
  have hl := h1.ok hr
  refine ⟨h1.frame.trans h2.frame, ?_, fun h => by rw [h2.ok h, hl, List.append_assoc], h2.error⟩
  obtain ⟨pre, hp, hl2⟩ := h2.grows
  exact ⟨a ++ pre, (List.prefix_append_right_inj a).mpr hp, by rw [hl2, hl, List.append_assoc]⟩

/-! ### Lists of records -/

/-- The bytes of a record in the log: its header, then its payload. -/
def frame (r : UInt8 × Bytes) : Bytes := recordHeader r.1 r.2 ++ r.2

/-- Every payload of `recs` fits a record. -/
def Fits (recs : List (UInt8 × Bytes)) : Prop := ∀ r ∈ recs, r.2.length ≤ maxRecordSize

theorem writeRawRecord_wrote (w : WAL) (recordType : UInt8) {data : Bytes}
    (h : data.length ≤ maxRecordSize) :
    Wrote w (writeRawRecord w recordType data) (frame (recordType, data)) := by
  simp only [writeRawRecord, if_neg (Nat.not_lt.mpr h)]
  exact writeRecordData_wrote ..

/-- `writeRawRecord` on each record in turn, stopping at the first error. -/
def writeRecords (w : WAL) : List (UInt8 × Bytes) → Option WalError × WAL
  | [] => (none, w)
  | (t, data) :: rest =>
    match writeRawRecord w t data with
    | (some e, w') => (some e, w')
    | (none, w') => writeRecords w' rest

theorem writeRecords_wrote (w : WAL) (recs : List (UInt8 × Bytes)) (h : Fits recs) :
    Wrote w (writeRecords w recs) (recs.map frame).flatten := by
  induction recs generalizing w with
  | nil => exact ⟨Frame.refl w, ⟨[], List.nil_prefix, by simp [writeRecords]⟩,
      fun _ => by simp [writeRecords], nofun⟩
  | cons r rest ih =>
    obtain ⟨t, data⟩ := r
    have h1 := writeRawRecord_wrote w t (h _ (List.mem_cons_self _ _))
    simp only [List.map_cons, List.flatten_cons]
    rcases hw : writeRawRecord w t data with ⟨_ | e, w'⟩
    · rw [hw] at h1
      simp only [writeRecords, hw]
      exact h1.seq rfl (ih w' fun r hr => h r (List.mem_cons_of_mem _ hr))
    · rw [hw] at h1
      simp only [writeRecords, hw]
      exact h1.extend nofun _

theorem writeRecords_append (w : WAL) (a b : List (UInt8 × Bytes)) :
    writeRecords w (a ++ b) =
      match writeRecords w a with
      | (some e, w') => (some e, w')
      | (none, w') => writeRecords w' b := by
  induction a generalizing w with
  | nil => rfl
  | cons r rest ih =>
    obtain ⟨t, data⟩ := r
    simp only [List.cons_append, writeRecords]
    split <;> simp_all

/-! ### Fragments -/

/-- The cut of `remaining` by the loop of `writeFragmentedRecord`: chunks of `MaxRecordSize` bytes
while more than `MaxRecordSize` bytes remain, and the rest. -/
def middleChunks (remaining : Bytes) : List Bytes × Bytes :=
  if maxRecordSize < remaining.length then
    let cut := middleChunks (remaining.drop maxRecordSize)
    (remaining.take maxRecordSize :: cut.1, cut.2)
  else ([], remaining)
termination_by remaining.length
decreasing_by simp only [List.length_drop, maxRecordSize] at *; omega

theorem middleChunks_flatten (remaining : Bytes) :
    (middleChunks remaining).1.flatten ++ (middleChunks remaining).2 = remaining := by
  induction remaining using middleChunks.induct with
  | case1 remaining hlt ih =>
    rw [middleChunks, if_pos hlt]
    simp only [List.flatten_cons, List.append_assoc, ih, List.take_append_drop]
  | case2 remaining hle => rw [middleChunks, if_neg hle]; rfl

theorem middleChunks_chunk (remaining : Bytes) :
    ∀ c ∈ (middleChunks remaining).1, c.length = maxRecordSize := by
  induction remaining using middleChunks.induct with
  | case1 remaining hlt ih =>
    rw [middleChunks, if_pos hlt]
    rintro c (_ | ⟨_, hc⟩)
    · simp; omega
    · exact ih c hc
  | case2 remaining hle => rw [middleChunks, if_neg hle]; nofun

theorem middleChunks_rest (remaining : Bytes) (h : remaining ≠ []) :
    (middleChunks remaining).2 ≠ [] ∧ (middleChunks remaining).2.length ≤ maxRecordSize := by
  induction remaining using middleChunks.induct with
  | case1 remaining hlt ih =>
    rw [middleChunks, if_pos hlt]
    exact ih (by simp [List.drop_eq_nil_iff]; omega)
  | case2 remaining hle => rw [middleChunks, if_neg hle]; exact ⟨h, Nat.not_lt.mp hle⟩

theorem writeMiddles_eq (w : WAL) (remaining : Bytes) :
    (writeMiddles w remaining).1 =
        (writeRecords w ((middleChunks remaining).1.map (recordTypeMiddle, ·))).1 ∧
      (writeMiddles w remaining).2.2 =
        (writeRecords w ((middleChunks remaining).1.map (recordTypeMiddle, ·))).2 ∧
      ((writeMiddles w remaining).1 = none →
        (writeMiddles w remaining).2.1 = (middleChunks remaining).2) := by
  induction w, remaining using writeMiddles.induct with
  | case1 w remaining hlt e w' hw =>
    rw [writeMiddles, middleChunks, if_pos hlt, if_pos hlt]
    simp [writeRecords, hw]
  | case2 w remaining hlt w' hw ih =>
    rw [writeMiddles, middleChunks, if_pos hlt, if_pos hlt]
    simpa [writeRecords, hw] using ih
  | case3 w remaining hle =>
    rw [writeMiddles, middleChunks, if_neg hle, if_neg hle]
    simp [writeRecords]

/-- The records of an entry that does not fit one record: a First record with the metadata and as
much of the key as fits, then Middle records and a Last record with the rest of the key and the
value part. -/
def fragments (entryType : UInt8) (seqNum : UInt64) (key value : Bytes) : List (UInt8 × Bytes) :=
  let keyInFirst := min key.length (maxRecordSize - (1 + 8 + 4))
  let cut := middleChunks (key.drop keyInFirst ++ valuePart entryType value)
  (recordTypeFirst, entryType :: (putLE seqNum.toNat 8 ++ putLE key.length 4 ++ key.take keyInFirst)) ::
    (cut.1.map (recordTypeMiddle, ·) ++ if cut.2.length > 0 then [(recordTypeLast, cut.2)] else [])

theorem writeRecords_single (w : WAL) (recordType : UInt8) (data : Bytes) :
    writeRecords w [(recordType, data)] = writeRawRecord w recordType data := by
  simp only [writeRecords]
  split <;> simp_all

/-- `writeFragmentedRecord` writes `fragments`. -/
theorem writeFragmentedRecord_eq (w : WAL) (entryType : UInt8) (seqNum : UInt64) (key value : Bytes) :
    writeFragmentedRecord w entryType seqNum key value =
      writeRecords w (fragments entryType seqNum key value) := by
  simp only [writeFragmentedRecord, fragments, writeRecords]
  rcases writeRawRecord w recordTypeFirst (entryType :: (putLE seqNum.toNat 8 ++
      putLE key.length 4 ++ key.take (min key.length (maxRecordSize - (1 + 8 + 4))))) with
    ⟨_ | e, w1⟩
  · dsimp only
    rw [writeRecords_append]
    obtain ⟨h1, h2, h3⟩ := writeMiddles_eq w1
      (key.drop (min key.length (maxRecordSize - (1 + 8 + 4))) ++ valuePart entryType value)
    rcases hm : writeMiddles w1
      (key.drop (min key.length (maxRecordSize - (1 + 8 + 4))) ++ valuePart entryType value)
      with ⟨e, rest, w2⟩
    rw [hm] at h1 h2 h3
    rcases hr : writeRecords w1 _ with ⟨e', w2'⟩
    rw [hr] at h1 h2
    subst h1 h2
    cases e with
    | some e => rfl
    | none =>
      simp only at h3 ⊢
      rw [← h3 trivial]
      split
      · rw [writeRecords_single]
      · rfl
  · rfl

/-- The records that `Append` writes for an entry: one Full record when its payload fits, else its
fragments. -/
def entryRecords (entryType : UInt8) (seqNum : UInt64) (key value : Bytes) : List (UInt8 × Bytes) :=
  if entrySize entryType key value ≤ maxRecordSize then
    [(recordTypeFull, encodePayload entryType seqNum key value)]
  else fragments entryType seqNum key value

/-- The bytes after the First record of a fragmented entry are not empty. -/
theorem fragment_rest_ne {entryType : UInt8} {key value : Bytes}
    (h : maxRecordSize < entrySize entryType key value) :
    key.drop (min key.length (maxRecordSize - (1 + 8 + 4))) ++ valuePart entryType value ≠ [] := by
  intro hnil
  have hlen := congrArg List.length hnil
  unfold valuePart at hlen
  split at hlen
  · simp at hlen
  · rename_i hdel
    simp only [ne_eq, Decidable.not_not] at hdel
    simp only [entrySize, hdel, ne_eq, not_true_eq_false, if_false, maxRecordSize] at h
    simp only [List.length_append, List.length_drop, List.length_nil, maxRecordSize] at hlen
    omega

theorem entryRecords_fits (entryType : UInt8) (seqNum : UInt64) (key value : Bytes) :
    Fits (entryRecords entryType seqNum key value) := by
  unfold entryRecords
  split
  · simpa [Fits]
  · rename_i hbig
    have hrest := middleChunks_rest _ (fragment_rest_ne (Nat.lt_of_not_le hbig))
    have hmid := middleChunks_chunk
      (key.drop (min key.length (maxRecordSize - (1 + 8 + 4))) ++ valuePart entryType value)
    simp only [Fits, fragments, List.mem_cons, List.mem_append, List.mem_map]
    rintro r (rfl | ⟨c, hc, rfl⟩ | hr)
    · simp [maxRecordSize]; omega
    · exact (hmid c hc).le
    · rw [if_pos (List.length_pos.mpr hrest.1), List.mem_singleton] at hr
      exact hr ▸ hrest.2

theorem middles_last_payloads (cut : List Bytes × Bytes) :
    ((cut.1.map (recordTypeMiddle, ·) ++
      if cut.2.length > 0 then [(recordTypeLast, cut.2)] else []).map Prod.snd).flatten =
      cut.1.flatten ++ cut.2 := by
  split <;> simp_all [Function.comp_def]

/-- The payloads of an entry's records, one after the other, are the entry's payload. -/
theorem entryRecords_payloads (entryType : UInt8) (seqNum : UInt64) (key value : Bytes) :
    ((entryRecords entryType seqNum key value).map Prod.snd).flatten =
      encodePayload entryType seqNum key value := by
  unfold entryRecords
  split
  · simp
  · simp only [fragments, List.map_cons, List.flatten_cons, middles_last_payloads,
      middleChunks_flatten, encodePayload, List.cons_append, List.append_assoc,
      List.take_append_drop, ← List.append_assoc (List.take _ key)]

/-- The types of an entry's records: one Full record, or First, Middles, Last. -/
theorem entryRecords_types (entryType : UInt8) (seqNum : UInt64) (key value : Bytes) :
    if (encodePayload entryType seqNum key value).length ≤ maxRecordSize then
      (entryRecords entryType seqNum key value).map Prod.fst = [recordTypeFull]
    else ∃ n, (entryRecords entryType seqNum key value).map Prod.fst =
      recordTypeFirst :: (List.replicate n recordTypeMiddle ++ [recordTypeLast]) := by
  rw [encodePayload_length]
  unfold entryRecords
  split
  · simp_all
  · rename_i hbig
    have hrest := (middleChunks_rest _ (fragment_rest_ne (Nat.lt_of_not_le hbig))).1
    simp only [fragments, List.map_cons, List.map_append, List.map_map]
    rw [if_pos (List.length_pos.mpr hrest)]
    simp only [Function.comp_def, List.map_const', List.map_cons, List.map_nil]
    exact ⟨_, rfl⟩

/-! ### Syncing and appending -/

/-- An error of `syncLocked`: the status check, or a failed flush or sync. -/
def WalError.IsSync (e : WalError) : Prop :=
  e = .walClosed ∨ e = .walRotating ∨ ∃ io, e = .flushBuffer io ∨ e = .syncFile io

/-- What a sync did from `w`: it kept the frame and the log, and any error is a sync's. -/
structure Synced (w : WAL) (r : Option WalError × WAL) : Prop where
  frame : Frame w r.2
  log : r.2.log = w.log
  error : ∀ e, r.1 = some e → e.IsSync

theorem syncLocked_synced (w : WAL) :
    Synced w (syncLocked w) ∧ ((syncLocked w).1 = none → (syncLocked w).2.writer.buf = []) := by
  unfold syncLocked
  split
  · exact ⟨⟨Frame.refl w, rfl, fun _ h => .inl (by cases h; rfl)⟩, nofun⟩
  · exact ⟨⟨Frame.refl w, rfl, fun _ h => .inr (.inl (by cases h; rfl))⟩, nofun⟩
  · have hl := Writer.flush_log w.writer w.file
    have hok := @Writer.flush_ok w.writer w.file
    have ho := Writer.flush_isOpen w.writer w.file
    rcases hf : w.writer.flush w.file with ⟨_ | e, wr, f⟩ <;> rw [hf] at hl hok ho <;>
      dsimp only at hl hok ho ⊢
    · have hsd := File.sync_data f
      have hso := File.sync_isOpen f
      rcases hs : f.sync with ⟨_ | e, f'⟩ <;> rw [hs] at hsd hso <;>
        dsimp only at hsd hso ⊢
      · exact ⟨⟨⟨rfl, rfl, rfl, rfl, hso.trans ho⟩, by
          simp only [WAL.log, Writer.log] at hl ⊢; rw [hsd, hl],
          nofun⟩, fun _ => hok rfl⟩
      · exact ⟨⟨⟨rfl, rfl, rfl, rfl, hso.trans ho⟩, by
          simp only [WAL.log, Writer.log] at hl ⊢; rw [hsd, hl],
          fun _ h => .inr (.inr ⟨e, .inr (by cases h; rfl)⟩)⟩, nofun⟩
    · exact ⟨⟨⟨rfl, rfl, rfl, rfl, ho⟩, hl, fun _ h => .inr (.inr ⟨e, .inl (by cases h; rfl)⟩)⟩,
        nofun⟩

theorem maybeSync_synced (w : WAL) : Synced w (maybeSync w) := by
  unfold maybeSync
  dsimp only
  split
  · exact (syncLocked_synced w).1
  · exact ⟨Frame.refl w, rfl, nofun⟩

/-- What `appendEntry` writes: the records of `entryRecords`. -/
theorem appendEntry_written (w : WAL) (entryType : UInt8) (seqNum : UInt64) (key value : Bytes) :
    (if entrySize entryType key value ≤ maxRecordSize then
        writeRecord w recordTypeFull entryType seqNum key value
      else writeFragmentedRecord w entryType seqNum key value) =
      writeRecords w (entryRecords entryType seqNum key value) := by
  unfold entryRecords
  split
  · rw [writeRecords_single, writeRecord, if_neg (Nat.not_lt.mpr ‹_›)]
  · exact writeFragmentedRecord_eq ..

/-- What a call that appends one entry did from `w`: it kept the frame, reports the entry's
sequence number on success, after which the log has grown by `bytes`, and otherwise an error of a
write or a sync. -/
structure Appended (w : WAL) (r : Outcome UInt64 × WAL) (seqNum : UInt64) (bytes : Bytes) :
    Prop where
  frame : Frame w r.2
  ok : ∀ s, r.1 = .ok s → s = seqNum ∧ r.2.log = w.log ++ bytes
  error : ∀ e, r.1 = .error e → e.IsWrite ∨ e.IsSync
  noPanic : ∀ m, r.1 ≠ .panic m

theorem appendEntry_appended (w : WAL) (entryType : UInt8) (seqNum : UInt64) (key value : Bytes) :
    Appended w (appendEntry w entryType seqNum key value) seqNum
      ((entryRecords entryType seqNum key value).map frame).flatten := by
  have hw := writeRecords_wrote w _ (entryRecords_fits entryType seqNum key value)
  unfold appendEntry
  rw [appendEntry_written]
  rcases hr : writeRecords w (entryRecords entryType seqNum key value) with ⟨_ | e, w'⟩ <;>
    rw [hr] at hw <;> dsimp only
  · have hs := maybeSync_synced w'
    rcases hm : maybeSync w' with ⟨_ | e, w''⟩ <;> rw [hm] at hs <;> dsimp only
    · exact ⟨hw.frame.trans hs.frame, fun s h => by cases h; exact ⟨rfl, hs.log.trans (hw.ok rfl)⟩,
        nofun, nofun⟩
    · exact ⟨hw.frame.trans hs.frame, nofun, fun _ h => .inr (hs.error _ (by cases h; rfl)), nofun⟩
  · exact ⟨hw.frame, nofun, fun _ h => .inl (hw.error _ (by cases h; rfl)), nofun⟩

/-- An error of the checks at the top of an append: the status, the op type, or an overflow of
the sequence number. -/
def WalError.IsGuard (e : WalError) : Prop :=
  e = .walClosed ∨ e = .walRotating ∨ e = .invalidOpType ∨ e = .sequenceOverflow

theorem statusError_guard {st : Status} {e : WalError} (h : statusError st = some e) :
    e.IsGuard := by
  cases st <;> simp [statusError] at h <;> subst h <;> simp [WalError.IsGuard]

theorem statusError_eq_none {st : Status} : statusError st = none ↔ st = .active := by
  cases st <;> simp [statusError]

@[simp] theorem warnOverflow_log (w : WAL) (seq : UInt64) : (warnOverflow w seq).log = w.log := by
  unfold warnOverflow; split <;> rfl

@[simp] theorem warnOverflow_nextSequence (w : WAL) (seq : UInt64) :
    (warnOverflow w seq).nextSequence = w.nextSequence := by
  unfold warnOverflow; split <;> rfl

@[simp] theorem warnOverflow_status (w : WAL) (seq : UInt64) :
    (warnOverflow w seq).status = w.status := by
  unfold warnOverflow; split <;> rfl

@[simp] theorem warnOverflow_writer (w : WAL) (seq : UInt64) :
    (warnOverflow w seq).writer = w.writer := by
  unfold warnOverflow; split <;> rfl

@[simp] theorem warnOverflow_cfg (w : WAL) (seq : UInt64) : (warnOverflow w seq).cfg = w.cfg := by
  unfold warnOverflow; split <;> rfl

/-- `Append` either stops at a check, changing nothing, or appends its entry under
`nextSequence` from a state whose `nextSequence` is one more. -/
theorem append_cases (w : WAL) (entryType : UInt8) (key value : Bytes) :
    (∃ e, (append w entryType key value).1 = .error e ∧ e.IsGuard ∧
      (append w entryType key value).2 = w) ∨
    (w.status = .active ∧ validOpType entryType ∧ w.nextSequence < maxSequenceNumber ∧
      ∃ w0, w0.log = w.log ∧ w0.status = w.status ∧ w0.nextSequence = w.nextSequence + 1 ∧
        append w entryType key value = appendEntry w0 entryType w.nextSequence key value) := by
  unfold append
  split
  · rename_i e hs
    exact .inl ⟨e, rfl, statusError_guard hs, rfl⟩
  · rename_i hs
    by_cases hop : validOpType entryType
    · by_cases hseq : w.nextSequence ≥ maxSequenceNumber
      · rw [if_neg (not_not.mpr hop), if_pos hseq]
        exact .inl ⟨_, rfl, .inr (.inr (.inr rfl)), rfl⟩
      · rw [if_neg (not_not.mpr hop), if_neg hseq]
        refine .inr ⟨statusError_eq_none.mp hs, hop, UInt64.not_le.mp hseq,
          { warnOverflow w w.nextSequence with nextSequence := w.nextSequence + 1 }, ?_, ?_, ?_, ?_⟩
        · exact warnOverflow_log w w.nextSequence
        · exact warnOverflow_status w w.nextSequence
        · rfl
        · simp only [warnOverflow_nextSequence]
    · rw [if_pos hop]
      exact .inl ⟨_, rfl, .inr (.inr (.inl rfl)), rfl⟩

/-- `AppendWithSequence` either stops at a check, changing nothing, or appends its entry under the
caller's sequence number from a state whose `nextSequence` has risen past it. -/
theorem appendWithSequence_cases (w : WAL) (entryType : UInt8) (key value : Bytes) (seq : UInt64) :
    (∃ e, (appendWithSequence w entryType key value seq).1 = .error e ∧ e.IsGuard ∧
      (appendWithSequence w entryType key value seq).2 = w) ∨
    (w.status = .active ∧ validOpType entryType ∧ seq < maxSequenceNumber ∧
      ∃ w0, w0.log = w.log ∧ w0.status = w.status ∧
        w0.nextSequence = (if seq ≥ w.nextSequence then seq + 1 else w.nextSequence) ∧
        appendWithSequence w entryType key value seq = appendEntry w0 entryType seq key value) := by
  unfold appendWithSequence
  split
  · rename_i e hs
    exact .inl ⟨e, rfl, statusError_guard hs, rfl⟩
  · rename_i hs
    by_cases hop : validOpType entryType
    · by_cases hseq : seq ≥ maxSequenceNumber
      · rw [if_neg (not_not.mpr hop), if_pos hseq]
        exact .inl ⟨_, rfl, .inr (.inr (.inr rfl)), rfl⟩
      · rw [if_neg (not_not.mpr hop), if_neg hseq]
        refine .inr ⟨statusError_eq_none.mp hs, hop, UInt64.not_le.mp hseq, _, ?_, ?_, ?_, rfl⟩
        all_goals split
        · exact warnOverflow_log w (seq + 1)
        · rfl
        · exact warnOverflow_status w (seq + 1)
        · rfl
        · simp_all
        · simp_all
    · rw [if_pos hop]
      exact .inl ⟨_, rfl, .inr (.inr (.inl rfl)), rfl⟩

/-- The log of `w'` is the log of `w` followed by the records of one entry: a Full record when
its payload fits, else First, Middles and Last; each header holds its payload's CRC and length, at
most `MaxRecordSize`; and the payloads, one after the other, decode to the entry, with no value
for a Delete. -/
def EntryFramed (w w' : WAL) (entryType : UInt8) (s : UInt64) (key value : Bytes) : Prop :=
  ∃ recs : List (UInt8 × Bytes), w'.log = w.log ++ (recs.map frame).flatten ∧
    (if (encodePayload entryType s key value).length ≤ maxRecordSize then
      recs.map Prod.fst = [recordTypeFull]
    else ∃ n, recs.map Prod.fst =
      recordTypeFirst :: (List.replicate n recordTypeMiddle ++ [recordTypeLast])) ∧
    (∀ r ∈ recs, r.2.length ≤ maxRecordSize ∧
      headerFields (recordHeader r.1 r.2) = ((checksumIEEE r.2).toNat, r.2.length, r.1)) ∧
    decodeEntry (recs.map Prod.snd).flatten =
      some ⟨s, entryType, key, if entryType = opTypeDelete then [] else value⟩

theorem appendEntry_framed {w w0 w' : WAL} {entryType : UInt8} {seqNum s : UInt64}
    {key value : Bytes} (hk : key.length < 2 ^ 32) (hv : value.length < 2 ^ 32)
    (hlog : w0.log = w.log) (h : appendEntry w0 entryType seqNum key value = (.ok s, w')) :
    s = seqNum ∧ EntryFramed w w' entryType s key value := by
  have ha := appendEntry_appended w0 entryType seqNum key value
  rw [h] at ha
  obtain ⟨rfl, hl⟩ := ha.ok s rfl
  refine ⟨rfl, entryRecords entryType s key value, hl.trans (by rw [hlog]),
    entryRecords_types .., fun r hr => ⟨entryRecords_fits entryType s key value r hr, ?_⟩, ?_⟩
  · exact headerFields_recordHeader _ _
      (Nat.lt_of_le_of_lt (entryRecords_fits entryType s key value r hr) (by decide))
  · rw [entryRecords_payloads, decodeEntry_encodePayload _ _ _ _ hk hv]

theorem appendEntry_not_tooLarge {w0 : WAL} {entryType : UInt8} {seqNum : UInt64}
    {key value : Bytes} {e : WalError} (h : (appendEntry w0 entryType seqNum key value).1 = .error e)
    (n m : Nat) : e ≠ .recordTooLarge n m := by
  rintro rfl
  rcases (appendEntry_appended w0 entryType seqNum key value).error _ h with
    ⟨io, h' | h'⟩ | h' | h' | ⟨io, h' | h'⟩ <;> cases h'

/-- The framing of one entry by `Append` and `AppendWithSequence`: on success the log grows by the
records of the entry under the returned sequence number, as `EntryFramed` lays them out, and no
call fails because a record is too large. -/
theorem append_frames (w : WAL) (entryType : UInt8) (key value : Bytes) (seq : UInt64)
    (hk : key.length < 2 ^ 32) (hv : value.length < 2 ^ 32) :
    (∀ s w', append w entryType key value = (.ok s, w') →
      s = w.nextSequence ∧ EntryFramed w w' entryType s key value) ∧
    (∀ s w', appendWithSequence w entryType key value seq = (.ok s, w') →
      s = seq ∧ EntryFramed w w' entryType s key value) ∧
    ∀ e, ((append w entryType key value).1 = .error e ∨
        (appendWithSequence w entryType key value seq).1 = .error e) →
      ∀ n m, e ≠ .recordTooLarge n m := by
  refine ⟨fun s w' h => ?_, fun s w' h => ?_, fun e he n m => ?_⟩
  · rcases append_cases w entryType key value with ⟨e, he, -, -⟩ | ⟨-, -, -, w0, hl, -, -, heq⟩
    · rw [h] at he; cases he
    · exact appendEntry_framed hk hv hl (heq ▸ h)
  · rcases appendWithSequence_cases w entryType key value seq with
      ⟨e, he, -, -⟩ | ⟨-, -, -, w0, hl, -, -, heq⟩
    · rw [h] at he; cases he
    · exact appendEntry_framed hk hv hl (heq ▸ h)
  · rintro rfl
    rcases he with he | he
    · rcases append_cases w entryType key value with ⟨e, he', hg, -⟩ | ⟨-, -, -, w0, -, -, -, heq⟩
      · rw [he] at he'; cases he'
        rcases hg with h | h | h | h <;> cases h
      · rw [heq] at he; exact appendEntry_not_tooLarge he n m rfl
    · rcases appendWithSequence_cases w entryType key value seq with
        ⟨e, he', hg, -⟩ | ⟨-, -, -, w0, -, -, -, heq⟩
      · rw [he] at he'; cases he'
        rcases hg with h | h | h | h <;> cases h
      · rw [heq] at he; exact appendEntry_not_tooLarge he n m rfl

/-- The law at an entry that fits one record, and at one of 40000 value bytes, whose payload
exceeds `MaxRecordSize` and so takes the First, Middle, Last branch. -/
theorem append_frames_small_and_fragmented :
    ([1] : Bytes).length < 2 ^ 32 ∧ ([2] : Bytes).length < 2 ^ 32 ∧
    ((∀ s w', append (newWAL ⟨.syncNone, 0⟩ []) opTypePut [1] [2] = (.ok s, w') →
      s = (newWAL ⟨.syncNone, 0⟩ []).nextSequence ∧
        EntryFramed (newWAL ⟨.syncNone, 0⟩ []) w' opTypePut s [1] [2]) ∧
    (∀ s w', appendWithSequence (newWAL ⟨.syncNone, 0⟩ []) opTypePut [1] [2] 7 = (.ok s, w') →
      s = 7 ∧ EntryFramed (newWAL ⟨.syncNone, 0⟩ []) w' opTypePut s [1] [2]) ∧
    ∀ e, ((append (newWAL ⟨.syncNone, 0⟩ []) opTypePut [1] [2]).1 = .error e ∨
        (appendWithSequence (newWAL ⟨.syncNone, 0⟩ []) opTypePut [1] [2] 7).1 = .error e) →
      ∀ n m, e ≠ .recordTooLarge n m) ∧
    (List.replicate 40000 (0 : UInt8)).length < 2 ^ 32 ∧
    maxRecordSize < (encodePayload opTypePut 7 [1] (List.replicate 40000 0)).length ∧
    ((∀ s w', append (newWAL ⟨.syncNone, 0⟩ []) opTypePut [1] (List.replicate 40000 0) =
        (.ok s, w') →
      s = (newWAL ⟨.syncNone, 0⟩ []).nextSequence ∧
        EntryFramed (newWAL ⟨.syncNone, 0⟩ []) w' opTypePut s [1] (List.replicate 40000 0)) ∧
    (∀ s w', appendWithSequence (newWAL ⟨.syncNone, 0⟩ []) opTypePut [1]
        (List.replicate 40000 0) 7 = (.ok s, w') →
      s = 7 ∧ EntryFramed (newWAL ⟨.syncNone, 0⟩ []) w' opTypePut s [1] (List.replicate 40000 0)) ∧
    ∀ e, ((append (newWAL ⟨.syncNone, 0⟩ []) opTypePut [1] (List.replicate 40000 0)).1 = .error e ∨
        (appendWithSequence (newWAL ⟨.syncNone, 0⟩ []) opTypePut [1]
          (List.replicate 40000 0) 7).1 = .error e) →
      ∀ n m, e ≠ .recordTooLarge n m) :=
  ⟨by decide, by decide, append_frames _ _ _ _ _ (by decide) (by decide),
    by rw [List.length_replicate]; decide,
    by rw [encodePayload_length, entrySize, List.length_replicate]; decide,
    append_frames _ _ _ _ _ (by decide) (by rw [List.length_replicate]; decide)⟩

/-! ### Appends as steps of a run -/

/-- What an append call did from `w`, as a run of calls sees it: it kept the status, it left a WAL
that is not active as it was, and when it returned `s` the log has grown by `bytes s`. -/
structure Logged (w : WAL) (r : Outcome UInt64 × WAL) (bytes : UInt64 → Bytes) : Prop where
  status : r.2.status = w.status
  inactive : w.status ≠ .active → r.2 = w
  ok : ∀ s, r.1 = .ok s → r.2.log = w.log ++ bytes s

theorem Logged.of_guard {w : WAL} {r : Outcome UInt64 × WAL} {e : WalError} (bytes : UInt64 → Bytes)
    (he : r.1 = .error e) (hw : r.2 = w) : Logged w r bytes :=
  ⟨by rw [hw], fun _ => hw, fun _ h => by rw [he] at h; cases h⟩

theorem Logged.of_appendEntry {w w0 : WAL} {entryType : UInt8} {seqNum : UInt64} {key value : Bytes}
    {r : Outcome UInt64 × WAL} (hact : w.status = .active) (hl : w0.log = w.log)
    (hs : w0.status = w.status) (hr : r = appendEntry w0 entryType seqNum key value) :
    Logged w r fun s => ((entryRecords entryType s key value).map frame).flatten := by
  have ha := appendEntry_appended w0 entryType seqNum key value
  subst hr
  refine ⟨ha.frame.status.trans hs, fun h => absurd hact h, fun s h => ?_⟩
  obtain ⟨rfl, hlog⟩ := ha.ok s h
  rw [hlog, hl]

theorem append_logged (w : WAL) (entryType : UInt8) (key value : Bytes) :
    Logged w (append w entryType key value)
      fun s => ((entryRecords entryType s key value).map frame).flatten := by
  rcases append_cases w entryType key value with ⟨e, he, -, hw⟩ | ⟨hact, -, -, w0, hl, hs, -, heq⟩
  · exact .of_guard _ he hw
  · exact .of_appendEntry hact hl hs heq

theorem appendWithSequence_logged (w : WAL) (entryType : UInt8) (key value : Bytes) (seq : UInt64) :
    Logged w (appendWithSequence w entryType key value seq)
      fun s => ((entryRecords entryType s key value).map frame).flatten := by
  rcases appendWithSequence_cases w entryType key value seq with
    ⟨e, he, -, hw⟩ | ⟨hact, -, -, w0, hl, hs, -, heq⟩
  · exact .of_guard _ he hw
  · exact .of_appendEntry hact hl hs heq

end Kevo.Wal
