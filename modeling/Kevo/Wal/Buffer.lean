import Kevo.Wal.Run

/-! The writer and the file across calls. Every call of the WAL touches its `bufio.Writer` and its
file only by `Write` and `Flush` on the writer and, after a flush that succeeded, `Sync` and
`Close` on the file; the batch paths may also install, in place of a smaller writer, a new one of
`totalSize + 1024` bytes. So a property of the writer and the file that these keep
(`IoInvariant`) holds after every run (`run_holds`). Four instances:

* The buffer never holds more than the writer's size, 64 KiB unless a batch installed a larger
  writer, so the bytes of the log outside the file are bounded (`run_unflushed_le`).
* The writer never shrinks (`run_writer_size_le`): the batch paths' comment calls the larger
  writer temporary, but no call restores the 64 KiB one.
* `bufio.Writer` keeps the first error of a write: from then on every `Write` and `Flush` returns
  it and touches nothing, so the WAL never writes a byte again, and `Close` on a WAL that is not
  closed fails at its flush and never closes the file (`run_writer_failed`).
* Once the file is closed, no call changes it (`run_file_closed`), although appends that
  `SetActive` lets through after `Close` are acknowledged, their records in the buffer
  (`append_closed_file_acknowledged`). -/

namespace Kevo.Wal

/-! ### The writer's calls -/

/-- The buffer of `wr` holds at most its size, which is at most `n`. -/
structure Writer.Within (n : Nat) (wr : Writer) : Prop where
  buf : wr.buf.length ≤ wr.size
  size : wr.size ≤ n

theorem Writer.Within.mono {n m : Nat} {wr : Writer} (h : wr.Within n) (hnm : n ≤ m) :
    wr.Within m :=
  ⟨h.buf, h.size.trans hnm⟩

theorem Writer.flush_buf_le (wr : Writer) (f : File) :
    (wr.flush f).2.1.buf.length ≤ wr.buf.length := by
  unfold Writer.flush
  split
  · exact le_rfl
  · split
    · exact le_rfl
    · split <;> simp

theorem Writer.flush_within {n : Nat} {wr : Writer} (h : wr.Within n) (f : File) :
    (wr.flush f).2.1.Within n :=
  ⟨by rw [Writer.flush_size]; exact (Writer.flush_buf_le wr f).trans h.buf,
    by rw [Writer.flush_size]; exact h.size⟩

/-- The copy at the end of `Write` stays within the buffer when what it copies fits. -/
theorem Writer.finish_within {n nn : Nat} {wr : Writer} (h : wr.Within n) (f : File) {p : Bytes}
    (hfit : wr.err = none → p.length ≤ wr.available) : (wr.finish f nn p).2.1.Within n := by
  unfold Writer.finish
  split
  · exact h
  · have hp := hfit ‹_›
    have hb := h.buf
    refine ⟨?_, h.size⟩
    simp only [List.length_append, Writer.available] at hp ⊢
    omega

/-- A write straight to the file copies nothing into the empty buffer unless the file failed. -/
theorem Writer.direct_within {n nn : Nat} {wr : Writer} (h : wr.Within n) (hb : wr.buf = [])
    (f : File) (p : Bytes) : (wr.direct f nn p).2.1.Within n := by
  have hl := @File.write_length f p
  rcases hfw : f.write p with ⟨⟨k, e⟩, f'⟩
  rw [hfw] at hl
  simp only [Writer.direct, hfw]
  refine Writer.finish_within (show ({ wr with err := e } : Writer).Within n from
    ⟨by simp [hb], h.size⟩) f' fun he => ?_
  have hk : k = p.length := hl he
  simp [hk]

/-- `bufio.Writer.Write` never overfills the buffer: each branch copies into it only what fits. -/
theorem Writer.write_within {n : Nat} {wr : Writer} (h : wr.Within n) (f : File) (p : Bytes) :
    (wr.write f p).2.1.Within n := by
  unfold Writer.write
  split
  · rename_i hc
    exact Writer.finish_within h f fun he => hc.resolve_right (by simp [he])
  split
  · exact Writer.direct_within h ‹_› f p
  have hpre : ({ wr with buf := wr.buf ++ p.take wr.available } : Writer).Within n := by
    refine ⟨?_, h.size⟩
    have := h.buf
    simp only [List.length_append, List.length_take, Writer.available]
    omega
  have hfl := Writer.flush_within hpre f
  have herr := Writer.flush_err { wr with buf := wr.buf ++ p.take wr.available } f
  have hok := @Writer.flush_ok { wr with buf := wr.buf ++ p.take wr.available } f
  rcases hflush : Writer.flush { wr with buf := wr.buf ++ p.take wr.available } f with
    ⟨e1, w1, f1⟩
  rw [hflush] at hfl herr hok
  dsimp only at hfl herr hok ⊢
  split
  · rename_i hc
    exact Writer.finish_within hfl f1 fun he => hc.resolve_right (by simp [he])
  · rename_i hc
    have he : e1 = none := by rw [← herr]; simpa using (not_or.mp hc).2
    exact Writer.direct_within hfl (hok he) f1 _

@[simp] theorem Writer.finish_size (wr : Writer) (f : File) (nn : Nat) (p : Bytes) :
    (wr.finish f nn p).2.1.size = wr.size := by
  unfold Writer.finish; split <;> rfl

@[simp] theorem Writer.direct_size (wr : Writer) (f : File) (nn : Nat) (p : Bytes) :
    (wr.direct f nn p).2.1.size = wr.size := by
  rcases hfw : f.write p with ⟨⟨k, e⟩, f'⟩
  simp [Writer.direct, hfw]

/-- `Write` keeps the size of the buffer, as `Flush` does. -/
theorem Writer.write_size (wr : Writer) (f : File) (p : Bytes) :
    (wr.write f p).2.1.size = wr.size := by
  have hs := Writer.flush_size { wr with buf := wr.buf ++ p.take wr.available } f
  unfold Writer.write
  rcases hflush : Writer.flush { wr with buf := wr.buf ++ p.take wr.available } f with
    ⟨e1, w1, f1⟩
  rw [hflush] at hs
  dsimp only at hs ⊢
  split_ifs <;> simp [hs]

theorem Writer.flush_of_err {wr : Writer} {e : IOError} (he : wr.err = some e) (f : File) :
    wr.flush f = (some e, wr, f) := by
  simp [Writer.flush, he]

@[simp] theorem Writer.finish_file (wr : Writer) (f : File) (nn : Nat) (p : Bytes) :
    (wr.finish f nn p).2.2 = f := by
  unfold Writer.finish; split <;> rfl

theorem Writer.flush_file_closed (wr : Writer) {f : File} (h : f.isOpen = false) :
    (wr.flush f).2.2 = f := by
  unfold Writer.flush
  split
  · rfl
  · split
    · rfl
    · simp only [File.write_closed h]

/-- On a closed file, `Write` fills the buffer or fails, and the file stays as it was. -/
theorem Writer.write_file_closed (wr : Writer) {f : File} (h : f.isOpen = false) (p : Bytes) :
    (wr.write f p).2.2 = f := by
  have hdirect : ∀ (w : Writer) nn p, (w.direct f nn p).2.2 = f := by
    intro w nn p
    simp only [Writer.direct, File.write_closed h, Writer.finish_file]
  unfold Writer.write
  split
  · exact Writer.finish_file ..
  split
  · exact hdirect ..
  have hfl := Writer.flush_file_closed { wr with buf := wr.buf ++ p.take wr.available } h
  rcases hflush : Writer.flush { wr with buf := wr.buf ++ p.take wr.available } f with
    ⟨e1, w1, f1⟩
  rw [hflush] at hfl
  dsimp only at hfl ⊢
  subst hfl
  split
  · exact Writer.finish_file ..
  · exact hdirect ..

/-! ### Properties that every call keeps -/

@[simp] theorem warnOverflow_file (w : WAL) (seq : UInt64) : (warnOverflow w seq).file = w.file := by
  unfold warnOverflow; split <;> rfl

/-- A property of the writer and the file that each call the WAL makes on them keeps: `Write` and
`Flush` on the writer, and `Sync` and `Close` on the file, which the WAL makes only after a flush
that succeeded, so with no error held by the writer. -/
structure IoInvariant (Q : Writer → File → Prop) : Prop where
  write : ∀ wr f p, Q wr f → Q (wr.write f p).2.1 (wr.write f p).2.2
  flush : ∀ wr f, Q wr f → Q (wr.flush f).2.1 (wr.flush f).2.2
  sync : ∀ wr f, Q wr f → wr.err = none → Q wr f.sync.2
  close : ∀ wr f, Q wr f → wr.err = none → Q wr f.close.2

/-- `Q` holds of the writer and the file of `w`. -/
def Holds (Q : Writer → File → Prop) (w : WAL) : Prop := Q w.writer w.file

/-- The new writer that a batch of `size - 1024` bytes may install, in place of a smaller one,
keeps `Q`. -/
def NewWriterKeeps (Q : Writer → File → Prop) (size : Nat) : Prop :=
  ∀ wr f, Q wr f → wr.err = none → wr.size < size → Q (Writer.new size) f

section Keeps

variable {Q : Writer → File → Prop} {w : WAL}

theorem writeRecordData_holds (hQ : IoInvariant Q) (h : Holds Q w) (header payload : Bytes) :
    Holds Q (writeRecordData w header payload).2 := by
  have h1 := hQ.write _ _ header h
  rcases hw1 : w.writer.write w.file header with ⟨⟨_, _ | e⟩, wr, f⟩ <;> rw [hw1] at h1
  · have h2 := hQ.write _ _ payload h1
    rcases hw2 : wr.write f payload with ⟨⟨_, _ | e⟩, wr', f'⟩ <;> rw [hw2] at h2 <;>
      simp only [writeRecordData, hw1, hw2] <;> exact h2
  · simp only [writeRecordData, hw1]
    exact h1

theorem writeRawRecord_holds (hQ : IoInvariant Q) (h : Holds Q w) (recordType : UInt8)
    (data : Bytes) : Holds Q (writeRawRecord w recordType data).2 := by
  unfold writeRawRecord
  split
  · exact h
  · exact writeRecordData_holds hQ h _ _

theorem writeRecord_holds (hQ : IoInvariant Q) (h : Holds Q w) (recordType entryType : UInt8)
    (seqNum : UInt64) (key value : Bytes) :
    Holds Q (writeRecord w recordType entryType seqNum key value).2 := by
  unfold writeRecord
  split
  · exact h
  · exact writeRawRecord_holds hQ h _ _

theorem writeRecords_holds (hQ : IoInvariant Q) (recs : List (UInt8 × Bytes)) (h : Holds Q w) :
    Holds Q (writeRecords w recs).2 := by
  induction recs generalizing w with
  | nil => exact h
  | cons r rest ih =>
    obtain ⟨t, data⟩ := r
    have h1 := writeRawRecord_holds hQ h t data
    rcases hw : writeRawRecord w t data with ⟨_ | e, w'⟩ <;> rw [hw] at h1 <;>
      simp only [writeRecords, hw]
    · exact ih h1
    · exact h1

theorem syncLocked_holds (hQ : IoInvariant Q) (h : Holds Q w) : Holds Q (syncLocked w).2 := by
  unfold syncLocked
  split
  · exact h
  · exact h
  · have hf := hQ.flush _ _ h
    have herr := Writer.flush_err w.writer w.file
    rcases hfl : w.writer.flush w.file with ⟨_ | e, wr, f⟩ <;> rw [hfl] at hf herr <;>
      dsimp only
    · have hs := hQ.sync wr f hf herr
      split <;> rename_i hsync <;> rw [hsync] at hs <;> exact hs
    · exact hf

theorem maybeSync_holds (hQ : IoInvariant Q) (h : Holds Q w) : Holds Q (maybeSync w).2 := by
  unfold maybeSync
  dsimp only
  split
  · exact syncLocked_holds hQ h
  · exact h

theorem appendEntry_holds (hQ : IoInvariant Q) (h : Holds Q w) (entryType : UInt8)
    (seqNum : UInt64) (key value : Bytes) : Holds Q (appendEntry w entryType seqNum key value).2 := by
  have h1 := writeRecords_holds hQ (entryRecords entryType seqNum key value) h
  unfold appendEntry
  rw [appendEntry_written]
  rcases hr : writeRecords w (entryRecords entryType seqNum key value) with ⟨_ | e, w'⟩ <;>
    rw [hr] at h1 <;> dsimp only
  · have h2 := maybeSync_holds hQ h1
    rcases hm : maybeSync w' with ⟨_ | e, w''⟩ <;> rw [hm] at h2 <;> exact h2
  · exact h1

theorem append_holds (hQ : IoInvariant Q) (h : Holds Q w) (entryType : UInt8) (key value : Bytes) :
    Holds Q (append w entryType key value).2 := by
  unfold append
  split
  · exact h
  split_ifs <;> first | exact h | exact appendEntry_holds hQ (by simpa [Holds] using h) ..

theorem appendWithSequence_holds (hQ : IoInvariant Q) (h : Holds Q w) (entryType : UInt8)
    (key value : Bytes) (seq : UInt64) :
    Holds Q (appendWithSequence w entryType key value seq).2 := by
  unfold appendWithSequence
  split
  · exact h
  split_ifs <;> first | exact h | exact appendEntry_holds hQ (by simpa [Holds] using h) ..

theorem writeEntries_holds (hQ : IoInvariant Q) (seqNum : UInt64) (i : Nat) (entries : List Entry)
    (h : Holds Q w) : Holds Q (writeEntries w seqNum i entries).2 := by
  induction entries generalizing w i with
  | nil => exact h
  | cons e rest ih =>
    have h1 := writeRecord_holds hQ h recordTypeFull e.type seqNum e.key e.value
    rcases hr : writeRecord w recordTypeFull e.type seqNum e.key e.value with ⟨_ | err, w'⟩ <;>
      rw [hr] at h1 <;> simp only [writeEntries, hr]
    · exact ih (i + 1) h1
    · exact h1

/-- The preparation of a batch: a flush, and the larger writer when the batch does not fit the
buffer. -/
theorem writeBatch_holds (hQ : IoInvariant Q) {entries : List Entry}
    (hnew : NewWriterKeeps Q (totalSize entries + 1024)) (h : Holds Q w) (seqNum : UInt64) :
    Holds Q (writeBatch w entries seqNum).2 := by
  unfold writeBatch
  by_cases hc : totalSize entries > w.writer.available
  · have hf := hQ.flush _ _ h
    have herr := Writer.flush_err w.writer w.file
    have hsz := Writer.flush_size w.writer w.file
    rcases hfl : w.writer.flush w.file with ⟨_ | e, wr, f⟩ <;> rw [hfl] at hf herr hsz <;>
      simp only [if_pos hc, hfl]
    · refine writeEntries_holds hQ _ _ _ ?_
      dsimp only [Holds] at hsz ⊢
      split
      · exact hnew wr f hf herr (by omega)
      · exact hf
    · exact hf
  · simp only [if_neg hc]
    exact writeEntries_holds hQ _ _ _ h

/-- The end that both batch paths share: the write loop, a change of `nextSequence` by `raise`,
and `maybeSync`. -/
theorem writeBatch_sync_holds (hQ : IoInvariant Q) {w0 : WAL} {entries : List Entry} {s : UInt64}
    (hnew : NewWriterKeeps Q (totalSize entries + 1024)) (raise : WAL → WAL) (h : Holds Q w0)
    (hraise : ∀ w', (raise w').writer = w'.writer ∧ (raise w').file = w'.file) :
    Holds Q (match writeBatch w0 entries s with
      | (some e, w') => (Outcome.error e, w')
      | (none, w') =>
        match maybeSync (raise w') with
        | (some e, w'') => (.error e, w'')
        | (none, w'') => (.ok s, w'')).2 := by
  have hb := writeBatch_holds hQ hnew h s
  rcases hwb : writeBatch w0 entries s with ⟨_ | e, w'⟩ <;> rw [hwb] at hb <;> dsimp only
  · have hm := maybeSync_holds hQ (show Holds Q (raise w') by
      rw [Holds, (hraise w').1, (hraise w').2]; exact hb)
    rcases hms : maybeSync (raise w') with ⟨_ | e, w''⟩ <;> rw [hms] at hm <;> exact hm
  · exact hb

theorem appendBatch_holds (hQ : IoInvariant Q) {entries : List Entry}
    (hnew : NewWriterKeeps Q (totalSize entries + 1024)) (h : Holds Q w) :
    Holds Q (appendBatch w entries).2 := by
  unfold appendBatch
  split
  · exact h
  split
  · exact h
  split
  · exact h
  simp only [warnOverflow_nextSequence]
  exact writeBatch_sync_holds hQ hnew (fun w' => { w' with nextSequence := w.nextSequence + 1 })
    (by simpa [Holds] using h) fun _ => ⟨rfl, rfl⟩

theorem appendBatchWithSequence_holds (hQ : IoInvariant Q) {entries : List Entry}
    (hnew : NewWriterKeeps Q (totalSize entries + 1024)) (h : Holds Q w) (startSequence : UInt64) :
    Holds Q (appendBatchWithSequence w entries startSequence).2 := by
  unfold appendBatchWithSequence
  split
  · exact h
  split
  · exact h
  split
  · exact h
  exact writeBatch_sync_holds hQ hnew
    (fun w' => if startSequence + 1 > w'.nextSequence then
      { w' with nextSequence := startSequence + 1 } else w') (by simpa [Holds] using h)
    fun w' => by dsimp only; split <;> exact ⟨rfl, rfl⟩

theorem appendExactBytes_holds (hQ : IoInvariant Q) (h : Holds Q w) (rawBytes : Bytes)
    (seqNum : UInt64) : Holds Q (appendExactBytes w rawBytes seqNum).2 := by
  have hraise : Holds Q (if seqNum ≥ w.nextSequence then { w with nextSequence := seqNum + 1 }
      else w) := by split <;> exact h
  have h1 := writeRecordData_holds hQ hraise (rawBytes.take headerSize) (rawBytes.drop headerSize)
  unfold appendExactBytes
  split
  · exact h
  by_cases hsmall : rawBytes.length < headerSize
  · rw [if_pos hsmall]; exact h
  dsimp only
  rw [if_neg hsmall]
  by_cases hsize : rawBytes.length ≠ headerSize + getLE ((rawBytes.drop 4).take 2)
  · rw [if_pos hsize]; exact h
  rw [if_neg hsize]
  rcases hr : writeRecordData (if seqNum ≥ w.nextSequence then { w with nextSequence := seqNum + 1 }
      else w) (rawBytes.take headerSize) (rawBytes.drop headerSize) with ⟨_ | e, w'⟩ <;>
    rw [hr] at h1 <;> dsimp only
  · have h2 := maybeSync_holds hQ h1
    rcases rawBytes.drop headerSize with _ | ⟨b, bs⟩ <;> dsimp only
    · exact h1
    · rcases hm : maybeSync w' with ⟨_ | e, w''⟩ <;> rw [hm] at h2 <;> exact h2
  · exact h1

theorem close_holds (hQ : IoInvariant Q) (h : Holds Q w) : Holds Q (close w).2 := by
  unfold close
  split
  · exact h
  have hf := hQ.flush _ _ h
  have herr := Writer.flush_err w.writer w.file
  rcases hfl : w.writer.flush w.file with ⟨_ | e, wr, f⟩ <;> rw [hfl] at hf herr <;> dsimp only
  · have hs := hQ.sync wr f hf herr
    rcases hsync : f.sync with ⟨_ | e, f1⟩ <;> rw [hsync] at hs <;> dsimp only
    · have hc := hQ.close wr f1 hs herr
      rcases hcl : f1.close with ⟨_ | e, f2⟩ <;> rw [hcl] at hc <;> exact hc
    · exact hs
  · exact hf

end Keeps

/-! ### Runs -/

/-- The size of the writer a call may install: the batch paths' `totalSize + 1024`. -/
def Op.bufferSize : Op → Nat
  | .appendBatch es | .appendBatchWithSequence es _ => totalSize es + 1024
  | _ => 0

/-- Every call keeps a property of the writer and the file that the system calls keep, and that
the writer the call may install keeps. -/
theorem call_holds {Q : Writer → File → Prop} (hQ : IoInvariant Q) {w : WAL} (h : Holds Q w)
    (op : Op) (hnew : NewWriterKeeps Q op.bufferSize) : Holds Q (op.call w).2 := by
  cases op with
  | append t k v => exact append_holds hQ h t k v
  | appendWithSequence t k v s => exact appendWithSequence_holds hQ h t k v s
  | appendBatch es => exact appendBatch_holds hQ hnew h
  | appendBatchWithSequence es s => exact appendBatchWithSequence_holds hQ hnew h s
  | appendExactBytes raw s => exact appendExactBytes_holds hQ h raw s
  | updateNextSequence m =>
    show Q (updateNextSequence w m).writer (updateNextSequence w m).file
    unfold updateNextSequence
    split
    · simpa [Holds] using h
    · exact h
  | sync => rw [Holds, Op.call, sync_snd]; exact syncLocked_holds hQ h
  | setRotating => exact h
  | setActive => exact h
  | close => exact close_holds hQ h

theorem run_holds {Q : Writer → File → Prop} (hQ : IoInvariant Q) {w : WAL} (h : Holds Q w)
    (ops : List Op) (hnew : ∀ op ∈ ops, NewWriterKeeps Q op.bufferSize) :
    Holds Q (run w ops).2 := by
  induction ops generalizing w with
  | nil => exact h
  | cons op ops ih =>
    exact ih (call_holds hQ h op (hnew op (List.mem_cons_self _ _)))
      fun op' hop' => hnew op' (List.mem_cons_of_mem _ hop')

/-! ### Bounded loss -/

theorem Writer.within_ioInvariant (n : Nat) : IoInvariant fun wr _ => wr.Within n :=
  ⟨fun _ f p h => Writer.write_within h f p, fun _ f h => Writer.flush_within h f,
    fun _ _ h _ => h, fun _ _ h _ => h⟩

/-- The largest writer a run of `ops` may leave, from a writer of `n` bytes. -/
def bufferBound (n : Nat) : List Op → Nat
  | [] => n
  | op :: ops => max op.bufferSize (bufferBound n ops)

theorem le_bufferBound (n : Nat) (ops : List Op) : n ≤ bufferBound n ops := by
  induction ops with
  | nil => exact le_rfl
  | cons op ops ih => exact ih.trans (le_max_right _ _)

theorem bufferSize_le_bufferBound (n : Nat) {ops : List Op} {op : Op} (h : op ∈ ops) :
    op.bufferSize ≤ bufferBound n ops := by
  induction ops with
  | nil => cases h
  | cons op' ops ih =>
    rcases List.mem_cons.mp h with rfl | h
    · exact le_max_left _ _
    · exact (ih h).trans (le_max_right _ _)

/-- Bounded loss: after any run from `NewWAL`, failing calls and any answers of the operating
system included, the log is the file's contents followed by at most 64 KiB, or by at most the size
of the largest batch appended plus 1 KiB when a batch was larger: the bytes that a crash of the
process, with no crash of the operating system, can lose. -/
theorem run_unflushed_le (cfg : Config) (answers : List Answer) (ops : List Op) :
    ∃ pending, (run (newWAL cfg answers) ops).2.log =
        (run (newWAL cfg answers) ops).2.file.data ++ pending ∧
      pending.length ≤ bufferBound (64 * 1024) ops :=
  have h : ((run (newWAL cfg answers) ops).2.writer).Within (bufferBound (64 * 1024) ops) :=
    @run_holds _ (Writer.within_ioInvariant _) (newWAL cfg answers)
      ⟨Nat.zero_le _, le_bufferBound _ ops⟩ ops
      fun _ hop _ _ _ _ _ => ⟨Nat.zero_le _, bufferSize_le_bufferBound _ hop⟩
  ⟨_, rfl, h.buf.trans h.size⟩

/-- A writer of at least `n` bytes: `Write` and `Flush` keep the size of the buffer. -/
theorem Writer.size_ioInvariant (n : Nat) : IoInvariant fun wr _ => n ≤ wr.size :=
  ⟨fun wr f p h => (Writer.write_size wr f p).symm ▸ h,
    fun wr f h => (Writer.flush_size wr f).symm ▸ h,
    fun _ _ h _ => h, fun _ _ h _ => h⟩

/-- The writer never shrinks: a call replaces it only when a batch does not fit it, and then by a
larger one, and no call puts back a smaller one. So once a batch has replaced the 64 KiB writer of
`NewWAL`, the 64 KiB writer never comes back, although the batch paths' comment calls the larger
writer a temporary expansion. -/
theorem run_writer_size_le (w : WAL) (ops : List Op) :
    w.writer.size ≤ (run w ops).2.writer.size :=
  run_holds (Writer.size_ioInvariant w.writer.size) le_rfl ops
    fun _ _ _ _ h _ hlt => (h.trans_lt hlt).le

/-! ### A writer that failed -/

/-- A writer holding an error, and a file, that every call leaves as they are. -/
theorem Writer.failed_ioInvariant {wr0 : Writer} {e : IOError} (he : wr0.err = some e)
    (f0 : File) : IoInvariant fun wr f => wr = wr0 ∧ f = f0 :=
  ⟨by rintro _ _ p ⟨rfl, rfl⟩; simp [Writer.write_err _ p he],
    by rintro _ _ ⟨rfl, rfl⟩; simp [Writer.flush_of_err he],
    by rintro _ _ ⟨rfl, -⟩ h; simp [he] at h,
    by rintro _ _ ⟨rfl, -⟩ h; simp [he] at h⟩

/-- With its writer failed, a call leaves the writer and the file as they are. -/
theorem call_writer_failed {w : WAL} {e : IOError} (herr : w.writer.err = some e) (op : Op) :
    (op.call w).2.writer = w.writer ∧ (op.call w).2.file = w.file :=
  call_holds (Writer.failed_ioInvariant herr w.file) ⟨rfl, rfl⟩ op
    fun _ _ h h' => by rw [h.1, herr] at h'; cases h'

/-- A failed write poisons the WAL: once its writer holds an error, as after a flush that failed,
every later call leaves the writer and the file as they are. So no later call adds a byte to the
log, no call acknowledges any bytes (an append that returned a sequence number would have added its
records), and `Close` on a WAL that is not closed fails at its flush, so an open file stays open. -/
theorem run_writer_failed (w : WAL) (e : IOError) (herr : w.writer.err = some e) (ops : List Op) :
    (run w ops).2.writer = w.writer ∧ (run w ops).2.file = w.file ∧ written w ops = [] := by
  induction ops generalizing w with
  | nil => exact ⟨rfl, rfl, rfl⟩
  | cons op ops ih =>
    obtain ⟨hwr, hf⟩ := call_writer_failed herr op
    obtain ⟨ihw, ihf, ihwr⟩ := ih (op.call w).2 (by rw [hwr]; exact herr)
    refine ⟨ihw.trans hwr, ihf.trans hf, ?_⟩
    rw [written, ihwr, List.append_nil]
    rcases hr : (op.call w).1 with a | _ | _
    · have hlog := (call_stepped op w).ok a hr
      rwa [WAL.log, WAL.log, hwr, hf, List.self_eq_append_right] at hlog
    all_goals rfl

/-- A WAL whose writer failed: the first system call, the flush of `Sync`, failed. -/
def failedWriter : WAL := (run (newWAL ⟨.syncNone, 0⟩ [.fail 0]) [.append opTypePut [1] [2], .sync]).2

theorem run_writer_failed_after_sync :
    failedWriter.writer.err = some .failed ∧
      (run failedWriter [.append opTypePut [3] [4], .close]).2.writer = failedWriter.writer ∧
      (run failedWriter [.append opTypePut [3] [4], .close]).2.file = failedWriter.file ∧
      written failedWriter [.append opTypePut [3] [4], .close] = [] :=
  ⟨by decide, run_writer_failed _ .failed (by decide) _⟩

/-! ### A closed file -/

/-- A closed file, with the contents `d`, that every call leaves closed and with those contents. -/
theorem File.closed_ioInvariant (d : Bytes) :
    IoInvariant fun _ f => f.isOpen = false ∧ f.data = d :=
  ⟨fun wr f p h => by rw [Writer.write_file_closed wr h.1]; exact h,
    fun wr f h => by rw [Writer.flush_file_closed wr h.1]; exact h,
    fun _ f h _ => by rw [File.sync_closed h.1]; exact h,
    fun _ f h _ => by simp only [File.close, h.1]; exact h⟩

/-- After `Close` has closed the file, no call changes it: the appends that `SetActive` lets through
again only fill the buffer and never reach the file. -/
theorem run_file_closed (w : WAL) (hclosed : w.file.isOpen = false) (ops : List Op) :
    (run w ops).2.file.isOpen = false ∧ (run w ops).2.file.data = w.file.data :=
  run_holds (File.closed_ioInvariant w.file.data) ⟨hclosed, rfl⟩ ops fun _ _ _ _ h _ _ => h

/-- A WAL that `Close` closed. -/
def closedNew : WAL := (close (newWAL ⟨.syncNone, 0⟩ [])).2

theorem run_file_closed_after_close :
    closedNew.file.isOpen = false ∧
      (run closedNew [.setActive, .append opTypePut [1] [2]]).2.file.isOpen = false ∧
      (run closedNew [.setActive, .append opTypePut [1] [2]]).2.file.data = closedNew.file.data :=
  ⟨rfl, run_file_closed _ rfl _⟩

/-! ### An append into the free buffer -/

/-- An `Append` from an Active WAL that passes its checks appends its entry under
`nextSequence`, from a state with the same writer, file and configuration. -/
theorem append_eq_appendEntry {w : WAL} {entryType : UInt8} {key value : Bytes}
    (hact : w.status = .active) (hop : validOpType entryType)
    (hseq : w.nextSequence < maxSequenceNumber) :
    ∃ w0 : WAL, w0.writer = w.writer ∧ w0.file = w.file ∧ w0.cfg = w.cfg ∧
      w0.status = w.status ∧
      append w entryType key value = appendEntry w0 entryType w.nextSequence key value := by
  refine ⟨{ warnOverflow w w.nextSequence with nextSequence := w.nextSequence + 1 },
    by simp, by simp, by simp, by simp, ?_⟩
  rw [append, statusError_eq_none.mpr hact]
  simp only [if_neg (not_not.mpr hop), if_neg (UInt64.not_le.mpr hseq), warnOverflow_nextSequence]

/-- An `Append` from an Active WAL with a clean writer, of an entry that fits one record and the
free buffer, copies the entry's Full record into the buffer, with no system call, and then runs
`maybeSync`. -/
theorem append_buffered {w : WAL} {entryType : UInt8} {key value : Bytes}
    (hact : w.status = .active) (he : w.writer.err = none) (hop : validOpType entryType)
    (hseq : w.nextSequence < maxSequenceNumber)
    (hfit : entrySize entryType key value ≤ maxRecordSize)
    (hroom : headerSize + entrySize entryType key value ≤ w.writer.available) :
    ∃ w1, append w entryType key value =
        (match maybeSync w1 with
          | (some e, w'') => (.error e, w'')
          | (none, w'') => (.ok w.nextSequence, w'')) ∧
      w1.file = w.file ∧ w1.cfg = w.cfg ∧ w1.status = w.status ∧ w1.writer.err = none ∧
      w1.log = w.log ++ frame (recordTypeFull, encodePayload entryType w.nextSequence key value) := by
  obtain ⟨w0, hwr, hf, hcfg, hst, heq⟩ :=
    @append_eq_appendEntry w entryType key value hact hop hseq
  rw [heq, appendEntry, if_pos hfit]
  have hb := writeRecord_buffered w0 recordTypeFull entryType w.nextSequence hfit (hwr ▸ he)
    (hwr ▸ hroom)
  have hw := writeRecord_wrote w0 recordTypeFull entryType w.nextSequence hfit
  rcases hr : writeRecord w0 recordTypeFull entryType w.nextSequence key value with
    ⟨_ | e, w1⟩ <;> rw [hr] at hb hw
  · refine ⟨w1, rfl, hb.file.trans hf, hw.frame.cfg.trans hcfg, hw.frame.status.trans hst,
      hb.err, ?_⟩
    rw [hw.ok rfl, WAL.log, WAL.log, hwr, hf]
  · exact absurd hb.ok nofun

/-- `SetActive` lets appends through on a WAL whose file `Close` has closed: in SyncNone mode, an
`Append` of an entry that fits one record and the free buffer is acknowledged with its sequence
number, and its record is in the log, in the buffer, while the file stays as it was. -/
theorem append_closed_file_acknowledged (w : WAL) (hclosed : w.file.isOpen = false)
    (hmode : w.cfg.walSyncMode = .syncNone) (he : w.writer.err = none) (entryType : UInt8)
    (key value : Bytes) (hop : validOpType entryType) (hseq : w.nextSequence < maxSequenceNumber)
    (hfit : entrySize entryType key value ≤ maxRecordSize)
    (hroom : headerSize + entrySize entryType key value ≤ w.writer.available) :
    (append (setActive w) entryType key value).1 = .ok w.nextSequence ∧
      (append (setActive w) entryType key value).2.log =
        w.log ++ frame (recordTypeFull, encodePayload entryType w.nextSequence key value) ∧
      (append (setActive w) entryType key value).2.file = w.file ∧
      (append (setActive w) entryType key value).2.file.isOpen = false := by
  obtain ⟨w1, heq, hf, hcfg, -, -, hlog⟩ :=
    @append_buffered (setActive w) entryType key value rfl he hop hseq hfit hroom
  have hsync : maybeSync w1 = (none, w1) := by simp [maybeSync, hcfg, setActive, hmode]
  rw [heq, hsync]
  exact ⟨rfl, hlog, hf, hf ▸ hclosed⟩

theorem append_closed_file_acknowledged_put :
    closedNew.file.isOpen = false ∧ closedNew.cfg.walSyncMode = .syncNone ∧
      closedNew.writer.err = none ∧ validOpType opTypePut ∧
      closedNew.nextSequence < maxSequenceNumber ∧
      entrySize opTypePut [1] [2] ≤ maxRecordSize ∧
      headerSize + entrySize opTypePut [1] [2] ≤ closedNew.writer.available ∧
      ((append (setActive closedNew) opTypePut [1] [2]).1 = .ok closedNew.nextSequence ∧
        (append (setActive closedNew) opTypePut [1] [2]).2.log =
          closedNew.log ++ frame (recordTypeFull, encodePayload opTypePut closedNew.nextSequence [1] [2]) ∧
        (append (setActive closedNew) opTypePut [1] [2]).2.file = closedNew.file ∧
        (append (setActive closedNew) opTypePut [1] [2]).2.file.isOpen = false) :=
  ⟨by decide, by decide, by decide, by decide, by decide, by decide, by decide,
    append_closed_file_acknowledged closedNew (by decide) (by decide) (by decide) opTypePut [1] [2]
      (by decide) (by decide) (by decide) (by decide)⟩

end Kevo.Wal
