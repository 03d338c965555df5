import Kevo.Bytes

/-! The WAL's file and its buffered writer: `os.File` with the answers the operating system gives
to its system calls, and `bufio.Writer` as Go's standard library implements `Write` and `Flush`.
The bytes of the log are the file's contents followed by the buffered bytes (`Writer.log`): a flush moves
bytes from the buffer to the file and leaves the log as it was (`Writer.flush_log`), and a write
adds to the log exactly the bytes it reports as taken (`Writer.write_log`). -/

namespace Kevo.Wal

/-- An error of a system call, as `os` and `bufio` report it. -/
inductive IOError where
  /-- `os.ErrClosed`: the file was already closed. -/
  | closed
  /-- Any other failure that the operating system reports. -/
  | failed
  deriving DecidableEq, Repr

/-- The answer of the operating system to one system call on an open file: success, or failure
after the first `written` bytes of a write reached the file. -/
inductive Answer where
  | ok
  | fail (written : Nat)
  deriving DecidableEq, Repr

/-- An `os.File`: its contents, whether it is open, and the answers that the operating system will
give to the coming system calls on it. Once the answers run out, every call succeeds. -/
structure File where
  data : Bytes
  isOpen : Bool
  answers : List Answer
  deriving DecidableEq, Repr

/-- The answer to the next system call, and the file without it. -/
def File.nextAnswer (f : File) : Answer × File :=
  match f.answers with
  | [] => (.ok, f)
  | a :: rest => (a, { f with answers := rest })

/-- `os.File.Write`: the number of bytes written and the error. -/
def File.write (f : File) (p : Bytes) : (Nat × Option IOError) × File :=
  if f.isOpen then
    match f.nextAnswer with
    | (.ok, f') => ((p.length, none), { f' with data := f'.data ++ p })
    | (.fail n, f') =>
      let k := min n p.length
      ((k, some .failed), { f' with data := f'.data ++ p.take k })
  else ((0, some .closed), f)

/-- `os.File.Sync`. -/
def File.sync (f : File) : Option IOError × File :=
  if f.isOpen then
    match f.nextAnswer with
    | (.ok, f') => (none, f')
    | (.fail _, f') => (some .failed, f')
  else (some .closed, f)

/-- `os.File.Close`: the descriptor is released even when the system call reports an error. -/
def File.close (f : File) : Option IOError × File :=
  if f.isOpen then
    match f.nextAnswer with
    | (.ok, f') => (none, { f' with isOpen := false })
    | (.fail _, f') => (some .failed, { f' with isOpen := false })
  else (some .closed, f)

@[simp] theorem File.nextAnswer_data (f : File) : f.nextAnswer.2.data = f.data := by
  unfold File.nextAnswer; split <;> rfl

@[simp] theorem File.nextAnswer_isOpen (f : File) : f.nextAnswer.2.isOpen = f.isOpen := by
  unfold File.nextAnswer; split <;> rfl

theorem File.write_data (f : File) (p : Bytes) :
    (f.write p).2.data = f.data ++ p.take (f.write p).1.1 := by
  unfold File.write
  split
  · split <;> simp_all [← File.nextAnswer_data f]
  · simp

theorem File.write_length {f : File} {p : Bytes} (h : (f.write p).1.2 = none) :
    (f.write p).1.1 = p.length := by
  unfold File.write at h ⊢
  split at h
  · split at h <;> simp_all
  · cases h

theorem File.write_le (f : File) (p : Bytes) : (f.write p).1.1 ≤ p.length := by
  unfold File.write
  split
  · split <;> simp
  · simp

@[simp] theorem File.write_isOpen (f : File) (p : Bytes) : (f.write p).2.isOpen = f.isOpen := by
  unfold File.write
  split
  · split <;> simp_all [← File.nextAnswer_isOpen f]
  · rfl

theorem File.write_closed {f : File} (h : f.isOpen = false) (p : Bytes) :
    f.write p = ((0, some .closed), f) := by
  simp [File.write, h]

@[simp] theorem File.sync_data (f : File) : f.sync.2.data = f.data := by
  unfold File.sync
  split
  · split <;> simp_all [← File.nextAnswer_data f]
  · rfl

@[simp] theorem File.sync_isOpen (f : File) : f.sync.2.isOpen = f.isOpen := by
  unfold File.sync
  split
  · split <;> simp_all [← File.nextAnswer_isOpen f]
  · rfl

theorem File.sync_closed {f : File} (h : f.isOpen = false) : f.sync = (some .closed, f) := by
  simp [File.sync, h]

@[simp] theorem File.close_data (f : File) : f.close.2.data = f.data := by
  unfold File.close
  split
  · split <;> simp_all [← File.nextAnswer_data f]
  · rfl

@[simp] theorem File.close_isOpen (f : File) : f.close.2.isOpen = false := by
  unfold File.close
  split
  · split <;> rfl
  · simp_all

/-! ### The buffered writer -/

/-- A `bufio.Writer` on the WAL's file: the buffered bytes `buf[0:n]`, the size of the buffer, and
the sticky error that every later call returns. -/
structure Writer where
  buf : Bytes
  size : Nat
  err : Option IOError
  deriving DecidableEq, Repr

/-- `bufio.NewWriterSize` on a file, for a positive size. -/
def Writer.new (size : Nat) : Writer := ⟨[], size, none⟩

/-- `Available`: the free bytes of the buffer. -/
def Writer.available (w : Writer) : Nat := w.size - w.buf.length

/-- The bytes of the log: the file's contents, then the buffered bytes. -/
def Writer.log (w : Writer) (f : File) : Bytes := f.data ++ w.buf

/-- `bufio.Writer.Flush`. The file writes every byte when it reports no error, so Go's
`io.ErrShortWrite` cannot arise. -/
def Writer.flush (w : Writer) (f : File) : Option IOError × Writer × File :=
  match w.err with
  | some e => (some e, w, f)
  | none =>
    if w.buf = [] then (none, w, f)
    else
      match f.write w.buf with
      | ((_, none), f') => (none, { w with buf := [] }, f')
      | ((n, some e), f') => (some e, { w with buf := w.buf.drop n, err := some e }, f')

/-- The end of `bufio.Writer.Write` after its loop: the sticky error, or a copy of `p` into the
buffer. `nn` counts the bytes taken before. -/
def Writer.finish (w : Writer) (f : File) (nn : Nat) (p : Bytes) :
    (Nat × Option IOError) × Writer × File :=
  match w.err with
  | some e => ((nn, some e), w, f)
  | none => ((nn + p.length, none), { w with buf := w.buf ++ p }, f)

/-- A round of the loop of `bufio.Writer.Write` on an empty buffer: a large write goes straight to
the file. -/
def Writer.direct (w : Writer) (f : File) (nn : Nat) (p : Bytes) :
    (Nat × Option IOError) × Writer × File :=
  match f.write p with
  | ((n, e), f') => Writer.finish { w with err := e } f' (nn + n) (p.drop n)

/-- `bufio.Writer.Write`. Its loop runs at most twice: a round that fills the buffer and flushes
it, then, when the rest still does not fit, a round that writes the rest straight to the file. -/
def Writer.write (w : Writer) (f : File) (p : Bytes) : (Nat × Option IOError) × Writer × File :=
  if p.length ≤ w.available ∨ w.err.isSome then w.finish f 0 p
  else if w.buf = [] then w.direct f 0 p
  else
    match Writer.flush { w with buf := w.buf ++ p.take w.available } f with
    | (_, w1, f1) =>
      if (p.drop w.available).length ≤ w1.available ∨ w1.err.isSome then
        w1.finish f1 w.available (p.drop w.available)
      else w1.direct f1 w.available (p.drop w.available)

theorem Writer.flush_log (w : Writer) (f : File) :
    Writer.log (w.flush f).2.1 (w.flush f).2.2 = w.log f := by
  unfold Writer.flush
  split
  · rfl
  · split
    · rfl
    · have hd := File.write_data f w.buf
      have hl := @File.write_length f w.buf
      split <;> rename_i h <;> simp only [h] at hd hl <;> simp [Writer.log, hd, hl]

/-- The error that `Flush` returns is the writer's sticky error afterwards. -/
theorem Writer.flush_err (w : Writer) (f : File) : (w.flush f).2.1.err = (w.flush f).1 := by
  unfold Writer.flush
  split
  · assumption
  · split
    · assumption
    · split <;> simp_all

theorem Writer.flush_ok {w : Writer} {f : File} (h : (w.flush f).1 = none) :
    (w.flush f).2.1.buf = [] := by
  unfold Writer.flush at h ⊢
  split at h
  · cases h
  · split at h <;> simp_all
    split at h <;> simp_all

/-- A flush that succeeds leaves the whole log in the file. -/
theorem Writer.flush_data {w : Writer} {f : File} (h : (w.flush f).1 = none) :
    (w.flush f).2.2.data = w.log f := by
  have hl := Writer.flush_log w f
  rwa [Writer.log, Writer.flush_ok h, List.append_nil] at hl

@[simp] theorem Writer.flush_size (w : Writer) (f : File) : (w.flush f).2.1.size = w.size := by
  unfold Writer.flush; split
  · rfl
  · split
    · rfl
    · split <;> rfl

@[simp] theorem Writer.flush_isOpen (w : Writer) (f : File) :
    (w.flush f).2.2.isOpen = f.isOpen := by
  unfold Writer.flush; split
  · rfl
  · split
    · rfl
    · have := File.write_isOpen f w.buf
      split <;> simp_all

/-- A writer call that took the first `k` bytes of `p` into the log and reports `nn + k` bytes,
all of `p` when it reports no error. -/
def Took (r : (Nat × Option IOError) × Writer × File) (w : Writer) (f : File) (nn : Nat)
    (p : Bytes) : Prop :=
  ∃ k, k ≤ p.length ∧ r.1.1 = nn + k ∧ r.2.1.log r.2.2 = w.log f ++ p.take k ∧
    (r.1.2 = none → k = p.length)

theorem Writer.finish_took (w : Writer) (f : File) (nn : Nat) (p : Bytes) :
    Took (w.finish f nn p) w f nn p := by
  unfold Writer.finish
  split
  · exact ⟨0, Nat.zero_le _, rfl, by simp, by simp⟩
  · exact ⟨p.length, le_rfl, rfl, by simp [Writer.log], fun _ => rfl⟩

theorem Writer.direct_took {w : Writer} (f : File) (nn : Nat) (p : Bytes) (hw : w.buf = []) :
    Took (w.direct f nn p) w f nn p := by
  have hd := File.write_data f p
  have hl := @File.write_length f p
  have hle := File.write_le f p
  rcases hfw : f.write p with ⟨⟨n, e⟩, f'⟩
  rw [hfw] at hd hl hle
  dsimp only at hle
  simp only [Writer.direct, hfw]
  obtain ⟨k, hkle, hk, hlog, hok⟩ :=
    Writer.finish_took { w with err := e } f' (nn + n) (p.drop n)
  simp only [List.length_drop] at hkle
  refine ⟨n + k, by omega, by omega, ?_, fun h => ?_⟩
  · simp only [Writer.log, hw] at hd hlog ⊢
    rw [hlog, hd, List.append_nil, List.append_nil, List.append_assoc, ← List.take_add]
  · have hn : n = p.length := hl (by cases e <;> simp_all [Writer.finish])
    simp [hok h, hn]

theorem Writer.write_took (w : Writer) (f : File) (p : Bytes) : Took (w.write f p) w f 0 p := by
  unfold Writer.write
  split
  · exact Writer.finish_took w f 0 p
  · split
    · exact Writer.direct_took f 0 p ‹_›
    · rename_i hfit _
      have hlt : w.available < p.length := by omega
      have hflush := Writer.flush_log { w with buf := w.buf ++ p.take w.available } f
      have herr := Writer.flush_err { w with buf := w.buf ++ p.take w.available } f
      have hok := @Writer.flush_ok { w with buf := w.buf ++ p.take w.available } f
      rcases hfl : Writer.flush { w with buf := w.buf ++ p.take w.available } f with ⟨e1, w1, f1⟩
      rw [hfl] at hflush herr hok
      simp only
      have hstep : ∀ r, Took r w1 f1 w.available (p.drop w.available) → Took r w f 0 p := by
        rintro r ⟨k, hkle, hk, hlog, hdone⟩
        simp only [List.length_drop] at hkle
        refine ⟨w.available + k, by omega, by omega, ?_, fun h => ?_⟩
        · simp only [Writer.log] at hflush hlog ⊢
          rw [hlog, hflush, List.append_assoc, List.append_assoc, ← List.take_add,
            List.append_assoc]
        · simp [hdone h]; omega
      split
      · exact hstep _ (Writer.finish_took w1 f1 _ _)
      · rename_i hno
        refine hstep _ (Writer.direct_took f1 _ _ (hok ?_))
        cases e1 <;> simp_all

theorem Writer.write_log (w : Writer) (f : File) (p : Bytes) :
    Writer.log (w.write f p).2.1 (w.write f p).2.2 = w.log f ++ p.take (w.write f p).1.1 := by
  obtain ⟨k, -, hk, hlog, -⟩ := Writer.write_took w f p
  rw [hlog, hk, Nat.zero_add]

theorem Writer.write_length {w : Writer} {f : File} {p : Bytes} (h : (w.write f p).1.2 = none) :
    (w.write f p).1.1 = p.length := by
  obtain ⟨k, -, hk, -, hdone⟩ := Writer.write_took w f p
  rw [hk, hdone h, Nat.zero_add]

theorem Writer.write_le (w : Writer) (f : File) (p : Bytes) : (w.write f p).1.1 ≤ p.length := by
  obtain ⟨k, hkle, hk, -, -⟩ := Writer.write_took w f p
  omega

theorem Writer.write_isOpen (w : Writer) (f : File) (p : Bytes) :
    (w.write f p).2.2.isOpen = f.isOpen := by
  have hfinish : ∀ (w : Writer) f nn p, (w.finish f nn p).2.2 = f := by
    intro w f nn p; unfold Writer.finish; split <;> rfl
  have hdirect : ∀ (w : Writer) f nn p, (w.direct f nn p).2.2.isOpen = f.isOpen := by
    intro w f nn p
    unfold Writer.direct
    rw [hfinish, File.write_isOpen]
  unfold Writer.write
  split
  · rw [hfinish]
  · split
    · exact hdirect ..
    · split
      rename_i hfl
      have ho := Writer.flush_isOpen { w with buf := w.buf ++ p.take w.available } f
      rw [hfl] at ho
      split <;> simp only [hfinish, hdirect] <;> exact ho

/-- Everything a caller of `Write` needs: the log grows by the bytes taken, all of them when no
error is reported, and the file stays open or closed as it was. -/
theorem Writer.write_eq {w : Writer} {f : File} {p : Bytes} {n : Nat} {e : Option IOError}
    {w' : Writer} {f' : File} (h : w.write f p = ((n, e), w', f')) :
    w'.log f' = w.log f ++ p.take n ∧ n ≤ p.length ∧ (e = none → n = p.length) ∧
      f'.isOpen = f.isOpen := by
  have hl := Writer.write_log w f p
  have hle := Writer.write_le w f p
  have hn := @Writer.write_length w f p
  have ho := Writer.write_isOpen w f p
  rw [h] at hl hle hn ho
  exact ⟨hl, hle, hn, ho⟩

/-- A write that fits the free buffer of a writer with no error is a copy into the buffer. -/
theorem Writer.write_fits {w : Writer} (f : File) {p : Bytes} (h : p.length ≤ w.available)
    (he : w.err = none) : w.write f p = ((p.length, none), { w with buf := w.buf ++ p }, f) := by
  simp [Writer.write, h, Writer.finish, he]

/-- A writer holding an error takes nothing and returns that error, with no system call. -/
theorem Writer.write_err {w : Writer} (f : File) (p : Bytes) {e : IOError} (he : w.err = some e) :
    w.write f p = ((0, some e), w, f) := by
  simp [Writer.write, he, Writer.finish]

end Kevo.Wal
