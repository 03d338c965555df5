import Kevo.Wal.Replay

/-! `ReuseWAL`: the latest WAL file of a directory opened again for appending. The reused WAL's log
is the file's contents with nothing buffered, and its status is Active, so a run on it continues
the old log: when the file reads back as some entries, the log after a run in which no failing call
changed it reads back as those entries and then the ones the run's calls acknowledged
(`readEntries_reuseWAL`). -/

namespace Kevo.Wal

/-- `ReuseWAL` on a directory whose WAL files, in the name order of `FindWALFiles`, hold `files`,
with `walMaxSize` the configuration's `WALMaxSize`: no WAL when there is no file or when the latest
is at least the maximum size, else the latest file opened for appending under `nextSeq`, the
operating system giving the answers `answers` to the calls on it. -/
def reuseWAL (cfg : Config) (walMaxSize : Int) (files : List Bytes) (nextSeq : UInt64)
    (answers : List Answer) : Option WAL :=
  match files.getLast? with
  | none => none
  | some latestWAL =>
    let maxWALSize : Int := if walMaxSize > 0 then walMaxSize else 64 * 1024 * 1024
    if (latestWAL.length : Int) ≥ maxWALSize then none
    else some
      { cfg := cfg
        file := ⟨latestWAL, true, answers⟩
        writer := Writer.new (64 * 1024)
        nextSequence := nextSeq
        bytesWritten := latestWAL.length
        batchByteSize := 0
        status := .active
        overflowWarning := false }

/-- A reused WAL is Active, under `nextSeq`, and its log is the latest file's contents. -/
theorem reuseWAL_some {cfg : Config} {walMaxSize : Int} {older : List Bytes} {latest : Bytes}
    {nextSeq : UInt64} {answers : List Answer} {w : WAL}
    (h : reuseWAL cfg walMaxSize (older ++ [latest]) nextSeq answers = some w) :
    w.log = latest ∧ w.status = .active ∧ w.nextSequence = nextSeq := by
  have hlast : (older ++ [latest]).getLast? = some latest := by simp
  simp only [reuseWAL, hlast] at h
  generalize (if walMaxSize > 0 then walMaxSize else 64 * 1024 * 1024) = maxWALSize at h
  by_cases hsize : (latest.length : Int) ≥ maxWALSize
  · rw [if_pos hsize] at h; cases h
  · rw [if_neg hsize] at h
    cases h
    exact ⟨List.append_nil _, rfl, rfl⟩

/-- A run on a reused WAL adds to the latest file's contents. -/
theorem reuseWAL_run_readBack {cfg : Config} {walMaxSize : Int} {older : List Bytes} {latest : Bytes}
    {old : List Entry} (hold : ReadBack latest old) {nextSeq : UInt64} {answers : List Answer}
    {w : WAL} (hreuse : reuseWAL cfg walMaxSize (older ++ [latest]) nextSeq answers = some w)
    (ops : List Op) (hclean : NoFailedWrite w ops) (hops : ∀ op ∈ ops, op.Readable) :
    ReadBack (run w ops).2.log (old ++ writtenEntries w ops) := by
  obtain ⟨hlog, hact, -⟩ := reuseWAL_some hreuse
  exact run_readBack_from (hlog ▸ hold) ops (fun h => absurd (hact.symm.trans h) nofun) hclean hops

/-- A reused WAL continues the old log: when the latest WAL file reads back as the entries `old`,
a run on the WAL that `ReuseWAL` opens, in which no failing call changed the log and no call is an
`AppendExactBytes` or appends a key or value of `2^32` bytes or more, leaves a log that reads back
as `old` and then the entries of the append calls that succeeded, in call order. -/
theorem readEntries_reuseWAL (cfg : Config) (walMaxSize : Int) (older : List Bytes) (latest : Bytes)
    (old : List Entry) (hold : ReadBack latest old) (nextSeq : UInt64) (answers : List Answer)
    (w : WAL) (hreuse : reuseWAL cfg walMaxSize (older ++ [latest]) nextSeq answers = some w)
    (ops : List Op) (hclean : NoFailedWrite w ops) (hops : ∀ op ∈ ops, op.Readable) :
    readEntries (run w ops).2.log = old ++ writtenEntries w ops :=
  (reuseWAL_run_readBack hold hreuse ops hclean hops).readEntries_eq

/-- The file of a first session that logged one Put under sequence number 1. -/
def firstSession : Bytes := ((entryRecords opTypePut 1 [1] [2]).map frame).flatten

/-- The WAL that `ReuseWAL` opens on that file, to go on from sequence number 2. -/
def secondSession : WAL :=
  (reuseWAL ⟨.syncNone, 0⟩ 0 [firstSession] 2 []).getD (newWAL ⟨.syncNone, 0⟩ [])

theorem readEntries_reuseWAL_second_session :
    ReadBack firstSession [Entry.logged ⟨1, opTypePut, [1], [2]⟩] ∧
      reuseWAL ⟨.syncNone, 0⟩ 0 ([] ++ [firstSession]) 2 [] = some secondSession ∧
      NoFailedWrite secondSession [.append opTypeDelete [1] []] ∧
      (∀ op ∈ [Op.append opTypeDelete [1] []], op.Readable) ∧
      readEntries (run secondSession [.append opTypeDelete [1] []]).2.log =
        [Entry.logged ⟨1, opTypePut, [1], [2]⟩] ++
          writtenEntries secondSession [.append opTypeDelete [1] []] :=
  ⟨readBack_entryRecords _ _ _ _ (by decide) (by decide), rfl, by decide, by decide,
    readEntries_reuseWAL ⟨.syncNone, 0⟩ 0 [] _ _
      (readBack_entryRecords opTypePut 1 [1] [2] (by decide) (by decide)) 2 [] _ (by rfl)
      _ (by decide) (by decide)⟩

end Kevo.Wal
