import Kevo.Bytes
import Kevo.Wal.Io
import Kevo.Wal.Record
import Kevo.Wal.Log
import Kevo.Wal.Framing
import Kevo.Wal.Batch
import Kevo.Wal.ExactBytes
import Kevo.Wal.Run
import Kevo.Wal.Sequence
import Kevo.Wal.Reader
import Kevo.Wal.Replay
import Kevo.Wal.Durability
import Kevo.Wal.Reuse
import Kevo.Wal.Buffer
import Kevo.Wal.Failures
import Kevo.Memtable.SkipList
import Kevo.Memtable.MemTable
import Kevo.Memtable.Recovery
import Kevo.Memtable.Concurrency
import Kevo.Memtable.Versions
import Kevo.Memtable.Writers
import Kevo.Memtable.Restart
import Kevo.Transaction.Manager
