import Kevo.Wal.Record

/-! The skip list under a memtable, modelled from the spec: its source is not among the sources,
only its tests. It is the ordered list of internal records at its lowest level, key ascending and,
for one key, sequence number descending, so that the newest version of a key comes first among its
records. `SkipList.insert` splices a record in at its place in that order, `SkipList.find` returns
the first record of a key, and an iterator is a live view of the records, less those above its
snapshot. A record put under a sequence number above every other version of its key is what `find`
returns afterwards (`find_insertRecord_newest`). -/

namespace Kevo.Memtable

/-- `TypeValue` and `TypeDeletion`, the kinds of a memtable record. -/
inductive ValueType where
  | value
  | deletion
  deriving DecidableEq, Repr

/-- An internal record of the skip list, as `newEntry(key, value, valueType, seqNum)` builds it. -/
structure Record where
  key : Bytes
  value : Bytes
  valueType : ValueType
  seqNum : UInt64
  deriving DecidableEq, Repr

/-- Modelled from the spec: the comparator rule of the skip list. `a` comes strictly before `b`
when its key is smaller, or when the keys are equal and its sequence number is higher. -/
def Record.before (a b : Record) : Bool :=
  match compareBytes a.key b.key with
  | .lt => true
  | .gt => false
  | .eq => b.seqNum < a.seqNum

/-- Modelled from the spec: the splice of `SkipList.Insert`, before the first record that does not
come strictly before `r`. -/
def insertRecord (r : Record) : List Record → List Record
  | [] => [r]
  | x :: xs => if x.before r then x :: insertRecord r xs else r :: x :: xs

/-- Modelled from the spec: a skip list, by the records of its lowest level. The sizes of records
are not among the sources, so `approximateSize` takes them as a parameter. -/
structure SkipList where
  records : List Record
  deriving DecidableEq, Repr

/-- `NewSkipList`. -/
def SkipList.empty : SkipList := ⟨[]⟩

/-- Modelled from the spec: `SkipList.Insert`. -/
def SkipList.insert (sl : SkipList) (r : Record) : SkipList := ⟨insertRecord r sl.records⟩

/-- Modelled from the spec: `SkipList.Find`, the first record of `key` in the skip list's order,
its newest version. -/
def SkipList.find (sl : SkipList) (key : Bytes) : Option Record := sl.records.find? (·.key = key)

/-- Modelled from the spec: `SkipList.ApproximateSize`, the sum of the sizes of the records
inserted, for a record size `size`. -/
def SkipList.approximateSize (size : Record → Nat) (sl : SkipList) : Nat :=
  sl.records.foldr (fun r acc => size r + acc) 0

/-- Modelled from the spec: an iterator of the skip list, `NewIterator` (no snapshot) or
`NewIteratorWithSnapshot(s)`. -/
structure Iterator where
  snapshot : Option UInt64
  deriving DecidableEq, Repr

/-- Modelled from the spec: the records an iterator yields from `SeekToFirst` through `Next` until
it is no longer valid. It is a live view: it reads the skip list as it is when it is positioned,
and skips the records above its snapshot. -/
def Iterator.yields (it : Iterator) (sl : SkipList) : List Record :=
  sl.records.filter fun r =>
    match it.snapshot with
    | none => true
    | some s => decide (r.seqNum ≤ s)

@[simp] theorem mem_insertRecord {x r : Record} {l : List Record} :
    x ∈ insertRecord r l ↔ x = r ∨ x ∈ l := by
  induction l with
  | nil => simp [insertRecord]
  | cons y ys ih =>
    unfold insertRecord
    split <;> simp [ih, or_left_comm]

/-- A record that comes strictly before another of the same key has a higher sequence number. -/
theorem before_same_key {a b : Record} (hk : a.key = b.key) (h : a.before b = true) :
    b.seqNum < a.seqNum := by
  simpa [Record.before, hk] using h

/-- A record of another key does not change what `find` returns. -/
theorem find_insertRecord_of_ne {r : Record} {key : Bytes} (l : List Record) (h : r.key ≠ key) :
    (insertRecord r l).find? (·.key = key) = l.find? (·.key = key) := by
  induction l with
  | nil => simp [insertRecord, h]
  | cons x xs ih =>
    unfold insertRecord
    split <;> simp [List.find?_cons, ih, h]

/-- A record above every other version of its key is the one `find` returns. -/
theorem find_insertRecord_newest {r : Record} {key : Bytes} (l : List Record) (hk : r.key = key)
    (hnew : ∀ x ∈ l, x.key = key → x.seqNum < r.seqNum) :
    (insertRecord r l).find? (·.key = key) = some r := by
  induction l with
  | nil => simp [insertRecord, hk]
  | cons x xs ih =>
    unfold insertRecord
    split
    · rename_i hb
      have hx : x.key ≠ key := fun hx =>
        absurd (hnew x (List.mem_cons_self _ _) hx)
          (UInt64.lt_asymm (before_same_key (hx.trans hk.symm) hb))
      simp only [List.find?_cons, hx, decide_False]
      exact ih fun y hy => hnew y (List.mem_cons_of_mem _ hy)
    · simp [List.find?_cons, hk]

/-! ### The order of the records -/

/-- For one key, `before` compares the sequence numbers, the higher first. -/
theorem before_of_same_key {a b : Record} (hk : a.key = b.key) :
    a.before b = decide (b.seqNum < a.seqNum) := by
  simp [Record.before, hk]

theorem before_asymm {a b : Record} (h : a.before b = true) : b.before a = false := by
  unfold Record.before at h ⊢
  rw [compareBytes_swap]
  rcases hc : compareBytes a.key b.key <;> rw [hc] at h <;> dsimp only [Ordering.swap]
  · exact decide_eq_false (UInt64.lt_asymm (of_decide_eq_true h))
  · cases h

/-- A record before another is before or after any third one: `before` is a strict weak order. -/
theorem before_or_before {a c : Record} (h : a.before c = true) (b : Record) :
    a.before b = true ∨ b.before c = true := by
  unfold Record.before at h ⊢
  rcases hab : compareBytes a.key b.key
  · exact .inl rfl
  · rw [compareBytes_eq_iff.mp hab] at h
    rcases hbc : compareBytes b.key c.key <;> rw [hbc] at h
    · exact .inr rfl
    · by_cases hs : b.seqNum < a.seqNum
      · exact .inl (decide_eq_true hs)
      · exact .inr (decide_eq_true (Nat.lt_of_lt_of_le (of_decide_eq_true h) (UInt64.not_lt.mp hs)))
    · cases h
  · right
    have hba : compareBytes b.key a.key = .lt := by rw [compareBytes_swap, hab]; rfl
    rcases hac : compareBytes a.key c.key <;> rw [hac] at h
    · rw [compareBytes_lt_trans hba hac]
    · rw [← compareBytes_eq_iff.mp hac, hba]
    · cases h

/-- Records in the skip list's order: none comes strictly before one ahead of it. -/
def Ordered (l : List Record) : Prop := l.Pairwise fun a b => b.before a = false

/-- The splice of `SkipList.Insert` keeps the order. -/
theorem insertRecord_ordered (r : Record) {l : List Record} (hl : Ordered l) :
    Ordered (insertRecord r l) := by
  induction l with
  | nil => exact List.pairwise_singleton _ _
  | cons x xs ih =>
    obtain ⟨hx, hxs⟩ := List.pairwise_cons.mp hl
    unfold insertRecord
    split
    · rename_i h
      refine List.pairwise_cons.mpr ⟨fun z hz => ?_, ih hxs⟩
      rcases mem_insertRecord.mp hz with rfl | hz
      · exact before_asymm h
      · exact hx z hz
    · rename_i h
      refine List.pairwise_cons.mpr ⟨fun z hz => ?_, hl⟩
      rcases List.mem_cons.mp hz with rfl | hz
      · simpa using h
      · exact Bool.eq_false_iff.mpr fun hzr =>
          (before_or_before hzr x).elim (fun h' => by simp [hx z hz] at h') h

/-- In an ordered list, the first record of a key has the highest sequence number of the key. -/
theorem find?_max {l : List Record} (hl : Ordered l) {key : Bytes} {x : Record}
    (hx : l.find? (·.key = key) = some x) : ∀ y ∈ l, y.key = key → y.seqNum ≤ x.seqNum := by
  induction l with
  | nil => cases hx
  | cons z zs ih =>
    obtain ⟨hz, hzs⟩ := List.pairwise_cons.mp hl
    intro y hy hyk
    by_cases hzk : z.key = key
    · rw [List.find?_cons, decide_eq_true hzk] at hx
      cases hx
      rcases List.mem_cons.mp hy with rfl | hy
      · exact UInt64.le_refl _
      · have := hz y hy
        rw [before_of_same_key (hyk.trans hzk.symm)] at this
        exact UInt64.not_lt.mp (of_decide_eq_false this)
    · rw [List.find?_cons, decide_eq_false hzk] at hx
      rcases List.mem_cons.mp hy with rfl | hy
      · exact absurd hyk hzk
      · exact ih hzs hx y hy hyk

/-- A record at or above every version of its key is the one `find` returns afterwards. -/
theorem find_insertRecord_of_le {r : Record} {key : Bytes} (l : List Record) (hk : r.key = key)
    (hle : ∀ x ∈ l, x.key = key → x.seqNum ≤ r.seqNum) :
    (insertRecord r l).find? (·.key = key) = some r := by
  induction l with
  | nil => simp [insertRecord, hk]
  | cons x xs ih =>
    unfold insertRecord
    split
    · rename_i hb
      have hx : x.key ≠ key := fun hx =>
        absurd (hle x (List.mem_cons_self _ _) hx)
          (UInt64.not_le.mpr (before_same_key (hx.trans hk.symm) hb))
      simp only [List.find?_cons, hx, decide_False]
      exact ih fun y hy => hle y (List.mem_cons_of_mem _ hy)
    · simp [List.find?_cons, hk]

/-- In an ordered list, a record below the newest version of its key leaves `find` as it was. -/
theorem find_insertRecord_older {r x : Record} {key : Bytes} {l : List Record} (hl : Ordered l)
    (hk : r.key = key) (hx : l.find? (·.key = key) = some x) (hlt : r.seqNum < x.seqNum) :
    (insertRecord r l).find? (·.key = key) = some x := by
  induction l with
  | nil => cases hx
  | cons y ys ih =>
    obtain ⟨hy, hys⟩ := List.pairwise_cons.mp hl
    by_cases hyk : y.key = key
    · rw [List.find?_cons, decide_eq_true hyk] at hx
      obtain rfl : y = x := Option.some.inj hx
      have hb : y.before r = true := by
        rw [before_of_same_key (hyk.trans hk.symm)]; exact decide_eq_true hlt
      simp [insertRecord, hb, hyk]
    · simp only [List.find?_cons, decide_eq_false hyk] at hx
      have hxk : x.key = key := by simpa using List.find?_some hx
      have hxr : x.before r = true := by
        rw [before_of_same_key (hxk.trans hk.symm)]
        exact decide_eq_true hlt
      have hb : y.before r = true := (before_or_before hxr y).resolve_left
        (by simp [hy x (List.mem_of_find?_eq_some hx)])
      simp only [insertRecord, hb, if_true, List.find?_cons, hyk, decide_False]
      exact ih hys hx

end Kevo.Memtable
