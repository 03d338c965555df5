import Kevo.Memtable.Versions

/-! Concurrent `Put` and `Delete` calls on a mutable memtable, in any schedule of their steps (no
`SetImmutable` among them). The mutex `mu` serializes them: the thread that holds `mu` is the only
one between `mu.Lock` and `mu.Unlock` (`schedule_exclusive`), and the skip list, kept in order,
holds the records of the memtable the writers started from and of the writers that have inserted
(`Serialized`). So once every writer has returned, `Get` and `Contains` answer every key as after
the same calls made one after another (`get_schedule`), as long as no two records of one key share
a sequence number, and a reader that takes `mu.RLock` while writers are under way sees the writers
that have returned and no other (`get_schedule_unlocked`). The answer of `GetNextSequenceNumber`
is not so: it depends on the order in which the writers took `mu`. Nor can the writers deadlock:
while one has not returned, some writer can take a step (`schedule_progress`). -/

namespace Kevo.Memtable

/-- A writer is between `mu.Lock` and `mu.Unlock`. -/
def Pc.Holding : Pc → Prop
  | .locked | .inserting | .unlocking => True
  | _ => False

/-- A writer of a memtable that stays mutable has inserted its record. -/
def Pc.Inserted : Pc → Prop
  | .unlocking | .done => True
  | _ => False

/-- No two records of one key share a sequence number. -/
def VersionsDistinct (l : List Record) : Prop :=
  ∀ a ∈ l, ∀ b ∈ l, a.key = b.key → a.seqNum = b.seqNum → a = b

instance (l : List Record) : Decidable (VersionsDistinct l) :=
  inferInstanceAs (Decidable (∀ a ∈ l, ∀ b ∈ l, _))

/-- The writer threads `writes`, none of them started, on the memtable `m`. -/
def writers (m : MemTable) (writes : List Write) : System :=
  ⟨m, none, writes.map fun w => ⟨w, .start⟩⟩

/-! ### One step -/

/-- What one step of thread `i` does: it finds the thread `t`, moves it on, and takes `mu`, reads
the flag, inserts, or releases `mu`. -/
theorem stepThread_cases {s s' : System} {i : Nat} (h : stepThread s i = some s') :
    ∃ t, s.threads[i]? = some t ∧
      ((t.pc = .start ∧ s.holder = none ∧
          s' = ⟨s.table, some i, s.threads.set i ⟨t.write, .locked⟩⟩) ∨
        (t.pc = .locked ∧ s' = ⟨s.table, s.holder, s.threads.set i
          ⟨t.write, if s.table.immutable then .unlocking else .inserting⟩⟩) ∨
        (t.pc = .inserting ∧
          s' = ⟨addRecord s.table t.write.record, s.holder, s.threads.set i ⟨t.write, .unlocking⟩⟩) ∨
        (t.pc = .unlocking ∧ s' = ⟨s.table, none, s.threads.set i ⟨t.write, .done⟩⟩)) := by
  unfold stepThread at h
  rcases hti : s.threads[i]? with _ | t <;> rw [hti] at h
  · cases h
  refine ⟨t, rfl, ?_⟩
  dsimp only at h
  rcases hpc : t.pc with _ | _ | _ | _ | _ <;> rw [hpc] at h <;> dsimp only at h
  · rcases hh : s.holder with _ | k <;> rw [hh] at h <;> cases h
    exact .inl ⟨rfl, rfl, rfl⟩
  · cases h; exact .inr (.inl ⟨rfl, rfl⟩)
  · cases h; exact .inr (.inr (.inl ⟨rfl, rfl⟩))
  · cases h; exact .inr (.inr (.inr ⟨rfl, rfl⟩))
  · cases h

theorem set_self_of_getElem? {α : Type} {l : List α} {i : Nat} {a : α} (h : l[i]? = some a) :
    l.set i a = l := by
  apply List.ext_getElem?
  intro j
  by_cases hij : i = j
  · subst hij
    rw [List.getElem?_set_self (List.getElem?_eq_some_iff.mp h).1, h]
  · exact List.getElem?_set_ne hij

section Threads

variable {l : List Thread} {i : Nat} {t : Thread}

/-- Some thread after thread `i` became `t'`: another thread, or `t'`. -/
theorem exists_set_iff (hti : l[i]? = some t) (t' : Thread) (P : Thread → Prop) :
    (∃ (j : Nat) (u : Thread), (l.set i t')[j]? = some u ∧ P u) ↔
      (∃ (j : Nat) (u : Thread), j ≠ i ∧ l[j]? = some u ∧ P u) ∨ P t' := by
  have hlt : i < l.length := (List.getElem?_eq_some_iff.mp hti).1
  constructor
  · rintro ⟨j, u, hj, hu⟩
    by_cases hji : j = i
    · subst hji
      rw [List.getElem?_set_self hlt] at hj
      cases hj
      exact .inr hu
    · rw [List.getElem?_set_ne (Ne.symm hji)] at hj
      exact .inl ⟨j, u, hji, hj, hu⟩
  · rintro (⟨j, u, hji, hj, hu⟩ | hu)
    · exact ⟨j, u, by rw [List.getElem?_set_ne (Ne.symm hji)]; exact hj, hu⟩
    · exact ⟨i, t', List.getElem?_set_self hlt, hu⟩

theorem exists_getElem_iff (hti : l[i]? = some t) (P : Thread → Prop) :
    (∃ (j : Nat) (u : Thread), l[j]? = some u ∧ P u) ↔
      (∃ (j : Nat) (u : Thread), j ≠ i ∧ l[j]? = some u ∧ P u) ∨ P t := by
  have h := exists_set_iff hti t P
  rwa [set_self_of_getElem? hti] at h

theorem map_write_set (hti : l[i]? = some t) (pc : Pc) :
    (l.set i ⟨t.write, pc⟩).map Thread.write = l.map Thread.write := by
  rw [List.map_set]
  exact set_self_of_getElem? (by rw [List.getElem?_map, hti]; rfl)

/-- Who holds `mu` after thread `i` moved to `pc` and the holder became `holder'`. -/
theorem lock_set (hti : l[i]? = some t) {holder holder' : Option Nat}
    (hlock : ∀ j, holder = some j ↔ ∃ u : Thread, l[j]? = some u ∧ u.pc.Holding) {pc : Pc}
    (hi : holder' = some i ↔ pc.Holding)
    (hothers : ∀ j, j ≠ i → (holder' = some j ↔ holder = some j)) (j : Nat) :
    holder' = some j ↔ ∃ u : Thread, (l.set i ⟨t.write, pc⟩)[j]? = some u ∧ u.pc.Holding := by
  by_cases hji : j = i
  · subst hji
    rw [List.getElem?_set_self (List.getElem?_eq_some_iff.mp hti).1, hi]
    simp
  · rw [List.getElem?_set_ne (Ne.symm hji), hothers j hji, hlock j]

end Threads

/-! ### What every schedule keeps -/

/-- The invariant of a schedule of the writers `writes` from the memtable `m0`. -/
structure Serialized (m0 : MemTable) (writes : List Write) (s : System) : Prop where
  writes : s.threads.map Thread.write = writes
  mutable : s.table.immutable = false
  lock : ∀ i, s.holder = some i ↔ ∃ t : Thread, s.threads[i]? = some t ∧ t.pc.Holding
  ordered : Ordered s.table.skipList.records
  records : ∀ r, r ∈ s.table.skipList.records ↔ r ∈ m0.skipList.records ∨
    ∃ (j : Nat) (t : Thread), s.threads[j]? = some t ∧ t.pc.Inserted ∧ t.write.record = r

theorem serialized_writers {m0 : MemTable} (hm : m0.immutable = false)
    (hl : Ordered m0.skipList.records) (writes : List Write) :
    Serialized m0 writes (writers m0 writes) where
  writes := by simp [writers, Function.comp_def]
  mutable := hm
  lock i := by simp [writers, Pc.Holding]
  ordered := hl
  records r := by simp [writers, Pc.Inserted]

/-- Mutual exclusion: only the holder of `mu` is between `mu.Lock` and `mu.Unlock`. -/
theorem Serialized.holding_eq {m0 : MemTable} {writes : List Write} {s : System}
    (h : Serialized m0 writes s) {i j : Nat} {t u : Thread} (hi : s.threads[i]? = some t)
    (hj : s.threads[j]? = some u) (ht : t.pc.Holding) (hu : u.pc.Holding) : i = j :=
  Option.some.inj (((h.lock i).mpr ⟨t, hi, ht⟩).symm.trans ((h.lock j).mpr ⟨u, hj, hu⟩))

theorem Serialized.step {m0 : MemTable} {writes : List Write} {s s' : System} {i : Nat}
    (h : Serialized m0 writes s) (hs : stepThread s i = some s') : Serialized m0 writes s' := by
  obtain ⟨t, hti, hcase⟩ := stepThread_cases hs
  have hwrites := fun pc => (map_write_set hti pc).trans h.writes
  have hrec := fun (pc : Pc) (r : Record) =>
    exists_set_iff hti ⟨t.write, pc⟩ fun u => u.pc.Inserted ∧ u.write.record = r
  have hold := fun (r : Record) =>
    exists_getElem_iff hti fun u => u.pc.Inserted ∧ u.write.record = r
  rcases hcase with ⟨hpc, hnone, rfl⟩ | ⟨hpc, rfl⟩ | ⟨hpc, rfl⟩ | ⟨hpc, rfl⟩
  · refine ⟨hwrites _, h.mutable, lock_set hti h.lock (by simp [Pc.Holding]) fun j hji => ?_,
      h.ordered, fun r => ?_⟩
    · simp [hnone, Ne.symm hji]
    · rw [h.records, hrec, hold]
      simp [Pc.Inserted, hpc]
  · have hheld : s.holder = some i := (h.lock i).mpr ⟨t, hti, by simp [hpc, Pc.Holding]⟩
    simp only [h.mutable, Bool.false_eq_true, if_false]
    refine ⟨hwrites _, h.mutable, lock_set hti h.lock (by simp [hheld, Pc.Holding])
      fun _ _ => Iff.rfl, h.ordered, fun r => ?_⟩
    rw [h.records, hrec, hold]
    simp [Pc.Inserted, hpc]
  · have hheld : s.holder = some i := (h.lock i).mpr ⟨t, hti, by simp [hpc, Pc.Holding]⟩
    refine ⟨hwrites _, by simpa [addRecord] using h.mutable, lock_set hti h.lock
      (by simp [hheld, Pc.Holding]) fun _ _ => Iff.rfl,
      insertRecord_ordered _ h.ordered, fun r => ?_⟩
    have hnot : t.pc.Inserted = False := by rw [hpc]; rfl
    have hnow : Pc.Inserted .unlocking = True := rfl
    simp only [addRecord, SkipList.insert, mem_insertRecord]
    rw [h.records, hrec, hold, hnot, hnow, @eq_comm _ r]
    simp only [false_and, true_and, or_false]
    exact or_left_comm.trans (or_congr_right or_comm)
  · have hheld : s.holder = some i := (h.lock i).mpr ⟨t, hti, by simp [hpc, Pc.Holding]⟩
    refine ⟨hwrites _, h.mutable, lock_set hti h.lock (by simp [Pc.Holding]) fun j hji => ?_,
      h.ordered, fun r => ?_⟩
    · simp [hheld, Ne.symm hji]
    · rw [h.records, hrec, hold]
      simp [Pc.Inserted, hpc]

theorem Serialized.run {m0 : MemTable} {writes : List Write} {s : System}
    (h : Serialized m0 writes s) (sched : List Nat) {s' : System}
    (hrun : runSchedule s (sched.map .thread) = some s') : Serialized m0 writes s' := by
  induction sched generalizing s with
  | nil => cases hrun; exact h
  | cons i rest ih =>
    simp only [List.map_cons, runSchedule, Memtable.step] at hrun
    rcases hs : stepThread s i with _ | s1 <;> rw [hs] at hrun
    · cases hrun
    · exact ih (h.step hs) hrun

/-! ### Once every writer has returned -/

theorem mem_foldl_call {m : MemTable} (hm : m.immutable = false) (writes : List Write)
    (r : Record) :
    r ∈ (writes.foldl Write.call m).skipList.records ↔
      r ∈ m.skipList.records ∨ r ∈ writes.map Write.record := by
  induction writes generalizing m with
  | nil => simp
  | cons w rest ih =>
    rw [List.foldl_cons, ih (by rw [Write.call_eq, insertEntry_immutable, hm]), Write.call_eq]
    simp only [insertEntry_records _ hm, mem_insertRecord, List.map_cons, List.mem_cons]
    tauto

theorem ordered_foldl_call {m : MemTable} (hm : m.immutable = false)
    (hl : Ordered m.skipList.records) (writes : List Write) :
    Ordered (writes.foldl Write.call m).skipList.records := by
  induction writes generalizing m with
  | nil => exact hl
  | cons w rest ih =>
    have hc : Write.call m w = insertEntry m w.record := by rw [Write.call_eq]
    rw [List.foldl_cons, hc]
    exact ih (by rw [insertEntry_immutable, hm]) (insertEntry_ordered w.record hl)

/-- Two ordered skip lists with the same records, no two of one key under one sequence number,
find the same record for every key. -/
theorem find_eq_of_mem_iff {sl1 sl2 : SkipList} (h1 : Ordered sl1.records) (h2 : Ordered sl2.records)
    (hmem : ∀ r, r ∈ sl1.records ↔ r ∈ sl2.records) (hd : VersionsDistinct sl1.records)
    (key : Bytes) : sl1.find key = sl2.find key := by
  rcases hf1 : sl1.find key with _ | x
  · refine (List.find?_eq_none.mpr fun y hy => ?_).symm
    exact List.find?_eq_none.mp hf1 y ((hmem y).mpr hy)
  have hx1 : x ∈ sl1.records := List.mem_of_find?_eq_some hf1
  have hxk : x.key = key := by simpa using List.find?_some hf1
  rcases hf2 : sl2.find key with _ | y
  · exact absurd (by simpa using hxk) (List.find?_eq_none.mp hf2 x ((hmem x).mp hx1))
  have hy1 := (hmem y).mpr (List.mem_of_find?_eq_some hf2)
  have hyk : y.key = key := by simpa using List.find?_some hf2
  have hle := find?_max h2 hf2 x ((hmem x).mp hx1) hxk
  have hge := find?_max h1 hf1 y hy1 hyk
  exact congrArg some (hd x hx1 y hy1 (hxk.trans hyk.symm) (UInt64.le_antisymm hle hge))

/-- A table whose records are those of `m0` and of the writes `ws`, some of `writes`, answers
every key as the calls `ws` made one after another from `m0`. -/
theorem get_of_records {m0 t : MemTable} {writes ws : List Write} (hm : m0.immutable = false)
    (hl : Ordered m0.skipList.records)
    (hd : VersionsDistinct (m0.skipList.records ++ writes.map Write.record))
    (hws : ∀ w ∈ ws, w ∈ writes) (ht : Ordered t.skipList.records)
    (hmem : ∀ r, r ∈ t.skipList.records ↔ r ∈ m0.skipList.records ∨ r ∈ ws.map Write.record)
    (key : Bytes) :
    get t key = get (ws.foldl Write.call m0) key ∧
      contains t key = contains (ws.foldl Write.call m0) key := by
  have hsub : ∀ r ∈ t.skipList.records, r ∈ m0.skipList.records ++ writes.map Write.record := by
    intro r hr
    rcases (hmem r).mp hr with h | h
    · exact List.mem_append_left _ h
    · obtain ⟨w, hw, rfl⟩ := List.mem_map.mp h
      exact List.mem_append_right _ (List.mem_map_of_mem _ (hws w hw))
  have hfind : t.skipList.find key = (ws.foldl Write.call m0).skipList.find key :=
    find_eq_of_mem_iff ht (ordered_foldl_call hm hl ws)
      (fun r => (hmem r).trans (mem_foldl_call hm ws r).symm)
      (fun a ha b hb => hd a (hsub a ha) b (hsub b hb)) key
  simp [get, contains, hfind]

/-- Linearizability of concurrent writers: in any schedule of the steps of `Put` and `Delete`
calls on a mutable memtable, once every writer has returned, `Get` and `Contains` answer every key
as after the same calls made one after another, in the order of the list, provided no two records
of one key, in the memtable or written, share a sequence number. -/
theorem get_schedule (m0 : MemTable) (writes : List Write) (hm : m0.immutable = false)
    (hl : Ordered m0.skipList.records)
    (hd : VersionsDistinct (m0.skipList.records ++ writes.map Write.record)) (sched : List Nat)
    (s : System) (hrun : runSchedule (writers m0 writes) (sched.map .thread) = some s)
    (hdone : ∀ t ∈ s.threads, t.pc = .done) (key : Bytes) :
    get s.table key = get (writes.foldl Write.call m0) key ∧
      contains s.table key = contains (writes.foldl Write.call m0) key := by
  have h := (serialized_writers hm hl writes).run sched hrun
  refine get_of_records hm hl hd (fun _ hw => hw) h.ordered (fun r => ?_) key
  rw [h.records, ← h.writes, List.map_map]
  refine or_congr Iff.rfl ⟨fun ⟨j, t, hj, _, ht⟩ => ?_, fun hr => ?_⟩
  · exact List.mem_map.mpr ⟨t, List.getElem?_mem hj, ht⟩
  · obtain ⟨t, htm, ht⟩ := List.mem_map.mp hr
    obtain ⟨j, hj⟩ := List.getElem?_of_mem htm
    exact ⟨j, t, hj, by simp [hdone t htm, Pc.Inserted], ht⟩

/-- Two Puts of one key, under 1 and under 2. -/
def twoPuts : List Write := [.put [1] [2] 1, .put [1] [3] 2]

/-- The Puts `twoPuts` when the one under 2 runs to its end first. -/
def secondFirst : System :=
  (runSchedule (writers newMemTable twoPuts) ([1, 1, 1, 1, 0, 0, 0, 0].map .thread)).getD
    (writers newMemTable [])

theorem get_schedule_second_first :
    newMemTable.immutable = false ∧ Ordered newMemTable.skipList.records ∧
      VersionsDistinct (newMemTable.skipList.records ++ twoPuts.map Write.record) ∧
      runSchedule (writers newMemTable twoPuts) ([1, 1, 1, 1, 0, 0, 0, 0].map .thread) =
        some secondFirst ∧
      (∀ t ∈ secondFirst.threads, t.pc = .done) ∧
      get secondFirst.table [1] = get (twoPuts.foldl Write.call newMemTable) [1] ∧
      contains secondFirst.table [1] = contains (twoPuts.foldl Write.call newMemTable) [1] :=
  ⟨rfl, List.Pairwise.nil, by decide, by rfl, by decide,
    get_schedule newMemTable twoPuts rfl List.Pairwise.nil (by decide) [1, 1, 1, 1, 0, 0, 0, 0] _
      (by rfl) (by decide) [1]⟩

/-- `GetNextSequenceNumber` depends on the order in which the writers took `mu`: the Put under 1
first leaves 2, the Put under 2 first leaves 3. -/
example : ((runSchedule (writers newMemTable twoPuts)
      ([0, 0, 0, 0, 1, 1, 1, 1].map .thread)).map fun s => getNextSequenceNumber s.table) =
      some 2 ∧
    (getNextSequenceNumber secondFirst.table) = 3 := by
  decide

/-! ### Readers -/

/-- The calls of the writers that have returned, in the order of the list. -/
def returned (s : System) : List Write :=
  (s.threads.filter fun t => t.pc = .done).map Thread.write

/-- With `mu` free, a writer has inserted exactly when it has returned. -/
theorem Serialized.inserted_iff {m0 : MemTable} {writes : List Write} {s : System}
    (h : Serialized m0 writes s) (hfree : s.holder = none) {j : Nat} {t : Thread}
    (hj : s.threads[j]? = some t) : t.pc.Inserted ↔ t.pc = .done := by
  have hnot : ¬t.pc.Holding := fun hh => by simpa [hfree] using (h.lock j).mpr ⟨t, hj, hh⟩
  rcases hpc : t.pc <;> simp_all [Pc.Inserted, Pc.Holding]

/-- Concurrent readers see the writers that have returned: in every state of a schedule in which
no writer holds `mu`, the states in which `Get` and `Contains` on the mutable memtable can take
`mu.RLock`, they answer every key as after the calls of the writers that have returned, made one
after another in the order of the list, provided no two records of one key share a sequence
number. A writer that has taken `mu` is seen by no reader until it has returned. -/
theorem get_schedule_unlocked (m0 : MemTable) (writes : List Write) (hm : m0.immutable = false)
    (hl : Ordered m0.skipList.records)
    (hd : VersionsDistinct (m0.skipList.records ++ writes.map Write.record)) (sched : List Nat)
    (s : System) (hrun : runSchedule (writers m0 writes) (sched.map .thread) = some s)
    (hfree : s.holder = none) (key : Bytes) :
    get s.table key = get ((returned s).foldl Write.call m0) key ∧
      contains s.table key = contains ((returned s).foldl Write.call m0) key := by
  have h := (serialized_writers hm hl writes).run sched hrun
  have hws : ∀ w ∈ returned s, w ∈ writes := fun w hw => by
    obtain ⟨t, htf, rfl⟩ := List.mem_map.mp hw
    exact h.writes ▸ List.mem_map_of_mem _ (List.mem_filter.mp htf).1
  refine get_of_records hm hl hd hws h.ordered (fun r => ?_) key
  rw [h.records]
  refine or_congr Iff.rfl ⟨fun ⟨j, t, hj, hins, ht⟩ => ?_, fun hr => ?_⟩
  · refine List.mem_map.mpr ⟨t.write,
      List.mem_map.mpr ⟨t, List.mem_filter.mpr ⟨List.getElem?_mem hj, ?_⟩, rfl⟩, ht⟩
    simpa using (h.inserted_iff hfree hj).mp hins
  · obtain ⟨w, hw, rfl⟩ := List.mem_map.mp hr
    obtain ⟨t, htf, rfl⟩ := List.mem_map.mp hw
    obtain ⟨htm, hdone⟩ := List.mem_filter.mp htf
    obtain ⟨j, hj⟩ := List.getElem?_of_mem htm
    exact ⟨j, t, hj, (h.inserted_iff hfree hj).mpr (by simpa using hdone), rfl⟩

/-- The Puts `twoPuts` when the one under 2 has run to its end and the other has not started. -/
def secondOnly : System :=
  (runSchedule (writers newMemTable twoPuts) ([1, 1, 1, 1].map .thread)).getD
    (writers newMemTable [])

theorem get_schedule_unlocked_second :
    newMemTable.immutable = false ∧ Ordered newMemTable.skipList.records ∧
      VersionsDistinct (newMemTable.skipList.records ++ twoPuts.map Write.record) ∧
      runSchedule (writers newMemTable twoPuts) ([1, 1, 1, 1].map .thread) = some secondOnly ∧
      secondOnly.holder = none ∧
      get secondOnly.table [1] = get ((returned secondOnly).foldl Write.call newMemTable) [1] ∧
      contains secondOnly.table [1] =
        contains ((returned secondOnly).foldl Write.call newMemTable) [1] :=
  ⟨rfl, List.Pairwise.nil, by decide, by rfl, by rfl,
    get_schedule_unlocked newMemTable twoPuts rfl List.Pairwise.nil (by decide) [1, 1, 1, 1] _
      (by rfl) (by rfl) [1]⟩

/-- With the second writer returned and the first not started, a reader sees the second Put
alone. -/
example : returned secondOnly = [Write.put [1] [3] 2] ∧ get secondOnly.table [1] = .value [3] := by
  decide

/-! ### Progress -/

/-- A writer that holds `mu`, or any writer that has not started when nobody does, can take its
next step. -/
theorem Serialized.progress {m0 : MemTable} {writes : List Write} {s : System}
    (h : Serialized m0 writes s) {j : Nat} {u : Thread} (hj : s.threads[j]? = some u)
    (hu : u.pc ≠ .done) : ∃ i s', stepThread s i = some s' := by
  rcases hh : s.holder with _ | i
  · have hstart : u.pc = .start := by
      rcases hpc : u.pc
      · rfl
      all_goals first
        | exact absurd hpc hu
        | exact absurd ((h.lock j).mpr ⟨u, hj, by simp [hpc, Pc.Holding]⟩) (by simp [hh])
    exact ⟨j, Option.isSome_iff_exists.mp (by simp [stepThread, hj, hstart, hh])⟩
  · obtain ⟨t, hti, hhold⟩ := (h.lock i).mp hh
    refine ⟨i, Option.isSome_iff_exists.mp ?_⟩
    rcases hpc : t.pc <;> rw [hpc] at hhold <;> simp only [Pc.Holding] at hhold <;>
      simp [stepThread, hti, hpc]

/-- No deadlock among writers: in every state a schedule reaches, while some writer has not
returned, some writer can take a step. -/
theorem schedule_progress (m0 : MemTable) (writes : List Write) (hm : m0.immutable = false)
    (hl : Ordered m0.skipList.records) (sched : List Nat) (s : System)
    (hrun : runSchedule (writers m0 writes) (sched.map .thread) = some s)
    (hpending : ∃ t ∈ s.threads, t.pc ≠ .done) : ∃ i s', stepThread s i = some s' := by
  obtain ⟨u, hu, hpc⟩ := hpending
  obtain ⟨j, hj⟩ := List.getElem?_of_mem hu
  exact ((serialized_writers hm hl writes).run sched hrun).progress hj hpc

/-- A Put and a Delete of one key. -/
def putDelete : List Write := [.put [1] [2] 1, .delete [1] 2]

/-- The writers `putDelete` when the Put has taken `mu` and read the flag. -/
def putInserting : System :=
  (runSchedule (writers newMemTable putDelete) ([0, 0].map .thread)).getD (writers newMemTable [])

theorem schedule_progress_mid :
    newMemTable.immutable = false ∧ Ordered newMemTable.skipList.records ∧
      runSchedule (writers newMemTable putDelete) ([0, 0].map .thread) = some putInserting ∧
      (∃ t ∈ putInserting.threads, t.pc ≠ .done) ∧
      ∃ i s', stepThread putInserting i = some s' :=
  ⟨rfl, List.Pairwise.nil, by rfl, by decide,
    schedule_progress newMemTable putDelete rfl List.Pairwise.nil [0, 0] _ (by rfl) (by decide)⟩

/-- Mutual exclusion: in every state that a schedule of the writers reaches, at most one writer is
between `mu.Lock` and `mu.Unlock`. -/
theorem schedule_exclusive (m0 : MemTable) (writes : List Write) (hm : m0.immutable = false)
    (hl : Ordered m0.skipList.records) (sched : List Nat) (s : System)
    (hrun : runSchedule (writers m0 writes) (sched.map .thread) = some s) :
    ∀ (i j : Nat) (t u : Thread), s.threads[i]? = some t → s.threads[j]? = some u →
      t.pc.Holding → u.pc.Holding → i = j :=
  fun _ _ _ _ hi hj ht hu => ((serialized_writers hm hl writes).run sched hrun).holding_eq hi hj ht hu

theorem schedule_exclusive_inserting :
    newMemTable.immutable = false ∧ Ordered newMemTable.skipList.records ∧
      runSchedule (writers newMemTable putDelete) ([0, 0].map .thread) = some putInserting ∧
      ∀ (i j : Nat) (t u : Thread), putInserting.threads[i]? = some t →
        putInserting.threads[j]? = some u → t.pc.Holding → u.pc.Holding → i = j :=
  ⟨rfl, List.Pairwise.nil, by rfl,
    schedule_exclusive newMemTable putDelete rfl List.Pairwise.nil [0, 0] _ (by rfl)⟩

/-- In that state the Put holds `mu` and the Delete waits to take it. -/
example : putInserting.threads = [⟨.put [1] [2] 1, .inserting⟩, ⟨.delete [1] 2, .start⟩] ∧
    putInserting.holder = some 0 := by
  decide

end Kevo.Memtable
