import LsmTree.Proof.CompactionView

/-!
# The sources of a range iterator

A source is a memtable's iterator or a table's. `SourceOf` ties it to the records it
ranges over, wherever it stands, and is kept by every move.

* `SourceOf.seek`, `SourceOf.seekToFirst`: after a move it yields the records from the
  target on, or all of them.
-/

namespace LsmTree

open Base StorageEngine

/-- The records of a skip list. -/
def SkipList.records (l : SkipList) : List SSTableRecord :=
  l.chain.map fun x => ⟨x.key, x.entry.value, x.entry.type = .kTypeDeletion⟩

namespace SkipList

variable (l : SkipList)

theorem records_ascending : Ascending SSTableRecord.key l.records := List.pairwise_map.2 l.sorted

/-- The chain from a node on. -/
theorem findGreaterOrEqual_split {pre suf : List Node} {x : Node} (h : l.chain = pre ++ x :: suf) :
    l.findGreaterOrEqual x.key = x :: suf := by
  have hsorted := l.sorted
  rw [h] at hsorted
  have hpre : ∀ y ∈ pre, y.key < x.key := by
    intro y hy
    exact (List.pairwise_append.1 hsorted).2.2 y hy x List.mem_cons_self
  unfold findGreaterOrEqual
  rw [h, List.dropWhile_append_of_pos (by simpa using hpre), List.dropWhile_cons_of_neg (by simp)]

theorem find_split {pre suf : List Node} {x : Node} (h : l.chain = pre ++ x :: suf) :
    l.find x.key = some x.entry := by
  unfold find
  rw [l.findGreaterOrEqual_split h]
  simp

end SkipList

namespace DBIterator

open DBIteratorSource

variable {lists : MemSlot → SkipList} {t : Compactor.RankedTable} {s : DBIteratorSource} {target : Bytes}

/-- A source over the records `t.2` with the generation `t.1`: a memtable's, or one of a data
block that divides into ascending records. -/
inductive SourceOf (lists : MemSlot → SkipList) : Compactor.RankedTable → DBIteratorSource → Prop
  | mem (g : ℕ) (slot : MemSlot) (it : SkipList.Iterator) :
    SourceOf lists (g, (lists slot).records) ⟨g, some (slot, it), none⟩
  | sst (g : ℕ) (rs : List SSTableRecord) (it : SSTableIterator) (h : it.Over rs)
    (asc : Ascending SSTableRecord.key rs) : SourceOf lists (g, rs) ⟨g, none, some it⟩

theorem SourceOf.ascending (h : SourceOf lists t s) : Ascending SSTableRecord.key t.2 := by
  cases h with
  | mem g slot it => exact (lists slot).records_ascending
  | sst g rs it h asc => exact asc

theorem SourceOf.next (h : SourceOf lists t s) : SourceOf lists t (s.next lists) := by
  cases h with
  | mem g slot it => exact .mem g slot _
  | sst g rs it h asc => exact .sst g rs _ h.next asc

/-- A source has room for its records, wherever it stands. -/
theorem SourceOf.length_le (h : SourceOf lists t s) : t.2.length ≤ s.size lists := by
  cases h with
  | mem g slot it =>
    unfold DBIteratorSource.size SkipList.records
    simp
  | sst g rs it h asc => exact h.yields.2.trans (Nat.le_succ _)

theorem SourceOf.size_next (h : SourceOf lists t s) : (s.next lists).size lists = s.size lists := by
  cases h with
  | mem g slot it => rfl
  | sst g rs it h asc =>
    unfold DBIteratorSource.size DBIteratorSource.next
    simp only [Option.map_some, Option.map_none, SSTableIterator.data_next]

/-- The nodes and payloads of the records of source `i`. -/
def nodesOf (i g : ℕ) (rs : List SSTableRecord) : List (HeapNode × (Bytes × Bool)) :=
  rs.map fun r => (⟨r.key, g, i⟩, (r.value, r.isDeleted))

/-- A memtable iterator yields the chain from its node on. -/
theorem yields_mem (lists : MemSlot → SkipList) (g i : ℕ) (slot : MemSlot) :
    ∀ {suf pre : List SkipList.Node}, (lists slot).chain = pre ++ suf →
    Merge.Yields order (sources lists) i ⟨g, some (slot, ⟨suf.head?.map SkipList.Node.key⟩), none⟩
      (nodesOf i g (suf.map fun x => ⟨x.key, x.entry.value, x.entry.type = .kTypeDeletion⟩)) := by
  intro suf
  induction suf with
  | nil => exact fun _ => rfl
  | cons x suf ih =>
    intro pre h
    have hfind := (lists slot).find_split h
    have hfrom := (lists slot).findGreaterOrEqual_split h
    refine ⟨rfl, rfl, ?_, ?_⟩
    · have hpay : ∀ s : DBIteratorSource, (sources lists).payload s = s.valueAndDeleted lists := fun _ => rfl
      rw [hpay]
      unfold DBIteratorSource.valueAndDeleted SkipList.Iterator.entry
      simp [hfind]
    · have hstep : (sources lists).next ⟨g, some (slot, ⟨(x :: suf).head?.map SkipList.Node.key⟩), none⟩ =
          ⟨g, some (slot, ⟨suf.head?.map SkipList.Node.key⟩), none⟩ := by
        have hnext : ∀ s : DBIteratorSource, (sources lists).next s = s.next lists := fun _ => rfl
        rw [hnext]
        unfold DBIteratorSource.next SkipList.Iterator.next
        simp only [List.head?_cons, Option.map_some, hfrom, List.tail_cons, Option.map_none]
      rw [hstep]
      exact ih (show (lists slot).chain = (pre ++ [x]) ++ suf by rw [h, List.append_assoc, List.singleton_append])

/-- A table iterator yields what its table has left. -/
theorem yields_sst {g i : ℕ} {rs : List SSTableRecord} : ∀ {it : SSTableIterator}, it.Yields rs →
    Merge.Yields order (sources lists) i ⟨g, none, some it⟩ (nodesOf i g rs) := by
  induction rs with
  | nil =>
    intro it h
    have hv : it.valid = false := h
    change sourceNode i ⟨g, none, some it⟩ = none
    unfold sourceNode DBIteratorSource.valid
    simp [hv]
  | cons r rs ih =>
    intro it h
    obtain ⟨hv, hr, hrest⟩ := h
    refine ⟨?_, rfl, ?_, ih hrest⟩
    · change sourceNode i ⟨g, none, some it⟩ = _
      unfold sourceNode DBIteratorSource.valid DBIteratorSource.key SSTableIterator.key
      simp [hv, hr]
    · have hpay : ∀ s : DBIteratorSource, (sources lists).payload s = s.valueAndDeleted lists := fun _ => rfl
      rw [hpay]
      unfold DBIteratorSource.valueAndDeleted SSTableIterator.value SSTableIterator.isDeleted
      simp [hr]

/-- The forward search of a table iterator. -/
theorem yields_skipTo {rs : List SSTableRecord} : ∀ {fuel : ℕ} {it : SSTableIterator}, it.Yields rs →
    rs.length ≤ fuel → (skipTo target fuel it).Yields (rs.dropWhile fun r => r.key < target) := by
  induction rs with
  | nil =>
    intro fuel it h _
    have hv : it.valid = false := h
    cases fuel with
    | zero => exact h
    | succ fuel =>
      unfold skipTo
      simp only [hv, Bool.false_and, Bool.false_eq_true, if_false]
      exact h
  | cons r rs ih =>
    intro fuel it h hf
    obtain ⟨hv, hr, hrest⟩ := h
    cases fuel with
    | zero => exact absurd hf (by simp)
    | succ fuel =>
      unfold skipTo
      by_cases hlt : r.key < target
      · rw [if_pos (by simp [hv, SSTableIterator.key, hr, hlt]), List.dropWhile_cons_of_pos (by simpa using hlt)]
        exact ih hrest (Nat.le_of_succ_le_succ hf)
      · rw [if_neg (by simp [hv, SSTableIterator.key, hr, hlt]), List.dropWhile_cons_of_neg (by simpa using hlt)]
        exact ⟨hv, hr, hrest⟩

theorem over_skipTo {rs : List SSTableRecord} (target : Bytes) : ∀ (fuel : ℕ) {it : SSTableIterator},
    it.Over rs → (skipTo target fuel it).Over rs := by
  intro fuel
  induction fuel with
  | zero => exact fun h => h
  | succ fuel ih =>
    intro it h
    unfold skipTo
    split
    · exact ih h.next
    · exact h

theorem data_skipTo (target : Bytes) : ∀ (fuel : ℕ) (it : SSTableIterator),
    (skipTo target fuel it).file.data = it.file.data := by
  intro fuel
  induction fuel with
  | zero => exact fun it => rfl
  | succ fuel ih =>
    intro it
    unfold skipTo
    split
    · rw [ih, SSTableIterator.data_next]
    · rfl

/-- **A source sought to a key** yields the records from there on. -/
theorem SourceOf.seek (h : SourceOf lists t s) (i : ℕ) (target : Bytes) :
    SourceOf lists t (s.seek lists target) ∧ (s.seek lists target).size lists = s.size lists ∧
      Merge.Yields order (sources lists) i (s.seek lists target)
        (nodesOf i t.1 (t.2.dropWhile fun r => r.key < target)) := by
  cases h with
  | mem g slot it =>
    refine ⟨.mem g slot _, rfl, ?_⟩
    have hsplit : (lists slot).chain = (lists slot).chain.takeWhile (fun x => x.key < target) ++
        (lists slot).findGreaterOrEqual target := List.takeWhile_append_dropWhile.symm
    have hy := yields_mem lists g i slot hsplit
    have hdrop : (lists slot).records.dropWhile (fun r => r.key < target) =
        ((lists slot).findGreaterOrEqual target).map fun x =>
          ⟨x.key, x.entry.value, x.entry.type = .kTypeDeletion⟩ := by
      unfold SkipList.records SkipList.findGreaterOrEqual
      rw [List.dropWhile_map]
      rfl
    simp only [hdrop]
    exact hy
  | sst g rs it h asc =>
    obtain ⟨hy, hlen⟩ := h.yields
    have hover := over_skipTo target (it.file.data.length + 1) h.seekToFirst
    refine ⟨.sst g rs _ hover asc, ?_, yields_sst (yields_skipTo hy (hlen.trans (Nat.le_succ _)))⟩
    unfold DBIteratorSource.size DBIteratorSource.seek
    simp only [Option.map_some, data_skipTo, SSTableIterator.data_seekToFirst]

/-- **A source sought to its first record** yields all of them. -/
theorem SourceOf.seekToFirst (h : SourceOf lists t s) (i : ℕ) :
    SourceOf lists t (s.seekToFirst lists) ∧ (s.seekToFirst lists).size lists = s.size lists ∧
      Merge.Yields order (sources lists) i (s.seekToFirst lists) (nodesOf i t.1 t.2) := by
  cases h with
  | mem g slot it =>
    have hsplit : (lists slot).chain = [] ++ (lists slot).chain := rfl
    exact ⟨.mem g slot _, rfl, yields_mem lists g i slot hsplit⟩
  | sst g rs it h asc =>
    refine ⟨.sst g rs _ h.seekToFirst asc, ?_, yields_sst h.yields.1⟩
    unfold DBIteratorSource.size DBIteratorSource.seekToFirst
    simp only [Option.map_some, Option.map_none, SSTableIterator.data_seekToFirst]

end DBIterator

end LsmTree
