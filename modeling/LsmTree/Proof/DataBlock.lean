import LsmTree.Proof.AnyFile

/-!
# Data blocks of any bytes

What an iterator makes of a file nobody vouches for: it reads records one behind the
other until it is stuck, at the end of the data block or at bytes that are no record.

* `exists_walk`, `Walk.unique`: from each position there is one walk to where it is stuck.
* `yields_of_walk`: the iterator yields the records of that walk.
* `Over`: the data block divides into records; the iterator yields them all.
* `end_reached_iff`: otherwise it stops before the end of the block, and says nothing.
-/

namespace LsmTree

open Base

variable {data : Bytes} {e pos stop stop' : ℕ} {r : SSTableRecord} {rs rs' : List SSTableRecord}

/-- The bytes from `pos` to `stop` are the records `rs`, none of which ends behind `e`. -/
inductive Walk (data : Bytes) (e : ℕ) : ℕ → List SSTableRecord → ℕ → Prop
  | here (pos : ℕ) : Walk data e pos [] pos
  | record {pos next stop : ℕ} {r : SSTableRecord} {rs : List SSTableRecord}
    (read : readRecord (.at_ data pos) = (some r, .at_ data next)) (within : next ≤ e)
    (rest : Walk data e next rs stop) : Walk data e pos (r :: rs) stop

/-- No record that stands at `pos` ends by `e`. -/
def Stuck (data : Bytes) (e pos : ℕ) : Prop :=
  ∀ r next, readRecord (.at_ data pos) = (some r, .at_ data next) → e < next

/-! ## Records at a position -/

theorem at_inj {next next' : ℕ} (h : IfStream.at_ data next = .at_ data next') : next = next' :=
  congrArg IfStream.pos h

/-- A record read ends where its lengths say, and its fields fit 32-bit lengths. -/
theorem recordEnd_of_read {next : ℕ} (h : readRecord (.at_ data pos) = (some r, .at_ data next)) :
    recordEnd data pos = some next ∧ r.Short := by
  cases hend : recordEnd data pos with
  | none =>
    have hnone := readRecord_of_none hend
    rw [h] at hnone
    exact absurd hnone (by simp)
  | some e =>
    obtain ⟨r', hshort, hread⟩ := readRecord_of_end hend
    rw [h] at hread
    obtain ⟨hr, hs⟩ := Prod.mk.inj hread
    rw [at_inj hs, Option.some.inj hr]
    exact ⟨rfl, hshort⟩

theorem read_bounds {next : ℕ} (h : readRecord (.at_ data pos) = (some r, .at_ data next)) :
    pos + 9 ≤ next ∧ next ≤ data.length :=
  recordEnd_bounds (recordEnd_of_read h).1

/-- No record stands at or behind the end of the block. -/
theorem stuck_of_le (h : e ≤ pos) : Stuck data e pos := by
  intro r next hread
  have := (read_bounds hread).1
  omega

/-! ## Walks -/

/-- **From each position there is a walk to where it is stuck.** -/
theorem exists_walk (data : Bytes) (e pos : ℕ) :
    ∃ rs stop, Walk data e pos rs stop ∧ Stuck data e stop ∧ rs.length ≤ data.length - pos := by
  have key : ∀ n pos, data.length - pos ≤ n →
      ∃ rs stop, Walk data e pos rs stop ∧ Stuck data e stop ∧ rs.length ≤ data.length - pos := by
    intro n
    induction n with
    | zero =>
      intro pos hn
      refine ⟨[], pos, .here pos, fun r next hread => ?_, Nat.zero_le _⟩
      have := read_bounds hread
      omega
    | succ n ih =>
      intro pos hn
      by_cases hstuck : Stuck data e pos
      · exact ⟨[], pos, .here pos, hstuck, Nat.zero_le _⟩
      · unfold Stuck at hstuck
        push Not at hstuck
        obtain ⟨r, next, hread, hle⟩ := hstuck
        have hbounds := read_bounds hread
        obtain ⟨rs, stop, hwalk, hend, hlen⟩ := ih next (by omega)
        refine ⟨r :: rs, stop, .record hread hle hwalk, hend, ?_⟩
        rw [List.length_cons]
        omega
  exact key _ pos le_rfl

/-- There is only one. -/
theorem Walk.unique (h : Walk data e pos rs stop) (hstuck : Stuck data e stop) :
    Walk data e pos rs' stop' → Stuck data e stop' → rs = rs' ∧ stop = stop' := by
  induction h generalizing rs' with
  | here pos =>
    intro h' _
    cases h' with
    | here _ => exact ⟨rfl, rfl⟩
    | record hread hle _ => exact absurd hle (not_le.2 (hstuck _ _ hread))
  | record hread hle _ ih =>
    intro h' hstuck'
    cases h' with
    | here _ => exact absurd hle (not_le.2 (hstuck' _ _ hread))
    | record hread' _ hrest' =>
      rw [hread] at hread'
      obtain ⟨hr, hnext⟩ := Prod.mk.inj hread'
      obtain rfl := at_inj hnext
      obtain ⟨hrs, hstop⟩ := ih hstuck hrest' hstuck'
      rw [Option.some.inj hr, hrs]
      exact ⟨rfl, hstop⟩

theorem Walk.short (h : Walk data e pos rs stop) : ∀ r ∈ rs, r.Short := by
  induction h with
  | here _ => exact fun _ hr => absurd hr List.not_mem_nil
  | record hread _ _ ih =>
    intro r hr
    rcases List.mem_cons.1 hr with rfl | hr
    · exact (recordEnd_of_read hread).2
    · exact ih r hr

/-! ## The iterator -/

namespace SSTableIterator

variable {it : SSTableIterator}

/-- The iterator has read all it can: it is not valid, and stands where it is stuck. -/
structure Through (it : SSTableIterator) (stop : ℕ) : Prop where
  invalid : it.valid = false
  currentOffset : it.currentOffset = stop

theorem readNextRecord_stuck (hfile : it.file = .at_ data pos) (h : Stuck data it.dataEndOffset pos) :
    it.readNextRecord.valid = false ∧ it.readNextRecord.currentOffset = it.currentOffset := by
  unfold readNextRecord
  rw [hfile]
  split
  · exact ⟨rfl, rfl⟩
  split
  · exact ⟨rfl, rfl⟩
  · rename_i r s hread
    -- a record was read whole, so it ends behind the block
    cases hend : recordEnd data pos with
    | none =>
      have hnone := readRecord_of_none hend
      rw [hread] at hnone
      exact absurd hnone (by simp)
    | some next =>
      obtain ⟨r', -, hread'⟩ := readRecord_of_end hend
      have hs : s = .at_ data next := by
        rw [hread] at hread'
        exact (Prod.mk.inj hread').2
      subst hs
      rw [IfStream.tellg_at, if_pos (h r next hread)]
      exact ⟨rfl, rfl⟩

theorem readNextRecord_read {next : ℕ} (hfile : it.file = .at_ data pos)
    (hread : readRecord (.at_ data pos) = (some r, .at_ data next)) (hle : next ≤ it.dataEndOffset) :
    it.readNextRecord = ⟨.at_ data next, it.dataEndOffset, next, r, true⟩ := by
  have hbounds := read_bounds hread
  unfold readNextRecord
  rw [hfile, if_neg (by rw [IfStream.tellg_at]; omega), hread]
  simp only
  rw [if_neg (by rw [IfStream.tellg_at]; omega), IfStream.tellg_at]

/-- **The iterator yields the records of its walk**, and is then through. -/
theorem yields_of_walk (h : Walk data e pos rs stop) (hstuck : Stuck data e stop) : ∀ {it : SSTableIterator},
    it.file = .at_ data pos → it.dataEndOffset = e → it.currentOffset = pos →
    it.readNextRecord.Yields rs ∧ (next^[rs.length] it.readNextRecord).Through stop := by
  induction h with
  | here pos =>
    intro it hfile hend hoff
    obtain ⟨hv, ho⟩ := readNextRecord_stuck hfile (hend ▸ hstuck)
    exact ⟨hv, hv, ho.trans hoff⟩
  | record hread hle _ ih =>
    intro it hfile hend hoff
    have hstep := readNextRecord_read hfile hread (hend ▸ hle)
    have hnext : it.readNextRecord.next = it.readNextRecord.readNextRecord := by
      unfold SSTableIterator.next
      rw [hstep, if_pos rfl]
    obtain ⟨hy, hthrough⟩ := ih hstuck (show it.readNextRecord.file = _ by rw [hstep])
      (show it.readNextRecord.dataEndOffset = e by rw [hstep]; exact hend) (by rw [hstep])
    refine ⟨⟨by rw [hstep], by rw [hstep], hnext ▸ hy⟩, ?_⟩
    rw [List.length_cons, Function.iterate_succ_apply, hnext]
    exact hthrough

/-- **From the start of the file** the iterator yields what there is up to where it is stuck. -/
theorem exists_yields (it : SSTableIterator) : ∃ rs stop, Walk it.file.data it.dataEndOffset 0 rs stop ∧
    Stuck it.file.data it.dataEndOffset stop ∧ rs.length ≤ it.file.data.length ∧
    it.seekToFirst.Yields rs ∧ (next^[rs.length] it.seekToFirst).Through stop := by
  obtain ⟨rs, stop, hwalk, hstuck, hlen⟩ := exists_walk it.file.data it.dataEndOffset 0
  have hseek : it.file.clear.seekg 0 = .at_ it.file.data 0 := IfStream.clear_seekg (by norm_num)
  have hy := yields_of_walk hwalk hstuck
    (show ({ it with file := it.file.clear.seekg 0, currentOffset := 0 } :
      SSTableIterator).file = _ from hseek) rfl rfl
  exact ⟨rs, stop, hwalk, hstuck, hlen, hy⟩

/-- The data block divides into the records `rs`. -/
def Over (it : SSTableIterator) (rs : List SSTableRecord) : Prop :=
  Walk it.file.data it.dataEndOffset 0 rs it.dataEndOffset

theorem Over.yields (h : it.Over rs) : it.seekToFirst.Yields rs ∧ rs.length ≤ it.file.data.length := by
  obtain ⟨rs', stop, hwalk, hstuck, hlen, hy, -⟩ := it.exists_yields
  obtain ⟨rfl, -⟩ := hwalk.unique hstuck h (stuck_of_le le_rfl)
  exact ⟨hy, hlen⟩

@[simp] theorem dataEndOffset_next (it : SSTableIterator) : it.next.dataEndOffset = it.dataEndOffset := by
  unfold next
  split
  · exact dataEndOffset_readNextRecord it
  · rfl

/-- Wherever the iterator stands. -/
theorem Over.next (h : it.Over rs) : it.next.Over rs := by
  unfold Over
  rw [data_next, dataEndOffset_next]
  exact h

theorem Over.seekToFirst (h : it.Over rs) : it.seekToFirst.Over rs := by
  unfold Over
  rw [data_seekToFirst]
  unfold SSTableIterator.seekToFirst
  rw [dataEndOffset_readNextRecord]
  exact h

/-- The encoded records stand one behind the other. -/
theorem walk_dataBytes {rest : Bytes} :
    ∀ {rs : List SSTableRecord} {pos : ℕ}, data.drop pos = dataBytes rs ++ rest →
    Walk data (pos + (dataBytes rs).length) pos (rs.map SSTableRecord.cut) (pos + (dataBytes rs).length) := by
  intro rs
  induction rs with
  | nil => exact fun _ => .here _
  | cons r rs ih =>
    intro pos h
    rw [dataBytes_cons, List.append_assoc] at h
    have hrest := ih (IfStream.drop_add_of_append h rfl)
    rw [dataBytes_cons, List.length_append, ← Nat.add_assoc]
    exact .record (readRecord_at h) (Nat.le_add_right _ _) hrest

/-- What a builder wrote divides into the records it was given. -/
theorem Opened.over {f : BloomFilter} (h : it.Opened rs f) (hshort : ∀ r ∈ rs, r.Short) : it.Over rs := by
  have hwalk := walk_dataBytes (drop_data rs f)
  rw [Nat.zero_add, SSTableRecord.map_cut hshort] at hwalk
  unfold Over
  rw [h.data, h.dataEndOffset]
  exact hwalk

/-- Where an iterator that is not valid any more stands is determined. -/
theorem through_unique {i j : ℕ} {a b : ℕ} (h : (next^[i] it).Through a) (h' : (next^[j] it).Through b) :
    a = b := by
  have key : ∀ {i j a b : ℕ}, i ≤ j → (next^[i] it).Through a → (next^[j] it).Through b → a = b := by
    intro i j a b hle h h'
    obtain ⟨d, rfl⟩ := Nat.exists_eq_add_of_le' hle
    rw [Function.iterate_add_apply, iterate_next_of_invalid h.invalid] at h'
    exact h.currentOffset.symm.trans h'.currentOffset
  rcases le_total i j with hle | hle
  · exact key hle h h'
  · exact (key hle h' h).symm

/-- **Once it is not valid any more, the iterator stands at the end of the data block** if
and only if that divides into records. -/
theorem end_reached_iff {i : ℕ} (h : (next^[i] it.seekToFirst).valid = false) :
    (next^[i] it.seekToFirst).currentOffset = it.dataEndOffset ↔ ∃ rs, it.Over rs := by
  obtain ⟨rs, stop, hwalk, hstuck, -, -, hthrough⟩ := it.exists_yields
  have hstop : (next^[i] it.seekToFirst).currentOffset = stop := through_unique ⟨h, rfl⟩ hthrough
  rw [hstop]
  constructor
  · intro heq
    rw [heq] at hwalk
    exact ⟨rs, hwalk⟩
  · rintro ⟨rs', hover⟩
    exact (hwalk.unique hstuck hover (stuck_of_le le_rfl)).2

theorem dataEndOffset_iterate (it : SSTableIterator) (i : ℕ) : (next^[i] it).dataEndOffset = it.dataEndOffset := by
  induction i with
  | zero => rfl
  | succ i ih => rw [Function.iterate_succ_apply', dataEndOffset_next, ih]

end SSTableIterator

end LsmTree
