import LsmTree.Proof.MergeTables
import LsmTree.Proof.TableCodec

/-!
# What `Compact` makes of its inputs

* `compactReturns`: `Compact` comes to an end, whatever bytes the inputs' files hold.
* `compact_newest_wins`: **it writes for each key the record of the input with the
  greatest file id**, and leaves out the purged deletions only.
-/

namespace LsmTree.Compactor

open Base

variable {hash : Bytes → UInt64} {pq : PriorityQueue HeapNode order.gt} {ins : List CompactorInput}
  {ts : List RankedTable} {purge : Bool}

/-! ## The loops -/

/-- Whatever file an input reads, it yields some records. -/
theorem exists_yieldsTable (ins : List CompactorInput) : ∃ ts, List.Forall₂ YieldsTable ins ts := by
  induction ins with
  | nil => exact ⟨[], .nil⟩
  | cons input ins ih =>
    obtain ⟨ts, hts⟩ := ih
    cases hit : input.iterator with
    | none =>
      refine ⟨(input.fileId, []) :: ts, .cons ⟨rfl, fun _ => rfl, fun it hit' => ?_⟩ hts⟩
      exact absurd (hit.symm.trans hit') (by simp)
    | some it =>
      obtain ⟨rs, stop, -, -, hlen, hy, -⟩ := it.exists_yields
      refine ⟨(input.fileId, rs) :: ts, .cons ⟨rfl, fun hnone => ?_, fun it' hit' => ?_⟩ hts⟩
      · exact absurd (hit.symm.trans hnone) (by simp)
      · obtain rfl := Option.some.inj (hit.symm.trans hit')
        exact ⟨hy, hlen⟩

/-- **The loop over the heap comes to an end**, if it may make as many rounds as there are
records left. -/
theorem mergeLoop_ends (hash : Bytes → UInt64) (purge : Bool) {fuel : ℕ} :
    ∀ (n : ℕ) {st : MergeState pq CompactorInput} (b : SSTableBuilder)
    {Ls : List (List (HeapNode × Unit))}, Merge.Holds inputs st Ls → Merge.total Ls ≤ n → Merge.total Ls ≤ fuel →
    ∃ st', Loop.Ends (mergeRound hash purge) (st, b)
      ((mergeLoop hash purge fuel n st b).1, st', (mergeLoop hash purge fuel n st b).2) := by
  intro n
  induction n with
  | zero =>
    intro st b Ls h hn hfuel
    have hnil := Merge.eq_nil_of_total (Nat.le_zero.1 hn)
    have hnone : Merge.popWinner inputs fuel st = none := (Merge.popWinner_eq_none h).2 hnil
    have hpops := Merge.pops_popWinner h hfuel
    rw [hnone] at hpops
    exact ⟨st, .leaves ⟨none, hpops, rfl⟩⟩
  | succ n ih =>
    intro st b Ls h hn hfuel
    have hpops := Merge.pops_popWinner h hfuel
    unfold mergeLoop
    cases hpop : Merge.popWinner inputs fuel st with
    | none =>
      rw [hpop] at hpops
      exact ⟨st, .leaves ⟨none, hpops, rfl⟩⟩
    | some p =>
      obtain ⟨w, v, st'⟩ := p
      rw [hpop] at hpops
      obtain ⟨ok, b', hemit⟩ : ∃ ok b', emit hash purge w b = (ok, b') := ⟨_, _, rfl⟩
      simp only [hemit]
      cases ok with
      | false => exact ⟨st', .leaves ⟨_, hpops, by simp only [hemit]⟩⟩
      | true =>
        -- each round takes a record, so the rest has a smaller total
        obtain ⟨Ls', h', hless⟩ := Merge.popWinner_holds h hpop
        obtain ⟨st'', hends⟩ := ih b' h' (by omega) (by omega)
        exact ⟨st'', .again ⟨_, hpops, by simp only [hemit]⟩ hends⟩

/-- **`Compact` comes to an end**, whatever bytes the inputs' files hold. -/
theorem compactReturns (hash : Bytes → UInt64) (pq : PriorityQueue HeapNode order.gt) (ins : List CompactorInput)
    (path : Bytes) (purge : Bool) (io : BuildIO) (w : World) :
    ∃ ins', CompactReturns hash pq ins path purge io w
      ((compact hash pq ins path purge io w).1, ins', (compact hash pq ins path purge io w).2) := by
  unfold CompactReturns
  by_cases hins : ins = []
  · refine ⟨ins, ?_⟩
    unfold compact
    rw [if_pos hins, if_pos hins]
  by_cases hpath : path = []
  · refine ⟨ins, ?_⟩
    unfold compact
    rw [if_neg hins, if_neg hins, if_pos hpath, if_pos hpath]
  obtain ⟨ts, hts⟩ := exists_yieldsTable ins
  have htotal := total_le hts
  obtain ⟨st, hends⟩ := mergeLoop_ends hash purge (((sought ins).map inputSize).sum)
    (SSTableBuilder.new path io.opens io.budget) (sought_holds pq hts) htotal
    (show Merge.total (ts.mapIdx nodesOf) ≤ ((sought ins).map inputSize).sum + (sought ins).length by omega)
  rw [compact_eq hash pq purge hins hpath]
  obtain ⟨ok, b, hml⟩ : ∃ ok b, mergeLoop hash purge (((sought ins).map inputSize).sum + (sought ins).length)
      ((sought ins).map inputSize).sum (Merge.fill inputs (sought ins) : MergeState pq _)
      (SSTableBuilder.new path io.opens io.budget) = (ok, b) := ⟨_, _, rfl⟩
  rw [hml] at hends ⊢
  refine ⟨st.sources, ?_⟩
  rw [if_neg hins, if_neg hpath]
  refine ⟨ok, st, b, hends, ?_⟩
  cases ok with
  | false => rfl
  | true => rfl

/-! ## What is written -/

/-- The input has no iterator, or one over a data block of ascending records. -/
structure Ranges (input : CompactorInput) (t : RankedTable) : Prop where
  fileId : input.fileId = t.1
  none : input.iterator = none → t.2 = []
  some : ∀ it, input.iterator = some it → it.Over t.2
  asc : Ascending SSTableRecord.key t.2

theorem Ranges.yieldsTable {input : CompactorInput} {t : RankedTable} (h : Ranges input t) : YieldsTable input t :=
  ⟨h.fileId, h.none, fun it hit => (h.some it hit).yields⟩

theorem Ranges.short {input : CompactorInput} {t : RankedTable} (h : Ranges input t) : ∀ r ∈ t.2, r.Short := by
  cases hit : input.iterator with
  | none =>
    rw [h.none hit]
    exact fun r hr => absurd hr List.not_mem_nil
  | some it => exact (h.some it hit).short

/-- The record is of the table with the greatest id among those that have its key. -/
def Newest (ts : List RankedTable) (r : SSTableRecord) : Prop :=
  ∃ t ∈ ts, r ∈ t.2 ∧ ∀ u ∈ ts, (∃ x ∈ u.2, x.key = r.key) → u.1 ≤ t.1

/-- What is kept of a record: of a deletion the key, or nothing if deletions are purged. -/
def kept (purge : Bool) (r : SSTableRecord) : Option SSTableRecord :=
  if r.isDeleted then if purge then none else some ⟨r.key, [], true⟩ else some r

theorem written_nodeOf (purge : Bool) (fileId i : ℕ) (r : SSTableRecord) :
    written purge (nodeOf fileId i r) = kept purge r := by
  obtain ⟨key, value, deleted⟩ := r
  cases deleted <;> rfl

theorem kept_short {r x : SSTableRecord} (hx : x.Short) (h : kept purge x = some r) : r.Short := by
  unfold kept at h
  split at h
  · split at h
    · exact absurd h (by simp)
    · rw [← Option.some.inj h]
      exact ⟨hx.key, Nat.two_pow_pos 32⟩
  · rw [← Option.some.inj h]
    exact hx

/-- What a merge in which the newest record wins has written. -/
structure NewestWins (purge : Bool) (ts : List RankedTable) (out : List SSTableRecord) : Prop where
  asc : Ascending SSTableRecord.key out
  mem : ∀ r, r ∈ out ↔ ∃ x, Newest ts x ∧ kept purge x = some r

/-- A record of the merge is a record of one of the tables. -/
theorem of_mem_merged {W : List (HeapNode × Unit)} (hm : Merge.Merged order (ts.mapIdx nodesOf) W)
    {p : HeapNode × Unit} (hp : p ∈ W) : ∃ i, ∃ hi : i < ts.length, ∃ x ∈ ts[i].2, p.1 = nodeOf ts[i].1 i x := by
  obtain ⟨L, hL, hpL⟩ := hm.mem p hp
  obtain ⟨i, hi, rfl⟩ := List.mem_mapIdx.1 hL
  obtain ⟨x, hx, rfl⟩ := List.mem_map.1 hpL
  exact ⟨i, hi, x, hx, rfl⟩

/-- **In the merge of ascending inputs the newest record wins.** -/
theorem mergedBy_newestWins (pq : PriorityQueue HeapNode order.gt) (purge : Bool)
    (h : List.Forall₂ YieldsTable ins ts)
    (hasc : ∀ t ∈ ts, Ascending SSTableRecord.key t.2) (hids : (ts.map Prod.fst).Nodup) :
    NewestWins purge ts (mergedBy purge pq ins) := by
  obtain ⟨W, hW, hm⟩ := winners_merge purge pq h hasc
  have hin : ∀ (i : ℕ) (hi : i < ts.length) (x : SSTableRecord), x ∈ ts[i].2 →
      nodesOf i ts[i] ∈ ts.mapIdx nodesOf ∧ (nodeOf ts[i].1 i x, ()) ∈ nodesOf i ts[i] :=
    fun i hi x hx => ⟨List.mem_mapIdx.2 ⟨i, hi, rfl⟩, List.mem_map_of_mem hx⟩
  rw [hW]
  refine ⟨emitted_ascending purge (List.pairwise_map.2 hm.asc), fun r => ?_⟩
  unfold emitted
  rw [List.mem_filterMap]
  constructor
  · rintro ⟨w, hw, hwr⟩
    obtain ⟨p, hp, rfl⟩ := List.mem_map.1 hw
    obtain ⟨i, hi, x, hx, hpx⟩ := of_mem_merged hm hp
    rw [hpx, written_nodeOf] at hwr
    refine ⟨x, ⟨ts[i], List.getElem_mem hi, hx, fun u hu hux => ?_⟩, hwr⟩
    obtain ⟨y, hy, hyk⟩ := hux
    obtain ⟨j, hj, rfl⟩ := List.mem_iff_getElem.1 hu
    obtain ⟨hL, hyL⟩ := hin j hj y hy
    have hrank := hm.rank_le hp hL hyL (by rw [hpx]; exact hyk)
    rw [hpx] at hrank
    exact hrank
  · rintro ⟨x, ⟨t, ht, hx, hmax⟩, hkept⟩
    obtain ⟨i, hi, rfl⟩ := List.mem_iff_getElem.1 ht
    obtain ⟨hL, hxL⟩ := hin i hi x hx
    obtain ⟨p, hp, hpk, hpr⟩ := hm.complete _ hL _ hxL
    obtain ⟨j, hj, y, hy, hpy⟩ := of_mem_merged hm hp
    rw [hpy] at hpk hpr
    have hyk : y.key = x.key := hpk
    -- the winner is of a table with an id as great, and so of the same table
    have hle : ts[j].1 ≤ ts[i].1 := hmax _ (List.getElem_mem hj) ⟨y, hy, hyk⟩
    have hge : ts[i].1 ≤ ts[j].1 := hpr
    have htable : ts[j] = ts[i] :=
      List.inj_on_of_nodup_map hids (List.getElem_mem hj) (List.getElem_mem hi) (le_antisymm hle hge)
    rw [htable] at hy
    obtain rfl := (hasc _ (List.getElem_mem hi)).eq_of_key hy hx hyk
    exact ⟨p.1, List.mem_map_of_mem hp, by rw [hpy, written_nodeOf, hkept]⟩

/-- **`Compact` computes the newest-wins merge**: it comes to an end, and if it returns
true the file it leaves decodes to what the newest records leave. -/
theorem compact_newest_wins (hash : Bytes → UInt64) (pq : PriorityQueue HeapNode order.gt) (hins : ins ≠ [])
    (hids : (ins.map CompactorInput.fileId).Nodup) (hread : List.Forall₂ Ranges ins ts) (path : Bytes)
    (purge : Bool) (io : BuildIO) (w : World) :
    ∃ ok ins' w', CompactReturns hash pq ins path purge io w (ok, ins', w') ∧
      compact hash pq ins path purge io w = (ok, w') ∧
      (ok = true → ∃ content out filter, w'.disk.tables path = some content ∧ Decoded path content out filter ∧
        NewestWins purge ts out) := by
  obtain ⟨ins', hreturns⟩ := compactReturns hash pq ins path purge io w
  refine ⟨_, ins', _, hreturns, rfl, fun hok => ?_⟩
  have hy : List.Forall₂ YieldsTable ins ts := hread.imp fun _ _ => Ranges.yieldsTable
  have hts : ∀ t ∈ ts, ∃ input ∈ ins, Ranges input t := by
    intro t ht
    obtain ⟨i, hi, rfl⟩ := List.mem_iff_getElem.1 ht
    have hi' : i < ins.length := hread.length_eq ▸ hi
    exact ⟨_, List.getElem_mem hi', (List.forall₂_iff_get.1 hread).2 i hi' hi⟩
  have hfst : ts.map Prod.fst = ins.map CompactorInput.fileId := by
    refine (List.ext_getElem (by simp [hread.length_eq]) fun i h1 h2 => ?_)
    rw [List.getElem_map, List.getElem_map]
    exact ((List.forall₂_iff_get.1 hread).2 i (by simpa using h2) (by simpa using h1)).fileId.symm
  have hnewest := mergedBy_newestWins pq purge hy (fun t ht => (hts t ht).elim fun _ h => h.2.asc) (hfst ▸ hids)
  -- the records are short because those of the inputs are
  have hshort : ∀ r ∈ mergedBy purge pq ins, r.Short := by
    intro r hr
    obtain ⟨x, ⟨t, ht, hx, -⟩, hkept⟩ := (hnewest.mem r).1 hr
    obtain ⟨input, -, hranges⟩ := hts t ht
    exact kept_short (hranges.short x hx) hkept
  by_cases hpath : path = []
  · unfold compact at hok
    rw [if_neg hins, if_pos hpath] at hok
    exact absurd hok (by simp)
  rcases compact_cases hash pq purge hins hpath io w with ⟨hc, hlen⟩ | hc
  · rw [hc]
    refine ⟨_, mergedBy purge pq ins, _, ?_, decoded_tableBytes hash path hshort hlen, hnewest⟩
    simp only [World.disk_perform, Effect.apply, setTable_self]
  · rw [hc] at hok
    exact absurd hok (by simp)

/-- An iterator on the file of the records. -/
def iteratorOf (rs : List SSTableRecord) : SSTableIterator :=
  ⟨.ofData (tableBytes rs .default), (dataBytes rs).length, 0, ⟨[], [], false⟩, false⟩

/-- A newer table behind an older one, an input without an iterator, and an empty table. -/
def sampleTables : List RankedTable :=
  [(2, [⟨bytes "a", bytes "1", false⟩, ⟨bytes "b", bytes "2", false⟩]), (9, []),
    (5, [⟨bytes "b", [], true⟩, ⟨bytes "c", bytes "3", false⟩]), (7, [])]

def sampleInputs : List CompactorInput :=
  sampleTables.map fun t => ⟨t.1, if t.1 = 9 then none else some (iteratorOf t.2)⟩

theorem sampleTables_ok : ∀ t ∈ sampleTables, Ascending SSTableRecord.key t.2 ∧ ∀ r ∈ t.2, r.Short := by
  have hshort : ∀ t ∈ sampleTables, ∀ r ∈ t.2, r.key.length < 2 ^ 32 ∧ r.value.length < 2 ^ 32 := by decide
  have hasc : ∀ t ∈ sampleTables, Ascending SSTableRecord.key t.2 := by
    unfold Ascending
    decide
  exact fun t ht => ⟨hasc t ht, fun r hr => ⟨(hshort t ht r hr).1, (hshort t ht r hr).2⟩⟩

theorem opened_iteratorOf (rs : List SSTableRecord) : (iteratorOf rs).Opened rs .default := ⟨rfl, rfl⟩

theorem ranges_sample : List.Forall₂ Ranges sampleInputs sampleTables := by
  have hnone : ∀ t ∈ sampleTables, t.1 = 9 → t.2 = [] := by decide
  unfold sampleInputs
  rw [List.forall₂_map_left_iff]
  refine List.forall₂_same.2 fun t ht => ⟨rfl, fun h => hnone t ht ?_, fun it hit => ?_, (sampleTables_ok t ht).1⟩
  · by_contra hne
    simp only [if_neg hne] at h
    exact absurd h (by simp)
  · split at hit
    · exact absurd hit (by simp)
    · rw [← Option.some.inj hit]
      exact (opened_iteratorOf t.2).over (sampleTables_ok t ht).2

theorem compact_sample :
    (compact (fun _ => 0) order.firstIn sampleInputs (bytes "out.sst") true .ok (.ofDisk .empty)).1 = true := by
  decide +kernel

theorem compact_newest_wins_sample :
    ∃ ins' w', CompactReturns (fun _ => 0) order.firstIn sampleInputs (bytes "out.sst")
    true .ok (.ofDisk .empty) (true, ins', w') ∧
    ∃ content out filter, w'.disk.tables (bytes "out.sst") = some content ∧
      Decoded (bytes "out.sst") content out filter ∧ NewestWins true sampleTables out := by
  have hok := compact_sample
  obtain ⟨ok, ins', w', hreturns, hc, hwritten⟩ := compact_newest_wins (fun _ => 0) order.firstIn
    (show sampleInputs ≠ [] from List.cons_ne_nil _ _) (by decide) ranges_sample (bytes "out.sst") true .ok
      (.ofDisk .empty)
  rw [hc] at hok
  obtain rfl : ok = true := hok
  exact ⟨ins', w', hreturns, hwritten rfl⟩

end LsmTree.Compactor
