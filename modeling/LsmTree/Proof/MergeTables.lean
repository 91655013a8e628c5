import LsmTree.Proof.Flush
import LsmTree.Proof.DataBlock

/-!
# What a merge of tables writes

* `mergeLoop_spec`: the merge writes the records of the winners, in their order.
* `compact_cases`: `Compact` writes the whole table or leaves no file.
* `sought_holds`, `winners_merge`: what the inputs yield is what the merge has to merge,
  whether an input has an iterator or not.
* `mergedRecords_spec`: the table written says of each key what a table with the
  greatest file id among those that have the key says of it.
-/

namespace LsmTree

open Base

variable {hash : Bytes → UInt64}

namespace Compactor

/-! ## The loop -/

/-- The record that is written for a winner, if one is. -/
def written (purgeTombstones : Bool) (w : HeapNode) : Option SSTableRecord :=
  if w.isDeleted then if purgeTombstones then none else some ⟨w.key, [], true⟩
  else some ⟨w.key, w.value, false⟩

def emitted (purgeTombstones : Bool) (ws : List HeapNode) : List SSTableRecord :=
  ws.filterMap (written purgeTombstones)

theorem emit_eq (purge : Bool) (w : HeapNode) (b : SSTableBuilder) :
    emit hash purge w b = match written purge w with
      | none => (true, b)
      | some r => b.add hash r.key r.value r.isDeleted := by
  unfold emit written
  cases w.isDeleted <;> cases purge <;> rfl

theorem emitted_cons (purge : Bool) (w : HeapNode) (ws : List HeapNode) :
    emitted purge (w :: ws) = (written purge w).toList ++ emitted purge ws := by
  unfold emitted
  cases h : written purge w with
  | none => exact List.filterMap_cons_none h
  | some r => exact List.filterMap_cons_some h

section

variable {pq : PriorityQueue HeapNode order.gt} {b : SSTableBuilder} {rs : List SSTableRecord}

/-- The builder after the loop: it was not finished, and unless an `Add` failed it
has written the records `rs`. -/
structure LoopEnd (hash : Bytes → UInt64) (b : SSTableBuilder) (rs : List SSTableRecord) (ok : Bool)
    (b' : SSTableBuilder) : Prop where
  finished : b'.finished = false
  filePath : b'.filePath = b.filePath
  isOpen : b'.file.isOpen = b.file.isOpen
  building : ok = true → b'.Building hash rs

theorem emit_spec (purge : Bool) (w : HeapNode) (hb : b.Building hash rs) :
    LoopEnd hash b (rs ++ (written purge w).toList) (emit hash purge w b).1 (emit hash purge w b).2 := by
  rw [emit_eq]
  cases written purge w with
  | none =>
    rw [Option.toList_none, List.append_nil]
    exact ⟨hb.finished, rfl, rfl, fun _ => hb⟩
  | some r =>
    have h := (hb.add r).1
    exact ⟨h.finished, SSTableBuilder.filePath_add hash _ _ _ b, SSTableBuilder.isOpen_add hash r b, fun _ => h⟩

/-- **The loop writes the records of the winners.** -/
theorem mergeLoop_spec (purge : Bool) (fuel : ℕ) : ∀ (n : ℕ) (st : MergeState pq CompactorInput)
    (b : SSTableBuilder) (rs : List SSTableRecord), b.Building hash rs →
    LoopEnd hash b (rs ++ emitted purge ((Merge.winners inputs fuel n st).map Prod.fst))
      (mergeLoop hash purge fuel n st b).1 (mergeLoop hash purge fuel n st b).2 := by
  intro n
  induction n with
  | zero =>
    intro st b rs hb
    have hnil : emitted purge ((Merge.winners inputs fuel 0 st).map Prod.fst) = [] := rfl
    rw [hnil, List.append_nil]
    exact ⟨hb.finished, rfl, rfl, fun _ => hb⟩
  | succ n ih =>
    intro st b rs hb
    unfold mergeLoop Merge.winners
    cases Merge.popWinner inputs fuel st with
    | none =>
      have hnil : emitted purge (([] : List (HeapNode × Option Unit)).map Prod.fst) = [] := rfl
      simp only [hnil, List.append_nil]
      exact ⟨hb.finished, rfl, rfl, fun _ => hb⟩
    | some p =>
      obtain ⟨w, v, st'⟩ := p
      -- one round adds the winner, unless it is a tombstone to be purged
      have he := emit_spec purge w hb
      simp only [List.map_cons, emitted_cons]
      obtain ⟨ok, b', hemit⟩ : ∃ ok b', emit hash purge w b = (ok, b') := ⟨_, _, rfl⟩
      rw [hemit] at he
      rw [hemit, ← List.append_assoc]
      cases ok with
      | false => exact ⟨he.finished, he.filePath, he.isOpen, fun h => absurd h Bool.false_ne_true⟩
      | true =>
        have h := ih st' b' _ (he.building rfl)
        exact ⟨h.finished, h.filePath.trans he.filePath, h.isOpen.trans he.isOpen, h.building⟩

/-! ## The whole merge -/

/-- The inputs, sought to their first records. -/
def sought (ins : List CompactorInput) : List CompactorInput :=
  ins.map fun input => { input with iterator := input.iterator.map .seekToFirst }

/-- The records a merge writes, its deletions purged or not. -/
def mergedBy (purge : Bool) (pq : PriorityQueue HeapNode order.gt) (ins : List CompactorInput) :
    List SSTableRecord :=
  let fuel := ((sought ins).map inputSize).sum
  emitted purge ((Merge.winners inputs (fuel + (sought ins).length) fuel
    (Merge.fill inputs (sought ins) : MergeState pq _)).map Prod.fst)

/-- The records a merge writes. -/
def mergedRecords (pq : PriorityQueue HeapNode order.gt) (ins : List CompactorInput) : List SSTableRecord :=
  let fuel := ((sought ins).map inputSize).sum
  emitted true ((Merge.winners inputs (fuel + (sought ins).length) fuel
    (Merge.fill inputs (sought ins) : MergeState pq _)).map Prod.fst)

/-- The file a merge writes. -/
def mergedTable (hash : Bytes → UInt64) (pq : PriorityQueue HeapNode order.gt) (ins : List CompactorInput) :
    Bytes :=
  tableBytes (mergedRecords pq ins) (SSTableBuilder.filterOf hash (mergedRecords pq ins))

theorem mergedTable_eq (hash : Bytes → UInt64) (pq : PriorityQueue HeapNode order.gt) (ins : List CompactorInput) :
    tableBytes (mergedBy true pq ins) (SSTableBuilder.filterOf hash (mergedBy true pq ins)) =
    mergedTable hash pq ins :=
  rfl

theorem compact_eq (hash : Bytes → UInt64) (pq : PriorityQueue HeapNode order.gt) (purge : Bool)
    {ins : List CompactorInput} (hins : ins ≠ []) {path : Bytes} (hpath : path ≠ []) (io : BuildIO) (w : World) :
    compact hash pq ins path purge io w =
      match mergeLoop hash purge (((sought ins).map inputSize).sum + (sought ins).length)
        ((sought ins).map inputSize).sum
        (Merge.fill inputs (sought ins) : MergeState pq _) (SSTableBuilder.new path io.opens io.budget) with
      | (false, b) => (false, b.destroy (if io.opens then w.perform (.tableCreate path) else w))
      | (true, b) => ((b.commit (if io.opens then w.perform (.tableCreate path) else w)).1,
          (b.commit (if io.opens then w.perform (.tableCreate path) else w)).2.1.destroy
            (b.commit (if io.opens then w.perform (.tableCreate path) else w)).2.2) := by
  unfold compact
  rw [if_neg hins, if_neg hpath]
  rfl

/-- **How `Compact` ends**: it writes the whole table, or leaves no file. -/
theorem compact_cases (hash : Bytes → UInt64) (pq : PriorityQueue HeapNode order.gt) (purge : Bool)
    {ins : List CompactorInput} (hins : ins ≠ []) {path : Bytes} (hpath : path ≠ []) (io : BuildIO) (w : World) :
    (compact hash pq ins path purge io w =
        (true, (w.perform (.tableCreate path)).perform (.tableWrite path
          (tableBytes (mergedBy purge pq ins) (SSTableBuilder.filterOf hash (mergedBy purge pq ins))))) ∧
      (tableBytes (mergedBy purge pq ins) (SSTableBuilder.filterOf hash (mergedBy purge pq ins))).length ≤
      maxFileSize) ∨
    compact hash pq ins path purge io w =
      (false, (if io.opens then w.perform (.tableCreate path) else w).perform (.tableRemove path)) := by
  set fuel := ((sought ins).map inputSize).sum with hfuel
  have hloop := mergeLoop_spec purge (fuel + (sought ins).length) fuel
    (Merge.fill inputs (sought ins) : MergeState pq _) _ []
    (SSTableBuilder.building_new hash path io.opens io.budget)
  rw [List.nil_append] at hloop
  obtain ⟨ok, b, hml⟩ : ∃ ok b, mergeLoop hash purge (fuel + (sought ins).length) fuel
      (Merge.fill inputs (sought ins) : MergeState pq _) (SSTableBuilder.new path io.opens io.budget) = (ok, b) :=
    ⟨_, _, rfl⟩
  rw [hml] at hloop
  rw [compact_eq hash pq purge hins hpath, hml]
  have hpath : b.filePath = path := hloop.filePath
  have hopen : b.file.isOpen = io.opens := hloop.isOpen
  cases ok with
  | false =>
    -- an `Add` failed: the destructor removes the file
    refine Or.inr ?_
    have hfin : b.finished = false := hloop.finished
    simp only [SSTableBuilder.destroy, hfin, hpath]
    rfl
  | true =>
    have hb : b.Building hash (mergedBy purge pq ins) := hloop.building rfl
    -- all records were added, and `Finish` decides
    rcases hb.commit (if io.opens then w.perform (.tableCreate path) else w) with
      ⟨b', hc, hfin, hio, hlen⟩ | ⟨b', hc, hfin, hbp⟩
    · refine Or.inl ⟨?_, hlen⟩
      have hopens : io.opens = true := hopen.symm.trans hio
      simp only [hopens, if_true, hpath] at hc ⊢
      simp only [hc, SSTableBuilder.destroy, hfin, if_true]
    · refine Or.inr ?_
      simp only [hc, SSTableBuilder.destroy, hfin, hbp, hpath]
      rfl

end

/-! ## The merge of tables -/

/-- A file id with the records of its table. -/
abbrev RankedTable := ℕ × List SSTableRecord

/-- What a table says, with its file id. -/
def RankedTable.layer (t : RankedTable) : ℕ × Layer Bytes Bytes := (t.1, recordLayer t.2)

/-- The node of a record of input `i`. -/
def nodeOf (fileId i : ℕ) (r : SSTableRecord) : HeapNode := ⟨r.key, r.value, r.isDeleted, fileId, i⟩

def nodesOf (i : ℕ) (t : RankedTable) : List (HeapNode × Unit) := t.2.map fun r => (nodeOf t.1 i r, ())

/-- The input reads the table. -/
structure ReadsTable (input : CompactorInput) (t : RankedTable) : Prop where
  fileId : input.fileId = t.1
  opened : ∃ it f, input.iterator = some it ∧ it.Opened t.2 f
  asc : Ascending SSTableRecord.key t.2
  short : ∀ r ∈ t.2, r.Short

theorem yields_input {fileId i : ℕ} {rs : List SSTableRecord} : ∀ {it : SSTableIterator}, it.Yields rs →
    Merge.Yields order inputs i ⟨fileId, some it⟩ (rs.map fun r => (nodeOf fileId i r, ())) := by
  induction rs with
  | nil =>
    intro it h
    have hv : it.valid = false := h
    change inputNode i ⟨fileId, some it⟩ = none
    unfold inputNode
    simp [hv]
  | cons r rs ih =>
    intro it h
    obtain ⟨hv, hr, hrest⟩ := h
    refine ⟨?_, rfl, rfl, ih hrest⟩
    change inputNode i ⟨fileId, some it⟩ = some (nodeOf fileId i r)
    unfold inputNode nodeOf
    simp only [hv, if_true, SSTableIterator.key, SSTableIterator.value, SSTableIterator.isDeleted, hr]

variable {ins : List CompactorInput} {ts : List RankedTable}

/-- What an input yields: the records `t.2`, or nothing without an iterator. -/
structure YieldsTable (input : CompactorInput) (t : RankedTable) : Prop where
  fileId : input.fileId = t.1
  none : input.iterator = none → t.2 = []
  some : ∀ it, input.iterator = some it → it.seekToFirst.Yields t.2 ∧ t.2.length ≤ it.file.data.length

theorem ReadsTable.yieldsTable {input : CompactorInput} {t : RankedTable} (h : ReadsTable input t) :
    YieldsTable input t := by
  obtain ⟨it, f, hit, hopen⟩ := h.opened
  refine ⟨h.fileId, fun hnone => absurd (hit.symm.trans hnone) (by simp), fun it' hit' => ?_⟩
  obtain rfl := Option.some.inj (hit.symm.trans hit')
  exact (hopen.over h.short).yields

/-- A file is longer than its records are many. -/
theorem YieldsTable.length_le {input : CompactorInput} {t : RankedTable} (h : YieldsTable input t) :
    t.2.length ≤ inputSize { input with iterator := input.iterator.map .seekToFirst } := by
  unfold inputSize
  cases hit : input.iterator with
  | none => rw [h.none hit, List.length_nil]; exact Nat.zero_le _
  | some it =>
    have hlen := (h.some it hit).2
    simp only [Option.map_some, SSTableIterator.data_seekToFirst]
    omega

theorem total_le (h : List.Forall₂ YieldsTable ins ts) :
    Merge.total (ts.mapIdx nodesOf) ≤ ((sought ins).map inputSize).sum := by
  have hlen : (ts.mapIdx nodesOf).map List.length = ts.map fun t => t.2.length := by
    refine List.ext_getElem (by simp) fun i h1 h2 => ?_
    simp [nodesOf]
  unfold Merge.total sought
  rw [hlen, List.map_map]
  induction h with
  | nil => exact le_rfl
  | cons hr _ ih =>
    rename_i _ _ ins ts _
    have hlen' : (ts.mapIdx nodesOf).map List.length = ts.map fun t => t.2.length := by
      refine List.ext_getElem (by simp) fun i h1 h2 => ?_
      simp [nodesOf]
    have := hr.length_le
    have := ih hlen'
    simp only [List.map_cons, List.sum_cons, Function.comp_apply] at *
    omega

/-- **What the sought inputs have to merge.** -/
theorem sought_holds (pq : PriorityQueue HeapNode order.gt) (h : List.Forall₂ YieldsTable ins ts) :
    Merge.Holds inputs (Merge.fill inputs (sought ins) : MergeState pq _) (ts.mapIdx nodesOf) := by
  refine Merge.fill_holds (by simp [sought, h.length_eq]) fun i s L hs hL => ?_
  unfold sought at hs
  rw [List.getElem?_map] at hs
  rw [List.getElem?_mapIdx] at hL
  obtain ⟨s₀, hs₀, rfl⟩ := Option.map_eq_some_iff.1 hs
  obtain ⟨t, ht, rfl⟩ := Option.map_eq_some_iff.1 hL
  obtain ⟨hi, rfl⟩ := List.getElem?_eq_some_iff.1 hs₀
  obtain ⟨hj, rfl⟩ := List.getElem?_eq_some_iff.1 ht
  have hy : YieldsTable ins[i] ts[i] := (List.forall₂_iff_get.1 h).2 i hi hj
  cases hit : ins[i].iterator with
  | none =>
    unfold nodesOf
    rw [hy.none hit]
    rfl
  | some it =>
    rw [hy.fileId]
    exact yields_input (hy.some it hit).1

/-- **What the merge of ascending inputs writes**: the records of the winners. -/
theorem winners_merge (purge : Bool) (pq : PriorityQueue HeapNode order.gt) (h : List.Forall₂ YieldsTable ins ts)
    (hasc : ∀ t ∈ ts, Ascending SSTableRecord.key t.2) :
    ∃ W, mergedBy purge pq ins = emitted purge (W.map Prod.fst) ∧ Merge.Merged order (ts.mapIdx nodesOf) W := by
  have hok : Merge.OK inputs (Merge.fill inputs (sought ins) : MergeState pq _) (ts.mapIdx nodesOf) := by
    refine ⟨sought_holds pq h, fun L hL => ?_⟩
    obtain ⟨i, hi, rfl⟩ := List.mem_mapIdx.1 hL
    exact List.pairwise_map.2 (hasc _ (List.getElem_mem hi))
  obtain ⟨W, hW, hm⟩ := Merge.winners_merged hok
    (show (ts.mapIdx nodesOf).length ≤ ((sought ins).map inputSize).sum + (sought ins).length by
      simp [sought, h.length_eq]) (total_le h)
  refine ⟨W, ?_, hm⟩
  unfold mergedBy
  simp only [hW, List.map_map]
  rfl

theorem written_key {purge : Bool} {w : HeapNode} {r : SSTableRecord} (h : written purge w = some r) :
    r.key = w.key := by
  unfold written at h
  split at h
  · split at h
    · exact absurd h (by simp)
    · rw [← Option.some.inj h]
  · rw [← Option.some.inj h]

theorem emitted_ascending (purge : Bool) {ws : List HeapNode} (hasc : Ascending HeapNode.key ws) :
    Ascending SSTableRecord.key (emitted purge ws) := by
  refine List.Pairwise.filterMap _ (fun w w' hlt r hr r' hr' => ?_) hasc
  rw [written_key hr, written_key hr']
  exact hlt

/-- The table of the winners records the live value of each winner. -/
theorem findKey_emitted {ws : List HeapNode} (hasc : Ascending HeapNode.key ws) (key : Bytes) :
    findKey SSTableRecord.key key (emitted true ws) = (findKey HeapNode.key key ws).bind (written true) := by
  induction ws with
  | nil => rfl
  | cons w ws ih =>
    obtain ⟨hw, hws⟩ := ascending_cons.1 hasc
    have hnone : w.key = key → findKey SSTableRecord.key key (emitted true ws) = none := by
      intro hk
      rw [ih hws, findKey_eq_none.2 fun a ha => hk ▸ ne_of_gt (hw a ha)]
      rfl
    rw [emitted_cons, findKey_append, findKey_cons]
    cases hwr : written true w with
    | none =>
      rw [Option.toList_none, findKey_nil, Option.none_or]
      split
      · rename_i hk
        rw [hnone hk, Option.bind_some, hwr]
      · exact ih hws
    | some r =>
      rw [Option.toList_some, findKey_cons, written_key hwr]
      split
      · rw [Option.some_or, Option.bind_some, hwr]
      · rw [findKey_nil, Option.none_or]
        exact ih hws

/-- What the merge of tables writes. -/
structure MergedTables (ts : List RankedTable) (out : List SSTableRecord) : Prop where
  asc : Ascending SSTableRecord.key out
  short : ∀ r ∈ out, r.Short
  /-- a key that no table has, or the record of a table with the greatest id -/
  layer : ∀ key, ((∀ t ∈ ts, recordLayer t.2 key = none) ∧ recordLayer out key = none) ∨
    ∃ r, Preferred (ts.map RankedTable.layer) key r ∧ recordLayer out key = r.map some

/-- **The merge writes for each key the live record of a table of greatest id.** -/
theorem mergedRecords_spec (pq : PriorityQueue HeapNode order.gt) (h : List.Forall₂ ReadsTable ins ts) :
    MergedTables ts (mergedRecords pq ins) := by
  have hts : ∀ t ∈ ts, Ascending SSTableRecord.key t.2 ∧ ∀ r ∈ t.2, r.Short := by
    intro t ht
    obtain ⟨i, hi, rfl⟩ := List.mem_iff_getElem.1 ht
    have hr := (List.forall₂_iff_get.1 h).2 i (h.length_eq ▸ hi) hi
    exact ⟨hr.asc, hr.short⟩
  obtain ⟨W, hW, hm⟩ := winners_merge true pq (h.imp fun _ _ => ReadsTable.yieldsTable) fun t ht => (hts t ht).1
  -- a winner is a record of one of the tables
  have hfrom : ∀ w ∈ W, ∃ t ∈ ts, ∃ r ∈ t.2, ∃ i, w.1 = nodeOf t.1 i r := by
    intro w hw
    obtain ⟨L, hL, hwL⟩ := hm.mem w hw
    obtain ⟨i, hi, rfl⟩ := List.mem_mapIdx.1 hL
    obtain ⟨r, hr, rfl⟩ := List.mem_map.1 hwL
    exact ⟨_, List.getElem_mem hi, r, hr, i, rfl⟩
  have hasc : Ascending HeapNode.key (W.map Prod.fst) := List.pairwise_map.2 hm.asc
  rw [show mergedRecords pq ins = _ from hW]
  refine ⟨emitted_ascending true hasc, fun r hr => ?_, fun key => ?_⟩
  · obtain ⟨w, hw, hwr⟩ := List.mem_filterMap.1 hr
    obtain ⟨p, hp, rfl⟩ := List.mem_map.1 hw
    obtain ⟨t, ht, x, hx, i, hpx⟩ := hfrom p hp
    have hshort := (hts t ht).2 x hx
    unfold written at hwr
    rw [hpx] at hwr
    split at hwr
    · simp at hwr
    · rw [← Option.some.inj hwr]
      exact ⟨hshort.key, hshort.value⟩
  · unfold recordLayer
    rw [findKey_emitted hasc]
    cases hf : findKey HeapNode.key key (W.map Prod.fst) with
    | none =>
      refine Or.inl ⟨fun t ht => ?_, rfl⟩
      rw [Option.map_eq_none_iff, findKey_eq_none]
      intro r hr hk
      obtain ⟨i, hi, rfl⟩ := List.mem_iff_getElem.1 ht
      obtain ⟨w, hw, hkw, -⟩ := hm.complete _ (List.mem_mapIdx.2 ⟨i, hi, rfl⟩) (nodeOf ts[i].1 i r, ())
        (List.mem_map_of_mem hr)
      exact findKey_eq_none.1 hf w.1 (List.mem_map_of_mem hw) (hkw.trans hk)
    | some w =>
      obtain ⟨hw, hkw⟩ := key_of_findKey hf
      obtain ⟨p, hp, rfl⟩ := List.mem_map.1 hw
      obtain ⟨t, ht, x, hx, i, hpx⟩ := hfrom p hp
      have hxk : x.key = key := by
        rw [hpx] at hkw
        exact hkw
      refine Or.inr ⟨answer (x.value, x.isDeleted), ⟨t.layer, List.mem_map_of_mem ht, ?_, ?_⟩, ?_⟩
      · unfold RankedTable.layer recordLayer
        simp only
        rw [(findKey_eq_some (hts t ht).1).2 ⟨hx, hxk⟩]
        rfl
      · intro t' ht' hne
        obtain ⟨u, hu, rfl⟩ := List.mem_map.1 ht'
        obtain ⟨y, hy⟩ : ∃ y, findKey SSTableRecord.key key u.2 = some y := by
          cases hfu : findKey SSTableRecord.key key u.2 with
          | none =>
            refine absurd ?_ hne
            unfold RankedTable.layer recordLayer
            simp only [hfu]
            rfl
          | some y => exact ⟨y, rfl⟩
        obtain ⟨hyu, hyk⟩ := key_of_findKey hy
        obtain ⟨j, hj, rfl⟩ := List.mem_iff_getElem.1 hu
        have hrank := hm.rank_le hp (List.mem_mapIdx.2 ⟨j, hj, rfl⟩)
          (show (nodeOf ts[j].1 j y, ()) ∈ nodesOf j ts[j] from List.mem_map_of_mem hyu) (hyk.trans hkw.symm)
        rw [hpx] at hrank
        exact hrank
      · rw [hpx, Option.bind_some]
        unfold written nodeOf answer
        cases x.isDeleted <;> rfl

end Compactor

end LsmTree
