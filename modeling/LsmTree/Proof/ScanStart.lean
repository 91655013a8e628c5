import LsmTree.Proof.ScanLeft

/-!
# What a new iterator has left

* `leftView_cut`: the live values of the tables from a key on.
* `new_found`: **a new iterator** stands at the first live pair in range and has the
  others left, if its sources stand in descending order of generation.
-/

namespace LsmTree

open Base StorageEngine

namespace DBIterator

open DBIteratorSource

variable {pq : PriorityQueue HeapNode order.gt} {lists : MemSlot → SkipList} {gs ns : ℕ → ℕ}
  {st : MergeState pq DBIteratorSource} {it : DBIterator pq} {ts : List Compactor.RankedTable}
  {startKey endKey : Bytes} {L : List (Bytes × Bytes)}

/-! ## Live values -/

theorem findKey_nodesOf (i g : ℕ) (rs : List SSTableRecord) (key : Bytes) :
    findKey (fun p : Item => p.1.key) key (nodesOf i g rs) =
      (findKey SSTableRecord.key key rs).map fun r => (⟨r.key, g, i⟩, (r.value, r.isDeleted)) := findKey_map _ rs

theorem findKey_fromKey {rs : List SSTableRecord} (h : Ascending SSTableRecord.key rs) (key : Bytes) :
    findKey SSTableRecord.key key (fromKey startKey rs) =
      if startKey ≤ key then findKey SSTableRecord.key key rs else none := by
  split
  · rename_i hle
    rw [← findKey_dropWhile h hle]
    unfold fromKey
    congr!
  · rename_i hlt
    rw [findKey_eq_none]
    intro r hr hk
    exact hlt (((mem_fromKey h).1 hr).2.trans (le_of_eq hk))

/-- **What is left from the start key on** gives the view of the tables from there on. -/
theorem leftView_cut (hasc : ∀ t ∈ ts, Ascending SSTableRecord.key t.2) (startKey key : Bytes) :
    leftView (cutItems (fromKey startKey) ts) key =
      if startKey ≤ key then view (ts.map fun t => recordLayer t.2) key else none := by
  have hall : ∀ (ts : List Compactor.RankedTable) (c : ℕ), (∀ t ∈ ts, Ascending SSTableRecord.key t.2) →
      leftView (ts.mapIdx fun i t => nodesOf (i + c) t.1 (fromKey startKey t.2)) key =
        if startKey ≤ key then view (ts.map fun t => recordLayer t.2) key else none := by
    intro ts
    induction ts with
    | nil =>
      intro c _
      split <;> rfl
    | cons t ts ih =>
      intro c hasc
      have hrest := ih (c + 1) fun t' ht' => hasc t' (List.mem_cons_of_mem _ ht')
      -- the first table has the index `c`, the others start at `c + 1`
      have hshift : (ts.mapIdx fun i t => nodesOf (i + 1 + c) t.1 (fromKey startKey t.2)) =
          ts.mapIdx fun i t => nodesOf (i + (c + 1)) t.1 (fromKey startKey t.2) := by
        refine congrArg (fun f => ts.mapIdx f) (funext fun i => funext fun t => ?_)
        rw [Nat.add_assoc, Nat.add_comm 1 c]
      rw [List.mapIdx_cons, hshift, leftView_cons, findKey_nodesOf, findKey_fromKey (hasc t List.mem_cons_self)]
      unfold leftView at hrest
      unfold view at hrest ⊢
      rw [List.map_cons, stack_cons]
      by_cases hle : startKey ≤ key
      · rw [if_pos hle] at hrest ⊢
        rw [if_pos hle]
        unfold recordLayer
        cases findKey SSTableRecord.key key t.2 with
        | none => exact hrest
        | some r => rfl
      · rw [if_neg hle] at hrest ⊢
        rw [if_neg hle]
        exact hrest
  exact hall ts 0 hasc

/-! ## The first step -/

/-- What holds of each source and survives its moving on holds after a step. -/
theorem keep_findNextAliveKey {P : ℕ → DBIteratorSource → Prop} (hnext : ∀ i s, P i s → P i (s.next lists))
    {fuel : ℕ} :
    ∀ {n : ℕ} {it : DBIterator pq}, Merge.SourcesKeep P it.state →
      Merge.SourcesKeep P (findNextAliveKeyGo lists fuel n it).state := by
  intro n
  induction n with
  | zero => exact fun h => h
  | succ n ih =>
    intro it h
    unfold findNextAliveKeyGo
    split
    · exact h
    · rename_i top candidate st hpop
      have hst : Merge.SourcesKeep P st := (h.popWinner hnext hpop).1
      simp only
      split
      · exact hst
      · split
        · exact hst
        · exact ih hst

/-- Only the first source may be a memtable's. -/
abbrev OneMem (st : MergeState pq DBIteratorSource) : Prop :=
  Merge.SourcesKeep (fun i s => i ≠ 0 → s.memIter = none) st

theorem OneMem.move (h : OneMem st) {move : DBIteratorSource → DBIteratorSource}
    (hmove : ∀ s, s.memIter = none → (move s).memIter = none) :
    OneMem (Merge.fill (sources lists) (st.sources.map move) : MergeState pq DBIteratorSource) := by
  intro i s hs hi
  rw [Merge.sources_fill, List.getElem?_map] at hs
  obtain ⟨s₀, hs₀, rfl⟩ := Option.map_eq_some_iff.1 hs
  exact hmove s₀ (h i s₀ hs₀ hi)

theorem memIter_seek {s : DBIteratorSource} (h : s.memIter = none) (target : Bytes) :
    (s.seek lists target).memIter = none := by
  obtain ⟨g, m, it⟩ := s
  obtain rfl : m = none := h
  rfl

theorem memIter_seekToFirst {s : DBIteratorSource} (h : s.memIter = none) :
    (s.seekToFirst lists).memIter = none := by
  obtain ⟨g, m, it⟩ := s
  obtain rfl : m = none := h
  rfl

theorem OneMem.seekToFirst (h : OneMem it.state) : OneMem (it.seekToFirst lists).state := by
  refine keep_findNextAliveKey (fun i s hs hi => ?_) (OneMem.move h fun s hs => ?_)
  · unfold DBIteratorSource.next
    rw [hs hi]
    rfl
  · split
    · exact memIter_seek hs _
    · exact memIter_seekToFirst hs

/-- The generation of the `i`-th table. -/
def generations (ts : List Compactor.RankedTable) (i : ℕ) : ℕ := (ts[i]?.map Prod.fst).getD 0

/-- **A new start** reads the tables from the start key on. -/
theorem Over.restart_reads (h : Over lists ts ns st) (hone : OneMem st)
    (hgens : (ts.map Prod.fst).Pairwise fun a b => b < a) (startKey : Bytes)
    {move : DBIteratorSource → DBIteratorSource}
    (hmove : ∀ (t : Compactor.RankedTable) (s : DBIteratorSource) (i : ℕ), SourceOf lists t s →
      SourceOf lists t (move s) ∧ (move s).size lists = s.size lists ∧
        Merge.Yields order (sources lists) i (move s) (nodesOf i t.1 (fromKey startKey t.2)))
    (hheld : ∀ (t : Compactor.RankedTable) (s : DBIteratorSource) (i : ℕ), SourceOf lists t s →
      (i ≠ 0 → s.memIter = none) → Held lists i (move s)) :
    Reads lists (generations ts) ns
      (Merge.fill (sources lists) (st.sources.map move) : MergeState pq DBIteratorSource)
      (cutItems (fromKey startKey) ts) := by
  have hok : Merge.OK (sources lists)
      (Merge.fill (sources lists) (st.sources.map move) : MergeState pq DBIteratorSource)
      (cutItems (fromKey startKey) ts) :=
    h.restart_ok (fromKey_sublist startKey) fun t s i hs => (hmove t s i hs).2.2
  refine ⟨hok, fun i s hs => ?_, fun i M hM => ?_, fun i j hij hj => ?_⟩
  · rw [Merge.sources_fill, List.getElem?_map] at hs
    obtain ⟨s₀, hs₀, rfl⟩ := Option.map_eq_some_iff.1 hs
    -- a source keeps its table, its size and its generation wherever it is moved
    obtain ⟨⟨t, ht, hsrc⟩, hn⟩ := h.keep i s₀ hs₀
    obtain ⟨hsrc', hsize, -⟩ := hmove t s₀ i hsrc
    refine ⟨hheld t s₀ i hsrc (hone i s₀ hs₀), ?_, hsize.trans hn⟩
    unfold generations
    rw [hsrc'.generationId, ht]
    rfl
  · unfold cutItems at hM
    rw [List.getElem?_mapIdx] at hM
    obtain ⟨t, ht, rfl⟩ := Option.map_eq_some_iff.1 hM
    -- what is left of a table is no longer than the table
    have hi : i < st.sources.length := by
      rw [h.length]
      exact (List.getElem?_eq_some_iff.1 ht).1
    obtain ⟨⟨t', ht', hsrc⟩, hn⟩ := h.keep i _ (List.getElem?_eq_getElem hi)
    obtain rfl : t' = t := Option.some.inj (ht'.symm.trans ht)
    rw [← hn, nodesOf, List.length_map]
    exact (fromKey_sublist startKey t'.2).length_le.trans hsrc.length_le
  · unfold cutItems at hj
    rw [List.length_mapIdx] at hj
    rw [List.pairwise_map, List.pairwise_iff_getElem] at hgens
    have hlt := hgens i j (hij.trans hj) hj hij
    unfold generations
    rw [List.getElem?_eq_getElem (hij.trans hj), List.getElem?_eq_getElem hj]
    exact hlt

/-- **Sought to its start key**, an iterator stands at the first live pair of its tables in range. -/
theorem Over.start_found (h : Over lists ts ns it.state) (hone : OneMem it.state)
    (hgens : (ts.map Prod.fst).Pairwise fun a b => b < a)
    (hL : LivePairs (view (ts.map fun t => recordLayer t.2)) it.startKey it.endKey L) :
    let it' := if it.startKey ≠ [] then it.seek lists it.startKey else it.seekToFirst lists
    Found lists (generations ts) ns it' L ∧ it'.endKey = it.endKey := by
  intro it'
  have hasc : ∀ t ∈ ts, Ascending SSTableRecord.key t.2 := by
    intro t ht
    obtain ⟨i, hi, rfl⟩ := List.mem_iff_getElem.1 ht
    obtain ⟨⟨t, ht, hsrc⟩, -⟩ := h.keep i _ (List.getElem?_eq_getElem (h.length ▸ hi))
    obtain rfl : ts[i] = t := Option.some.inj ((List.getElem?_eq_getElem hi).symm.trans ht)
    exact hsrc.ascending
  -- only the records from the start key on count
  have hleft : LivePairs (leftView (cutItems (fromKey it.startKey) ts)) [] it.endKey L := by
    refine ⟨hL.asc, fun key value => ?_⟩
    have hnil : ([] : Bytes) ≤ key := not_lt.1 (List.not_lt_nil _)
    rw [hL.mem, leftView_cut hasc]
    by_cases hle : it.startKey ≤ key
    · simp [hle, hnil]
    · simp [hle]
  by_cases hstart : it.startKey = []
  · -- without a start key every source goes to its first record
    have hit : it' = it.seekToFirst lists := if_neg (not_not.2 hstart)
    have hmove : ∀ (s : DBIteratorSource),
        (if it.startKey ≠ [] then s.seek lists it.startKey else s.seekToFirst lists) = s.seekToFirst lists :=
      fun s => if_neg (not_not.2 hstart)
    rw [hit]
    unfold DBIterator.seekToFirst
    simp only [hmove]
    refine findNextAliveKey_left (h.restart_reads hone hgens it.startKey (fun t s i hs => ?_)
      fun t s i hs hi => (hs.held hi []).2) hleft
    rw [hstart, fromKey_nil]
    exact hs.seekToFirst i
  · -- with one every source seeks it
    have hit : it' = it.seek lists it.startKey := if_pos hstart
    have hseek : it.seek lists it.startKey =
        if it.beyondEnd it.startKey then { it with state := ⟨it.state.sources, pq.empty⟩ }.invalidate
        else findNextAliveKey lists
          (it.restart lists (it.state.sources.map fun s => s.seek lists it.startKey)) := by
      unfold DBIterator.seek
      rw [if_neg (show ¬ (it.startKey ≠ [] ∧ it.startKey < it.startKey) from fun h => lt_irrefl _ h.2)]
    rw [hit, hseek]
    cases hend : it.beyondEnd it.startKey with
    | true =>
      have hno : L = [] := hL.eq_nil fun key hs he => by
        have hnot : it.beyondEnd it.startKey = false := beyondEnd_eq_false.2 (he.imp_right hs.trans)
        rw [hend] at hnot
        cases hnot
      subst hno
      rw [if_pos rfl]
      exact ⟨.done rfl, rfl⟩
    | false =>
      rw [if_neg (by decide)]
      exact findNextAliveKey_left (h.restart_reads hone hgens it.startKey (fun t s i hs => hs.seek i it.startKey)
        fun t s i hs hi => (hs.held hi it.startKey).1) hleft

/-! ## A new iterator -/

theorem oneMem_initSources {active immutable : Bool} (hslot : active = true → immutable = false)
    (inputs : List CompactorInput) (q : pq.Q) :
    OneMem (⟨initSources active immutable inputs, q⟩ : MergeState pq DBIteratorSource) := by
  have htables : ∀ s ∈ inputs.filterMap (fun input =>
      input.iterator.map fun it => (⟨input.fileId, none, some it⟩ : DBIteratorSource)), s.memIter = none := by
    intro s hs
    obtain ⟨input, -, hs⟩ := List.mem_filterMap.1 hs
    obtain ⟨jt, -, rfl⟩ := Option.map_eq_some_iff.1 hs
    rfl
  intro i s hs hi
  simp only [initSources] at hs
  cases active with
  | true =>
    rw [hslot rfl, if_pos rfl, if_neg (by decide), List.append_nil] at hs
    cases i with
    | zero => exact absurd rfl hi
    | succ i => exact htables s (List.mem_of_getElem? hs)
  | false =>
    rw [if_neg (by decide), List.nil_append] at hs
    cases immutable with
    | true =>
      rw [if_pos rfl] at hs
      cases i with
      | zero => exact absurd rfl hi
      | succ i => exact htables s (List.mem_of_getElem? hs)
    | false =>
      rw [if_neg (by decide), List.nil_append] at hs
      exact htables s (List.mem_of_getElem? hs)

/-- **A new iterator** over one memtable at most stands at the first live pair in range. -/
theorem new_found (pq : PriorityQueue HeapNode order.gt) (lists : MemSlot → SkipList) {active immutable : Bool}
    (hslot : active = true → immutable = false) {inputs : List CompactorInput}
    (h : List.Forall₂ Compactor.ReadsTable inputs ts)
    (hgens : ((memTables lists active immutable ++ ts).map Prod.fst).Pairwise fun a b => b < a)
    (hL : LivePairs (view ((memTables lists active immutable ++ ts).map
      fun t => recordLayer t.2)) startKey endKey L) :
    let it : DBIterator pq := DBIterator.new lists active immutable inputs startKey endKey
    let it' := if startKey ≠ [] then it.seek lists startKey else it.seekToFirst lists
    (∃ gs ns, Found lists gs ns it' L) ∧ it'.endKey = endKey := by
  intro it it'
  obtain ⟨ns, hover⟩ := Over.of_forall₂ (initSources_over lists active immutable h) pq.empty
  have hstate : Over lists (memTables lists active immutable ++ ts) ns
      (⟨startKey, endKey, ⟨initSources active immutable inputs, pq.empty⟩, [], [], false⟩ : DBIterator pq).state :=
    hover
  obtain ⟨_, -, -, hcur, hs, he⟩ := hstate.seekToFirst
  have hs' : it.startKey = startKey := hs
  have he' : it.endKey = endKey := he
  have hone : OneMem it.state := OneMem.seekToFirst (oneMem_initSources hslot inputs pq.empty)
  have hranges : Over lists (memTables lists active immutable ++ ts) ns it.state := hcur.ranges
  have hrest := hranges.start_found hone hgens (by rw [hs', he']; exact hL)
  simp only [hs', he'] at hrest
  exact ⟨⟨_, ns, hrest.1⟩, hrest.2⟩

end DBIterator

end LsmTree
