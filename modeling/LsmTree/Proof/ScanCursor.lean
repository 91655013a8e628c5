import LsmTree.Proof.ScanSources

/-!
# The range iterator as a cursor

* `Over`: the iterator ranges over given tables, wherever it stands.
* `Cursor it L`: `L` are the pairs it has yet to show, the current one first.
* `Over.seekToFirst`, `Over.seek`: what a new start leaves to show. `Cursor.next`: one step.
* `collectPrefix_eq`, `collect_eq`: the loops of `PrefixScan` and `Scan`.
-/

namespace LsmTree

open Base StorageEngine

namespace DBIterator

open DBIteratorSource

variable {pq : PriorityQueue HeapNode order.gt} {lists : MemSlot → SkipList} {ts : List Compactor.RankedTable}
  {ns : ℕ → ℕ} {st : MergeState pq DBIteratorSource} {it : DBIterator pq}

/-- A record with its node. -/
abbrev Item := HeapNode × (Bytes × Bool)

/-- The sources range over the tables `ts`, the `i`-th with the size `ns i`. -/
structure Over (lists : MemSlot → SkipList) (ts : List Compactor.RankedTable) (ns : ℕ → ℕ)
    (st : MergeState pq DBIteratorSource) : Prop where
  length : st.sources.length = ts.length
  keep : Merge.SourcesKeep (fun i s => (∃ t, ts[i]? = some t ∧ SourceOf lists t s) ∧ s.size lists = ns i) st

/-- The rounds that suffice. -/
def bound (ts : List Compactor.RankedTable) (ns : ℕ → ℕ) : ℕ := ((List.range ts.length).map ns).sum + ts.length

theorem Over.rounds (h : Over lists ts ns it.state) : it.rounds lists = bound ts ns := by
  unfold DBIterator.rounds bound
  have hsizes : it.state.sources.map (DBIteratorSource.size lists) = (List.range ts.length).map ns := by
    refine List.ext_getElem (by simp [h.length]) fun i h1 h2 => ?_
    have hi : i < it.state.sources.length := by simpa using h1
    have hsize := (h.keep i _ (List.getElem?_eq_getElem hi)).2
    simpa using hsize
  rw [hsizes, h.length]

theorem Over.step (h : Over lists ts ns st) {fuel : ℕ} {n : HeapNode} {v : Option (Bytes × Bool)}
    {st' : MergeState pq DBIteratorSource} (hpop : Merge.popWinner (sources lists) fuel st = some (n, v, st')) :
    Over lists ts ns st' := by
  obtain ⟨h1, h2⟩ := h.keep.popWinner (fun i s ⟨⟨t, ht, hs⟩, hn⟩ => ⟨⟨t, ht, hs.next⟩, hs.size_next.trans hn⟩) hpop
  exact ⟨h2.trans h.length, h1⟩

theorem Over.of_forall₂ {srcs : List DBIteratorSource} (h : List.Forall₂ (SourceOf lists) ts srcs) (q : pq.Q) :
    ∃ ns, Over lists ts ns (⟨srcs, q⟩ : MergeState pq DBIteratorSource) := by
  refine ⟨fun i => (srcs[i]?.map (DBIteratorSource.size lists)).getD 0, h.length_eq.symm, fun i s hs => ⟨?_, ?_⟩⟩
  · obtain ⟨hi, rfl⟩ := List.getElem?_eq_some_iff.1 hs
    have hi' : i < ts.length := by
      rw [h.length_eq]
      exact hi
    exact ⟨ts[i], List.getElem?_eq_getElem hi', (List.forall₂_iff_get.1 h).2 i hi' hi⟩
  · simp only at hs
    rw [hs]
    rfl

/-- The tables from some record on. -/
def cutItems (cut : List SSTableRecord → List SSTableRecord) (ts : List Compactor.RankedTable) :
    List (List Item) :=
  ts.mapIdx fun i t => nodesOf i t.1 (cut t.2)

/-- After a new start every source has the records of its table from some record on. -/
theorem Over.restart_ok (h : Over lists ts ns st) {move : DBIteratorSource → DBIteratorSource}
    {cut : List SSTableRecord → List SSTableRecord} (hcut : ∀ rs, (cut rs).Sublist rs)
    (hmove : ∀ (t : Compactor.RankedTable) (s : DBIteratorSource) (i : ℕ), SourceOf lists t s →
      Merge.Yields order (sources lists) i (move s) (nodesOf i t.1 (cut t.2))) :
    Merge.OK (sources lists) (Merge.fill (sources lists) (st.sources.map move) : MergeState pq DBIteratorSource)
      (cutItems cut ts) := by
  refine Merge.fill_ok (by simp [cutItems, h.length]) ?_ ?_
  · intro i s L hs hL
    unfold cutItems at hL
    rw [List.getElem?_map] at hs
    rw [List.getElem?_mapIdx] at hL
    obtain ⟨s₀, hs₀, rfl⟩ := Option.map_eq_some_iff.1 hs
    obtain ⟨t, ht, rfl⟩ := Option.map_eq_some_iff.1 hL
    obtain ⟨⟨t', ht', hsrc⟩, -⟩ := h.keep i s₀ hs₀
    obtain rfl : t' = t := Option.some.inj (ht'.symm.trans ht)
    exact hmove t' s₀ i hsrc
  · intro L hL
    obtain ⟨i, hi, rfl⟩ := List.mem_mapIdx.1 hL
    obtain ⟨s, hs⟩ : ∃ s, st.sources[i]? = some s := ⟨_, List.getElem?_eq_getElem (h.length ▸ hi)⟩
    obtain ⟨⟨t, ht, hsrc⟩, -⟩ := h.keep i s hs
    obtain rfl : ts[i] = t := by
      rw [List.getElem?_eq_getElem hi] at ht
      exact Option.some.inj ht
    exact List.pairwise_map.2 (hsrc.ascending.sublist (hcut _))

/-- No more is left to merge than the sources have room for. -/
theorem Over.total_le (h : Over lists ts ns st) {cut : List SSTableRecord → List SSTableRecord}
    (hcut : ∀ rs, (cut rs).Sublist rs) : Merge.total (cutItems cut ts) ≤ ((List.range ts.length).map ns).sum := by
  have hlens : (cutItems cut ts).map List.length = (List.range ts.length).map fun i => ((ts[i]?.map fun t =>
      (cut t.2).length).getD 0) := by
    refine List.ext_getElem (by simp [cutItems]) fun i h1 h2 => ?_
    have hi : i < ts.length := by simpa using h2
    simp [cutItems, nodesOf, List.getElem?_eq_getElem hi]
  unfold Merge.total
  rw [hlens]
  refine List.sum_le_sum fun i hi => ?_
  have hi : i < ts.length := List.mem_range.1 hi
  obtain ⟨s, hs⟩ : ∃ s, st.sources[i]? = some s := ⟨_, List.getElem?_eq_getElem (h.length ▸ hi)⟩
  obtain ⟨⟨t, ht, hsrc⟩, hn⟩ := h.keep i s hs
  rw [ht, Option.map_some, Option.getD_some, ← hn]
  exact (hcut t.2).length_le.trans hsrc.length_le

/-- **What a new start leaves to merge.** -/
theorem Over.restart (h : Over lists ts ns st) {move : DBIteratorSource → DBIteratorSource}
    {cut : List SSTableRecord → List SSTableRecord} (hcut : ∀ rs, (cut rs).Sublist rs)
    (hmove : ∀ (t : Compactor.RankedTable) (s : DBIteratorSource) (i : ℕ), SourceOf lists t s →
      SourceOf lists t (move s) ∧ (move s).size lists = s.size lists ∧
        Merge.Yields order (sources lists) i (move s) (nodesOf i t.1 (cut t.2))) :
    let st' : MergeState pq DBIteratorSource := Merge.fill (sources lists) (st.sources.map move)
    Over lists ts ns st' ∧ ∃ W, Merge.Produces (sources lists) (bound ts ns) st' W ∧
      Merge.Merged order (cutItems cut ts) W ∧ W.length ≤ bound ts ns := by
  intro st'
  have hsources : st'.sources = st.sources.map move := Merge.sources_fill _
  have hover : Over lists ts ns st' := by
    refine ⟨by rw [hsources, List.length_map, h.length], fun i s hs => ?_⟩
    rw [hsources, List.getElem?_map] at hs
    obtain ⟨s₀, hs₀, rfl⟩ := Option.map_eq_some_iff.1 hs
    obtain ⟨⟨t, ht, hsrc⟩, hn⟩ := h.keep i s₀ hs₀
    obtain ⟨h1, h2, -⟩ := hmove t s₀ i hsrc
    exact ⟨⟨t, ht, h1⟩, h2.trans hn⟩
  have hok : Merge.OK (sources lists) st' (cutItems cut ts) :=
    h.restart_ok hcut fun t s i hs => (hmove t s i hs).2.2
  have htotal := h.total_le hcut
  obtain ⟨W, hW, hm, hlen⟩ := Merge.produces_merged hok
    (show (cutItems cut ts).length ≤ bound ts ns by unfold bound; simp [cutItems])
  exact ⟨hover, W, hW, hm, by unfold bound; omega⟩

/-! ## What is left to show -/

/-- The record is not behind the end. -/
def within (endKey : Bytes) (p : Item) : Bool := !(decide (endKey ≠ []) && decide (endKey < p.1.key))

/-- The live pairs up to the end key. -/
def livePairs (endKey : Bytes) (W : List Item) : List (Bytes × Bytes) :=
  (W.takeWhile (within endKey)).filterMap fun p => if p.2.2 then none else some (p.1.key, p.2.1)

/-- The pairs the iterator has yet to show. -/
structure Cursor (lists : MemSlot → SkipList) (ts : List Compactor.RankedTable) (ns : ℕ → ℕ) (it : DBIterator pq)
    (L : List (Bytes × Bytes)) : Prop where
  ranges : Over lists ts ns it.state
  left : (it.valid = false ∧ L = []) ∨ (it.valid = true ∧ ∃ W, L = (it.currentKey, it.currentValue) ::
    livePairs it.endKey W ∧ Merge.Produces (sources lists) (bound ts ns) it.state W ∧ W.length ≤ bound ts ns)

/-- **The loop over the merged records** stops at the first live one. -/
theorem findNextAliveKeyGo_spec : ∀ {n : ℕ} {W : List Item} {it : DBIterator pq}, Over lists ts ns it.state →
    Merge.Produces (sources lists) (bound ts ns) it.state W → W.length < n → W.length ≤ bound ts ns →
    Cursor lists ts ns (findNextAliveKeyGo lists (bound ts ns) n it) (livePairs it.endKey W) ∧
      (findNextAliveKeyGo lists (bound ts ns) n it).startKey = it.startKey ∧
      (findNextAliveKeyGo lists (bound ts ns) n it).endKey = it.endKey := by
  intro n
  induction n with
  | zero => exact fun _ _ h _ => absurd h (Nat.not_lt_zero _)
  | succ n ih =>
    intro W it hover hW hn hb
    unfold findNextAliveKeyGo
    cases W with
    | nil =>
      rw [show Merge.popWinner (sources lists) (bound ts ns) it.state = none from hW]
      exact ⟨⟨hover, Or.inl ⟨rfl, rfl⟩⟩, rfl, rfl⟩
    | cons p W =>
      obtain ⟨st', hpop, hrest⟩ := hW
      have hover' := hover.step hpop
      obtain ⟨top, value, deleted⟩ := p
      rw [List.length_cons] at hn hb
      rw [hpop]
      simp only
      cases hwithin : within it.endKey (top, value, deleted) with
      | false =>
        -- the end is passed
        have hbeyond : ({ it with state := st' } : DBIterator pq).beyondEnd top.key = true := by
          unfold within at hwithin
          unfold beyondEnd
          simpa using hwithin
        have hnil : livePairs it.endKey ((top, value, deleted) :: W) = [] := by
          unfold livePairs
          rw [List.takeWhile_cons_of_neg (by simp [hwithin])]
          rfl
        rw [if_pos hbeyond, hnil]
        exact ⟨⟨hover', Or.inl ⟨rfl, rfl⟩⟩, rfl, rfl⟩
      | true =>
        have hbeyond : ({ it with state := st' } : DBIterator pq).beyondEnd top.key = false := by
          unfold within at hwithin
          unfold beyondEnd
          simpa [or_iff_not_imp_left] using hwithin
        rw [if_neg (by simp [hbeyond])]
        cases deleted with
        | true =>
          have hskip : livePairs it.endKey ((top, value, true) :: W) = livePairs it.endKey W := by
            unfold livePairs
            rw [List.takeWhile_cons_of_pos hwithin]
            rfl
          rw [hskip]
          exact ih hover' hrest (by omega) (by omega)
        | false =>
          have hlive : livePairs it.endKey ((top, value, false) :: W) =
              (top.key, value) :: livePairs it.endKey W := by
            unfold livePairs
            rw [List.takeWhile_cons_of_pos hwithin]
            rfl
          rw [hlive]
          exact ⟨⟨hover', Or.inr ⟨rfl, W, rfl, hrest, by omega⟩⟩, rfl, rfl⟩

theorem findNextAliveKey_spec {W : List Item} (it : DBIterator pq) (hover : Over lists ts ns it.state)
    (hW : Merge.Produces (sources lists) (bound ts ns) it.state W) (hb : W.length ≤ bound ts ns) :
    Cursor lists ts ns (it.findNextAliveKey lists) (livePairs it.endKey W) ∧
      (it.findNextAliveKey lists).startKey = it.startKey ∧ (it.findNextAliveKey lists).endKey = it.endKey := by
  unfold findNextAliveKey
  rw [hover.rounds]
  exact findNextAliveKeyGo_spec hover hW (Nat.lt_succ_of_le hb) hb

/-- The records of a table from a key on. -/
def fromKey (startKey : Bytes) (rs : List SSTableRecord) : List SSTableRecord :=
  rs.dropWhile fun r => r.key < startKey

theorem mem_fromKey {startKey : Bytes} {rs : List SSTableRecord} (h : Ascending SSTableRecord.key rs)
    {r : SSTableRecord} : r ∈ fromKey startKey rs ↔ r ∈ rs ∧ startKey ≤ r.key := by
  rw [← mem_dropWhile_lt h]
  unfold fromKey
  congr!

theorem fromKey_sublist (startKey : Bytes) (rs : List SSTableRecord) : (fromKey startKey rs).Sublist rs :=
  List.dropWhile_sublist _

theorem fromKey_nil (rs : List SSTableRecord) : fromKey [] rs = rs := by
  unfold fromKey
  rw [List.dropWhile_eq_self_iff]
  intro h
  simp

/-- A source at its first record from the start key on. -/
theorem SourceOf.first {t : Compactor.RankedTable} {s : DBIteratorSource} (h : SourceOf lists t s)
    (startKey : Bytes) (i : ℕ) :
    SourceOf lists t (if startKey ≠ [] then s.seek lists startKey else s.seekToFirst lists) ∧
      (if startKey ≠ [] then s.seek lists startKey else s.seekToFirst lists).size lists = s.size lists ∧
      Merge.Yields order (sources lists) i (if startKey ≠ [] then s.seek lists startKey else s.seekToFirst lists)
        (nodesOf i t.1 (fromKey startKey t.2)) := by
  by_cases hstart : startKey = []
  · rw [if_neg (by simp [hstart]), hstart, fromKey_nil]
    exact h.seekToFirst i
  · rw [if_pos hstart]
    exact h.seek i startKey

/-- **After `SeekToFirst`** the records from the start key on are left to merge. -/
theorem Over.seekToFirst (h : Over lists ts ns it.state) :
    ∃ W, Merge.Merged order (cutItems (fromKey it.startKey) ts) W ∧ W.length ≤ bound ts ns ∧
      Cursor lists ts ns (it.seekToFirst lists) (livePairs it.endKey W) ∧
      (it.seekToFirst lists).startKey = it.startKey ∧ (it.seekToFirst lists).endKey = it.endKey := by
  obtain ⟨hover, W, hW, hm, hb⟩ := h.restart (fromKey_sublist it.startKey) fun t s i hs => hs.first it.startKey i
  obtain ⟨h1, h2, h3⟩ := findNextAliveKey_spec (it.restart lists _) hover hW hb
  exact ⟨W, hm, hb, h1, h2, h3⟩

/-- What `Seek` seeks: not before the start key. -/
def seekTarget (it : DBIterator pq) (targetKey : Bytes) : Bytes :=
  if it.startKey ≠ [] ∧ targetKey < it.startKey then it.startKey else targetKey

/-- **After `Seek`** the records from its target on are left to merge. -/
theorem Over.seek (h : Over lists ts ns it.state) (targetKey : Bytes) :
    ∃ W, Merge.Merged order (cutItems (fromKey (it.seekTarget targetKey)) ts) W ∧ W.length ≤ bound ts ns ∧
      Cursor lists ts ns (it.seek lists targetKey) (livePairs it.endKey W) ∧
      (it.seek lists targetKey).startKey = it.startKey ∧ (it.seek lists targetKey).endKey = it.endKey := by
  obtain ⟨hover, W, hW, hm, hb⟩ := h.restart (fromKey_sublist (it.seekTarget targetKey))
    fun t s i hs => hs.seek i (it.seekTarget targetKey)
  refine ⟨W, hm, hb, ?_⟩
  have hseek : it.seek lists targetKey =
      if it.beyondEnd (it.seekTarget targetKey) then { it with state := ⟨it.state.sources, pq.empty⟩ }.invalidate
      else findNextAliveKey lists
        (it.restart lists (it.state.sources.map fun s => s.seek lists (it.seekTarget targetKey))) := rfl
  rw [hseek]
  cases hend : it.beyondEnd (it.seekTarget targetKey) with
  | false =>
    rw [if_neg (by decide)]
    exact findNextAliveKey_spec (it.restart lists _) hover hW hb
  | true =>
    -- every record left is behind the end
    have hnil : livePairs it.endKey W = [] := by
      unfold livePairs
      cases W with
      | nil => rfl
      | cons p W =>
        obtain ⟨L, hL, hp⟩ := hm.mem p List.mem_cons_self
        obtain ⟨i, hi, rfl⟩ := List.mem_mapIdx.1 hL
        obtain ⟨r, hr, rfl⟩ := List.mem_map.1 hp
        obtain ⟨s, hs⟩ : ∃ s, it.state.sources[i]? = some s := ⟨_, List.getElem?_eq_getElem (h.length ▸ hi)⟩
        obtain ⟨⟨t, ht, hsrc⟩, -⟩ := h.keep i s hs
        obtain rfl : ts[i] = t := by
          rw [List.getElem?_eq_getElem hi] at ht
          exact Option.some.inj ht
        have hge := ((mem_fromKey hsrc.ascending).1 hr).2
        unfold beyondEnd at hend
        simp only [Bool.and_eq_true, decide_eq_true_eq] at hend
        have hbehind : it.endKey < r.key := lt_of_lt_of_le hend.2 hge
        rw [List.takeWhile_cons_of_neg]
        · rfl
        · unfold within
          simp [hend.1, hbehind]
    rw [if_pos rfl, hnil]
    exact ⟨⟨⟨h.length, h.keep⟩, Or.inl ⟨rfl, rfl⟩⟩, rfl, rfl⟩

/-- **One step shows the next pair.** -/
theorem Cursor.next {x : Bytes × Bytes} {L : List (Bytes × Bytes)} (h : Cursor lists ts ns it (x :: L)) :
    it.valid = true ∧ (it.currentKey, it.currentValue) = x ∧ Cursor lists ts ns (it.next lists) L ∧
      (it.next lists).startKey = it.startKey ∧ (it.next lists).endKey = it.endKey := by
  rcases h.left with ⟨-, hnil⟩ | ⟨hv, W, hL, hW, hb⟩
  · exact absurd hnil (by simp)
  · obtain ⟨h1, h2⟩ := List.cons.inj hL
    refine ⟨hv, h1.symm, ?_⟩
    unfold DBIterator.next
    rw [if_pos hv, h2]
    exact findNextAliveKey_spec it h.ranges hW hb

theorem Cursor.valid_nil (h : Cursor lists ts ns it []) : it.valid = false := by
  rcases h.left with ⟨hv, -⟩ | ⟨-, W, hL, -⟩
  · exact hv
  · exact absurd hL (by simp)

/-- The first `limit` of the pairs, all if it is 0. -/
def upTo (limit : ℕ) (L : List (Bytes × Bytes)) : List (Bytes × Bytes) := if limit = 0 then L else L.take limit

/-- **The loop of `PrefixScan`** collects what is left to show up to the first key without
the prefix, and up to the limit. -/
theorem collectPrefix_eq {heaps : Heaps} (pre : Bytes) (limit : ℕ) : ∀ {fuel : ℕ} {L : List (Bytes × Bytes)}
    {it : DBIterator heaps.scan} (results : List (Bytes × Bytes)), Cursor lists ts ns it L → L.length < fuel →
    (limit = 0 ∨ results.length ≤ limit) → collectPrefix heaps lists pre limit fuel it results =
      upTo limit (results ++ L.takeWhile fun x => pre.isPrefixOf x.1) := by
  intro fuel
  induction fuel with
  | zero => exact fun _ _ h => absurd h (Nat.not_lt_zero _)
  | succ fuel ih =>
    intro L it results h hf hlim
    -- within the limit nothing is cut off
    have hstop : upTo limit results = results := by
      unfold upTo
      split
      · rfl
      · rename_i hzero
        exact List.take_of_length_le (hlim.resolve_left hzero)
    unfold collectPrefix
    cases L with
    | nil =>
      rw [if_pos (by simp [h.valid_nil]), List.takeWhile_nil, List.append_nil, hstop]
    | cons x L =>
      obtain ⟨hv, hx, hnext, -⟩ := h.next
      rw [List.length_cons] at hf
      rw [if_neg (by simp [hv])]
      -- the loop leaves when the limit is reached, or at the first key without the prefix
      by_cases hfull : 0 < limit ∧ limit ≤ results.length
      · rw [if_pos (by simpa using hfull)]
        unfold upTo
        rw [if_neg (Nat.pos_iff_ne_zero.1 hfull.1), List.take_append_of_le_length hfull.2]
        exact (List.take_of_length_le (hlim.resolve_left (Nat.pos_iff_ne_zero.1 hfull.1))).symm
      · rw [if_neg (by simpa using hfull), show it.currentKey = x.1 from congrArg Prod.fst hx]
        cases hpre : pre.isPrefixOf x.1 with
        | false =>
          rw [if_pos (by simp), List.takeWhile_cons_of_neg (by simp [hpre]), List.append_nil, hstop]
        | true =>
          have hroom : limit = 0 ∨ (results ++ [x]).length ≤ limit := by
            rw [List.length_append, List.length_singleton]
            omega
          rw [if_neg (by simp), show it.currentValue = x.2 from congrArg Prod.snd hx,
            ih (results ++ [x]) hnext (by omega) hroom,
            List.takeWhile_cons_of_pos (a := x) (by exact hpre), List.append_assoc]
          rfl

/-- `Scan` is a `PrefixScan` of the empty prefix that also has an end key. -/
theorem collect_eq_collectPrefix {heaps : Heaps} (limit : ℕ) : ∀ (fuel : ℕ) (it : DBIterator heaps.scan)
    (results : List (Bytes × Bytes)), collect heaps lists limit fuel it results =
      collectPrefix heaps lists [] limit fuel it results := by
  intro fuel
  induction fuel with
  | zero => exact fun _ _ => rfl
  | succ fuel ih =>
    intro it results
    unfold collect collectPrefix
    rw [ih]
    rfl

/-- **The loop of `Scan`** collects what is left to show, up to the limit. -/
theorem collect_eq {heaps : Heaps} (limit : ℕ) {fuel : ℕ} {L : List (Bytes × Bytes)} {it : DBIterator heaps.scan}
    (h : Cursor lists ts ns it L) (hf : L.length < fuel) :
    collect heaps lists limit fuel it [] = upTo limit L := by
  have hall : L.takeWhile (fun x => ([] : Bytes).isPrefixOf x.1) = L := List.takeWhile_eq_self_iff.2 fun _ _ => rfl
  rw [collect_eq_collectPrefix, collectPrefix_eq [] limit [] h hf (Or.inr (Nat.zero_le _)), hall, List.nil_append]

end DBIterator

end LsmTree
