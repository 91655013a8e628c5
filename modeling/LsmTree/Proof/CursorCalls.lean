import LsmTree.Proof.ScanView
import LsmTree.Proof.CompactMerge

/-!
# The range iterator as an ordered cursor

* `seekReturns`, `findNextAliveKeyGo_ends`: the loops of a call come to an end.
* `Listed`: the pairs left to show are the live ones in range from some key on.
* `Standing.call`: one call comes to an end and stands at the least live key that it asks
  for. `cursor_calls`: **so does every call of every sequence**.
-/

namespace LsmTree

open Base

namespace DBIterator

open DBIteratorSource

variable {pq : PriorityQueue HeapNode order.gt} {lists : MemSlot → SkipList} {ts : List Compactor.RankedTable}
  {ns : ℕ → ℕ} {it : DBIterator pq} {startKey endKey : Bytes} {L : List (Bytes × Bytes)} {P : Bytes → Prop}

/-! ## The loops -/

/-- The forward search of a table iterator comes to an end. -/
theorem skipTo_ends (target : Bytes) {rs : List SSTableRecord} {it : SSTableIterator} (hy : it.Yields rs)
    {fuel : ℕ}
    (hfuel : rs.length ≤ fuel) : Loop.Ends (Loop.ofFun (skipRound target)) it (skipTo target fuel it) := by
  -- the loop stops where the key is not below the target
  have hstop : ∀ it : SSTableIterator, (it.valid && it.key < target) = false →
      skipRound target it = .inr it ∧ ∀ k, skipTo target k it = it := by
    intro it h
    refine ⟨by unfold skipRound; rw [if_neg (by simp [h])], fun k => ?_⟩
    cases k with
    | zero => rfl
    | succ k =>
      unfold skipTo
      rw [if_neg (by simp [h])]
  refine Loop.ends_of_rank (f := skipTo target) (fun n it => ∃ rs, it.Yields rs ∧ rs.length = n)
    (fun n it hit => ?_) fuel _ it ⟨rs, hy, rfl⟩ hfuel
  obtain ⟨rs, hy, rfl⟩ := hit
  cases hgo : (it.valid && it.key < target) with
  | false =>
    obtain ⟨hround, hf⟩ := hstop it hgo
    exact Or.inr ⟨it, hround, fun k _ => hf k⟩
  | true =>
    cases rs with
    | nil =>
      have hinvalid : it.valid = false := hy
      rw [hinvalid] at hgo
      exact absurd hgo (by simp)
    | cons r rs =>
      refine Or.inl ⟨rs.length, it.next, ?_, by simp, ⟨rs, hy.2.2, rfl⟩, fun k => ?_⟩
      · unfold Loop.ofFun skipRound
        rw [if_pos hgo]
      · conv_lhs => unfold skipTo
        rw [if_pos hgo]

/-- `Seek` of any source comes to an end. -/
theorem seekReturns (lists : MemSlot → SkipList) (target : Bytes) (s : DBIteratorSource) :
    s.SeekReturns lists target (s.seek lists target) := by
  obtain ⟨g, mem, sst⟩ := s
  cases mem with
  | some m => exact rfl
  | none =>
    cases sst with
    | none => exact rfl
    | some it =>
      obtain ⟨rs, -, -, -, hlen, hy, -⟩ := it.exists_yields
      exact ⟨_, skipTo_ends target hy (by omega), rfl⟩

/-- **The loop of `FindNextAliveKey` comes to an end**, and takes no more than there is. -/
theorem findNextAliveKeyGo_ends {fuel : ℕ} : ∀ (n : ℕ) {it : DBIterator pq} {Ls : List (List Item)},
    Merge.Holds (sources lists) it.state Ls → Merge.total Ls ≤ n → Merge.total Ls ≤ fuel →
    Loop.Ends (findRound lists) it (findNextAliveKeyGo lists fuel n it) ∧
      ∃ Ls', Merge.Holds (sources lists) (findNextAliveKeyGo lists fuel n it).state Ls' ∧
        Merge.total Ls' ≤ Merge.total Ls := by
  intro n
  induction n with
  | zero =>
    intro it Ls h hn hfuel
    -- nothing is left in the sources, so no winner is popped
    have hpops := Merge.pops_popWinner h hfuel
    rw [(Merge.popWinner_eq_none h).2 (Merge.eq_nil_of_total (Nat.le_zero.1 hn))] at hpops
    exact ⟨.leaves ⟨none, hpops, rfl⟩, Ls, h, le_rfl⟩
  | succ n ih =>
    intro it Ls h hn hfuel
    have hpops := Merge.pops_popWinner h hfuel
    unfold findNextAliveKeyGo
    cases hpop : Merge.popWinner (sources lists) fuel it.state with
    | none =>
      rw [hpop] at hpops
      exact ⟨.leaves ⟨none, hpops, rfl⟩, Ls, h, le_rfl⟩
    | some p =>
      obtain ⟨top, candidate, st⟩ := p
      rw [hpop] at hpops
      -- each round takes a record, so the rest has a smaller total
      obtain ⟨Ls', h', hless⟩ := Merge.popWinner_holds h hpop
      simp only
      cases hend : ({ it with state := st } : DBIterator pq).beyondEnd top.key with
      | true =>
        rw [if_pos rfl]
        exact ⟨.leaves ⟨_, hpops, by simp only [hend, if_true]⟩, Ls', h', hless.le⟩
      | false =>
        rw [if_neg (by decide)]
        have hst : Merge.Holds (sources lists) ({ it with state := st } : DBIterator pq).state Ls' := h'
        obtain ⟨hrest, Ls'', h'', hle⟩ := ih hst (by omega) (by omega)
        -- a key with no candidate and a deleted one are passed over
        cases candidate with
        | none =>
          exact ⟨.again ⟨_, hpops, by simp only [hend, Bool.false_eq_true, if_false]⟩ hrest, Ls'', h'', by omega⟩
        | some c =>
          obtain ⟨v, deleted⟩ := c
          cases deleted with
          | true =>
            exact ⟨.again ⟨_, hpops, by simp only [hend, Bool.false_eq_true, if_false]⟩ hrest, Ls'', h'', by omega⟩
          | false =>
            exact ⟨.leaves ⟨_, hpops, by simp only [hend, Bool.false_eq_true, if_false]⟩, Ls', h', hless.le⟩

/-- After a new start the loop comes to an end. -/
theorem Over.restart_ends (h : Over lists ts ns it.state) {move : DBIteratorSource → DBIteratorSource}
    {cut : List SSTableRecord → List SSTableRecord} (hcut : ∀ rs, (cut rs).Sublist rs)
    (hmove : ∀ (t : Compactor.RankedTable) (s : DBIteratorSource) (i : ℕ), SourceOf lists t s →
      SourceOf lists t (move s) ∧ (move s).size lists = s.size lists ∧
        Merge.Yields order (sources lists) i (move s) (nodesOf i t.1 (cut t.2))) :
    let it' := it.restart lists (it.state.sources.map move)
    Loop.Ends (findRound lists) it' (it'.findNextAliveKey lists) ∧
      ∃ Ls, Merge.Holds (sources lists) (it'.findNextAliveKey lists).state Ls ∧ Merge.total Ls ≤ bound ts ns := by
  intro it'
  have hok : Merge.OK (sources lists) it'.state (cutItems cut ts) :=
    h.restart_ok hcut fun t s i hs => (hmove t s i hs).2.2
  have htotal := h.total_le hcut
  have hbound : Merge.total (cutItems cut ts) ≤ bound ts ns := by
    unfold bound
    omega
  have hover : Over lists ts ns it'.state := (h.restart hcut hmove).1
  unfold findNextAliveKey
  rw [hover.rounds]
  obtain ⟨hends, Ls, hholds, hle⟩ := findNextAliveKeyGo_ends (bound ts ns + 1) hok.toHolds (by omega) hbound
  exact ⟨hends, Ls, hholds, hle.trans hbound⟩

/-! ## What a call asks for -/

/-- Not before the start key, and not behind the end key if there is one. -/
def InRange (startKey endKey key : Bytes) : Prop := startKey ≤ key ∧ (endKey = [] ∨ key ≤ endKey)

/-- The iterator stands at the least live key in range for which `P` holds, with its
value; or it is not valid, and there is none. -/
structure StandsAtLeast (ts : List Compactor.RankedTable) (startKey endKey : Bytes) (P : Bytes → Prop)
    (it : DBIterator pq) : Prop where
  least : it.valid = true → (P it.currentKey ∧ InRange startKey endKey it.currentKey ∧
    Compactor.Newest ts ⟨it.currentKey, it.currentValue, false⟩) ∧
    ∀ key value, P key → InRange startKey endKey key → Compactor.Newest ts ⟨key, value, false⟩ →
    it.currentKey ≤ key
  none : it.valid = false → ∀ key value, P key → InRange startKey endKey key →
  ¬ Compactor.Newest ts ⟨key, value, false⟩

/-- What a call answers on the iterator `it`. -/
def Answers (ts : List Compactor.RankedTable) (startKey endKey : Bytes) (it it' : DBIterator pq) : Call → Prop
  | .seekToFirst => StandsAtLeast ts startKey endKey (fun _ => True) it'
  | .seek targetKey => StandsAtLeast ts startKey endKey (fun key => targetKey ≤ key) it'
  | .next =>
    if it.valid then StandsAtLeast ts startKey endKey (fun key => it.currentKey < key) it' else it'.valid = false

/-! ## What is left to show -/

/-- The live pairs in range for whose keys `P` holds, in ascending order. -/
structure Listed (ts : List Compactor.RankedTable) (startKey endKey : Bytes) (P : Bytes → Prop)
    (L : List (Bytes × Bytes)) : Prop where
  asc : Ascending Prod.fst L
  mem : ∀ key value, (key, value) ∈ L ↔
    P key ∧ InRange startKey endKey key ∧ Compactor.Newest ts ⟨key, value, false⟩

/-- The iterator shows the first of them. -/
theorem Listed.standsAtLeast (h : Listed ts startKey endKey P L) (hcur : Cursor lists ts ns it L) :
    StandsAtLeast ts startKey endKey P it := by
  rcases hcur.left with ⟨hv, rfl⟩ | ⟨hv, W, rfl, -⟩
  · refine ⟨fun htrue => absurd (hv.symm.trans htrue) (by decide), fun _ key value hP hrange hnewest => ?_⟩
    exact absurd ((h.mem key value).2 ⟨hP, hrange, hnewest⟩) List.not_mem_nil
  · refine ⟨fun _ => ⟨(h.mem _ _).1 List.mem_cons_self, fun key value hP hrange hnewest => ?_⟩,
      fun hfalse => absurd (hv.symm.trans hfalse) (by decide)⟩
    rcases List.mem_cons.1 ((h.mem key value).2 ⟨hP, hrange, hnewest⟩) with heq | hin
    · rw [(Prod.mk.inj heq).1]
    · exact ((ascending_cons.1 h.asc).1 _ hin).le

/-- They are those from the current key on, if `P` holds of all keys behind one of which it holds. -/
theorem Listed.from_current (h : Listed ts startKey endKey P L) (hcur : Cursor lists ts ns it L)
    (hup : ∀ a b, a ≤ b → P a → P b) (hv : it.valid = true) :
    Listed ts startKey endKey (fun key => it.currentKey ≤ key) L := by
  obtain ⟨hhead, hleast⟩ := (h.standsAtLeast hcur).least hv
  refine ⟨h.asc, fun key value => (h.mem key value).trans ?_⟩
  constructor
  · rintro ⟨hP, hrange, hnewest⟩
    exact ⟨hleast key value hP hrange hnewest, hrange, hnewest⟩
  · rintro ⟨hle, hrest⟩
    exact ⟨hup _ _ hle hhead.1, hrest⟩

/-- Behind the first one are those with greater keys. -/
theorem Listed.tail {x : Bytes × Bytes} (h : Listed ts startKey endKey (fun key => x.1 ≤ key) (x :: L)) :
    Listed ts startKey endKey (fun key => x.1 < key) L := by
  obtain ⟨hgreater, hasc⟩ := ascending_cons.1 h.asc
  refine ⟨hasc, fun key value => ?_⟩
  have hmem := h.mem key value
  constructor
  · intro hin
    exact ⟨hgreater _ hin, (hmem.1 (List.mem_cons_of_mem _ hin)).2⟩
  · rintro ⟨hlt, hrest⟩
    rcases List.mem_cons.1 (hmem.2 ⟨hlt.le, hrest⟩) with rfl | hin
    · exact absurd hlt (lt_irrefl _)
    · exact hin

/-- **What a merge from a key on has live** are the newest records that are no deletions. -/
theorem listed_livePairs {W : List Item} {first : Bytes} (hasc : ∀ t ∈ ts, Ascending SSTableRecord.key t.2)
    (hids : (ts.map Prod.fst).Nodup) (hm : Merge.Merged order (cutItems (fromKey first) ts) W)
    (hP : ∀ key, first ≤ key ↔ startKey ≤ key ∧ P key) : Listed ts startKey endKey P (livePairs endKey W) := by
  refine ⟨livePairs_ascending hm endKey, fun key value => ?_⟩
  rw [mem_livePairs_iff hm.asc]
  constructor
  · rintro ⟨p, hp, rfl, hv, hend⟩
    obtain ⟨L, hL, hpL⟩ := hm.mem p hp
    obtain ⟨t, ht, r, hr, hk, hg, hpr⟩ := of_mem_cutItems hL hpL
    obtain ⟨hrt, hge⟩ := (mem_fromKey (hasc t ht)).1 hr
    rw [← hk] at hge
    obtain ⟨hstart, hPkey⟩ := (hP _).1 hge
    obtain ⟨hval, hdel⟩ := Prod.mk.inj (hpr.symm.trans hv)
    have hrecord : r = ⟨p.1.key, value, false⟩ := by
      rw [hk, ← hval, ← hdel]
    refine ⟨hPkey, ⟨hstart, hend⟩, t, ht, hrecord ▸ hrt, ?_⟩
    rintro u hu ⟨y, hy, hyk⟩
    obtain ⟨j, hj, rfl⟩ := List.mem_iff_getElem.1 hu
    have hyk : y.key = p.1.key := hyk
    obtain ⟨L', hL', hyL⟩ := mem_cutItems hj ((mem_fromKey (hasc _ hu)).2 ⟨hy, hyk ▸ hge⟩)
    have hrank := hm.rank_le hp hL' hyL hyk
    exact hrank.trans (le_of_eq hg)
  · rintro ⟨hPkey, ⟨hstart, hend⟩, t, ht, hr, hmax⟩
    obtain ⟨i, hi, rfl⟩ := List.mem_iff_getElem.1 ht
    have hfirst := (hP key).2 ⟨hstart, hPkey⟩
    obtain ⟨L, hL, hrL⟩ := mem_cutItems hi ((mem_fromKey (hasc _ ht)).2 ⟨hr, hfirst⟩)
    obtain ⟨p, hp, hpk, hrank⟩ := hm.complete L hL _ hrL
    obtain ⟨L', hL', hpL'⟩ := hm.mem p hp
    obtain ⟨u, hu, y, hy, hk, hg, hpr⟩ := of_mem_cutItems hL' hpL'
    obtain ⟨hyu, -⟩ := (mem_fromKey (hasc u hu)).1 hy
    have hyk : y.key = key := hk.symm.trans hpk
    -- the record that won is of a table with an id as great, and so of the same table
    have hge : ts[i].1 ≤ u.1 := hrank.trans (le_of_eq hg)
    have htable : u = ts[i] := List.inj_on_of_nodup_map hids hu (List.getElem_mem hi)
      (le_antisymm (hmax u hu ⟨y, hyu, hyk⟩) hge)
    rw [htable] at hyu
    obtain rfl := (hasc _ ht).eq_of_key hyu hr hyk
    exact ⟨p, hp, hpk, hpr, hend⟩

/-! ## Calls -/

/-- The iterator between two calls. -/
structure Standing (lists : MemSlot → SkipList) (ts : List Compactor.RankedTable) (ns : ℕ → ℕ)
    (startKey endKey : Bytes) (it : DBIterator pq) : Prop where
  start : it.startKey = startKey
  stop : it.endKey = endKey
  cursor : ∃ L, Cursor lists ts ns it L ∧
    (it.valid = true → Listed ts startKey endKey (fun key => it.currentKey ≤ key) L)
  holds : it.valid = true →
    ∃ Ls, Merge.Holds (sources lists) it.state Ls ∧ Merge.total Ls ≤ bound ts ns

theorem Standing.over (h : Standing lists ts ns startKey endKey it) : Over lists ts ns it.state := by
  obtain ⟨L, hcur, -⟩ := h.cursor
  exact hcur.ranges

/-- A call comes to an end, leaves the iterator standing, and answers what it asks for. -/
structure Serves (lists : MemSlot → SkipList) (ts : List Compactor.RankedTable) (ns : ℕ → ℕ)
    (startKey endKey : Bytes) (it it' : DBIterator pq) (c : Call) : Prop where
  returns : CallReturns lists it it' c
  standing : Standing lists ts ns startKey endKey it'
  answers : Answers ts startKey endKey it it' c

theorem Standing.callSeekToFirst (h : Standing lists ts ns startKey endKey it) (hids : (ts.map Prod.fst).Nodup)
    (hasc : ∀ t ∈ ts, Ascending SSTableRecord.key t.2) :
    Serves lists ts ns startKey endKey it (it.call lists .seekToFirst) .seekToFirst := by
  have hover := h.over
  obtain ⟨W, hm, hb, hcur, hs, he⟩ := hover.seekToFirst
  rw [h.start] at hm hs
  rw [h.stop] at hcur he
  have hlisted : Listed ts startKey endKey (fun _ => True) (livePairs endKey W) :=
    listed_livePairs hasc hids hm fun key => (iff_of_eq (and_true _)).symm
  obtain ⟨hends, hholds⟩ := hover.restart_ends (fromKey_sublist it.startKey) fun t s i hsrc =>
    hsrc.first it.startKey i
  refine ⟨⟨_, ?_, hends⟩, ⟨hs, he, ⟨_, hcur, hlisted.from_current hcur fun _ _ _ h => h⟩, fun _ => hholds⟩,
    hlisted.standsAtLeast hcur⟩
  rw [List.forall₂_map_right_iff]
  refine List.forall₂_same.2 fun s _ => ?_
  by_cases hstart : it.startKey = []
  · rw [if_neg (by simp [hstart]), if_neg (by simp [hstart])]
  · rw [if_pos hstart, if_pos hstart]
    exact seekReturns lists it.startKey s

/-- A seek before the start key goes to the start key. -/
theorem seekTarget_le_iff (it : DBIterator pq) (targetKey key : Bytes) :
    it.seekTarget targetKey ≤ key ↔ it.startKey ≤ key ∧ targetKey ≤ key := by
  unfold seekTarget
  split
  · rename_i hlt
    exact ⟨fun hle => ⟨hle, hlt.2.le.trans hle⟩, fun hboth => hboth.1⟩
  · rename_i hnot
    refine ⟨fun hle => ⟨?_, hle⟩, fun hboth => hboth.2⟩
    by_cases hstart : it.startKey = []
    · rw [hstart]
      exact not_lt.1 (by simp)
    · exact (not_lt.1 fun hlt => hnot ⟨hstart, hlt⟩).trans hle

theorem Standing.callSeek (h : Standing lists ts ns startKey endKey it) (hids : (ts.map Prod.fst).Nodup)
    (hasc : ∀ t ∈ ts, Ascending SSTableRecord.key t.2) (targetKey : Bytes) :
    Serves lists ts ns startKey endKey it (it.call lists (.seek targetKey)) (.seek targetKey) := by
  have hover := h.over
  obtain ⟨W, hm, hb, hcur, hs, he⟩ := hover.seek targetKey
  rw [h.start] at hs
  rw [h.stop] at hcur he
  have hlisted : Listed ts startKey endKey (fun key => targetKey ≤ key) (livePairs endKey W) :=
    listed_livePairs hasc hids hm fun key => h.start ▸ seekTarget_le_iff it targetKey key
  have hup : ∀ a b : Bytes, a ≤ b → targetKey ≤ a → targetKey ≤ b := fun _ _ hab hle => hle.trans hab
  obtain ⟨hends, hholds⟩ := hover.restart_ends (fromKey_sublist (it.seekTarget targetKey))
    fun t s i hsrc => hsrc.seek i (it.seekTarget targetKey)
  have hseek : it.call lists (.seek targetKey) =
      if it.beyondEnd (it.seekTarget targetKey) then { it with state := ⟨it.state.sources, pq.empty⟩ }.invalidate
      else findNextAliveKey lists
        (it.restart lists (it.state.sources.map fun s => s.seek lists (it.seekTarget targetKey))) := rfl
  have hstanding : (it.call lists (.seek targetKey)).valid = true →
      ∃ Ls, Merge.Holds (sources lists) (it.call lists (.seek targetKey)).state Ls ∧
        Merge.total Ls ≤ bound ts ns := by
    rw [hseek]
    split
    · exact fun hv => absurd hv (by simp [invalidate])
    · exact fun _ => hholds
  refine ⟨?_, ⟨hs, he, ⟨_, hcur, hlisted.from_current hcur hup⟩, hstanding⟩, hlisted.standsAtLeast hcur⟩
  change if it.beyondEnd (it.seekTarget targetKey) then _ else _
  rw [hseek]
  split
  · rfl
  · refine ⟨_, ?_, hends⟩
    rw [List.forall₂_map_right_iff]
    exact List.forall₂_same.2 fun s _ => seekReturns lists (it.seekTarget targetKey) s

/-- `Next` of an iterator that is not valid does nothing. -/
theorem Standing.callNext_invalid (h : Standing lists ts ns startKey endKey it) (hv : it.valid = false) :
    Serves lists ts ns startKey endKey it (it.call lists .next) .next := by
  have hsame : it.call lists .next = it := by
    change (if it.valid then it.findNextAliveKey lists else it) = it
    rw [hv, if_neg (by decide)]
  rw [hsame]
  refine ⟨?_, h, ?_⟩
  · change if it.valid then _ else _
    rw [hv, if_neg (by decide)]
  · change if it.valid then _ else _
    rw [hv, if_neg (by decide)]

theorem Standing.callNext (h : Standing lists ts ns startKey endKey it) (hv : it.valid = true) :
    Serves lists ts ns startKey endKey it (it.call lists .next) .next := by
  obtain ⟨L, hcur, hlisted⟩ := h.cursor
  have hlisted := hlisted hv
  obtain ⟨Ls, hholds, hbound⟩ := h.holds hv
  have hgo : it.call lists .next = it.findNextAliveKey lists := by
    change (if it.valid then it.findNextAliveKey lists else it) = _
    rw [hv, if_pos rfl]
  have hstate : it.findNextAliveKey lists = findNextAliveKeyGo lists (bound ts ns) (bound ts ns + 1) it := by
    unfold findNextAliveKey
    rw [h.over.rounds]
  cases L with
  | nil => exact absurd (hv.symm.trans hcur.valid_nil) (by decide)
  | cons x L =>
    obtain ⟨-, hx, hnext, hs, he⟩ := hcur.next
    obtain ⟨hends, Ls', hholds', hle⟩ := findNextAliveKeyGo_ends (bound ts ns + 1) hholds (by omega) hbound
    have hkey : it.currentKey = x.1 := congrArg Prod.fst hx
    rw [hkey] at hlisted
    have htail := hlisted.tail
    rw [← hkey] at htail
    have hup : ∀ a b : Bytes, a ≤ b → it.currentKey < a → it.currentKey < b := fun _ _ hab hlt => hlt.trans_le hab
    refine ⟨?_, ⟨hs.trans h.start, he.trans h.stop, ⟨L, hnext, htail.from_current hnext hup⟩, fun _ => ?_⟩, ?_⟩
    · change if it.valid then _ else _
      rw [hv, if_pos rfl, hgo, hstate]
      exact hends
    · rw [hgo, hstate]
      exact ⟨Ls', hholds', hle.trans hbound⟩
    · change if it.valid then _ else _
      rw [hv, if_pos rfl]
      exact htail.standsAtLeast hnext

/-- **One call** comes to an end, and answers what it asks for. -/
theorem Standing.call (h : Standing lists ts ns startKey endKey it) (hids : (ts.map Prod.fst).Nodup)
    (hasc : ∀ t ∈ ts, Ascending SSTableRecord.key t.2) (c : Call) :
    Serves lists ts ns startKey endKey it (it.call lists c) c := by
  cases c with
  | seekToFirst => exact h.callSeekToFirst hids hasc
  | seek targetKey => exact h.callSeek hids hasc targetKey
  | next =>
    cases hv : it.valid with
    | false => exact h.callNext_invalid hv
    | true => exact h.callNext hv

/-- The iterator with its sources, before the constructor's `SeekToFirst`. -/
def unsought (startKey endKey : Bytes) (srcs : List DBIteratorSource) : DBIterator pq :=
  ⟨startKey, endKey, ⟨srcs, pq.empty⟩, [], [], false⟩

theorem Standing.calls (h : Standing lists ts ns startKey endKey it) (hids : (ts.map Prod.fst).Nodup)
    (hasc : ∀ t ∈ ts, Ascending SSTableRecord.key t.2) (calls : List Call) :
    Standing lists ts ns startKey endKey (calls.foldl (DBIterator.call lists) it) := by
  induction calls generalizing it with
  | nil => exact h
  | cons c calls ih => exact ih (h.call hids hasc c).standing

/-- **After every sequence of calls** the next one comes to an end and stands at the least
live key that it asks for. -/
theorem cursor_calls (pq : PriorityQueue HeapNode order.gt) (lists : MemSlot → SkipList)
    {srcs : List DBIteratorSource}
    (hsrcs : List.Forall₂ (SourceOf lists) ts srcs) (hids : (ts.map Prod.fst).Nodup) (startKey endKey : Bytes)
    (calls : List Call) (c : Call) :
    let it : DBIterator pq := calls.foldl (call lists) (unsought startKey endKey srcs)
    CallReturns lists it (it.call lists c) c ∧ Answers ts startKey endKey it (it.call lists c) c := by
  intro it
  have hasc : ∀ t ∈ ts, Ascending SSTableRecord.key t.2 := by
    intro t ht
    obtain ⟨i, hi, rfl⟩ := List.mem_iff_getElem.1 ht
    exact ((List.forall₂_iff_get.1 hsrcs).2 i hi (hsrcs.length_eq ▸ hi)).ascending
  obtain ⟨ns, hover⟩ := Over.of_forall₂ hsrcs pq.empty
  have hstart : Standing lists ts ns startKey endKey (unsought startKey endKey srcs : DBIterator pq) :=
    ⟨rfl, rfl, ⟨[], ⟨hover, Or.inl ⟨rfl, rfl⟩⟩, fun hv => absurd hv Bool.false_ne_true⟩,
      fun hv => absurd hv Bool.false_ne_true⟩
  have hserves := (hstart.calls hids hasc calls).call hids hasc c
  exact ⟨hserves.returns, hserves.answers⟩

/-- A memtable that deletes `a`, in front of the sample tables. -/
def sampleLists : MemSlot → SkipList := fun _ => SkipList.new.insert (bytes "a") ⟨[], .kTypeDeletion⟩

def sampleSources : List DBIteratorSource :=
  ⟨2 ^ 64 - 1, some (.active, ⟨none⟩), none⟩ ::
    Compactor.sampleTables.map fun t => ⟨t.1, none, some (Compactor.iteratorOf t.2)⟩

theorem cursor_calls_sample :
    let it : DBIterator order.firstIn :=
      [Call.seekToFirst, .next, .seek (bytes "b")].foldl (call sampleLists) (unsought [] (bytes "c") sampleSources)
    CallReturns sampleLists it (it.call sampleLists .next) .next ∧
      Answers ((2 ^ 64 - 1, (sampleLists .active).records) :: Compactor.sampleTables) [] (bytes "c") it
        (it.call sampleLists .next) .next := by
  have hsrcs : List.Forall₂ (SourceOf sampleLists)
      ((2 ^ 64 - 1, (sampleLists .active).records) :: Compactor.sampleTables) sampleSources := by
    refine .cons (.mem _ .active _) ?_
    rw [List.forall₂_map_right_iff]
    refine List.forall₂_same.2 fun t ht => ?_
    obtain ⟨hasc, hshort⟩ := Compactor.sampleTables_ok t ht
    exact .sst t.1 t.2 _ ((Compactor.opened_iteratorOf t.2).over hshort) hasc
  exact cursor_calls order.firstIn sampleLists hsrcs (by decide) [] (bytes "c")
    [.seekToFirst, .next, .seek (bytes "b")] .next

end DBIterator

end LsmTree
