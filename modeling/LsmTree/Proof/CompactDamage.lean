import LsmTree.Proof.CompactMerge

/-!
# Damage that `Compact` does not notice

An iterator that meets bytes that are no record is not valid any more, as at the end of
its data block, and `Compact` asks no further.

* `CompactReturns.left`: a `Compact` that returns true leaves no iterator valid.
* `compact_read_iff`: **it has read every input to the end of its data block if and only
  if every data block divides into records**.
* `compact_read_fails`: a table with one byte changed.
-/

namespace LsmTree.Compactor

open Base

variable {hash : Bytes → UInt64} {pq : PriorityQueue HeapNode order.gt} {ins ins' : List CompactorInput}
  {path : Bytes} {purge : Bool} {io : BuildIO} {w w' : World}

/-- Every iterator stands at the end of its data block. -/
def ReadToEnd (ins : List CompactorInput) : Prop :=
  ∀ input ∈ ins, ∀ it, input.iterator = some it → it.currentOffset = it.dataEndOffset

/-- Every iterator's data block divides into records. -/
def Undamaged (ins : List CompactorInput) : Prop :=
  ∀ input ∈ ins, ∀ it, input.iterator = some it → ∃ rs, it.Over rs

/-- The input at `i`, rewound and moved on `k` times. -/
def MovedFrom (ins : List CompactorInput) (i : ℕ) (s : CompactorInput) : Prop :=
  ∃ input k, ins[i]? = some input ∧
    s = ⟨input.fileId, input.iterator.map fun it => SSTableIterator.next^[k] it.seekToFirst⟩

theorem MovedFrom.next {i : ℕ} {s : CompactorInput} (h : MovedFrom ins i s) : MovedFrom ins i (inputs.next s) := by
  obtain ⟨input, k, hi, rfl⟩ := h
  refine ⟨input, k + 1, hi, ?_⟩
  change (⟨_, Option.map _ (Option.map _ _)⟩ : CompactorInput) = _
  rw [Option.map_map]
  simp only [Function.comp_def, Function.iterate_succ_apply']

/-- What every round of the merge keeps. -/
structure Merging (ins : List CompactorInput) (st : MergeState pq CompactorInput) : Prop where
  holds : ∃ Ls : List (List (HeapNode × Unit)), Merge.Holds inputs st Ls
  keeps : Merge.SourcesKeep (MovedFrom ins) st
  length : st.sources.length = ins.length

theorem merging_sought (pq : PriorityQueue HeapNode order.gt) (ins : List CompactorInput) :
    Merging ins (Merge.fill inputs (sought ins) : MergeState pq _) := by
  obtain ⟨ts, hts⟩ := exists_yieldsTable ins
  refine ⟨⟨_, sought_holds pq hts⟩, fun i s hs => ?_, ?_⟩
  · rw [Merge.sources_fill] at hs
    unfold sought at hs
    rw [List.getElem?_map] at hs
    obtain ⟨input, hi, rfl⟩ := Option.map_eq_some_iff.1 hs
    exact ⟨input, 0, hi, rfl⟩
  · rw [Merge.sources_fill]
    simp [sought]

/-- **A round of the merge.** -/
theorem Merging.round {st st' : MergeState pq CompactorInput} {b b' : SSTableBuilder} (h : Merging ins st)
    (hround : mergeRound hash purge (st, b) (.inl (st', b'))) : Merging ins st' := by
  obtain ⟨p, hpops, ho⟩ := hround
  obtain ⟨Ls, hholds⟩ := h.holds
  have hp := Merge.Pops.eq_popWinner hholds le_rfl hpops
  cases p with
  | none => exact absurd ho (by simp)
  | some p =>
    obtain ⟨n, v, st₁⟩ := p
    obtain ⟨ok, b₁, hemit⟩ : ∃ ok b₁, emit hash purge n b = (ok, b₁) := ⟨_, _, rfl⟩
    simp only [hemit] at ho
    cases ok with
    | false => exact absurd ho (by simp)
    | true =>
      obtain ⟨rfl, -⟩ := Prod.mk.inj (Sum.inl.inj ho)
      obtain ⟨Ls', hholds', -⟩ := Merge.popWinner_holds hholds hp.symm
      obtain ⟨hkeeps, hlen⟩ := h.keeps.popWinner (fun _ _ hmoved => hmoved.next) hp.symm
      exact ⟨⟨Ls', hholds'⟩, hkeeps, hlen.trans h.length⟩

/-- The loop over the heap ends well only when nothing is left. -/
theorem Merging.leaves {st st' : MergeState pq CompactorInput} {b b' : SSTableBuilder} (h : Merging ins st)
    (hround : mergeRound hash purge (st, b) (.inr (true, st', b'))) :
    st' = st ∧ ∀ i s, st.sources[i]? = some s → inputNode i s = none := by
  obtain ⟨p, hpops, ho⟩ := hround
  obtain ⟨Ls, hholds⟩ := h.holds
  have hp := Merge.Pops.eq_popWinner hholds le_rfl hpops
  cases p with
  | some p =>
    obtain ⟨n, v, st₁⟩ := p
    obtain ⟨ok, b₁, hemit⟩ : ∃ ok b₁, emit hash purge n b = (ok, b₁) := ⟨_, _, rfl⟩
    simp only [hemit] at ho
    cases ok with
    | false => exact absurd (Prod.mk.inj (Sum.inr.inj ho)).1 (by decide)
    | true => exact absurd ho (by simp)
  | none =>
    obtain ⟨-, hst⟩ := Prod.mk.inj (Sum.inr.inj ho)
    have hnil := (Merge.popWinner_eq_none hholds).1 hp.symm
    refine ⟨(Prod.mk.inj hst).1, fun i s hs => ?_⟩
    have hlt : i < Ls.length := by
      rw [← hholds.length]
      exact (List.getElem?_eq_some_iff.1 hs).1
    have hy := hholds.yields i s _ hs (List.getElem?_eq_getElem hlt)
    rw [hnil _ (List.getElem_mem hlt)] at hy
    exact hy

/-- **A `Compact` that returns true leaves every iterator moved on until it is not valid.** -/
theorem CompactReturns.left (h : CompactReturns hash pq ins path purge io w (true, ins', w')) :
    List.Forall₂ (fun input input' => ∃ k,
      input' = ⟨input.fileId, input.iterator.map fun it => SSTableIterator.next^[k] it.seekToFirst⟩ ∧
      ∀ it, input'.iterator = some it → it.valid = false) ins ins' := by
  unfold CompactReturns at h
  by_cases hins : ins = []
  · rw [if_pos hins] at h
    obtain ⟨-, h⟩ := Prod.mk.inj h
    obtain ⟨rfl, -⟩ := Prod.mk.inj h
    rw [hins]
    exact .nil
  rw [if_neg hins] at h
  by_cases hpath : path = []
  · rw [if_pos hpath] at h
    exact absurd (Prod.mk.inj h).1 (by decide)
  rw [if_neg hpath] at h
  obtain ⟨ok, st, b', hends, hout⟩ := h
  cases ok with
  | false => exact absurd (Prod.mk.inj hout).1 (by decide)
  | true =>
    obtain ⟨-, hout⟩ := Prod.mk.inj hout
    obtain ⟨rfl, -⟩ := Prod.mk.inj hout
    -- every round of the loop keeps `Merging`, so it holds where the loop leaves
    obtain ⟨⟨st', b⟩, hinv, hround⟩ := hends.invariant
      (fun s : MergeState pq CompactorInput × SSTableBuilder => Merging ins s.1)
      (fun s s' hs hround => hs.round hround) (merging_sought pq ins)
    obtain ⟨rfl, hnone⟩ := hinv.leaves hround
    refine List.forall₂_iff_get.2 ⟨hinv.length.symm, fun i h₁ h₂ => ?_⟩
    have hs := List.getElem?_eq_getElem h₂
    obtain ⟨input, k, hi, heq⟩ := hinv.keeps i _ hs
    obtain rfl : ins[i] = input := Option.some.inj ((List.getElem?_eq_getElem h₁).symm.trans hi)
    refine ⟨k, heq, fun it hit => ?_⟩
    -- the heap was empty there, so no source had a record to push
    have hnode := hnone i _ hs
    unfold inputNode at hnode
    rw [show st.sources[i].iterator = some it from hit] at hnode
    cases hv : it.valid with
    | false => rfl
    | true =>
      simp only [hv, if_true] at hnode
      exact absurd hnode (by simp)

/-- What an input is left with shows whether its data block divides into records. -/
theorem end_reached_iff {input input' : CompactorInput} {it : SSTableIterator}
    (hit : input.iterator = some it) {k : ℕ}
    (heq : input' = ⟨input.fileId, input.iterator.map fun it => SSTableIterator.next^[k] it.seekToFirst⟩)
    (hinvalid : ∀ it, input'.iterator = some it → it.valid = false) :
    (∀ it', input'.iterator = some it' → it'.currentOffset = it'.dataEndOffset) ↔ ∃ rs, it.Over rs := by
  have hit' : input'.iterator = some (SSTableIterator.next^[k] it.seekToFirst) := by rw [heq, hit]; rfl
  have hend : (SSTableIterator.next^[k] it.seekToFirst).dataEndOffset = it.dataEndOffset := by
    rw [SSTableIterator.dataEndOffset_iterate]
    exact SSTableIterator.dataEndOffset_readNextRecord _
  rw [← SSTableIterator.end_reached_iff (hinvalid _ hit')]
  constructor
  · exact fun h => (h _ hit').trans hend
  · intro h it' hit''
    obtain rfl := Option.some.inj (hit'.symm.trans hit'')
    exact h.trans hend.symm

/-- **A `Compact` that returns true has read every input to the end of its data block** if
and only if every data block divides into records. -/
theorem compact_read_iff (h : CompactReturns hash pq ins path purge io w (true, ins', w')) :
    ReadToEnd ins' ↔ Undamaged ins := by
  have hleft := h.left
  unfold ReadToEnd Undamaged
  constructor
  · intro hread input hin it hit
    obtain ⟨i, hi, rfl⟩ := List.mem_iff_getElem.1 hin
    have hi' : i < ins'.length := hleft.length_eq ▸ hi
    obtain ⟨k, heq, hinvalid⟩ := (List.forall₂_iff_get.1 hleft).2 i hi hi'
    exact (end_reached_iff hit heq hinvalid).1 (hread _ (List.getElem_mem hi'))
  · intro hover input' hin
    obtain ⟨i, hi', rfl⟩ := List.mem_iff_getElem.1 hin
    have hi : i < ins.length := hleft.length_eq.symm ▸ hi'
    obtain ⟨k, heq, hinvalid⟩ := (List.forall₂_iff_get.1 hleft).2 i hi hi'
    cases hit : ins[i].iterator with
    | none =>
      intro it' hit'
      have heq' : ins'[i] = _ := heq
      rw [heq'] at hit'
      change Option.map _ ins[i].iterator = some it' at hit'
      rw [hit] at hit'
      exact absurd hit' (by simp)
    | some it => exact (end_reached_iff hit heq hinvalid).2 (hover _ (List.getElem_mem hi) it hit)

/-- The inputs of the sample divide into records, so they are read to the end. -/
theorem compact_read_iff_sample :
    ∃ ins' w', CompactReturns (fun _ => 0) order.firstIn sampleInputs (bytes "out.sst")
    true .ok (.ofDisk .empty) (true, ins', w') ∧ ReadToEnd ins' := by
  obtain ⟨ins', hreturns⟩ := compactReturns (fun _ => 0) order.firstIn sampleInputs (bytes "out.sst") true .ok
    (.ofDisk .empty)
  rw [compact_sample] at hreturns
  refine ⟨ins', _, hreturns, (compact_read_iff hreturns).2 fun input hin it hit => ?_⟩
  obtain ⟨i, hi, rfl⟩ := List.mem_iff_getElem.1 hin
  have hi' : i < sampleTables.length := ranges_sample.length_eq ▸ hi
  exact ⟨_, ((List.forall₂_iff_get.1 ranges_sample).2 i hi hi').some it hit⟩

/-- A table of two records, the first byte of the first key length changed. -/
def damagedTable : Bytes :=
  (tableBytes [⟨bytes "a", bytes "1", false⟩, ⟨bytes "b", bytes "2", false⟩] .default).set 0 255

def damagedIterator : SSTableIterator :=
  SSTableIterator.seekToFirst ⟨.at_ damagedTable damagedTable.length, 22, 0, ⟨[], [], false⟩, false⟩

/-- `Compact` returns true on it, having read none of the records. -/
theorem compact_read_fails :
    ¬ ∀ (hash : Bytes → UInt64) (pq : PriorityQueue HeapNode order.gt) (ins ins' : List CompactorInput)
      (path : Bytes) (purge : Bool) (io : BuildIO) (w w' : World),
      (∀ input ∈ ins, ∀ it, input.iterator = some it →
        ∃ name content, SSTableIterator.new name (some content) = .ok it) →
      CompactReturns hash pq ins path purge io w (true, ins', w') → ReadToEnd ins' := by
  intro hall
  have hnew : SSTableIterator.new (bytes "1.sst") (some damagedTable) = .ok damagedIterator := by decide +kernel
  have hok : (compact (fun _ => 0) order.firstIn [⟨1, some damagedIterator⟩] (bytes "out.sst") true .ok
      (.ofDisk .empty)).1 = true := by decide +kernel
  obtain ⟨ins', hreturns⟩ := compactReturns (fun _ => 0) order.firstIn [⟨1, some damagedIterator⟩]
    (bytes "out.sst")
    true .ok (.ofDisk .empty)
  rw [hok] at hreturns
  have hread := hall _ _ _ ins' _ _ _ _ _ (fun input hin it hit => by
    obtain rfl := List.mem_singleton.1 hin
    obtain rfl := Option.some.inj hit
    exact ⟨_, _, hnew⟩) hreturns
  have hleft := hreturns.left
  obtain ⟨input', rest, ⟨k, heq, hinvalid⟩, -, rfl⟩ := List.forall₂_cons_left_iff.1 hleft
  have hit : (⟨1, some damagedIterator⟩ : CompactorInput).iterator = some damagedIterator := rfl
  obtain ⟨rs, hover⟩ := (end_reached_iff hit heq hinvalid).1 (hread input' List.mem_cons_self)
  -- the first record ends behind the data block
  have hend : recordEnd damagedTable 0 = some 265 := by decide +kernel
  have hdata : damagedIterator.file.data = damagedTable := by
    unfold damagedIterator
    rw [SSTableIterator.data_seekToFirst]
    rfl
  have hblock : damagedIterator.dataEndOffset = 22 := by
    unfold damagedIterator SSTableIterator.seekToFirst
    rw [SSTableIterator.dataEndOffset_readNextRecord]
  unfold SSTableIterator.Over at hover
  rw [hdata, hblock] at hover
  have hstuck : Stuck damagedTable 22 0 := by
    intro r next hread
    have hnext := (recordEnd_of_read hread).1
    rw [hend] at hnext
    rw [← Option.some.inj hnext]
    decide
  exact absurd ((Walk.here 0).unique hstuck hover (stuck_of_le le_rfl)).2 (by decide)

end LsmTree.Compactor
