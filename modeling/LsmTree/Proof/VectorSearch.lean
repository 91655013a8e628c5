import LsmTree.Base.Ranking
import LsmTree.Proof.Rehydrate
import LsmTree.Proof.RowJson

/-!
# What a search returns

* `Floats.sortReverse_eq`: what stands in falling order is not sorted again.
* `search_eq`: a search reads the payloads of the best, in their order.
* `search_best`: **the best are those that fewer go in front of than were asked for**; of
  vectors with one score the one that was added first.
* `Stores.search`: of the documents that were added, a search finds the best.
-/

namespace LsmTree

open Base

variable {ν φ μ : Type} {fl : Floats φ}

/-- Scores compare: none is a NaN. -/
def Floats.Compares {α : Type} (fl : Floats φ) (key : α → φ) (l : List α) : Prop := Orderly (fl.NotBelow key) l

theorem Floats.sortReverse_eq {α : Type} {key : α → φ} {l : List α} (h : l.Pairwise (fl.NotBelow key)) :
    fl.sortReverse key l = l := h.insertionSort_eq

namespace VectorIndex

variable {dim : ℤ} {index : VectorIndex φ dim}

theorem search_eq {float : ν → Except PyError φ} {queryVector : List ν} {q : List φ}
    (hq : queryVector.mapM float = .ok q)
    (metric : Bytes) (topK : ℤ) (index : VectorIndex φ dim) : index.search fl float metric queryVector topK =
      if (q.length : ℤ) ≠ dim then
        .error (.valueError (bytes "Query vector dimension mismatch: expected " ++ pyStr dim ++ bytes ", got " ++
          pyStr q.length))
      else if index.vectors.isEmpty ∨ topK ≤ 0 then .ok []
      else (index.scores fl metric q).map fun scored => (fl.sortReverse Prod.snd scored).take topK.toNat := by
  unfold search
  rw [hq]
  rfl

theorem length_scores {metric : Bytes} {q : List φ} {scored : List (ℤ × φ)}
    (h : index.scores fl metric q = .ok scored) :
    scored.length = index.vectors.length := by
  unfold scores at h
  cases hnorm : fl.sqrt (fl.sum (q.map fun x => fl.mul x x)) with
  | error err => simp [hnorm, bind, Except.bind] at h
  | ok qNorm =>
    simp only [hnorm, bind, Except.bind] at h
    exact (mapM_ok.1 h).length_eq

end VectorIndex

namespace VectorStore

variable [EmptyCollection μ] {json : VectorJson ν φ μ} {payloads : PayloadJson json} {engine : Engine}
  {queryVector : List ν} {q : List φ} {topK : ℤ} {vs : VectorStore φ} {metric : Bytes}

/-- A hit has the score of its match. -/
theorem score_readMatch {m : ℤ × φ} {h : Hit φ μ} (hread : readMatch payloads engine m = .ok (some h)) :
    h.score = m.2 := by
  have hscore : ∀ {data : PayloadDict μ}, hit m.2 data = some h → h.score = m.2 := by
    intro data hdata
    unfold hit at hdata
    split at hdata
    · rw [← Option.some.inj hdata]
    · cases hdata
  unfold readMatch readPayload at hread
  split at hread
  · cases hread
  · split at hread
    · exact hscore (Except.ok.inj hread)
    · cases hread
    · cases hread

/-- The scores of the hits are some of those of the matches, in their order. -/
theorem scores_sublist {ms : List (ℤ × φ)} {read : List (Option (Hit φ μ))}
    (hread : ms.mapM (readMatch payloads engine) = .ok read) :
    (read.reduceOption.map Hit.score).Sublist (ms.map Prod.snd) := by
  have hall := mapM_ok.1 hread
  clear hread
  induction hall with
  | nil => exact .slnil
  | @cons h m read ms hm _ ih =>
    cases h with
    | none => exact ih.cons m.2
    | some h =>
      rw [List.reduceOption_cons_of_some, List.map_cons, List.map_cons, score_readMatch hm]
      exact ih.cons_cons m.2

/-- So hits of matches in falling order are in falling order. -/
theorem pairwise_read {ms : List (ℤ × φ)} (hms : ms.Pairwise (fl.NotBelow Prod.snd))
    {read : List (Option (Hit φ μ))} (hread : ms.mapM (readMatch payloads engine) = .ok read) :
    read.reduceOption.Pairwise (fl.NotBelow Hit.score) := by
  have hscores : (ms.map Prod.snd).Pairwise fun x y => fl.lt x y = false := List.pairwise_map.2 hms
  have hhits : (read.reduceOption.map Hit.score).Pairwise fun x y => fl.lt x y = false :=
    hscores.sublist (scores_sublist hread)
  rw [List.pairwise_map] at hhits
  exact hhits

/-- **The second sort changes nothing**: the payloads of the best are read in their order. -/
theorem search_eq (hlen : (queryVector.length : ℤ) = vs.dim) (hpos : 0 < topK) (hne : vs.index.vectors ≠ [])
    (hq : queryVector.mapM json.float = .ok q)
    (hcmp : ∀ scored, vs.index.scores fl metric q = .ok scored → fl.Compares Prod.snd scored) :
    vs.search fl metric payloads queryVector topK engine =
      (vs.index.scores fl metric q).bind fun scored =>
        (((fl.sortReverse Prod.snd scored).take topK.toNat).mapM (readMatch payloads engine)).map
          List.reduceOption := by
  have hdim : (q.length : ℤ) = vs.dim := by rw [(mapM_ok.1 hq).length_eq, hlen]
  have hempty : ¬ (topK ≤ 0 ∨ vs.index.vectors.isEmpty = true) := by
    rw [List.isEmpty_iff]
    exact not_or.2 ⟨by omega, hne⟩
  unfold search
  rw [if_neg (not_not.2 hlen), if_neg hempty, VectorIndex.search_eq hq, if_neg (not_not.2 hdim),
    if_neg (fun h => hempty h.symm)]
  cases hscored : vs.index.scores fl metric q with
  | error err => rfl
  | ok scored =>
    have hfalling : ((fl.sortReverse Prod.snd scored).take topK.toNat).Pairwise (fl.NotBelow Prod.snd) :=
      (hcmp scored hscored).pairwise.sublist (List.take_sublist _ _)
    simp only [Except.map, bind, Except.bind]
    cases hread : ((fl.sortReverse Prod.snd scored).take topK.toNat).mapM (readMatch payloads engine) with
    | error err => rfl
    | ok read => exact congrArg Except.ok (Floats.sortReverse_eq (pairwise_read hfalling hread))

/-- **A search is exact**: the matches it reads are those that fewer go in front of than it was asked
for. A vector goes in front of another if its score is greater, or the same and it comes first
in the index. -/
theorem search_best (payloads : PayloadJson json) (hlen : (queryVector.length : ℤ) = vs.dim)
    (hq : queryVector.mapM json.float = .ok q) {scored : List (ℤ × φ)}
    (hscored : vs.index.scores fl metric q = .ok scored) (hcmp : fl.Compares Prod.snd scored) (engine : Engine) :
    ∃ best : List (ℤ × φ),
      vs.search fl metric payloads queryVector topK engine =
        (best.mapM (readMatch payloads engine)).map List.reduceOption ∧
      best.length = min topK.toNat vs.index.vectors.length ∧
      ∀ xs m ys, scored = xs ++ m :: ys → best[rank (fl.NotBelow Prod.snd) xs m ys]? =
        if rank (fl.NotBelow Prod.snd) xs m ys < topK.toNat then some m else none := by
  have hcount := VectorIndex.length_scores hscored
  have hsearch : vs.search fl metric payloads queryVector topK engine =
      (((fl.sortReverse Prod.snd scored).take topK.toNat).mapM
        (readMatch payloads engine)).map List.reduceOption := by
    by_cases hnone : topK ≤ 0 ∨ vs.index.vectors = []
    · -- nothing is searched for, or there is nothing to find
      have hbest : (fl.sortReverse Prod.snd scored).take topK.toNat = [] := by
        rcases hnone with hzero | hempty
        · rw [Int.toNat_of_nonpos hzero, List.take_zero]
        · rw [hempty, List.length_nil, List.length_eq_zero_iff] at hcount
          rw [hcount]
          exact List.take_nil
      unfold search
      rw [if_neg (not_not.2 hlen), if_pos (hnone.imp_right List.isEmpty_iff.2), hbest]
      rfl
    · obtain ⟨hpos, hne⟩ := not_or.1 hnone
      rw [search_eq hlen (not_le.1 hpos) hne hq, hscored]
      · rfl
      · rintro scored' hscored'
        rwa [← Except.ok.inj (hscored.symm.trans hscored')]
  refine ⟨_, hsearch, ?_, ?_⟩
  · rw [List.length_take, Floats.sortReverse, List.length_insertionSort, hcount]
  · rintro xs m ys rfl
    exact hcmp.getElem_take_rank topK.toNat

/-- Whole numbers compare. -/
theorem compares_whole {α : Type} (key : α → ℤ) (l : List α) : RowJson.wholeFloats.Compares key l where
  total a _ b _ := by
    simp only [Floats.NotBelow, RowJson.wholeFloats, decide_eq_false_iff_not, not_lt]
    exact le_total _ _
  trans a _ b _ c _ := by
    simp only [Floats.NotBelow, RowJson.wholeFloats, decide_eq_false_iff_not, not_lt]
    exact fun hab hbc => hbc.trans hab

/-- An index of three vectors, of which the first and the last point one way. -/
def threeVectors : VectorStore ℤ := ⟨1, ⟨[(0, [2]), (1, [-4]), (2, [3])]⟩, 3⟩

/-- The payloads of the three. -/
def threePayloads : Engine :=
  skyTable.rows.zipIdx.foldl (fun engine t => engine.put (vecKey t.2) (t.1.payload t.2)) .empty

/-- The two that point where the query does, the one that was added first in front. -/
theorem search_best_three :
    (threeVectors.search RowJson.wholeFloats (bytes "cos") skyTable.payloads [5] 2 threePayloads).toOption =
      some [⟨0, bytes "a", bytes "sky", 1, []⟩, ⟨2, bytes "c", bytes "sun", 1, []⟩] := by
  have hscored : threeVectors.index.scores RowJson.wholeFloats (bytes "cos") [5] =
      .ok [(0, 1), (1, -1), (2, 1)] := by
    decide +kernel
  have hdim : (([5] : List ℤ).length : ℤ) = threeVectors.dim := rfl
  obtain ⟨best, hsearch, hlen, hrank⟩ := @search_best _ _ _ _ _ _ _ _ 2 _ _ skyTable.payloads hdim rfl _ hscored
    (compares_whole Prod.snd _) threePayloads
  obtain ⟨a, b, rfl⟩ := List.length_eq_two.1 (show best.length = 2 from hlen)
  obtain rfl : a = (0, 1) := Option.some.inj (hrank [] (0, 1) _ rfl)
  obtain rfl : b = (2, 1) := Option.some.inj (hrank [(0, 1), (1, -1)] (2, 1) [] rfl)
  rw [hsearch]
  decide +kernel

end VectorStore

/-! ## The best of the documents -/

namespace MemoryManager

open VectorStore

/-- The hit of a document with its number and score. -/
def hitOf [EmptyCollection μ] (restored : μ → μ) (t : (Document ν φ μ × ℕ) × φ) : Hit φ μ :=
  ⟨t.1.2, t.1.1.1.docId, t.1.1.1.text, t.2, restored (t.1.1.1.metadata.getD ∅)⟩

/-- The documents, numbered, with their scores. -/
def scored (fl : Floats φ) (q : List φ) (docs : List (Document ν φ μ)) :
    Except PyError (List ((Document ν φ μ × ℕ) × φ)) := do
  let qNorm ← fl.sqrt (fl.sum (q.map fun x => fl.mul x x))
  docs.zipIdx.mapM fun t => (VectorIndex.score fl (bytes "cos") q qNorm t.1.2).map fun sim => (t, sim)

/-- The best of the documents: all are scored, and those with the greatest scores are taken. -/
def best [EmptyCollection μ] (fl : Floats φ) (restored : μ → μ) (q : List φ) (topK : ℤ)
    (docs : List (Document ν φ μ)) :
    Except PyError (List (Hit φ μ)) :=
  if topK ≤ 0 ∨ docs = [] then .ok []
  else (scored fl q docs).map fun ts => ((fl.sortReverse Prod.snd ts).take topK.toNat).map (hitOf restored)

end MemoryManager

open VectorStore MemoryManager

/-- A match of the index. -/
def matchOf (t : (Document ν φ μ × ℕ) × φ) : ℤ × φ := (t.1.2, t.2)

theorem scores_vectorsOf (fl : Floats φ) (dim : ℤ) (q : List φ) (docs : List (Document ν φ μ)) :
    (vectorsOf dim docs).scores fl (bytes "cos") q = (scored fl q docs).map (List.map matchOf) := by
  unfold VectorIndex.scores scored vectorsOf
  cases hnorm : fl.sqrt (fl.sum (q.map fun x => fl.mul x x)) with
  | error err => rfl
  | ok qNorm =>
    simp only [bind, Except.bind]
    rw [← mapM_map_ok, List.mapIdx_eq_zipIdx_map, List.mapM_map]
    refine congrArg (fun f => docs.zipIdx.mapM f) (funext fun t => ?_)
    simp only [Function.comp_apply]
    cases VectorIndex.score fl (bytes "cos") q qNorm t.1.2 <;> rfl

/-- What is sorted is mapped in its new order. -/
theorem sortReverse_map {α β : Type} {key : β → φ} {f : α → β} (l : List α) :
    fl.sortReverse key (l.map f) = (fl.sortReverse (fun a => key (f a)) l).map f :=
  (List.map_insertionSort _ _ f l fun _ _ _ _ => Iff.rfl).symm

variable [EmptyCollection μ] {json : VectorJson ν φ μ} {payloads : PayloadJson json} {engine : Engine} {dim : ℤ}
  {docs : List (Document ν φ μ)}

omit [EmptyCollection μ] in
/-- The numbers of the documents that are scored. -/
theorem mem_scored {q : List φ} {ts : List ((Document ν φ μ × ℕ) × φ)} (h : scored fl q docs = .ok ts) :
    ∀ t ∈ ts, docs[t.1.2]? = some t.1.1 := by
  unfold scored at h
  cases hnorm : fl.sqrt (fl.sum (q.map fun x => fl.mul x x)) with
  | error err => simp [hnorm, bind, Except.bind] at h
  | ok qNorm =>
    simp only [hnorm, bind, Except.bind] at h
    intro t ht
    obtain ⟨x, hx, hsim⟩ := exists_of_mem_mapM h ht
    cases hscore : VectorIndex.score fl (bytes "cos") q qNorm x.1.2 with
    | error err => simp [hscore, Except.map] at hsim
    | ok sim =>
      rw [hscore] at hsim
      rw [← Except.ok.inj hsim]
      exact List.mem_zipIdx_iff_getElem?.1 hx

/-- The payload of a document is read back. -/
theorem VectorStore.Stores.read (h : Stores json dim docs engine) {t : (Document ν φ μ × ℕ) × φ}
    (ht : docs[t.1.2]? = some t.1.1) :
    readMatch payloads engine (matchOf t) = .ok (some (hitOf payloads.restored t)) := by
  obtain ⟨payload, hdumps, hget⟩ := h.entry ht
  unfold VectorStore.readMatch readPayload matchOf
  simp only [hget, payloads.loads_dumps hdumps]
  rfl

/-- **A search finds the best of the documents.** -/
theorem VectorStore.Stores.search (h : Stores json dim docs engine) {queryVector : List ν} {q : List φ}
    (hlen : (queryVector.length : ℤ) = dim) (hq : queryVector.mapM json.float = .ok q)
    (hcmp : ∀ ts, scored fl q docs = .ok ts → fl.Compares Prod.snd ts) (topK : ℤ) :
    (holding dim docs).search fl (bytes "cos") payloads queryVector topK engine =
      best fl payloads.restored q topK docs := by
  have hempty : (holding dim docs).index.vectors.isEmpty = true ↔ docs = [] := by
    unfold holding vectorsOf
    rw [List.isEmpty_iff, List.mapIdx_eq_nil_iff]
  by_cases hnone : topK ≤ 0 ∨ docs = []
  · -- the early return of `search`
    have hdim : (queryVector.length : ℤ) = (holding dim docs).dim := hlen
    unfold VectorStore.search best
    rw [if_neg (not_not.2 hdim), if_pos (hnone.imp id hempty.2), if_pos hnone]
  · obtain ⟨hpos, hne⟩ := not_or.1 hnone
    have hvectors : (holding dim docs).index.vectors ≠ [] := fun h => hne (hempty.1 (List.isEmpty_iff.2 h))
    have hscores : (holding dim docs).index.scores fl (bytes "cos") q =
        (scored fl q docs).map (List.map matchOf) :=
      scores_vectorsOf fl dim q docs
    have hcompares : ∀ ms, (holding dim docs).index.scores fl (bytes "cos") q = .ok ms →
        fl.Compares Prod.snd ms := by
      intro ms hms
      rw [hscores] at hms
      cases hts : scored fl q docs with
      | error err => rw [hts] at hms; cases hms
      | ok ts =>
        rw [hts] at hms
        rw [← Except.ok.inj hms]
        exact Orderly.map (hcmp ts hts)
    have hsearch : (holding dim docs).search fl (bytes "cos") payloads queryVector topK engine = _ :=
      search_eq hlen (by omega) hvectors hq hcompares
    unfold best
    rw [if_neg hnone, hsearch, hscores]
    cases hts : scored fl q docs with
    | error err => rfl
    | ok ts =>
      simp only [Except.map, Except.bind]
      rw [sortReverse_map, ← List.map_take]
      set found := (fl.sortReverse (fun t => (matchOf t).2) ts).take topK.toNat
      -- each of the best matches has its payload in the engine
      have hread : (found.map matchOf).mapM (readMatch payloads engine) =
          .ok ((found.map (hitOf payloads.restored)).map some) := by
        refine mapM_ok.2 ?_
        rw [List.map_map, List.forall₂_map_left_iff, List.forall₂_map_right_iff, List.forall₂_same]
        exact fun t ht => h.read
          (mem_scored hts t ((List.mem_insertionSort _).1 ((List.take_sublist _ _).subset ht)))
      rw [hread]
      refine congrArg Except.ok ?_
      unfold List.reduceOption
      rw [List.filterMap_map, Function.id_comp, List.filterMap_some]
      rfl

end LsmTree
