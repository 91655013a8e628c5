import LsmTree.Proof.VectorIds

/-!
# Opening a vector store again

What an instance holds in memory stands in the store as well, so an instance that is opened
on the store is the one that wrote it: the same vectors in the same order, and the same next
id. The order is that of the keys, so it needs the ids to have at most eight digits.

* `Stores`: the store after these documents were added, and perhaps more of the last counter.
* `Stores.new`: **opening gives the instance that holds them**.
* `add_proper`: an `add` refuses its embedding or holds one document more.
* `reopened_same`: **opening again is invisible** in every history without another dimension.
-/

namespace LsmTree

open Base

namespace VectorStore

variable {ν φ μ : Type} [EmptyCollection μ] {json : VectorJson ν φ μ} {engine : Engine} {dim : ℤ}

/-- What `add` was given, and the floats of its embedding. -/
abbrev Document (ν φ μ : Type) := AddCall ν μ × List φ

variable {docs : List (Document ν φ μ)} {doc : Document ν φ μ}

/-- The vectors of documents, in the order in which they were added. -/
def vectorsOf (dim : ℤ) (docs : List (Document ν φ μ)) : VectorIndex φ dim :=
  ⟨docs.mapIdx fun i doc => ((i : ℤ), doc.2)⟩

/-- The instance that holds these documents. -/
def holding (dim : ℤ) (docs : List (Document ν φ μ)) : VectorStore φ := ⟨dim, vectorsOf dim docs, docs.length⟩

def payloadOf (i : ℕ) (doc : Document ν φ μ) : VectorPayload ν μ :=
  ⟨i, doc.1.docId, doc.1.text, doc.1.embedding, doc.1.metadata.getD ∅⟩

/-- The store holds the payloads of these documents, and no other. -/
structure Stores (json : VectorJson ν φ μ) (dim : ℤ) (docs : List (Document ν φ μ)) (engine : Engine) : Prop where
  vector : ∀ doc ∈ docs, doc.1.embedding.mapM json.float = .ok doc.2 ∧ (doc.2.length : ℤ) = dim
  entry : ∀ {i doc}, docs[i]? = some doc →
    ∃ payload, json.dumps (payloadOf i doc) = .ok payload ∧ engine.get (vecKey i) = some payload
  only : ∀ {k v}, engine.get k = some v → bytes "vec:" <+: k → ∃ i < docs.length, k = vecKey i
  counter : ∀ {v}, engine.get counterKey = some v → ∃ n ≤ docs.length, v = decimal n

theorem stores_empty (json : VectorJson ν φ μ) (dim : ℤ) : Stores json dim [] OrderedMap.empty where
  vector _ h := absurd h List.not_mem_nil
  entry h := nomatch h
  only h := nomatch h
  counter h := nomatch h

/-! ## Opening -/

/-- A key that is new comes last. -/
theorem dictSet_new {K V : Type} [DecidableEq K] {k : K} {v : V} {d : List (K × V)} (h : ∀ e ∈ d, e.1 ≠ k) :
    dictSet k v d = d ++ [(k, v)] := by
  induction d with
  | nil => rfl
  | cons e d ih =>
    unfold dictSet
    rw [if_neg (h e List.mem_cons_self), ih fun e' he' => h e' (List.mem_cons_of_mem _ he'), List.cons_append]

omit [EmptyCollection μ] in
theorem vectorsOf_snoc (dim : ℤ) (docs : List (Document ν φ μ)) (c : AddCall ν μ) (vec : List φ) :
    dictSet (docs.length : ℤ) vec (vectorsOf dim docs).vectors = (vectorsOf dim (docs ++ [(c, vec)])).vectors := by
  have hnew : ∀ e ∈ (vectorsOf dim docs).vectors, e.1 ≠ (docs.length : ℤ) := by
    intro e he
    obtain ⟨i, hi, rfl⟩ := List.mem_mapIdx.1 he
    simp only [ne_eq, Nat.cast_inj]
    omega
  rw [dictSet_new hnew]
  unfold vectorsOf
  rw [List.mapIdx_append, List.mapIdx_cons, List.mapIdx_nil, zero_add]

theorem vecKey_lt {i j : ℕ} (hij : i < j) (hj : j < 10 ^ 8) : vecKey i < vecKey j := by
  unfold vecKey
  rw [zeroPad_natCast, zeroPad_natCast]
  exact List.append_left_lt (pad_lt hij hj (by norm_num))

/-- The payload under an id that is given out. -/
theorem Stores.payload (h : Stores json dim docs engine) {i : ℕ} (hi : i < docs.length) :
    ∃ payload, json.dumps (payloadOf i docs[i]) = .ok payload ∧ engine.get (vecKey i) = some payload :=
  h.entry (List.getElem?_eq_getElem hi)

/-- The item of the store with an id. -/
def storeItem (engine : Engine) (i : ℕ) : Bytes × Bytes := (vecKey i, (engine.get (vecKey i)).getD [])

/-- The payloads stand in the order of their ids. -/
theorem Stores.scan (h : Stores json dim docs engine) (hfew : docs.length ≤ 10 ^ 8) :
    engine.prefixScan (bytes "vec:") = (List.range docs.length).map (storeItem engine) := by
  refine OrderedMap.scan_ext ?_ fun k v => ?_
  · unfold Ascending
    rw [List.pairwise_map]
    refine List.pairwise_lt_range.imp_of_mem fun {i j} _ hj hij => ?_
    have hj := List.mem_range.1 hj
    exact vecKey_lt hij (by omega)
  · rw [List.mem_map, List.isPrefixOf_iff_prefix]
    constructor
    · rintro ⟨i, hi, heq⟩
      obtain ⟨payload, -, hget⟩ := h.payload (List.mem_range.1 hi)
      obtain ⟨rfl, rfl⟩ := Prod.mk.inj heq
      rw [hget]
      exact ⟨rfl, prefix_vecKey i⟩
    · rintro ⟨hget, hpre⟩
      obtain ⟨i, hi, rfl⟩ := h.only hget hpre
      refine ⟨i, List.mem_range.2 hi, ?_⟩
      unfold storeItem
      rw [hget]
      rfl

/-- One round of the loop of `_rehydrate_index`. -/
theorem Stores.rehydrateItem (h : Stores json dim docs engine) {i : ℕ} (hi : i < docs.length) :
    rehydrateItem json (vectorsOf dim (docs.take i), (i : ℤ) - 1) (storeItem engine i) =
      .ok (vectorsOf dim (docs.take (i + 1)), (i : ℤ)) := by
  obtain ⟨payload, hdumps, hget⟩ := h.payload hi
  obtain ⟨q, hload, hid, hfloat⟩ := json.loads_dumps hdumps
  obtain ⟨hvec, hdim⟩ := h.vector docs[i] (List.getElem_mem hi)
  replace hid : q.intId = i := hid
  have hadd : (vectorsOf dim (docs.take i)).add json.float i q.embedding =
      .ok (vectorsOf dim (docs.take (i + 1))) := by
    have hlen : ((docs.take i).length : ℤ) = i := by rw [List.length_take, min_eq_left hi.le]
    rw [index_add_eq (hfloat.trans hvec), if_pos hdim, List.take_add_one, List.getElem?_eq_getElem hi]
    change Except.ok (⟨dictSet (i : ℤ) _ _⟩ : VectorIndex φ dim) = _
    rw [← hlen, vectorsOf_snoc dim (docs.take i) docs[i].1]
    rfl
  unfold VectorStore.rehydrateItem storeItem
  rw [hget, Option.getD_some, hload]
  simp only [bind, Except.bind, pure, Except.pure, hid, hadd]
  rw [if_pos (by omega)]

/-- **The loop** adds the vectors one after another. -/
theorem Stores.rehydrate (h : Stores json dim docs engine) : ∀ n ≤ docs.length,
    ((List.range n).map (storeItem engine)).foldlM (VectorStore.rehydrateItem json)
      ((VectorIndex.empty : VectorIndex φ dim), -1) = .ok (vectorsOf dim (docs.take n), (n : ℤ) - 1) := by
  intro n
  induction n with
  | zero => exact fun _ => rfl
  | succ n ih =>
    intro hn
    rw [List.range_succ, List.map_append, List.foldlM_append, ih (by omega)]
    simp only [bind, Except.bind, List.map_cons, List.map_nil, List.foldlM_cons, List.foldlM_nil,
      h.rehydrateItem (show n < docs.length by omega), pure, Except.pure]
    congr 2
    omega

/-- **Opening gives the instance that holds the documents.** -/
theorem Stores.new (h : Stores json dim docs engine) (hfew : docs.length ≤ 10 ^ 8) :
    VectorStore.new json dim engine = .ok (holding dim docs) := by
  have hcounter : restoredCounter (engine.get counterKey) ((docs.length : ℤ) - 1) = docs.length := by
    have hmeta : (engine.get counterKey).bind pyInt = none ∨
        ∃ n : ℕ, n ≤ docs.length ∧ (engine.get counterKey).bind pyInt = some (n : ℤ) := by
      cases hget : engine.get counterKey with
      | none => exact Or.inl rfl
      | some v =>
        obtain ⟨n, hn, rfl⟩ := h.counter hget
        exact Or.inr ⟨n, hn, pyInt_decimal n⟩
    unfold restoredCounter
    rcases hmeta with hnone | ⟨n, hn, hsome⟩
    · rw [hnone]
      simp only
      split_ifs <;> omega
    · rw [hsome]
      simp only
      split_ifs <;> omega
  unfold VectorStore.new
  rw [h.scan hfew, h.rehydrate docs.length le_rfl, List.take_length]
  simp only [bind, Except.bind, hcounter]
  rfl

/-! ## Adding -/

variable {c : AddCall ν μ} {vec : List φ}

/-- The puts of one document more. -/
theorem Stores.putEntry (h : Stores json dim docs engine) (hvec : c.embedding.mapM json.float = .ok vec)
    (hdim : (vec.length : ℤ) = dim) {payload : Bytes}
    (hdumps : json.dumps (payloadOf docs.length (c, vec)) = .ok payload) :
    Stores json dim (docs ++ [(c, vec)]) (engine.put (vecKey docs.length) payload) where
  vector doc hdoc := by
    rcases List.mem_append.1 hdoc with hdoc | hdoc
    · exact h.vector doc hdoc
    · rw [List.mem_singleton.1 hdoc]
      exact ⟨hvec, hdim⟩
  entry {i doc} hi := by
    rcases Nat.lt_trichotomy i docs.length with hlt | rfl | hgt
    · -- the entries before, the new one, none behind it
      rw [List.getElem?_append_left hlt] at hi
      rw [OrderedMap.get_put_of_ne fun hkey => absurd (vecKey_inj hkey) (by omega)]
      exact h.entry hi
    · rw [List.getElem?_concat_length] at hi
      obtain rfl := Option.some.inj hi
      exact ⟨payload, hdumps, OrderedMap.get_put_self _ _ _⟩
    · rw [List.getElem?_eq_none (by rw [List.length_append, List.length_singleton]; omega)] at hi
      cases hi
  only {k v} hk hpre := by
    rw [List.length_append, List.length_singleton]
    rw [OrderedMap.get_put] at hk
    split at hk
    · rename_i hkey
      exact ⟨docs.length, by omega, hkey.symm⟩
    · obtain ⟨i, hi, rfl⟩ := h.only hk hpre
      exact ⟨i, by omega, rfl⟩
  counter {v} hv := by
    rw [OrderedMap.get_put_of_ne (counterKey_ne_vecKey _).symm] at hv
    obtain ⟨n, hn, rfl⟩ := h.counter hv
    exact ⟨n, by rw [List.length_append]; omega, rfl⟩

theorem Stores.putCounter (h : Stores json dim docs engine) :
    Stores json dim docs (engine.put counterKey (pyStr docs.length)) where
  vector := h.vector
  entry hi := by
    rw [OrderedMap.get_put_of_ne (counterKey_ne_vecKey _)]
    exact h.entry hi
  only {k v} hk hpre := by
    have hne : counterKey ≠ k := by
      rintro rfl
      exact not_prefix_counterKey hpre
    rw [OrderedMap.get_put_of_ne hne] at hk
    exact h.only hk hpre
  counter {v} hv := by
    rw [OrderedMap.get_put_self, pyStr_natCast] at hv
    exact ⟨docs.length, le_rfl, (Option.some.inj hv).symm⟩

/-- A call whose embedding has the right length has numbers in it, and a payload with a JSON. -/
def AddCall.Proper (json : VectorJson ν φ μ) (dim : ℤ) (c : AddCall ν μ) : Prop :=
  (c.embedding.length : ℤ) = dim → ∃ vec, c.embedding.mapM json.float = .ok vec ∧
    ∀ i, ∃ payload, json.dumps (payloadOf i (c, vec)) = .ok payload

/-- The document of a call that is not refused. -/
def accepted (json : VectorJson ν φ μ) (dim : ℤ) (c : AddCall ν μ) : List (Document ν φ μ) :=
  match c.embedding.mapM json.float with
  | .ok vec => if (vec.length : ℤ) = dim then [(c, vec)] else []
  | .error _ => []

omit [EmptyCollection μ] in
theorem accepted_refused (hlen : (c.embedding.length : ℤ) ≠ dim) : accepted json dim c = [] := by
  unfold accepted
  split
  · rename_i vec hvec
    rw [if_neg (by rwa [length_of_mapM hvec])]
  · rfl

omit [EmptyCollection μ] in
theorem accepted_eq (hvec : c.embedding.mapM json.float = .ok vec) (hdim : (vec.length : ℤ) = dim) :
    accepted json dim c = [(c, vec)] := by
  unfold accepted
  rw [hvec]
  exact if_pos hdim

omit [EmptyCollection μ] in
theorem length_accepted (json : VectorJson ν φ μ) (dim : ℤ) (c : AddCall ν μ) :
    (accepted json dim c).length ≤ 1 := by
  unfold accepted
  split
  · split <;> simp
  · simp

theorem add_refused (hlen : (c.embedding.length : ℤ) ≠ dim) (io : AddIO) (docs : List (Document ν φ μ))
    (engine : Engine) :
    ((holding dim docs).add json io c engine).2 = (holding dim docs, engine) := by
  have hlen' : (c.embedding.length : ℤ) ≠ (holding dim docs).dim := hlen
  unfold VectorStore.add prepare
  rw [if_pos hlen']

/-- What `add` has done when it comes to its puts. -/
theorem prepare_holding (hvec : c.embedding.mapM json.float = .ok vec) (hdim : (vec.length : ℤ) = dim)
    (docs : List (Document ν φ μ)) : (holding dim docs).prepare json c =
      (json.dumps (payloadOf docs.length (c, vec)), holding dim (docs ++ [(c, vec)])) := by
  have hlen : (c.embedding.length : ℤ) = (holding dim docs).dim := by rw [← length_of_mapM hvec, hdim]; rfl
  have hadd : (vectorsOf dim docs).add json.float docs.length c.embedding =
      .ok (vectorsOf dim (docs ++ [(c, vec)])) := by
    rw [index_add_eq hvec, if_pos hdim, vectorsOf_snoc dim docs c]
  have hindex : (holding dim docs).index.add json.float (holding dim docs).idCounter c.embedding =
    .ok (vectorsOf dim (docs ++ [(c, vec)])) := hadd
  unfold prepare
  rw [if_neg (not_not.2 hlen)]
  simp only [hindex]
  unfold holding
  rw [List.length_append, List.length_singleton]
  rfl

/-- **An `add`** refuses its embedding or holds one document more. -/
theorem Stores.add (h : Stores json dim docs engine) (hc : c.Proper json dim) :
    ((holding dim docs).add json ⟨.stored, .stored⟩ c engine).2.1 = holding dim (docs ++ accepted json dim c) ∧
      Stores json dim (docs ++ accepted json dim c)
        ((holding dim docs).add json ⟨.stored, .stored⟩ c engine).2.2 := by
  by_cases hlen : (c.embedding.length : ℤ) = dim
  · obtain ⟨vec, hvec, hjson⟩ := hc hlen
    obtain ⟨payload, hdumps⟩ := hjson docs.length
    have hdim : (vec.length : ℤ) = dim := by rw [length_of_mapM hvec, hlen]
    have hstores := (h.putEntry hvec hdim hdumps).putCounter
    rw [accepted_eq hvec hdim]
    unfold VectorStore.add
    rw [prepare_holding hvec hdim docs, hdumps]
    exact ⟨rfl, hstores⟩
  · rw [accepted_refused hlen, List.append_nil, add_refused hlen]
    exact ⟨rfl, h⟩

/-- If the process stops in it, the store holds the document or not. -/
theorem Stores.cut (h : Stores json dim docs engine) (hc : c.Proper json dim) (puts : ℕ) : ∃ docs',
    docs'.length ≤ docs.length + 1 ∧
    Stores json dim docs' ((holding dim docs).add json (.cut puts) c engine).2.2 := by
  by_cases hlen : (c.embedding.length : ℤ) = dim
  · obtain ⟨vec, hvec, hjson⟩ := hc hlen
    obtain ⟨payload, hdumps⟩ := hjson docs.length
    have hdim : (vec.length : ℤ) = dim := by rw [length_of_mapM hvec, hlen]
    have hentry := h.putEntry hvec hdim hdumps
    have hone : (docs ++ [(c, vec)]).length ≤ docs.length + 1 := by simp
    unfold VectorStore.add
    rw [prepare_holding hvec hdim docs, hdumps]
    match puts with
    | 0 => exact ⟨docs, by omega, h⟩
    | 1 => exact ⟨_, hone, hentry⟩
    | n + 2 => exact ⟨_, hone, hentry.putCounter⟩
  · rw [add_refused hlen]
    exact ⟨docs, by omega, h⟩

/-! ## Histories -/

/-- A step of a history that always opens with this dimension. -/
def HistoryStep.Proper (json : VectorJson ν φ μ) (dim : ℤ) : HistoryStep ν μ → Prop
  | .new d => d = dim
  | .add c => c.Proper json dim
  | .stop c _ => c.Proper json dim

/-- The store holds documents, and so does the open instance. -/
def Coherent (json : VectorJson ν φ μ) (dim : ℤ) (n : ℕ) (st : History φ) : Prop :=
  ∃ docs : List (Document ν φ μ), docs.length ≤ n ∧ Stores json dim docs st.engine ∧
    ∀ vs, st.current = some vs → vs = holding dim docs

/-- **One step.** -/
theorem Coherent.step {st : History φ} {n : ℕ} (h : Coherent json dim n st) (hn : n ≤ 10 ^ 8)
    {act : HistoryStep ν μ}
    (hact : act.Proper json dim) : Coherent json dim (n + 1) (historyStep json st act) := by
  obtain ⟨docs, hlen, hstores, hopen⟩ := h
  unfold historyStep
  cases act with
  | new d =>
    obtain rfl : d = dim := hact
    simp only [hstores.new (hlen.trans hn)]
    exact ⟨docs, by omega, hstores, fun vs hvs => (Option.some.inj hvs).symm⟩
  | add c =>
    simp only
    split
    · rename_i vs hvs
      obtain rfl := hopen vs hvs
      obtain ⟨hinstance, hstores'⟩ := hstores.add hact
      refine ⟨docs ++ accepted json dim c, ?_, hstores', fun vs' hvs' =>
        (Option.some.inj hvs').symm.trans hinstance⟩
      have hone := length_accepted json dim c
      rw [List.length_append]
      omega
    · exact ⟨docs, by omega, hstores, hopen⟩
  | stop c puts =>
    simp only
    split
    · rename_i vs hvs
      obtain rfl := hopen vs hvs
      obtain ⟨docs', hlen', hstores'⟩ := hstores.cut hact puts
      exact ⟨docs', by omega, hstores', fun vs' hvs' => nomatch hvs'⟩
    · exact ⟨docs, by omega, hstores, hopen⟩

/-- **Every history.** -/
theorem coherent_historyRun {steps : List (HistoryStep ν μ)} (hsteps : ∀ act ∈ steps, act.Proper json dim)
    (hfew : steps.length ≤ 10 ^ 8) : Coherent json dim steps.length (historyRun json steps) := by
  induction steps using List.reverseRecOn with
  | nil => exact ⟨[], le_rfl, stores_empty json dim, fun _ h => nomatch h⟩
  | append_singleton steps act ih =>
    rw [List.length_append, List.length_singleton] at hfew ⊢
    unfold historyRun
    rw [List.foldl_concat]
    exact (ih (fun a ha => hsteps a (List.mem_append_left _ ha)) (by omega)).step (by omega)
      (hsteps act (List.mem_append_right _ (List.mem_singleton_self act)))

/-- **Opening again is invisible**: an instance opened on the store is the one that is open. -/
theorem reopened_same {steps : List (HistoryStep ν μ)} (hsteps : ∀ act ∈ steps, act.Proper json dim)
    (hfew : steps.length ≤ 10 ^ 8) {vs : VectorStore φ} (hopen : (historyRun json steps).current = some vs) :
    VectorStore.new json dim (historyRun json steps).engine = .ok vs := by
  obtain ⟨docs, hlen, hstores, hcurrent⟩ := coherent_historyRun hsteps hfew
  rw [hcurrent vs hopen]
  exact hstores.new (hlen.trans hfew)

/-- An `add` is stopped between its puts; the next instance refuses an embedding and takes one. -/
def stoppedAdd : List (HistoryStep Unit (List Bytes)) :=
  [.new 2, .add (zeroCall 2), .stop (zeroCall 2) 1, .new 2, .add (zeroCall 3), .add (zeroCall 2)]

theorem proper_zeroCall (dim : ℤ) (n : ℕ) : (zeroCall n).Proper zeroJson dim := by
  intro _
  refine ⟨List.replicate n (), mapM_ok.2 (List.forall₂_same.2 fun _ _ => rfl), fun i => ?_⟩
  have hplain : zeroDumps (payloadOf i (zeroCall n, List.replicate n ())) = .ok _ :=
    if_pos ⟨rfl, rfl, rfl, Int.natCast_nonneg i⟩
  exact ⟨_, hplain⟩

theorem reopened_same_stopped : ∃ vs, (historyRun zeroJson stoppedAdd).current = some vs ∧
    VectorStore.new zeroJson 2 (historyRun zeroJson stoppedAdd).engine = .ok vs := by
  have hproper : ∀ act ∈ stoppedAdd, act.Proper zeroJson 2 := by
    unfold stoppedAdd
    simp [HistoryStep.Proper, proper_zeroCall]
  have hopen : (historyRun zeroJson stoppedAdd).current.isSome = true := by decide +kernel
  obtain ⟨vs, hvs⟩ := Option.isSome_iff_exists.1 hopen
  exact ⟨vs, hvs, reopened_same hproper (by decide) hvs⟩

end VectorStore

end LsmTree
