import LsmTree.Spec.MemoryManager
import LsmTree.Proof.VectorIds

/-!
# What ingestion leaves behind

* `add_end`: how a call of `add` can end.
* `AddEnd.whole_iff`, `remember_whole_iff`: when a call leaves everything as it was or does
  all it should.
-/

namespace LsmTree

open Base VectorStore MemoryManager

namespace Ingestion

variable {ν φ μ : Type} [EmptyCollection μ] {json : VectorJson ν φ μ} {engine : Engine} {k v : Bytes} {io : PutIO}

/-! ## Puts -/

def Raises (io : PutIO) : Prop := ∃ done err, io = .raised done err

/-- The put returns, and the pair is in the store afterwards. -/
def Lands (io : PutIO) (k v : Bytes) (engine : Engine) : Prop :=
  io = .stored ∨ io = .refused ∧ engine.get k = some v

/-- The put leaves the store as it was. -/
def Leaves (io : PutIO) (k v : Bytes) (engine : Engine) : Prop :=
  io = .refused ∨ (∃ err, io = .raised false err) ∨ engine.get k = some v

theorem put_eq_self_iff : engine.put k v = engine ↔ engine.get k = some v := by
  constructor
  · intro h
    rw [← h, OrderedMap.get_put_self]
  · intro h
    refine OrderedMap.ext fun k' => ?_
    rw [OrderedMap.get_put]
    split
    · rename_i hk
      rw [← hk, h]
    · rfl

theorem tryPut_eq_self_iff : (engine.tryPut io k v).2 = engine ↔ Leaves io k v engine := by
  unfold Engine.tryPut Leaves
  cases io with
  | stored => simp [put_eq_self_iff]
  | refused => simp
  | raised done err => cases done <;> simp [put_eq_self_iff]

theorem get_tryPut_self_iff (engine : Engine) (k v : Bytes) (hio : ¬ Raises io) :
    (engine.tryPut io k v).2.get k = some v ↔ Lands io k v engine := by
  unfold Engine.tryPut Lands
  cases io with
  | stored => simp
  | refused => simp
  | raised done err => exact absurd ⟨done, err, rfl⟩ hio

theorem get_tryPut_of_ne (engine : Engine) (io : PutIO) (v : Bytes) {k' : Bytes} (hne : k ≠ k') :
    (engine.tryPut io k v).2.get k' = engine.get k' := by
  rcases get_tryPut io k v k' engine with h | ⟨h, -⟩
  · exact h
  · exact absurd h hne

/-! ## All or nothing -/

/-- A call raises and leaves everything as it was, or returns an id with all done. -/
structure Whole (vs : VectorStore φ) (engine : Engine) (done : ℤ → VectorStore φ → Engine → Prop)
    (r : Except PyError ℤ × VectorStore φ × Engine) : Prop where
  raises : ∀ err, r.1 = .error err → r.2.1 = vs ∧ r.2.2 = engine
  returns : ∀ id, r.1 = .ok id → done id r.2.1 r.2.2

theorem whole_error_iff {vs vs' : VectorStore φ} {engine' : Engine} {done : ℤ → VectorStore φ → Engine → Prop}
    {err : PyError} : Whole vs engine done (.error err, vs', engine') ↔ vs' = vs ∧ engine' = engine :=
  ⟨fun h => h.raises err rfl, fun h => ⟨fun _ _ => h, fun _ hok => (nomatch hok)⟩⟩

theorem whole_ok_iff {vs vs' : VectorStore φ} {engine' : Engine} {done : ℤ → VectorStore φ → Engine → Prop}
    {id : ℤ} : Whole vs engine done (.ok id, vs', engine') ↔ done id vs' engine' :=
  ⟨fun h => h.returns id rfl, fun h => ⟨fun _ herr => (nomatch herr), fun _ hok => Except.ok.inj hok ▸ h⟩⟩

/-! ## `add` -/

/-- The vector of a call stands under its id in the index, and its payload in the store. -/
def Added (json : VectorJson ν φ μ) (c : AddCall ν μ) (id : ℤ) (vs : VectorStore φ) (engine : Engine) : Prop :=
  (∃ vec, c.embedding.mapM json.float = .ok vec ∧ dictGet id vs.index.vectors = some vec) ∧
    ∃ payload, json.dumps ⟨id, c.docId, c.text, c.embedding, c.metadata.getD ∅⟩ = .ok payload ∧
      engine.get (vecKey id) = some payload

/-- A call with an embedding of the right length comes through: its entries are numbers,
its payload has a JSON, and the puts do not fail. -/
structure ComesThrough (json : VectorJson ν φ μ) (io : VectorStore.AddIO) (c : AddCall ν μ) (vs : VectorStore φ)
    (engine : Engine) : Prop where
  floats : ∃ vec, c.embedding.mapM json.float = .ok vec
  lands : ∃ payload, json.dumps ⟨vs.idCounter, c.docId, c.text, c.embedding, c.metadata.getD ∅⟩ = .ok payload ∧
    Lands io.entry (vecKey vs.idCounter) payload engine
  counter : ¬ Raises io.counter

variable {vs : VectorStore φ} {c : AddCall ν μ}

/-- A call that raises after the length check has taken an id. -/
theorem prepare_error {err : PyError} {vs' : VectorStore φ} (hlen : (c.embedding.length : ℤ) = vs.dim)
    (h : vs.prepare json c = (.error err, vs')) : vs'.idCounter = vs.idCounter + 1 ∧
      ¬ ((∃ vec, c.embedding.mapM json.float = .ok vec) ∧
        ∃ payload, json.dumps ⟨vs.idCounter, c.docId, c.text, c.embedding, c.metadata.getD ∅⟩ = .ok payload) := by
  unfold prepare at h
  rw [if_neg (not_not.2 hlen)] at h
  cases hvec : c.embedding.mapM json.float with
  | error err' =>
    simp only [VectorIndex.add, hvec, bind, Except.bind, Prod.mk.injEq] at h
    rw [← h.2]
    refine ⟨rfl, ?_⟩
    rintro ⟨⟨vec, hok⟩, -⟩
    cases hok
  | ok vec =>
    have hdim : (vec.length : ℤ) = vs.dim := by rw [length_of_mapM hvec, hlen]
    simp only [index_add_eq hvec, hdim, if_true, Prod.mk.injEq] at h
    rw [← h.2, h.1]
    refine ⟨rfl, ?_⟩
    rintro ⟨-, payload, hok⟩
    cases hok

/-- How a call of `add` can end. -/
inductive AddEnd (json : VectorJson ν φ μ) (io : VectorStore.AddIO) (c : AddCall ν μ) (vs : VectorStore φ)
    (engine : Engine) :
    Except PyError ℤ × VectorStore φ × Engine → Prop where
  /-- it refuses the embedding -/
  | length (err : PyError) (hlen : (c.embedding.length : ℤ) ≠ vs.dim) :
    AddEnd json io c vs engine (.error err, vs, engine)
  /-- it raises when it has taken an id -/
  | raised (err : PyError) (vs' : VectorStore φ) (engine' : Engine) (hlen : (c.embedding.length : ℤ) = vs.dim)
      (hcounter : vs'.idCounter = vs.idCounter + 1) (hnot : ¬ ComesThrough json io c vs engine) :
      AddEnd json io c vs engine (.error err, vs', engine')
  | returned (payload : Bytes) (vs' : VectorStore φ) (hp : Prepared json c vs payload vs')
    (hentry : ¬ Raises io.entry)
      (hcounter : ¬ Raises io.counter) : AddEnd json io c vs engine (.ok vs.idCounter, vs',
        ((engine.tryPut io.entry (vecKey vs.idCounter) payload).2.tryPut io.counter counterKey
          (pyStr vs'.idCounter)).2)

theorem tryPut_raises {done : Bool} {err : PyError} (h : io = .raised done err) :
    (engine.tryPut io k v).1 = .error err := by
  rw [h]
  rfl

theorem tryPut_returns (engine : Engine) (k v : Bytes) (h : ¬ Raises io) :
    ∃ stored, (engine.tryPut io k v).1 = .ok stored := by
  cases io with
  | stored => exact ⟨true, rfl⟩
  | refused => exact ⟨false, rfl⟩
  | raised done err => exact absurd ⟨done, err, rfl⟩ h

theorem add_end (json : VectorJson ν φ μ) (io : VectorStore.AddIO) (c : AddCall ν μ) (vs : VectorStore φ)
    (engine : Engine) :
    AddEnd json io c vs engine (vs.add json io c engine) := by
  unfold VectorStore.add
  cases hprep : vs.prepare json c with
  | mk result vs' =>
    cases result with
    | error err =>
      by_cases hlen : (c.embedding.length : ℤ) = vs.dim
      · obtain ⟨hcounter, hnot⟩ := prepare_error hlen hprep
        exact .raised err vs' engine hlen hcounter fun h => hnot ⟨h.floats, h.lands.imp fun _ h => h.1⟩
      · unfold prepare at hprep
        rw [if_pos hlen] at hprep
        obtain ⟨herr, rfl⟩ := Prod.mk.inj hprep
        exact .length err hlen
    | ok payload =>
      -- the first put is of the entry, the second of the counter
      have hp := prepared hprep
      simp only
      by_cases hentry : Raises io.entry
      · obtain ⟨done, err, hio⟩ := hentry
        rw [← Prod.eta (engine.tryPut io.entry _ _), tryPut_raises hio]
        refine .raised err vs' _ hp.length hp.counter fun h => ?_
        obtain ⟨payload', -, hlands⟩ := h.lands
        unfold Lands at hlands
        rw [hio] at hlands
        simp at hlands
      · obtain ⟨stored, hstored⟩ := tryPut_returns engine (vecKey vs.idCounter) payload hentry
        rw [← Prod.eta (engine.tryPut io.entry _ _), hstored]
        simp only
        by_cases hcounter : Raises io.counter
        · obtain ⟨done, err, hio⟩ := id hcounter
          rw [← Prod.eta (Engine.tryPut io.counter _ _ _), tryPut_raises hio]
          exact .raised err vs' _ hp.length hp.counter fun h => h.counter hcounter
        · obtain ⟨stored', hstored'⟩ := tryPut_returns (engine.tryPut io.entry (vecKey vs.idCounter) payload).2
            counterKey (pyStr vs'.idCounter) hcounter
          rw [← Prod.eta (Engine.tryPut io.counter _ _ _), hstored']
          exact .returned payload vs' hp hentry hcounter

/-- The payload of a call that returned is in the store if its put landed. -/
theorem added_iff (engine : Engine) {io : VectorStore.AddIO} {payload : Bytes} {vs' : VectorStore φ}
    (hp : Prepared json c vs payload vs') (hentry : ¬ Raises io.entry) :
    Added json c vs.idCounter vs'
        ((engine.tryPut io.entry (vecKey vs.idCounter) payload).2.tryPut io.counter counterKey
          (pyStr vs'.idCounter)).2 ↔
      Lands io.entry (vecKey vs.idCounter) payload engine := by
  have hget := get_tryPut_of_ne (engine.tryPut io.entry (vecKey vs.idCounter) payload).2 io.counter
    (pyStr vs'.idCounter) (counterKey_ne_vecKey vs.idCounter)
  unfold Added
  rw [hget, ← get_tryPut_self_iff engine _ _ hentry]
  constructor
  · rintro ⟨-, payload', hdumps, hstored⟩
    rw [hp.dumps] at hdumps
    rw [Except.ok.inj hdumps]
    rwa [Except.ok.inj hdumps] at hstored
  · exact fun hstored => ⟨hp.vector, payload, hp.dumps, hstored⟩

theorem comesThrough_iff {io : VectorStore.AddIO} {payload : Bytes} {vs' : VectorStore φ}
    (hp : Prepared json c vs payload vs') (hcounter : ¬ Raises io.counter) :
    ComesThrough json io c vs engine ↔ Lands io.entry (vecKey vs.idCounter) payload engine := by
  constructor
  · intro h
    obtain ⟨payload', hdumps, hlands⟩ := h.lands
    rw [hp.dumps] at hdumps
    rwa [Except.ok.inj hdumps]
  · intro h
    obtain ⟨vec, hvec, -⟩ := hp.vector
    exact ⟨⟨vec, hvec⟩, ⟨payload, hp.dumps, h⟩, hcounter⟩

theorem AddEnd.whole_iff {io : VectorStore.AddIO} {r : Except PyError ℤ × VectorStore φ × Engine}
    (h : AddEnd json io c vs engine r) : Whole vs engine (Added json c) r ↔
      ((c.embedding.length : ℤ) = vs.dim → ComesThrough json io c vs engine) := by
  cases h with
  | length err hne =>
    rw [whole_error_iff]
    exact iff_of_true ⟨rfl, rfl⟩ fun hlen => absurd hlen hne
  | raised err vs' engine' hlen hcounter hnot =>
    rw [whole_error_iff]
    refine iff_of_false (fun hsame => ?_) fun hcomes => hnot (hcomes hlen)
    -- the id that was taken is not given back
    rw [hsame.1] at hcounter
    omega
  | returned payload vs' hp hentry hcounter =>
    rw [whole_ok_iff, added_iff engine hp hentry, ← comesThrough_iff hp hcounter]
    exact ⟨fun hcomes _ => hcomes, fun hcomes => hcomes hp.length⟩

/-! ## `remember` -/

/-- The key of the chunk that `remember` puts. -/
def rememberedKey (c : RememberCall μ) : Bytes := MemoryStore.chunkKey c.doc 0

omit [EmptyCollection μ] in
theorem rememberedKey_ne (c : RememberCall μ) {k : Bytes} (hk : k.head? ≠ some 100) : rememberedKey c ≠ k := by
  rintro rfl
  exact hk rfl

section

variable {dumps : MemoryChunk ν μ → Except PyError Bytes} {chunk : MemoryChunk ν μ}

omit [EmptyCollection μ]

theorem putChunk_unreadable (io : PutIO) (engine : Engine) {err : PyError} (hdumps : dumps chunk = .error err) :
    MemoryStore.putChunk dumps io chunk engine = (.error err, engine) := by
  unfold MemoryStore.putChunk
  rw [hdumps]

theorem putChunk_raises (engine : Engine) {payload : Bytes} (hdumps : dumps chunk = .ok payload) {done : Bool}
    {err : PyError} (hio : io = .raised done err) : MemoryStore.putChunk dumps io chunk engine =
      (.error err, (engine.tryPut io (MemoryStore.chunkKey chunk.docId chunk.chunkId) payload).2) := by
  unfold MemoryStore.putChunk
  rw [hdumps]
  simp only
  rw [← Prod.eta (engine.tryPut io _ _), tryPut_raises hio]

theorem putChunk_returns (engine : Engine) {payload : Bytes} (hdumps : dumps chunk = .ok payload)
    (hio : ¬ Raises io) : MemoryStore.putChunk dumps io chunk engine =
      (.ok (), (engine.tryPut io (MemoryStore.chunkKey chunk.docId chunk.chunkId) payload).2) := by
  obtain ⟨stored, hstored⟩ := tryPut_returns engine (MemoryStore.chunkKey chunk.docId chunk.chunkId) payload hio
  unfold MemoryStore.putChunk
  rw [hdumps]
  simp only
  rw [← Prod.eta (engine.tryPut io _ _), hstored]

end

/-- What `remember` should have done. -/
def Remembered (mm : Backend ν φ μ) (c : RememberCall μ) (id : ℤ) (vs : VectorStore φ) (engine : Engine) : Prop :=
  ∃ embedding, embed mm c.text = .ok embedding ∧ Added mm.json (c.addCall embedding) id vs engine ∧
    ∃ payload, mm.dumpsChunk (c.chunk embedding) = .ok payload ∧ engine.get (rememberedKey c) = some payload

/-- The store after the put of the chunk does not matter to `add`. -/
theorem comesThrough_congr {io : VectorStore.AddIO} {engine' : Engine}
    (h : engine'.get (vecKey vs.idCounter) = engine.get (vecKey vs.idCounter)) :
    ComesThrough json io c vs engine' ↔ ComesThrough json io c vs engine := by
  have hlands : ∀ payload, Lands io.entry (vecKey vs.idCounter) payload engine' ↔
      Lands io.entry (vecKey vs.idCounter) payload engine := by
    intro payload
    unfold Lands
    rw [h]
  constructor
  · exact fun hc => ⟨hc.floats, hc.lands.imp fun payload hp => ⟨hp.1, (hlands payload).1 hp.2⟩, hc.counter⟩
  · exact fun hc => ⟨hc.floats, hc.lands.imp fun payload hp => ⟨hp.1, (hlands payload).2 hp.2⟩, hc.counter⟩

/-- What `remember` asks of the put of the chunk and of `add`: if the call ends at one of
them, the chunk was no news to the store; else both come through. -/
structure Together (mm : Backend ν φ μ) (io : RememberIO) (c : RememberCall μ) (embedding : List ν)
    (payload : Bytes) (vs : VectorStore φ) (engine : Engine) : Prop where
  ends : Raises io.chunk ∨ (embedding.length : ℤ) ≠ vs.dim → Leaves io.chunk (rememberedKey c) payload engine
  goesOn : ¬ Raises io.chunk → (embedding.length : ℤ) = vs.dim →
    Lands io.chunk (rememberedKey c) payload engine ∧ ComesThrough mm.json io.add (c.addCall embedding) vs engine

/-- The call of `add` after a put of the chunk that returned. -/
theorem whole_after_chunk {mm : Backend ν φ μ} {io : RememberIO} {c : RememberCall μ} {embedding : List ν}
    {payload : Bytes} (hembed : embed mm c.text = .ok embedding)
    (hdumps : mm.dumpsChunk (c.chunk embedding) = .ok payload)
    (hio : ¬ Raises io.chunk) {r : Except PyError ℤ × VectorStore φ × Engine}
    (h : AddEnd mm.json io.add (c.addCall embedding) vs (engine.tryPut io.chunk (rememberedKey c) payload).2 r) :
    Whole vs engine (Remembered mm c) r ↔ Together mm io c embedding payload vs engine := by
  set engine₁ := (engine.tryPut io.chunk (rememberedKey c) payload).2 with hengine
  have hvec : engine₁.get (vecKey vs.idCounter) = engine.get (vecKey vs.idCounter) :=
    get_tryPut_of_ne _ _ _ (rememberedKey_ne c (by unfold vecKey; simp [bytes]))
  cases h with
  | length err hne =>
    rw [whole_error_iff, hengine, tryPut_eq_self_iff]
    exact ⟨fun hsame => ⟨fun _ => hsame.2, fun _ hlen => absurd hlen hne⟩, fun ht => ⟨rfl, ht.ends (Or.inr hne)⟩⟩
  | raised err vs' engine' hlen hcounter hnot =>
    rw [whole_error_iff]
    refine iff_of_false (fun hsame => ?_) fun ht => hnot ((comesThrough_congr hvec).2 (ht.goesOn hio hlen).2)
    rw [hsame.1] at hcounter
    omega
  | returned entry vs' hp hentry hcounter =>
    -- the two puts of the add leave the chunk alone
    have hchunk : ((engine₁.tryPut io.add.entry (vecKey vs.idCounter) entry).2.tryPut io.add.counter counterKey
        (pyStr vs'.idCounter)).2.get (rememberedKey c) = engine₁.get (rememberedKey c) := by
      rw [get_tryPut_of_ne _ _ _ (Ne.symm (rememberedKey_ne c (by decide))),
        get_tryPut_of_ne _ _ _ (Ne.symm (rememberedKey_ne c (by unfold vecKey; simp [bytes])))]
    have hlands := get_tryPut_self_iff engine (rememberedKey c) payload hio
    have hadded := added_iff engine₁ hp hentry
    rw [← comesThrough_iff hp hcounter, comesThrough_congr hvec] at hadded
    rw [whole_ok_iff]
    constructor
    · rintro ⟨embedding', hembed', had, payload', hdumps', hget⟩
      obtain rfl := Except.ok.inj (hembed.symm.trans hembed')
      obtain rfl := Except.ok.inj (hdumps.symm.trans hdumps')
      rw [hchunk] at hget
      refine ⟨fun hends => ?_, fun _ _ => ⟨hlands.1 hget, hadded.1 had⟩⟩
      exact (hends.elim hio fun hne => hne hp.length).elim
    · intro ht
      obtain ⟨hl, hc⟩ := ht.goesOn hio hp.length
      exact ⟨embedding, hembed, hadded.2 hc, payload, hdumps, by rw [hchunk, hlands.2 hl]⟩

/-- **When `remember` is all or nothing.** -/
theorem remember_whole_iff (mm : Backend ν φ μ) (io : RememberIO) (c : RememberCall μ) (vs : VectorStore φ)
    (engine : Engine) : Whole vs engine (Remembered mm c) (remember mm io c vs engine) ↔
      ∀ embedding, embed mm c.text = .ok embedding → ∀ payload, mm.dumpsChunk (c.chunk embedding) = .ok payload →
        Together mm io c embedding payload vs engine := by
  unfold remember
  cases hembed : embed mm c.text with
  | error err => exact iff_of_true (whole_error_iff.2 ⟨rfl, rfl⟩) fun _ hok => (nomatch hok)
  | ok embedding =>
    simp only [Except.ok.injEq, forall_eq']
    cases hdumps : mm.dumpsChunk (c.chunk embedding) with
    | error err =>
      rw [putChunk_unreadable io.chunk engine hdumps]
      exact iff_of_true (whole_error_iff.2 ⟨rfl, rfl⟩) fun _ hok => (nomatch hok)
    | ok payload =>
      simp only [Except.ok.injEq, forall_eq']
      by_cases hio : Raises io.chunk
      · obtain ⟨done, err, hraised⟩ := id hio
        rw [putChunk_raises engine hdumps hraised]
        simp only
        rw [whole_error_iff, tryPut_eq_self_iff]
        exact ⟨fun hsame => ⟨fun _ => hsame.2, fun hnot => absurd hio hnot⟩, fun ht => ⟨rfl, ht.ends (Or.inl hio)⟩⟩
      · rw [putChunk_returns engine hdumps hio]
        exact whole_after_chunk hembed hdumps hio (add_end _ _ _ _ _)

/-! ## Both -/

/-- **Ingestion is all or nothing** exactly under these conditions. -/
theorem ingestion_whole_iff (mm : Backend ν φ μ) (vs : VectorStore φ) (engine : Engine) :
    (∀ (io : VectorStore.AddIO) (c : AddCall ν μ), Whole vs engine (Added mm.json c) (vs.add mm.json io c engine) ↔
        ((c.embedding.length : ℤ) = vs.dim → ComesThrough mm.json io c vs engine)) ∧
      ∀ (io : RememberIO) (c : RememberCall μ), Whole vs engine (Remembered mm c) (remember mm io c vs engine) ↔
        ∀ embedding, embed mm c.text = .ok embedding → ∀ payload, mm.dumpsChunk (c.chunk embedding) = .ok payload →
          Together mm io c embedding payload vs engine :=
  ⟨fun io c => (add_end mm.json io c vs engine).whole_iff, fun io c => remember_whole_iff mm io c vs engine⟩

/-- Metadata without a JSON leaves a vector in the index and takes an id. -/
theorem ingestion_whole_fails : ¬ ∀ (vs : VectorStore Unit) (engine : Engine) (c : AddCall Unit (List Bytes)),
    Whole vs engine (Added zeroJson c) (vs.add zeroJson ⟨.stored, .stored⟩ c engine) := by
  intro hall
  have h := (hall ⟨1, VectorIndex.empty, 0⟩ OrderedMap.empty ⟨bytes "d", bytes "t", [()], some [bytes "x"]⟩).raises
    .typeError (by decide +kernel)
  have hcounter : (0 : ℤ) + 1 = 0 := congrArg VectorStore.idCounter h.1
  exact absurd hcounter (by decide)

end Ingestion

end LsmTree
