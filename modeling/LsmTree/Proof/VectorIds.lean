import LsmTree.Base.Fallible
import LsmTree.Proof.ZeroJson

/-!
# Vector ids over a history of instances

* `new_opened`: an instance starts above every id in the store but those of the entries
  that its opening skipped.
* `Numbered`, `Opened`: the store and the open instance, kept by every step.
* `freshIds_iff`: an id is given out again if and only if the counter comes to an entry
  that the opening of the instance skipped.
-/

namespace LsmTree

open Base

namespace VectorStore

variable {ν φ μ : Type} {json : VectorJson ν φ μ} {engine : Engine}

/-! ## Keys and vectors -/

theorem vecKey_inj {i j : ℕ} (h : vecKey i = vecKey j) : i = j := by
  unfold vecKey at h
  rw [zeroPad_natCast, zeroPad_natCast] at h
  exact pad_inj (List.append_cancel_left h)

theorem prefix_vecKey (i : ℤ) : bytes "vec:" <+: vecKey i := List.prefix_append _ _

theorem not_prefix_counterKey : ¬ bytes "vec:" <+: counterKey := by decide

theorem counterKey_ne_vecKey (i : ℤ) : counterKey ≠ vecKey i := fun h =>
  not_prefix_counterKey (h ▸ prefix_vecKey i)

theorem index_add_eq {dim : ℤ} {vector : List ν} {vec : List φ} (hvec : vector.mapM json.float = .ok vec) (i : ℤ)
    (index : VectorIndex φ dim) : index.add json.float i vector =
      if (vec.length : ℤ) = dim then .ok ⟨dictSet i vec index.vectors⟩
      else .error (.valueError (bytes "Vector dimension mismatch: expected " ++ pyStr dim ++ bytes ", got " ++
        pyStr vec.length)) := by
  unfold VectorIndex.add
  rw [hvec]
  change (if (vec.length : ℤ) ≠ dim then _ else _) = _
  by_cases h : (vec.length : ℤ) = dim <;> simp [h]

theorem length_of_mapM {vector : List ν} {vec : List φ} (h : vector.mapM json.float = .ok vec) :
    vec.length = vector.length := (mapM_ok.1 h).length_eq

/-! ## The store -/

/-- Every entry of the store was written by an `add`, and so was the counter. -/
structure Numbered (json : VectorJson ν φ μ) (engine : Engine) : Prop where
  entry : ∀ k v, engine.get k = some v → bytes "vec:" <+: k → ∃ n : ℕ, k = vecKey n ∧
    ∃ q vec, json.loads v = .ok q ∧ q.intId = n ∧ q.embedding.mapM json.float = .ok vec
  counter : ∀ v, engine.get counterKey = some v → ∃ n : ℕ, v = decimal n

theorem numbered_empty (json : VectorJson ν φ μ) : Numbered json OrderedMap.empty :=
  ⟨fun _ _ h => (nomatch h), fun _ h => (nomatch h)⟩

theorem get_tryPut (io : PutIO) (k v k' : Bytes) (engine : Engine) :
    (engine.tryPut io k v).2.get k' = engine.get k' ∨
      k = k' ∧ (engine.tryPut io k v).2.get k' = some v := by
  have hput : (engine.put k v).get k' = engine.get k' ∨ k = k' ∧ (engine.put k v).get k' = some v := by
    rw [OrderedMap.get_put]
    split
    · rename_i h
      exact Or.inr ⟨h, rfl⟩
    · exact Or.inl rfl
  unfold Engine.tryPut
  cases io with
  | stored => exact hput
  | refused => exact Or.inl rfl
  | raised done err =>
    cases done with
    | true => exact hput
    | false => exact Or.inl rfl

theorem Numbered.putCounter (h : Numbered json engine) (n : ℕ) (io : PutIO) :
    Numbered json (engine.tryPut io counterKey (pyStr n)).2 := by
  constructor
  · intro k v hk hpre
    rcases get_tryPut io counterKey (pyStr n) k engine with hold | ⟨rfl, -⟩
    · exact h.entry k v (by rw [← hold, hk]) hpre
    · exact absurd hpre not_prefix_counterKey
  · intro v hv
    rcases get_tryPut io counterKey (pyStr n) counterKey engine with hold | ⟨-, hnew⟩
    · exact h.counter v (by rw [← hold, hv])
    · rw [hnew, pyStr_natCast] at hv
      exact ⟨n, (Option.some.inj hv).symm⟩

/-! ## Opening an instance -/

/-- Opening with this dimension skips an entry with this payload. -/
def skips (json : VectorJson ν φ μ) (dim : ℤ) (payload : Bytes) : Bool :=
  let body : Except PyError (VectorIndex φ dim) := do
    let data ← json.loads payload
    VectorIndex.empty.add json.float data.intId data.embedding
  match body with
  | .ok _ => false
  | .error err => caught err

/-- The keys of the entries that opening with this dimension skips. -/
def skippedKeys (json : VectorJson ν φ μ) (dim : ℤ) (engine : Engine) : List Bytes :=
  ((engine.prefixScan (bytes "vec:")).filter fun item => skips json dim item.2).map Prod.fst

/-- An entry that an `add` wrote, with its number. -/
def Entry (json : VectorJson ν φ μ) (n : ℕ) (item : Bytes × Bytes) : Prop :=
  item.1 = vecKey n ∧ ∃ q vec, json.loads item.2 = .ok q ∧ q.intId = n ∧ q.embedding.mapM json.float = .ok vec

/-- An entry is skipped, or its id is looked at. -/
theorem rehydrateItem_entry {dim : ℤ} {n : ℕ} {item : Bytes × Bytes} (h : Entry json n item)
    (st : VectorIndex φ dim × ℤ) : ∃ st', rehydrateItem json st item = .ok st' ∧ st.2 ≤ st'.2 ∧
      (skips json dim item.2 = true ∨ (n : ℤ) ≤ st'.2) := by
  obtain ⟨-, q, vec, hload, hid, hvec⟩ := h
  unfold rehydrateItem skips
  simp only [hload, bind, Except.bind, index_add_eq hvec, hid]
  by_cases hdim : (vec.length : ℤ) = dim
  · simp only [hdim, if_true]
    refine ⟨_, rfl, ?_, Or.inr ?_⟩ <;> simp only <;> split_ifs <;> omega
  · simp only [hdim, if_false]
    exact ⟨st, rfl, le_rfl, Or.inl rfl⟩

theorem rehydrate_entries {dim : ℤ} {items : List (Bytes × Bytes)} (h : ∀ item ∈ items, ∃ n, Entry json n item) :
    ∀ st : VectorIndex φ dim × ℤ, ∃ st', items.foldlM (rehydrateItem json) st = .ok st' ∧ st.2 ≤ st'.2 ∧
      ∀ item ∈ items, ∀ n, Entry json n item → skips json dim item.2 = true ∨ (n : ℤ) ≤ st'.2 := by
  induction items with
  | nil => exact fun st => ⟨st, rfl, le_rfl, fun _ h => absurd h List.not_mem_nil⟩
  | cons item items ih =>
    intro st
    obtain ⟨n, hn⟩ := h item List.mem_cons_self
    obtain ⟨st₁, hstep, hle, -⟩ := rehydrateItem_entry hn st
    obtain ⟨st₂, hrest, hle', hall⟩ := ih (fun x hx => h x (List.mem_cons_of_mem _ hx)) st₁
    refine ⟨st₂, ?_, hle.trans hle', fun x hx m hm => ?_⟩
    · rw [List.foldlM_cons, hstep]
      exact hrest
    · rcases List.mem_cons.1 hx with rfl | hx
      · obtain ⟨st₁', hstep', -, hseen⟩ := rehydrateItem_entry hm st
        rw [hstep] at hstep'
        obtain rfl := Except.ok.inj hstep'
        exact hseen.imp_right fun hle => hle.trans hle'
      · exact hall x hx m hm

theorem restoredCounter_spec {metaVal : Option Bytes} (hmeta : ∀ v, metaVal = some v → ∃ n : ℕ, v = decimal n)
    {maxId : ℤ} (hmax : -1 ≤ maxId) : maxId < restoredCounter metaVal maxId ∧
    0 ≤ restoredCounter metaVal maxId := by
  have hcases : metaVal.bind pyInt = none ∨ ∃ n : ℕ, metaVal.bind pyInt = some (n : ℤ) := by
    cases metaVal with
    | none => exact Or.inl rfl
    | some v =>
      obtain ⟨n, rfl⟩ := hmeta v rfl
      exact Or.inr ⟨n, pyInt_decimal n⟩
  unfold restoredCounter
  rcases hcases with h | ⟨n, h⟩ <;> rw [h] <;> simp only <;> split_ifs <;> omega

/-- The open instance: its counter is above every id in the store that it did not skip. -/
structure Opened (engine : Engine) (skipped : List Bytes) (vs : VectorStore φ) : Prop where
  counter : ∃ c : ℕ, vs.idCounter = c ∧
    ∀ n : ℕ, (engine.get (vecKey n)).isSome → n < c ∨ vecKey n ∈ skipped
  skipped : ∀ k ∈ skipped, (engine.get k).isSome

/-- **Opening an instance** never fails, and starts above what it does not skip. -/
theorem new_opened (h : Numbered json engine) (dim : ℤ) : ∃ vs, VectorStore.new json dim engine = .ok vs ∧
    Opened engine (skippedKeys json dim engine) vs := by
  have hscan : ∀ {k v}, (k, v) ∈ engine.prefixScan (bytes "vec:") ↔ engine.get k = some v ∧
      bytes "vec:" <+: k := by
    intro k v
    unfold Engine.prefixScan
    rw [OrderedMap.mem_scan, List.isPrefixOf_iff_prefix]
  have hentries : ∀ item ∈ engine.prefixScan (bytes "vec:"), ∃ n, Entry json n item := by
    rintro ⟨k, v⟩ hitem
    obtain ⟨hget, hpre⟩ := hscan.1 hitem
    obtain ⟨n, hk, hq⟩ := h.entry k v hget hpre
    exact ⟨n, hk, hq⟩
  obtain ⟨⟨index, maxId⟩, hfold, hmax, hseen⟩ :=
    rehydrate_entries hentries ((VectorIndex.empty : VectorIndex φ dim), -1)
  obtain ⟨hlt, hpos⟩ := restoredCounter_spec h.counter hmax
  refine ⟨⟨dim, index, restoredCounter (engine.get counterKey) maxId⟩, ?_, ?_, ?_⟩
  · unfold VectorStore.new
    rw [hfold]
    rfl
  · refine ⟨(restoredCounter (engine.get counterKey) maxId).toNat, (Int.toNat_of_nonneg hpos).symm, fun n hn => ?_⟩
    obtain ⟨v, hv⟩ := Option.isSome_iff_exists.1 hn
    have hitem := hscan.2 ⟨hv, prefix_vecKey n⟩
    obtain ⟨m, hm⟩ := hentries _ hitem
    obtain rfl : n = m := vecKey_inj hm.1
    -- an entry is skipped, or its id is at most `maxId`
    rcases hseen _ hitem n hm with hskip | hle
    · refine Or.inr (List.mem_map.2 ⟨_, List.mem_filter.2 ⟨hitem, hskip⟩, rfl⟩)
    · simp only at hle hlt
      omega
  · intro k hk
    obtain ⟨⟨k', v⟩, hitem, rfl⟩ := List.mem_map.1 hk
    rw [(hscan.1 (List.mem_filter.1 hitem).1).1]
    rfl

/-! ## The parts of `add` -/

variable [EmptyCollection μ] {vs vs' : VectorStore φ} {c : AddCall ν μ} {payload : Bytes}

/-- What `add` has done when it comes to its first put. -/
structure Prepared (json : VectorJson ν φ μ) (c : AddCall ν μ) (vs : VectorStore φ) (payload : Bytes)
    (vs' : VectorStore φ) : Prop where
  length : (c.embedding.length : ℤ) = vs.dim
  dumps : json.dumps ⟨vs.idCounter, c.docId, c.text, c.embedding, c.metadata.getD ∅⟩ = .ok payload
  counter : vs'.idCounter = vs.idCounter + 1
  vector : ∃ vec, c.embedding.mapM json.float = .ok vec ∧ dictGet vs.idCounter vs'.index.vectors = some vec

theorem prepared (h : vs.prepare json c = (.ok payload, vs')) : Prepared json c vs payload vs' := by
  unfold prepare at h
  split at h
  · cases (Prod.mk.inj h).1
  rename_i hlen
  rw [ne_eq, not_not] at hlen
  cases hvec : c.embedding.mapM json.float with
  | error err =>
    simp [VectorIndex.add, hvec, bind, Except.bind] at h
  | ok vec =>
    have hdim : (vec.length : ℤ) = vs.dim := by rw [length_of_mapM hvec, hlen]
    simp only [index_add_eq hvec, hdim, if_true, Prod.mk.injEq] at h
    obtain ⟨hdumps, rfl⟩ := h
    exact ⟨hlen, hdumps, rfl, vec, hvec, dictGet_dictSet _ _ _⟩

/-- The counter never goes back, whether `add` raises or not. -/
theorem counter_prepare (json : VectorJson ν φ μ) (c : AddCall ν μ) (vs : VectorStore φ) :
    (vs.prepare json c).2.idCounter = vs.idCounter ∨ (vs.prepare json c).2.idCounter = vs.idCounter + 1 := by
  unfold prepare
  split
  · exact Or.inl rfl
  · simp only
    split
    · exact Or.inr rfl
    · exact Or.inr rfl

theorem Numbered.putEntry (h : Numbered json engine) (hp : Prepared json c vs payload vs') {n : ℕ}
    (hn : vs.idCounter = n) (io : PutIO) : Numbered json (engine.tryPut io (vecKey n) payload).2 := by
  obtain ⟨vec, hvec, -⟩ := hp.vector
  obtain ⟨q, hload, hid, hfloat⟩ := json.loads_dumps hp.dumps
  constructor
  · intro k v hk hpre
    rcases get_tryPut io (vecKey n) payload k engine with hold | ⟨rfl, hnew⟩
    · exact h.entry k v (by rw [← hold, hk]) hpre
    · rw [hnew] at hk
      rw [← Option.some.inj hk]
      exact ⟨n, rfl, q, vec, hload, by rw [hid, hn], by rw [hfloat, hvec]⟩
  · intro v hv
    rcases get_tryPut io (vecKey n) payload counterKey engine with hold | ⟨hkey, -⟩
    · exact h.counter v (by rw [← hold, hv])
    · exact absurd hkey.symm (counterKey_ne_vecKey n)

/-- Whatever becomes of the puts of an `add`. -/
theorem Numbered.add (h : Numbered json engine) {n : ℕ} (hn : vs.idCounter = n) (io : AddIO) (c : AddCall ν μ) :
    Numbered json (vs.add json io c engine).2.2 := by
  unfold VectorStore.add
  split
  · exact h
  · rename_i payload vs' hprep
    have hp := prepared hprep
    have hentry := h.putEntry hp hn io.entry
    have hcounter : vs'.idCounter = ((n + 1 : ℕ) : ℤ) := by
      rw [hp.counter, hn]
      rfl
    rw [hn]
    split
    · rename_i hput
      rw [hput] at hentry
      exact hentry
    · rename_i engine' hput
      rw [hput] at hentry
      have hboth := hentry.putCounter (n + 1) io.counter
      rw [← hcounter] at hboth
      split
      · rename_i hput'
        rw [hput'] at hboth
        exact hboth
      · rename_i hput'
        rw [hput'] at hboth
        exact hboth

/-! ## Histories -/

/-- What becomes of the puts of an `add` whose process stops after so many of them. -/
def AddIO.cut : ℕ → AddIO
  | 0 => ⟨.raised false .other, .refused⟩
  | 1 => ⟨.stored, .raised false .other⟩
  | _ => ⟨.stored, .stored⟩

inductive HistoryStep (ν μ : Type) where
  /-- an instance is opened, in place of the last one -/
  | new (dim : ℤ)
  | add (c : AddCall ν μ)
  /-- the process stops in an `add`, after so many of its puts -/
  | stop (c : AddCall ν μ) (puts : ℕ)

/-- The store, the open instance, and the keys of the entries that its opening skipped. -/
structure History (φ : Type) where
  engine : Engine
  current : Option (VectorStore φ)
  skipped : List Bytes

def historyStep (json : VectorJson ν φ μ) (st : History φ) : HistoryStep ν μ → History φ
  | .new dim =>
    match VectorStore.new json dim st.engine with
    | .ok vs => ⟨st.engine, some vs, skippedKeys json dim st.engine⟩
    | .error _ => ⟨st.engine, none, []⟩
  | .add c =>
    match st.current with
    | some vs =>
      let (_, vs, engine) := vs.add json ⟨.stored, .stored⟩ c st.engine
      ⟨engine, some vs, st.skipped⟩
    | none => st
  | .stop c puts =>
    match st.current with
    | some vs => ⟨(vs.add json (.cut puts) c st.engine).2.2, none, []⟩
    | none => st

def historyRun (json : VectorJson ν φ μ) (steps : List (HistoryStep ν μ)) : History φ :=
  steps.foldl (historyStep json) ⟨OrderedMap.empty, none, []⟩

/-- The key under which `add` puts its payload, if it comes to that. -/
def entryKey (json : VectorJson ν φ μ) (c : AddCall ν μ) (st : History φ) : Option Bytes :=
  st.current.bind fun vs =>
    match (vs.prepare json c).1 with
    | .ok _ => some (vecKey vs.idCounter)
    | .error _ => none

/-- The key under which the step puts a payload, if it does. -/
def putKey (json : VectorJson ν φ μ) (st : History φ) : HistoryStep ν μ → Option Bytes
  | .new _ => none
  | .add c => entryKey json c st
  | .stop c puts => if puts = 0 then none else entryKey json c st

/-- The step puts to a key that is present. -/
def Reuses (json : VectorJson ν φ μ) (st : History φ) (act : HistoryStep ν μ) : Prop :=
  ∃ k ∈ putKey json st act, (st.engine.get k).isSome

/-- The step puts to the key of an entry that opening the instance skipped. -/
def MeetsSkipped (json : VectorJson ν φ μ) (st : History φ) (act : HistoryStep ν μ) : Prop :=
  ∃ k ∈ putKey json st act, k ∈ st.skipped

/-- What holds in every history. -/
structure Kept (json : VectorJson ν φ μ) (st : History φ) : Prop where
  store : Numbered json st.engine
  opened : ∀ vs, st.current = some vs → Opened st.engine st.skipped vs

/-- The instance after an `add`, with both puts done or neither. -/
theorem Opened.add {skipped : List Bytes} (h : Opened engine skipped vs) (c : AddCall ν μ) :
    Opened (vs.add json ⟨.stored, .stored⟩ c engine).2.2 skipped
      (vs.add json ⟨.stored, .stored⟩ c engine).2.1 := by
  obtain ⟨⟨n, hn, hbelow⟩, hskipped⟩ := h
  have hcounter := counter_prepare json c vs
  unfold VectorStore.add
  cases hprep : vs.prepare json c with
  | mk result vs' =>
    rw [hprep] at hcounter
    cases result with
    | error err =>
      refine ⟨?_, hskipped⟩
      -- a refused add may have counted its id, which stays unused
      rcases hcounter with hsame | hnext
      · exact ⟨n, hsame.trans hn, hbelow⟩
      · refine ⟨n + 1, by rw [hnext, hn]; rfl, fun m hm => ?_⟩
        exact (hbelow m hm).imp_left fun hlt => by omega
    | ok payload =>
      have hp := prepared hprep
      have hnext : vs'.idCounter = ((n + 1 : ℕ) : ℤ) := by
        rw [hp.counter, hn]
        rfl
      constructor
      · refine ⟨n + 1, hnext, fun m hm => ?_⟩
        change (((engine.put (vecKey vs.idCounter) payload).put counterKey (pyStr vs'.idCounter)).get _).isSome
          at hm
        -- only the id of the call is new below the counter
        rw [OrderedMap.get_put_of_ne (counterKey_ne_vecKey _), OrderedMap.get_put, hn] at hm
        split at hm
        · rename_i hkey
          have hm := vecKey_inj hkey
          exact Or.inl (by omega)
        · exact (hbelow m hm).imp_left fun hlt => by omega
      · intro k hk
        change (((engine.put _ payload).put counterKey (pyStr vs'.idCounter)).get k).isSome
        rw [OrderedMap.get_put, OrderedMap.get_put]
        split
        · rfl
        · split
          · rfl
          · exact hskipped k hk

/-- **One step.** -/
theorem Kept.historyStep {st : History φ} (h : Kept json st) (act : HistoryStep ν μ) :
    Kept json (historyStep json st act) := by
  unfold VectorStore.historyStep
  cases act with
  | new dim =>
    obtain ⟨vs, hnew, hopened⟩ := new_opened h.store dim
    simp only [hnew]
    exact ⟨h.store, fun vs' hvs => Option.some.inj hvs ▸ hopened⟩
  | add c =>
    simp only
    split
    · rename_i vs hvs
      obtain ⟨⟨n, hn, -⟩, -⟩ := h.opened vs hvs
      exact ⟨h.store.add hn _ c, fun vs' hvs' => Option.some.inj hvs' ▸ (h.opened vs hvs).add c⟩
    · exact h
  | stop c puts =>
    simp only
    split
    · rename_i vs hvs
      obtain ⟨⟨n, hn, -⟩, -⟩ := h.opened vs hvs
      exact ⟨h.store.add hn _ c, fun vs' hvs' => (nomatch hvs')⟩
    · exact h

/-- **Every history.** -/
theorem kept_historyRun (json : VectorJson ν φ μ) (steps : List (HistoryStep ν μ)) :
    Kept json (historyRun json steps) := by
  induction steps using List.reverseRecOn with
  | nil => exact ⟨numbered_empty json, fun _ h => (nomatch h)⟩
  | append_singleton steps act ih =>
    unfold historyRun
    rw [List.foldl_concat]
    exact ih.historyStep act

/-- What a step overwrites is an entry that opening the instance skipped. -/
theorem Kept.reuses_iff {st : History φ} (h : Kept json st) (act : HistoryStep ν μ) :
    Reuses json st act ↔ MeetsSkipped json st act := by
  have hentry : ∀ c, ∀ k ∈ entryKey json c st, ((st.engine.get k).isSome = true ↔ k ∈ st.skipped) := by
    intro c k hk
    unfold entryKey at hk
    obtain ⟨vs, hvs, hk⟩ := Option.bind_eq_some_iff.1 hk
    obtain ⟨⟨n, hn, hbelow⟩, hskipped⟩ := h.opened vs hvs
    split at hk
    · rw [hn] at hk
      obtain rfl := Option.some.inj hk
      exact ⟨fun hsome => (hbelow n hsome).resolve_left (lt_irrefl n), hskipped _⟩
    · cases hk
  have hkey : ∀ k ∈ putKey json st act, ((st.engine.get k).isSome = true ↔ k ∈ st.skipped) := by
    intro k hk
    unfold putKey at hk
    cases act with
    | new dim => cases hk
    | add c => exact hentry c k hk
    | stop c puts =>
      simp only at hk
      split at hk
      · cases hk
      · exact hentry c k hk
  exact exists_congr fun k => and_congr_right fun hk => hkey k hk

/-- **No id is given out again** if and only if no `add` comes to the id of an entry that
the opening of its instance skipped. -/
theorem freshIds_iff (json : VectorJson ν φ μ) (steps : List (HistoryStep ν μ)) :
    (∀ pre act post, steps = pre ++ act :: post → ¬ Reuses json (historyRun json pre) act) ↔
      ∀ pre act post, steps = pre ++ act :: post → ¬ MeetsSkipped json (historyRun json pre) act :=
  forall_congr' fun pre => forall_congr' fun act => forall_congr' fun _ => imp_congr_right fun _ =>
    not_congr ((kept_historyRun json pre).reuses_iff act)

def zeroCall (n : ℕ) : AddCall Unit (List Bytes) := ⟨bytes "d", bytes "t", List.replicate n (), none⟩

/-- An `add` is stopped between its puts, and the next instance has another dimension. -/
def changedDim : List (HistoryStep Unit (List Bytes)) := [.new 2, .stop (zeroCall 2) 1, .new 3]

/-- An id can be given out again. -/
theorem freshIds_fails : ¬ ∀ steps : List (HistoryStep Unit (List Bytes)), ∀ pre act post,
    steps = pre ++ act :: post → ¬ Reuses zeroJson (historyRun zeroJson pre) act := by
  intro hall
  refine hall (changedDim ++ [.add (zeroCall 3)]) changedDim (.add (zeroCall 3)) [] rfl ⟨vecKey 0, ?_, ?_⟩
  · decide +kernel
  · decide +kernel

end VectorStore

end LsmTree
