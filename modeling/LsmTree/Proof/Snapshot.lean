import LsmTree.Proof.AnyRun
import LsmTree.Proof.ScanStart

/-!
# An iterator between writes

The iterator of the memtable reads the list that writes go on changing, and the flush
releases it. What holds is that the writes it has passed do not matter.

* `Readable.newIterator`: a new iterator stands at the first live pair in range.
* `call_memTables`: what a call leaves of the memtable, whatever file operations fail.
* `Snap.call`, `Snap.next`: one step.
* `snapshot_kept`: **the pairs shown are those of the moment the iterator was made**, in
  every run whose calls spare it.
* `snapshot_kept_fails`: a write that does not.
-/

namespace LsmTree

open Base StorageEngine DBIterator

variable {hash : Bytes → UInt64} {heaps : Heaps} {s s' : System} {startKey endKey : Bytes}

/-! ## Reachable engines -/

/-- `s` comes after calls from `s₀`: any, if every file operation succeeds; if some fail,
as long as the tables are still in the order of their numbers. -/
def Served (hash : Bytes → UInt64) (heaps : Heaps) (s₀ s : System) : Prop :=
  (∃ rs, (∀ r ∈ rs, r.Short) ∧ runRequests hash heaps rs s₀ = some s) ∨
    ∃ ops, runAny hash heaps ops s₀ = some s ∧ s.HasRoom ∧ Descending s.engine.sstables

/-- What a new iterator needs of the engine. -/
structure Readable (hash : Bytes → UInt64) (s : System) : Prop where
  tables : TablesOK hash s.engine s.world.disk
  descending : Descending s.engine.sstables
  oneSlot : OneSlot s.engine
  room : s.engine.immutable.isSome → s.HasRoom

theorem Served.readable {config : Config} {e : StorageEngine} {w : World}
    (hopen : StorageEngine.new config .ok (World.ofDisk Disk.empty) = (.ok e, w))
    (h : Served hash heaps ⟨e, w⟩ s) : Readable hash s := by
  have hfresh : Steady hash e w.disk := steady_fresh hopen
  rcases h with ⟨rs, hshort, hrun⟩ | ⟨ops, hrun, hroom, hdesc⟩
  · have hs := runRequests_steady hshort hfresh hrun
    refine ⟨hs.tables, hs.descending, fun _ => by rw [hs.immutable]; rfl, fun hi => ?_⟩
    rw [hs.immutable] at hi
    cases hi
  · exact ⟨runAny_tables hfresh.tables hrun, hdesc, oneSlot_runAny (oneSlot_new hopen) hrun, fun _ => hroom⟩

/-- With different file ids the generations descend. -/
theorem Readable.ranks (h : Readable hash s) (hids : (fileIds s.engine.sstables).Nodup) :
    (scanLayers hash s.engine).Pairwise fun a b => b.1 < a.1 := by
  have hnames : DescendingNames ((namedLayers hash s.engine.sstables).map Prod.fst) := by
    unfold namedLayers
    rw [List.map_map]
    exact (descending_iff s.engine.sstables).1 h.descending
  have hcounter : s.engine.idCounter.toNat < 2 ^ 64 := s.engine.idCounter.toNat_lt
  have hnumbers : ∀ t ∈ namedLayers hash s.engine.sstables, extractFileId t.1 < s.engine.idCounter.toNat := by
    intro t ht
    obtain ⟨r, hr, rfl⟩ := List.mem_map.1 ht
    exact (h.tables.live r hr).named.extractFileId hcounter.le
  -- every table has a generation below those that `InitSources` gives to memtables
  have hlt : ∀ b ∈ ranked (namedLayers hash s.engine.sstables), b.1 < max s.engine.idCounter.toNat 2 :=
    rank_lt hnames hnumbers
  have htables : (ranked (namedLayers hash s.engine.sstables)).Pairwise fun a b => b.1 < a.1 := by
    rw [fileIds_eq hash] at hids
    refine ((rank_mono hnames).and (List.pairwise_map.1 hids)).imp fun {a b} hab => ?_
    exact lt_of_le_of_ne hab.1 (Ne.symm hab.2)
  unfold scanLayers
  cases ha : s.engine.active with
  | some m =>
    have hi : s.engine.immutable = none := by
      have hnone := h.oneSlot (by rw [ha]; rfl)
      simpa using hnone
    rw [hi]
    refine List.pairwise_cons.2 ⟨fun b hb => ?_, htables⟩
    have hb' := hlt b hb
    simp only
    omega
  | none =>
    cases hi : s.engine.immutable with
    | none => exact htables
    | some m =>
      have hroom : s.engine.idCounter.toNat + 2 < 2 ^ 64 := h.room (by rw [hi]; rfl)
      refine List.pairwise_cons.2 ⟨fun b hb => ?_, htables⟩
      have hb' := hlt b hb
      simp only
      omega

/-- Where ranks descend, the record of greatest rank is the newest one. -/
theorem preferred_of_ranks {ts : List (ℕ × Layer Bytes Bytes)} (h : ts.Pairwise fun a b => b.1 < a.1) {key : Bytes}
    {r : Option Bytes} (hr : Preferred ts key r) : r = view (ts.map Prod.snd) key := by
  refine preferred_eq_view (h.imp fun hlt => hlt.le) ?_ hr
  intro As a Bs hsplit _ b hb hrank
  rw [hsplit] at h
  have hlt := (List.pairwise_cons.1 (List.pairwise_append.1 h).2.1).1 b hb
  exact absurd hrank (ne_of_lt hlt)

/-- **A new iterator** stands at the first live pair in range and has the others left. -/
theorem Readable.newIterator (h : Readable hash s) (hids : (fileIds s.engine.sstables).Nodup) (heaps : Heaps)
    (startKey endKey : Bytes) : ∃ it L, s.engine.newIterator heaps startKey endKey s.world.disk = .ok it ∧
      LivePairs (s.engine.liveValue hash) startKey endKey L ∧ (∃ gs ns, Found s.engine.memList gs ns it L) ∧
      it.endKey = endKey := by
  have hranks := h.ranks hids
  obtain ⟨inputs, ts, hopen, hreads, hlayers⟩ := h.tables.scanTables
  obtain ⟨L, hL, -⟩ := scan_spec heaps h.tables (fun key r hr => by
    rw [liveValue_eq, ← map_snd_scanLayers]
    exact preferred_of_ranks hranks hr) startKey endKey 0
  have hgens : ((memTables s.engine.memList s.engine.active.isSome s.engine.immutable.isSome ++ ts).map
      Prod.fst).Pairwise fun a b => b < a := by
    rw [← hlayers, List.pairwise_map] at hranks
    exact List.pairwise_map.2 hranks
  have hnew := new_found heaps.scan s.engine.memList (fun ha => h.oneSlot ha) hreads hgens
    (by rw [view_scanTables hlayers]; exact hL)
  refine ⟨_, L, ?_, hL, hnew.1, hnew.2⟩
  unfold StorageEngine.newIterator
  rw [hopen]
  rfl

/-! ## What a call leaves of the memtable -/

/-- The list after the call's write. -/
def Written (s : System) (c : EngineCall) (l l' : SkipList) : Prop :=
  l' = l ∨ ∃ key v x, c.writes s = some (key, v) ∧ x.answer = v ∧ l' = l.insert key x

theorem flush_memTable (hash : Bytes → UInt64) (heaps : Heaps) (io : FlushIO) (e : StorageEngine) (w : World) :
    (Flushable e = false → (flushMemTableInternal hash heaps io e w).2.1 = e) ∧
      ((flushMemTableInternal hash heaps io e w).2.1.immutable.isSome → Flushable e = true →
        ∃ m m', e.active = some m ∧ m'.list = m.list ∧
          (flushMemTableInternal hash heaps io e w).2.1.immutable = some m') := by
  rw [flushMemTableInternal_eq]
  have hcases := flushTable_cases hash io e w
  generalize flushTable hash io e w = r at hcases
  cases hcases with
  | idle h =>
    exact ⟨fun _ => rfl, fun _ hf => absurd ((not_flushable h).symm.trans hf) (by decide)⟩
  | notBuilt m what ha hne =>
    exact ⟨fun hf => (nomatch hf.symm.trans (flushable_of ha hne)), fun _ _ => ⟨m, m.markImmutable, ha, rfl, rfl⟩⟩
  | notOpened m what ha hne hlen ho =>
    exact ⟨fun hf => (nomatch hf.symm.trans (flushable_of ha hne)), fun _ _ => ⟨m, m.markImmutable, ha, rfl, rfl⟩⟩
  | noMemTable m what r w' ha hne hr hnew =>
    exact ⟨fun hf => (nomatch hf.symm.trans (flushable_of ha hne)), fun hi => nomatch hi⟩
  | done m m' r w' ha hne hr hnew =>
    refine ⟨fun hf => (nomatch hf.symm.trans (flushable_of ha hne)), fun hi => ?_⟩
    simp only [(slots_compaction hash heaps io.compaction _ w').2] at hi
    cases hi

theorem Written.grows {c : EngineCall} {l l' : SkipList} (h : Written s c l l') : Grows l l' := by
  rcases h with rfl | ⟨key, v, x, -, -, rfl⟩
  · exact fun y hy => ⟨y, hy, rfl⟩
  · intro y hy
    have hfind : (l.insert key x).find y.key ≠ none := by
      rw [SkipList.find_insert]
      split
      · simp
      · rw [SkipList.find_eq, (findKey_eq_some l.sorted).2 ⟨hy, rfl⟩]
        simp
    rw [SkipList.find_eq, Ne, Option.map_eq_none_iff, findKey_eq_none] at hfind
    simpa using hfind

/-- The memtable with what the call wrote stays where it was, or is moved. -/
structure MemTableAfter (s : System) (c : EngineCall) (e' : StorageEngine) : Prop where
  still : c.moves s = false → e'.immutable = s.engine.immutable ∧
    ∀ m, s.engine.active = some m → ∃ m', Written s c m.list m'.list ∧ e'.active = some m'
  moved : c.moves s = true → e'.immutable.isSome →
    ∃ m m', s.engine.active = some m ∧ Written s c m.list m'.list ∧ e'.immutable = some m'

/-- A call that flushes nothing. -/
theorem MemTableAfter.quiet {c : EngineCall} {e' : StorageEngine} (hm : c.moves s = false)
    (ha : e'.active = s.engine.active) (hi : e'.immutable = s.engine.immutable) : MemTableAfter s c e' :=
  ⟨fun _ => ⟨hi, fun m hm => ⟨m, Or.inl rfl, by rw [ha, hm]⟩⟩, fun h => (nomatch hm.symm.trans h)⟩

/-- A write that flushes nothing. -/
theorem MemTableAfter.write {c : EngineCall} {m m' : MemTable} (hm : c.moves s = false)
    (ha : s.engine.active = some m) (hw : Written s c m.list m'.list) :
    MemTableAfter s c { s.engine with active := some m' } := by
  refine ⟨fun _ => ⟨rfl, fun m₀ hm₀ => ?_⟩, fun h => (nomatch hm.symm.trans h)⟩
  obtain rfl := Option.some.inj (ha.symm.trans hm₀)
  exact ⟨m', hw, rfl⟩

/-- A flush of the memtable `m'` that the call's write has left. -/
theorem MemTableAfter.flush (hash : Bytes → UInt64) (heaps : Heaps) {c : EngineCall} {m m' : MemTable}
    (ha : s.engine.active = some m) (hw : Written s c m.list m'.list) (hm : c.moves s = !m'.empty) (io : FlushIO)
    (w : World) :
    MemTableAfter s c (flushMemTableInternal hash heaps io { s.engine with active := some m' } w).2.1 := by
  obtain ⟨hstill, hmoved⟩ := flush_memTable hash heaps io { s.engine with active := some m' } w
  have hflushable : Flushable { s.engine with active := some m' } = c.moves s := hm.symm
  rw [hflushable] at hstill hmoved
  refine ⟨fun hf => ?_, fun hf hi => ?_⟩
  · rw [hstill hf]
    refine ⟨rfl, fun m₀ hm₀ => ?_⟩
    obtain rfl := Option.some.inj (ha.symm.trans hm₀)
    exact ⟨m', hw, rfl⟩
  · obtain ⟨m₁, m₂, hm₁, hlist, hi'⟩ := hmoved hi hf
    obtain rfl := Option.some.inj hm₁
    refine ⟨m, m₂, ha, ?_, hi'⟩
    rw [hlist]
    exact hw

theorem MemTableAfter.put {key value : Bytes} {now : Int64} {append : WAL.AppendIO} {io : FlushIO}
    {o : Outcome Bool}
    (hstep : s.step hash heaps (.put key value now append io) = (o, s')) (ho : o ≠ .undefined) :
    MemTableAfter s (.put key value now append io) s'.engine := by
  have hwritten : ∀ {m w}, s.engine.active = some m →
      m.put key value now append s.world = (true, m.applyPut key value, w) →
      Written s (.put key value now append io) m.list (m.applyPut key value).list := by
    intro m w ha hput
    refine Or.inr ⟨key, some value, ⟨value, .kTypeValue⟩, ?_, rfl, MemTable.list_applyPut key value m⟩
    simp [EngineCall.writes, ha, hput]
  cases step_put hstep with
  | closed _ => exact absurd rfl ho
  | refused ha hput => exact .write (by simp [EngineCall.moves, ha, hput]) ha (Or.inl rfl)
  | room ha hput hroom => exact .write (by simp [EngineCall.moves, ha, hput, hroom]) ha (hwritten ha hput)
  | full ha hput hfull hflush =>
    obtain rfl := System.unit_eq hflush
    exact .flush hash heaps ha (hwritten ha hput) (by simp [EngineCall.moves, ha, hput, hfull]) io _

theorem MemTableAfter.delete {key : Bytes} {now : Int64} {append : WAL.AppendIO} {o : Outcome Bool}
    (hstep : s.step hash heaps (.delete key now append) = (o, s')) (ho : o ≠ .undefined) :
    MemTableAfter s (.delete key now append) s'.engine := by
  cases step_delete hstep with
  | closed _ => exact absurd rfl ho
  | refused ha _ => exact .write rfl ha (Or.inl rfl)
  | @done m w ha hdelete =>
    refine .write rfl ha (Or.inr ⟨key, none, ⟨[], .kTypeDeletion⟩, ?_, rfl, MemTable.list_applyDelete key m⟩)
    simp [EngineCall.writes, ha, hdelete]

/-- `FlushMemTable`, and `Close` if there is something to flush. -/
theorem MemTableAfter.flushCall (hash : Bytes → UInt64) (heaps : Heaps) {c : EngineCall}
    (hm : c.moves s = Flushable s.engine) (io : FlushIO) :
    MemTableAfter s c (flushMemTableInternal hash heaps io s.engine s.world).2.1 := by
  obtain ⟨hstill, hmoved⟩ := flush_memTable hash heaps io s.engine s.world
  cases hf : Flushable s.engine with
  | false =>
    rw [hstill hf]
    exact .quiet (hm.trans hf) rfl rfl
  | true =>
    refine ⟨fun h => (nomatch (hm.trans hf).symm.trans h), fun _ hi => ?_⟩
    obtain ⟨m, m', ha, hlist, hi'⟩ := hmoved hi hf
    exact ⟨m, m', ha, Or.inl hlist, hi'⟩

/-- **One call**, whatever file operations fail in it. -/
theorem call_memTables {c : EngineCall} {o : Outcome Bool} (hstep : s.step hash heaps c.op = (o, s'))
    (ho : o ≠ .undefined) : MemTableAfter s c s'.engine := by
  cases c with
  | put key value now append io => exact .put hstep ho
  | delete key now append => exact .delete hstep ho
  | flushMemTable io =>
    obtain rfl := System.unit_eq hstep
    exact .flushCall hash heaps rfl io
  | triggerCompaction io =>
    obtain ⟨ha, hi⟩ := slots_trigger hash heaps io s.engine s.world
    rw [step_triggerCompaction hstep] at ha hi
    exact .quiet rfl ha hi
  | close io =>
    obtain rfl := System.unit_eq (step_close hstep)
    exact .flushCall hash heaps rfl io

/-! ## The iterator -/

namespace Threads

variable {st st' : Threads heaps} {t : Scanner heaps} {c : EngineCall}

/-- The memtable with a name is found again after a call that does not drop it. -/
theorem owned_stepCall (hone : OneSlot st.sys.engine) (hstep : st.stepCall hash c = some st')
    (hkeep : c.drops hash heaps st.sys = false) {n : ℕ} {l : SkipList} (hown : st.owned n = some l) :
    ∃ l', Written st.sys c l l' ∧ st'.owned n = some l' := by
  obtain ⟨o, s', hcall, ho, rfl⟩ := stepCall_eq hstep
  have hafter := call_memTables hcall ho
  unfold owned at hown ⊢
  simp only
  unfold EngineCall.drops at hkeep
  rw [hcall] at hkeep
  split at hown
  · -- the active memtable
    rename_i hn
    obtain ⟨m, ha, rfl⟩ := Option.map_eq_some_iff.1 hown
    cases hm : c.moves st.sys with
    | false =>
      obtain ⟨-, hactive⟩ := hafter.still hm
      obtain ⟨m', hw, ha'⟩ := hactive m ha
      exact ⟨m'.list, hw, by simp [hn, ha']⟩
    | true =>
      rw [hm, Bool.true_and] at hkeep
      -- no memtable is dropped: the one that a flush moved is still in the other slot
      have hsome : s'.engine.immutable.isSome = true := by
        rw [Option.isSome_iff_ne_none]
        rintro hnone
        simp [hnone] at hkeep
      obtain ⟨m₀, m', ha₀, hw, hi'⟩ := hafter.moved hm hsome
      obtain rfl := Option.some.inj (ha.symm.trans ha₀)
      exact ⟨m'.list, hw, by simp [hn, hi']⟩
  · split at hown
    · -- the one that a failed flush has left
      rename_i hne hn
      obtain ⟨m, hi, rfl⟩ := Option.map_eq_some_iff.1 hown
      -- one of the two slots is empty, so there is nothing for a flush to move
      have hnone : st.sys.engine.active = none := by
        by_contra hsome
        have hempty := hone (Option.isSome_iff_ne_none.2 hsome)
        rw [hi] at hempty
        cases hempty
      have hm : c.moves st.sys = false := by
        cases c <;> simp [EngineCall.moves, hnone]
      obtain ⟨hi', -⟩ := hafter.still hm
      refine ⟨m.list, Or.inl rfl, ?_⟩
      simp only [hm, Bool.false_eq_true, if_false]
      rw [if_neg hne, if_pos hn, hi', hi]
      rfl
    · cases hown

/-- The call leaves the iterator the values `V`: it stands in no memtable, or the call does
not drop it, and writes only keys that the iterator has passed, keys behind its end, or
what `V` says of the key. -/
def Spares (hash : Bytes → UInt64) (V : Bytes → Option Bytes) (st : Threads heaps) (t : Scanner heaps) : Use → Prop
  | .next => True
  | .call c => t.it.valid = true → ∀ p ∈ t.it.nodes, c.drops hash heaps st.sys = false ∧
      ∀ w ∈ c.writes st.sys, w.1 < p.2 ∨ t.it.beyondEnd w.1 = true ∨ V w.1 = w.2

instance (V : Bytes → Option Bytes) (st : Threads heaps) (t : Scanner heaps) (u : Use) :
    Decidable (Spares hash V st t u) := by
  cases u <;> (unfold Spares; infer_instance)

/-- Each call of the run leaves it them. -/
def SparesAll (hash : Bytes → UInt64) (V : Bytes → Option Bytes) : List Use → Threads heaps → Prop
  | [], _ => True
  | u :: us, st => (∀ t ∈ st.scanner, Spares hash V st t u) ∧ ∀ st' ∈ st.use hash u, SparesAll hash V us st'

instance instDecidableSparesAll (V : Bytes → Option Bytes) : ∀ (us : List Use) (st : Threads heaps),
    Decidable (SparesAll hash V us st)
  | [], _ => .isTrue trivial
  | u :: us, st =>
    have : ∀ st', Decidable (SparesAll hash V us st') := instDecidableSparesAll V us
    inferInstanceAs (Decidable ((∀ t ∈ st.scanner, Spares hash V st t u) ∧
      ∀ st' ∈ st.use hash u, SparesAll hash V us st'))

/-! ### The invariant -/

/-- After `n` calls of `Next` the iterator has gone past the first `n` pairs of `L` and has
the others left. -/
structure Snap (endKey : Bytes) (L : List (Bytes × Bytes)) (n : ℕ) (st : Threads heaps) (t : Scanner heaps) :
    Prop where
  oneSlot : OneSlot st.sys.engine
  endKey : t.it.endKey = endKey
  results : t.results = L.take n
  left : ∃ gs ns, Found (st.lists t) gs ns t.it (L.drop n)

variable {V : Bytes → Option Bytes} {L : List (Bytes × Bytes)} {n : ℕ}

/-- It shows the pair at place `n`, if there is one. -/
theorem Snap.shown (h : Snap endKey L n st t) :
    t.shown = L.take (n + 1) ∧ (t.it.valid = true ↔ n < L.length) := by
  obtain ⟨gs, ns, hfound⟩ := h.left
  generalize hR : L.drop n = R at hfound
  unfold Scanner.shown
  cases hfound with
  | done hv =>
    have hlen : L.length ≤ n := List.drop_eq_nil_iff.1 hR
    rw [hv, if_neg (by decide), List.append_nil, h.results, List.take_of_length_le hlen,
      List.take_of_length_le (by omega)]
    exact ⟨rfl, fun h => (nomatch h), fun h => by omega⟩
  | shows Ls R hv hreads hleft hbehind =>
    have hlt : n < L.length := by
      have hlen := congrArg List.length hR
      rw [List.length_drop, List.length_cons] at hlen
      omega
    have hget : L[n] = (t.it.currentKey, t.it.currentValue) := by
      rw [List.drop_eq_getElem_cons hlt] at hR
      exact (List.cons.inj hR).1
    rw [hv, if_pos rfl, h.results, ← hget, List.take_concat_get' L n hlt]
    exact ⟨rfl, fun _ => hlt, fun _ => rfl⟩

/-- The list behind a slot is that of a memtable that the engine owns. -/
theorem owned_of_mem_lists {slot : MemSlot} {x : SkipList.Node} (hx : x ∈ (st.lists t slot).chain) :
    ∃ n, t.refs slot = some n ∧ st.owned n = some (st.lists t slot) := by
  unfold lists at hx ⊢
  cases hr : t.refs slot with
  | none =>
    rw [hr] at hx
    exact absurd hx List.not_mem_nil
  | some n =>
    rw [hr, Option.bind_some] at hx
    refine ⟨n, rfl, ?_⟩
    rw [Option.bind_some]
    cases ho : st.owned n with
    | none =>
      rw [ho] at hx
      exact absurd hx List.not_mem_nil
    | some l => rfl

/-- **`Next` is defined** wherever the iterator has pairs left. -/
theorem Snap.ownsNodes (h : Snap endKey L n st t) (hv : t.it.valid = true) : st.ownsNodes t = true := by
  obtain ⟨gs, ns, hfound⟩ := h.left
  generalize L.drop n = R at hfound
  cases hfound with
  | done hno =>
    rw [hv] at hno
    cases hno
  | shows Ls R _ hreads hleft hbehind =>
    unfold Threads.ownsNodes
    rw [List.all_eq_true]
    intro ⟨slot, node⟩ hmem
    obtain ⟨-, x, hx, -⟩ := hreads.node_left hmem
    obtain ⟨n, hr, ho⟩ := owned_of_mem_lists hx
    simp [hr, ho]

/-- **`Next`** goes to the next pair. -/
theorem Snap.next (h : Snap endKey L n st t) (ht : st.scanner = some t) :
    ∃ st' t', st.useNext = some st' ∧ st'.scanner = some t' ∧ Snap endKey L (n + 1) st' t' := by
  have howns := h.ownsNodes
  have hshown := h.shown.1
  obtain ⟨gs, ns, hfound⟩ := h.left
  generalize hR : L.drop n = R at hfound
  unfold useNext
  rw [ht]
  simp only
  cases hfound with
  | done hv =>
    -- the iterator has shown all of its pairs
    have hlen : L.length ≤ n := List.drop_eq_nil_iff.1 hR
    rw [hv, if_pos (by decide)]
    refine ⟨st, t, rfl, ht, h.oneSlot, h.endKey, ?_, gs, ns, ?_⟩
    · rw [h.results, List.take_of_length_le hlen, List.take_of_length_le (by omega)]
    · rw [List.drop_eq_nil_of_le (by omega)]
      exact .done hv
  | shows Ls R hv hreads hleft hbehind =>
    have hdrop : L.drop (n + 1) = R := by
      rw [← List.drop_drop, hR, List.drop_one, List.tail_cons]
    rw [hv, if_neg (by decide), if_pos (howns hv)]
    refine ⟨_, _, rfl, rfl, h.oneSlot, ?_, hshown, gs, ns, ?_⟩
    · unfold DBIterator.next
      rw [if_pos hv, (findNextAliveKey_left hreads hleft).2]
      exact h.endKey
    · rw [hdrop]
      simp only [DBIterator.next]
      rw [if_pos hv]
      exact (findNextAliveKey_left hreads hleft).1

/-- What is left says of a key behind the present one what the pairs say. -/
theorem view_behind {W : Bytes → Option Bytes} {pre R : List (Bytes × Bytes)} {x : Bytes × Bytes}
    (hL : LivePairs V startKey endKey (pre ++ x :: R)) (hR : LivePairs W [] endKey R) {key : Bytes}
    (hgt : x.1 < key) (hend : endKey = [] ∨ key ≤ endKey) : W key = V key := by
  have hstart : startKey ≤ key := by
    have hx := (hL.mem x.1 x.2).1 (List.mem_append_right _ List.mem_cons_self)
    exact hx.1.trans hgt.le
  have hnil : ([] : Bytes) ≤ key := not_lt.1 (List.not_lt_nil _)
  have hbefore : ∀ v, (key, v) ∈ pre ++ x :: R ↔ (key, v) ∈ R := by
    intro v
    constructor
    · intro hmem
      rcases List.mem_append.1 hmem with hpre | hmem
      · -- the pairs before have smaller keys
        have hlt := (List.pairwise_append.1 hL.asc).2.2 _ hpre x List.mem_cons_self
        exact absurd hlt (not_lt_of_gt hgt)
      · rcases List.mem_cons.1 hmem with rfl | hmem
        · exact absurd hgt (lt_irrefl _)
        · exact hmem
    · exact fun hmem => List.mem_append_right _ (List.mem_cons_of_mem _ hmem)
  refine Option.ext fun v => ?_
  have h1 := hL.mem key v
  have h2 := hR.mem key v
  rw [hbefore] at h1
  constructor
  · exact fun hw => (h1.1 (h2.2 ⟨hnil, hend, hw⟩)).2.2
  · exact fun hv => (h2.1 (h1.2 ⟨hstart, hend, hv⟩)).2.2

/-- **A call that spares the iterator** changes nothing of what it has left. -/
theorem Snap.call (h : Snap endKey L n st t) (hL : LivePairs V startKey endKey L)
    (hspares : Spares hash V st t (.call c)) (hstep : st.stepCall hash c = some st') : Snap endKey L n st' t := by
  have hone : OneSlot st'.sys.engine := by
    obtain ⟨o, s', hcall, ho, rfl⟩ := stepCall_eq hstep
    exact (call_slots hcall ho).oneSlot h.oneSlot
  obtain ⟨gs, ns, hfound⟩ := h.left
  refine ⟨hone, h.endKey, h.results, ?_⟩
  generalize hR : L.drop n = R at hfound ⊢
  cases hfound with
  | done hv => exact ⟨gs, ns, .done hv⟩
  | shows Ls R hv hreads hleft hbehind =>
    -- each list the iterator walks is still owned, and written at most once
    have hlists : ∀ slot node, (slot, node) ∈ t.it.nodes →
        Written st.sys c (st.lists t slot) (st'.lists t slot) := by
      intro slot node hmem
      obtain ⟨-, x, hx, -⟩ := hreads.node_left hmem
      obtain ⟨n, hr, ho⟩ := owned_of_mem_lists hx
      obtain ⟨l', hw, ho'⟩ := owned_stepCall h.oneSlot hstep (hspares hv _ hmem).1 ho
      have hl' : st'.lists t slot = l' := by
        unfold lists
        rw [hr, Option.bind_some, ho']
        rfl
      rw [hl']
      exact hw
    -- so the sources can be read again, with the lists as they are now
    obtain ⟨ns', Ls', hreads', hview, hbehind'⟩ :=
      hreads.relist fun slot node hmem => (hlists slot node hmem).grows
    refine ⟨gs, ns', .shows Ls' R hv hreads' (hleft.congr fun key _ hend => ?_) (hbehind' _ hbehind)⟩
    rcases hview key with he | ⟨slot, node, e, hmem, hle, hfind, hfind', hanswer⟩
    · exact he
    · rcases hlists slot node hmem with hsame | ⟨k, v, x, hwrites, hx, hl⟩
      · rw [hsame] at hfind
        exact absurd hfind hfind'
      · rw [hl, SkipList.find_insert] at hfind
        split at hfind
        · -- the key written is one that the iterator has not passed
          rename_i hk
          obtain rfl := Option.some.inj hfind
          obtain ⟨⟨M, hM, p, hp, hpk⟩, -⟩ := hreads.node_left hmem
          have hgt : t.it.currentKey < key := lt_of_lt_of_le (hpk ▸ hbehind M hM p hp) hle
          have hkeep : leftView Ls key = V key := by
            rw [← List.take_append_drop n L, hR] at hL
            rw [h.endKey] at hleft hend
            exact view_behind hL hleft hgt hend
          rcases (hspares hv _ hmem).2 (k, v) hwrites with hlt | hbeyond | hV
          · exact absurd (hk ▸ hle) (not_le_of_gt hlt)
          · rw [hk, beyondEnd_eq_false.2 hend] at hbeyond
            cases hbeyond
          · rw [hkeep, ← hanswer, hx, ← hk]
            exact hV.symm
        · exact absurd hfind hfind'

/-- How often `Next` is called. -/
def nexts (us : List Use) : ℕ := us.countP fun u => match u with
  | .next => true
  | .call _ => false

/-- **Every run.** -/
theorem Snap.uses {us : List Use} : ∀ {st : Threads heaps} {t : Scanner heaps} {n : ℕ}, Snap endKey L n st t →
    LivePairs V startKey endKey L → st.scanner = some t → SparesAll hash V us st →
    Threads.uses hash us st = some st' → ∃ t', st'.scanner = some t' ∧ Snap endKey L (n + nexts us) st' t' := by
  -- by induction on the steps, with `n` the pairs shown so far
  induction us with
  | nil =>
    intro st t n h _ ht _ hrun
    obtain rfl := Option.some.inj hrun
    exact ⟨t, ht, h⟩
  | cons u us ih =>
    intro st t n h hL ht hall hrun
    obtain ⟨hspares, hrest⟩ := hall
    obtain ⟨st₁, hone, hrun'⟩ := Option.bind_eq_some_iff.1 (show (st.use hash u).bind _ = _ from hrun)
    cases u with
    | next =>
      obtain ⟨st₂, t₂, hnext, ht₂, h₂⟩ := h.next ht
      obtain rfl := Option.some.inj (hnext.symm.trans hone)
      have hcount : n + nexts (.next :: us) = n + 1 + nexts us := by
        unfold nexts
        rw [List.countP_cons_of_pos rfl]
        omega
      rw [hcount]
      exact ih h₂ hL ht₂ (hrest _ hone) hrun'
    | call c =>
      have h₁ : Snap endKey L n st₁ t := h.call hL (hspares t ht) hone
      obtain ⟨o, s', -, -, rfl⟩ := stepCall_eq (show st.stepCall hash c = some st₁ from hone)
      exact ih h₁ hL ht (hrest _ hone) hrun'

/-- The memtables that an iterator made at the start refers to. -/
def startRefs (e : StorageEngine) : MemSlot → Option ℕ
  | .active => if e.active.isSome then some 1 else none
  | .immutable => if e.immutable.isSome then some 0 else none

/-- `NewIterator` begins with nothing shown. -/
theorem Snap.newIterator (h : Readable hash s) {it : DBIterator heaps.scan}
    (hnew : s.engine.newIterator heaps startKey endKey s.world.disk = .ok it)
    (hfound : ∃ gs ns, Found s.engine.memList gs ns it L) (hend : it.endKey = endKey) :
    ∃ t, ((start heaps s).newIterator startKey endKey).scanner = some t ∧
      Snap endKey L 0 ((start heaps s).newIterator startKey endKey) t := by
  obtain ⟨gs, ns, hfound⟩ := hfound
  set refs := startRefs s.engine with hrefs
  have hst : (start heaps s).newIterator startKey endKey =
      ⟨s, 1, some ⟨.scan startKey endKey 0, it, refs, .valid, []⟩, false⟩ := by
    unfold Threads.newIterator stepBuild
    simp only [start, ScanCall.startKey, ScanCall.endKey, hnew]
    rfl
  have hlists : (⟨s, 1, some ⟨.scan startKey endKey 0, it, refs, .valid, []⟩, false⟩ : Threads heaps).lists
      ⟨.scan startKey endKey 0, it, refs, .valid, []⟩ = s.engine.memList := by
    funext slot
    cases slot with
    | active => cases ha : s.engine.active <;> simp [Threads.lists, hrefs, startRefs, owned, memList, ha]
    | immutable => cases hi : s.engine.immutable <;> simp [Threads.lists, hrefs, startRefs, owned, memList, hi]
  rw [hst]
  refine ⟨_, rfl, h.oneSlot, hend, rfl, gs, ns, ?_⟩
  rw [hlists]
  exact hfound

theorem SparesAll.left {us post : List Use} : ∀ {st : Threads heaps}, SparesAll hash V (us ++ post) st →
    SparesAll hash V us st := by
  induction us with
  | nil => exact fun _ => trivial
  | cons u us ih => exact fun h => ⟨h.1, fun st' hst' => ih (h.2 st' hst')⟩

/-- At every point of the run the iterator has shown the first pairs of `L`, one for its making
and one for every call of `Next`, until there are no more; and `Next` is defined. -/
def ShowsOnly (hash : Bytes → UInt64) (L : List (Bytes × Bytes)) (us : List Use) (st : Threads heaps) : Prop :=
  ∀ pre post st', us = pre ++ post → uses hash pre st = some st' → ∃ t, st'.scanner = some t ∧
    t.shown = L.take (nexts pre + 1) ∧ (t.it.valid = true ↔ nexts pre < L.length) ∧ st'.useNext.isSome

end Threads

open Threads

/-- **The pairs shown are those of the moment the iterator was made**, if the calls between
spare it. -/
theorem snapshot_kept {config : Config} {e : StorageEngine} {w : World}
    (hopen : StorageEngine.new config .ok (World.ofDisk Disk.empty) = (.ok e, w))
    (hserved : Served hash heaps ⟨e, w⟩ s) (hids : (fileIds s.engine.sstables).Nodup) (startKey endKey : Bytes)
    {us : List Use}
    (hspares : SparesAll hash (s.engine.liveValue hash) us ((start heaps s).newIterator startKey endKey)) :
    ∃ L, LivePairs (s.engine.liveValue hash) startKey endKey L ∧
      ShowsOnly hash L us ((start heaps s).newIterator startKey endKey) := by
  have hreadable : Readable hash s := hserved.readable hopen
  obtain ⟨it, L, hnew, hL, hfound, hend⟩ := hreadable.newIterator hids heaps startKey endKey
  obtain ⟨t₀, ht₀, hsnap₀⟩ := Snap.newIterator hreadable hnew hfound hend
  refine ⟨L, hL, fun pre post st hus hrun => ?_⟩
  rw [hus] at hspares
  obtain ⟨t, ht, hsnap⟩ := hsnap₀.uses hL ht₀ hspares.left hrun
  rw [Nat.zero_add] at hsnap
  obtain ⟨hshown, hvalid⟩ := hsnap.shown
  obtain ⟨st', t', hnext, -⟩ := hsnap.next ht
  exact ⟨t, ht, hshown, hvalid, by rw [hnext]; rfl⟩

def twoPuts : List Request := [.put (bytes "a") (bytes "1") 0, .put (bytes "c") (bytes "3") 0]

/-- A write between the two keys, and a flush when the memtable's iterator is at its end. -/
def passedUses : List Use :=
  [.call (.put (bytes "b") (bytes "2") 0 .ok .ok), .next, .call (.flushMemTable .ok),
    .call (.put (bytes "d") (bytes "4") 0 .ok .ok), .next]

theorem snapshot_kept_passed : ∃ s,
    runRequests (fun _ => 0) firstInHeaps twoPuts ⟨unloggedEngine 4, .ofDisk .empty⟩ = some s ∧
      ∃ L, LivePairs (s.engine.liveValue fun _ => 0) [] [] L ∧
        ShowsOnly (fun _ => 0) L passedUses ((start firstInHeaps s).newIterator [] []) := by
  have hopen : StorageEngine.new (unloggedEngine 4).config .ok (World.ofDisk Disk.empty) =
      (.ok (unloggedEngine 4), .ofDisk .empty) := rfl
  have hshort : ∀ r ∈ twoPuts, r.Short := by decide +kernel
  have hsome : (runRequests (fun _ => 0) firstInHeaps twoPuts ⟨unloggedEngine 4, .ofDisk .empty⟩).any (fun s =>
      decide ((fileIds s.engine.sstables).Nodup) && decide (SparesAll (fun _ => 0) (s.engine.liveValue fun _ => 0)
        passedUses ((start firstInHeaps s).newIterator [] []))) = true := by decide +kernel
  obtain ⟨s, hrun, hs⟩ := (Option.any_eq_true _ _).1 hsome
  obtain ⟨hnodup, hspares⟩ := Bool.and_eq_true_iff.1 hs
  exact ⟨s, hrun, snapshot_kept hopen (Or.inl ⟨twoPuts, hshort, hrun⟩) (of_decide_eq_true hnodup) [] []
    (of_decide_eq_true hspares)⟩

/-- The key written is the one that the memtable's iterator stands at. -/
def overwriteUses : List Use := [.call (.put (bytes "c") (bytes "new") 0 .ok .ok), .next]

/-- The value of a key not yet shown is overwritten, and the iterator shows the new one. -/
theorem snapshot_kept_fails : ∃ e w s,
    StorageEngine.new e.config .ok (World.ofDisk Disk.empty) = (.ok e, w) ∧
      Served (fun _ => 0) firstInHeaps ⟨e, w⟩ s ∧ (fileIds s.engine.sstables).Nodup ∧
      ∀ L, LivePairs (s.engine.liveValue fun _ => 0) [] [] L →
        ¬ ShowsOnly (fun _ => 0) L overwriteUses ((start firstInHeaps s).newIterator [] []) := by
  have hshort : ∀ r ∈ twoPuts, r.Short := by decide +kernel
  -- the run, and what it shows, evaluated at once
  have hsome : (runRequests (fun _ => 0) firstInHeaps twoPuts ⟨unloggedEngine 4, .ofDisk .empty⟩).any (fun s =>
      (decide (fileIds s.engine.sstables).Nodup && decide (s.engine.liveValue (fun _ => 0) (bytes "c") =
          some (bytes "3"))) &&
        (uses (fun _ => 0) overwriteUses ((start firstInHeaps s).newIterator [] [])).any fun st =>
          st.scanner.any fun t => decide ((bytes "c", bytes "new") ∈ t.shown)) = true := by decide +kernel
  obtain ⟨s, hrun, hs⟩ := (Option.any_eq_true _ _).1 hsome
  obtain ⟨hs, hused⟩ := Bool.and_eq_true_iff.1 hs
  obtain ⟨hnodup, hlive⟩ := Bool.and_eq_true_iff.1 hs
  refine ⟨unloggedEngine 4, .ofDisk .empty, s, rfl, Or.inl ⟨twoPuts, hshort, hrun⟩, of_decide_eq_true hnodup,
    fun L hL hshows => ?_⟩
  obtain ⟨st, hst, ht⟩ := (Option.any_eq_true _ _).1 hused
  obtain ⟨t, ht, hmem⟩ := (Option.any_eq_true _ _).1 ht
  obtain ⟨t', ht', hshown, -⟩ := hshows overwriteUses [] st (List.append_nil _).symm hst
  obtain rfl := Option.some.inj (ht.symm.trans ht')
  have hnew : (bytes "c", bytes "new") ∈ L := List.mem_of_mem_take (hshown ▸ of_decide_eq_true hmem)
  have hvalue := ((hL.mem _ _).1 hnew).2.2
  rw [of_decide_eq_true hlive] at hvalue
  exact absurd hvalue (by decide)

end LsmTree
