import LsmTree.Proof.History
import LsmTree.Proof.PowerLoss
import LsmTree.Spec.Api

/-!
# The engine as an ordered map

To its clients the engine is a finite map from strings to strings, in the order of their
bytes. `Get` may still tell a deleted key from one that was never there; which it does
depends on compactions that no client sees.

* `Request.Good`: what a call needs if nothing fails: short keys and values, a log that is
  read back, a table that a file can hold, and no harmful tie of file ids.
* `Serving.step`: then **a call returns**, and writes what it says.
* `represents_simulates`: **the engine simulates the map**.
* `engine_refines_map`: **every client gets from the engine what the map allows**.
-/

namespace LsmTree

open Base StorageEngine WAL
open DBIterator (upTo)

variable {hash : Bytes → UInt64} {heaps : Heaps} {e e' : StorageEngine} {w w' : World} {d : Disk}
  {r : LogRecord} {config : Config} {s s' : System}

/-! ## Calls that return -/

/-- The log holds complete lines, at none of which the replay stops. -/
def PlainLog (d : Disk) : Prop := ∃ rs, Logs d rs ∧ ∀ r ∈ rs, Plain r

theorem PlainLog.congr (h : PlainLog d) {d' : Disk} (hwal : d'.wal = d.wal) : PlainLog d' := by
  obtain ⟨rs, hlog, hrs⟩ := h
  exact ⟨rs, hwal.trans hlog, hrs⟩

theorem PlainLog.write (h : PlainLog w.disk) (hr : Plain r) (m : MemTable) :
    PlainLog (MemTable.writeWorld r m w).disk := by
  obtain ⟨rs, hlog, hrs⟩ := h
  cases hm : m.wal with
  | true =>
    refine ⟨rs ++ [r], Logs.write hlog r hm, fun t ht => ?_⟩
    rcases List.mem_append.1 ht with ht | ht
    · exact hrs t ht
    · rw [List.mem_singleton.1 ht]
      exact hr
  | false =>
    unfold MemTable.writeWorld
    rw [hm]
    exact ⟨rs, hlog, hrs⟩

/-- A record appended to such a log is read back. -/
theorem PlainLog.appendDecodes (h : PlainLog w.disk) (hr : Plain r) : AppendDecodes r .ok w := by
  obtain ⟨rs, hlog, hrs⟩ := h
  have hafter : Logs (r.append .ok w).2.disk (rs ++ [r]) := by
    have hblank : (MemTable.blank true).wal = true := rfl
    exact Logs.write hlog r hblank
  have hall : ∀ t ∈ rs ++ [r], ¬ HidesTimestamp t.key := by
    intro t ht
    rcases List.mem_append.1 ht with ht | ht
    · exact (hrs t ht).read
    · rw [List.mem_singleton.1 ht]
      exact hr.read
  unfold AppendDecodes
  rw [hafter.recover, hlog.recover, reached_eq hall, reached_eq fun t ht => (hrs t ht).read]
  simp

/-- The table that a call flushes can be written to a file. -/
def Request.TableFits (hash : Bytes → UInt64) (s : System) : Request → Prop
  | .put key value _ => ∀ m, s.engine.active = some m →
      s.engine.config.writeBufferSize ≤ (m.applyPut key value).approxMemoryUsage →
        Builds hash .ok (m.applyPut key value) s.engine
  | .flushMemTable => ∀ m, s.engine.active = some m → m.empty = true ∨ Builds hash .ok m s.engine
  | .close => ∀ m, s.engine.active = some m → m.empty = true ∨ Builds hash .ok m s.engine
  | _ => True

/-- What a call needs. -/
structure Request.Good (hash : Bytes → UInt64) (r : Request) (s : System) : Prop where
  short : r.Short
  readable : r.Readable
  room : s.HasRoom
  table : r.TableFits hash s
  ties : ∀ p, compactionPoint hash r.op s = some p → TieHarmless hash p.engine

/-- The state between two calls of a database with a log, none of whose calls failed. -/
structure Serving (hash : Bytes → UInt64) (s : System) : Prop where
  steady : Steady hash s.engine s.world.disk
  kept : ∃ rs ts, Kept hash s.engine s.world.disk rs ts
  logged : s.engine.config.walPath ≠ []
  log : PlainLog s.world.disk

/-- A compaction of tables that the manifest lists is safe if nothing fails. -/
theorem Steady.compaction_safe (h : Steady hash e d) (hdir : newline ∉ e.config.dbDir) :
    CompactionIO.Safe .ok e := by
  obtain ⟨hlist, -⟩ := h.listed hdir
  have hnames : e.manifest.hasNames (e.sstables.map SSTableReader.filepath) = true := by
    unfold Manifest.hasNames
    rw [List.all_eq_true, hlist]
    intro f hf
    simpa using hf
  exact ⟨fun _ => by decide, Or.inl ⟨hnames, rfl⟩⟩

theorem config_flushTable (hash : Bytes → UInt64) (io : FlushIO) (e : StorageEngine) (w : World) :
    (StorageEngine.flushTable hash io e w).2.1.config = e.config := by
  have h := flushTable_cases hash io e w
  generalize StorageEngine.flushTable hash io e w = r at h
  cases h <;> rfl

theorem config_compactionPoint {op : Op} {p : System} (hp : compactionPoint hash op s = some p) :
    p.engine.config = s.engine.config := by
  have hflush : ∀ {io : FlushIO} {e : StorageEngine} {w : World}, flushPoint hash io e w = some p →
      p.engine.config = e.config := by
    intro io e w hpoint
    have hc := config_flushTable hash io e w
    rw [(flushPoint_eq_some hpoint).1] at hc
    exact hc
  cases op with
  | put key value now append io =>
    unfold compactionPoint at hp
    cases ha : s.engine.active with
    | none => simp [ha] at hp
    | some m =>
      obtain ⟨ok, m', w', hput⟩ : ∃ ok m' w', m.put key value now append s.world = (ok, m', w') := ⟨_, _, _, rfl⟩
      simp only [ha, hput] at hp
      cases ok with
      | false => exact absurd hp (by simp)
      | true =>
        simp only at hp
        split at hp
        · exact (hflush hp).trans rfl
        · exact absurd hp (by simp)
  | delete key now append => exact absurd hp (by simp [compactionPoint])
  | flushMemTable io => exact hflush hp
  | triggerCompaction io =>
    obtain rfl : s = p := Option.some.inj hp
    rfl
  | close io => exact hflush hp
  | reopen writeBufferSize compactionThreshold io => exact absurd hp (by simp [compactionPoint])

/-- **A good call is sound.** -/
theorem Request.Good.sound {c : Request} (h : c.Good hash s) (hs : Serving hash s) : c.op.Sound hash s := by
  obtain ⟨rs, ts, hkept⟩ := hs.kept
  refine ⟨?_, by cases c <;> rfl, fun p hp => ?_⟩
  · cases c with
    | put key value now => exact fun _ => hs.log.appendDecodes ⟨⟨h.short.1, h.short.2⟩, h.readable⟩
    | delete key now => exact fun _ => hs.log.appendDecodes ⟨⟨h.short, by norm_num⟩, h.readable⟩
    | reopen _ _ => exact rfl
    | flushMemTable => exact trivial
    | triggerCompaction => exact trivial
    | close => exact trivial
  · have hpoint : Steady hash p.engine p.world.disk := Steady.compactionPoint hs.steady h.short h.room hp
    have hio : c.op.compactionIO = .ok := by cases c <;> rfl
    rw [hio]
    refine ⟨hpoint.compaction_safe ?_, (h.ties p hp).ranksAgree hpoint.descending⟩
    rw [config_compactionPoint hp]
    exact hkept.directory

/-! ### Flushes -/

/-- The inputs of a compaction open. -/
theorem Steady.compaction_returns (h : Steady hash e w.disk) :
    ∃ ok e' w', triggerCompactionInternal hash heaps .ok e w = (.returned ok, e', w') := by
  obtain ⟨ins, hopen⟩ := openInputs_onDisk h.tables.live
  unfold triggerCompactionInternal
  split
  · exact ⟨_, _, _, rfl⟩
  · simp only [ CompactionIO.ok, if_true, hopen]
    split
    · exact ⟨_, _, _, rfl⟩
    · split
      · exact ⟨_, _, _, rfl⟩
      · split <;> exact ⟨_, _, _, rfl⟩

/-- **A flush returns** if its table can be built. -/
theorem Steady.flush_returns (h : Steady hash e w.disk) (hroom : e.idCounter.toNat + 2 < 2 ^ 64)
    (hfits : ∀ m, e.active = some m → m.empty = true ∨ Builds hash .ok m e) :
    ∃ e' w', flushMemTableInternal hash heaps .ok e w = (.returned (), e', w') := by
  obtain ⟨m, ha, -⟩ := h.active
  have hcompletes : m.empty = true ∨ Completes hash .ok e m := (hfits m ha).imp id fun hb => ⟨hb, rfl, Or.inr rfl⟩
  have hactive : (StorageEngine.flushTable hash .ok e w).2.1.active.isSome = true := by
    rw [← StorageEngine.active_flush hash heaps .ok e w]
    exact (active_flush_iff hash heaps .ok e w).2 ⟨m, ha, hcompletes⟩
  rw [flushMemTableInternal_eq]
  obtain ⟨o, e₁, w₁, hf⟩ : ∃ o e₁ w₁, StorageEngine.flushTable hash .ok e w = (o, e₁, w₁) := ⟨_, _, _, rfl⟩
  have hcases := flushTable_cases hash .ok e w
  rw [hf] at hactive hcases
  rw [hf]
  -- a flush that throws leaves no memtable
  cases hcases with
  | idle _ => exact ⟨_, _, rfl⟩
  | notBuilt => exact absurd hactive (by simp [moved])
  | notOpened => exact absurd hactive (by simp [moved])
  | noMemTable => exact absurd hactive (by simp [withTable])
  | done m₁ m' r w' ha' hne hr hnew =>
    have h₁ := h.flushTable (by omega) hf
    simp only [maybeTriggerCompactionInternal]
    split
    · obtain ⟨ok, e₂, w₂, hc⟩ : ∃ ok e' w', triggerCompactionInternal hash heaps .ok
          { e.withTable .ok r (built hash m₁ e w) with active := some m' } w₁ = (.returned ok, e', w') :=
        h₁.compaction_returns
      rw [show FlushIO.ok.compaction = .ok from rfl, hc]
      exact ⟨_, _, rfl⟩
    · exact ⟨_, _, rfl⟩

/-- Behind a flush the log is as before or empty. -/
theorem flush_log (hp : e.config.walPath ≠ []) (hlog : PlainLog w.disk)
    (hf : flushMemTableInternal hash heaps .ok e w = (.returned (), e', w')) : PlainLog w'.disk := by
  -- an empty log is plain
  have hempty : ∀ {d : Disk}, Logs d [] → PlainLog d := fun h => ⟨[], h, fun r hr => absurd hr List.not_mem_nil⟩
  rw [flushMemTableInternal_eq] at hf
  have hcases := flushTable_cases hash .ok e w
  generalize StorageEngine.flushTable hash .ok e w = r at hf hcases
  cases hcases with
  | idle _ =>
    obtain ⟨-, hw⟩ := Prod.mk.inj (Prod.mk.inj hf).2
    exact hw ▸ hlog
  | notBuilt => exact absurd (Prod.mk.inj hf).1 (by simp)
  | notOpened => exact absurd (Prod.mk.inj hf).1 (by simp)
  | noMemTable => exact absurd (Prod.mk.inj hf).1 (by simp)
  | done m m' r w₁ ha hne hr hnew =>
    -- the log was truncated before the new memtable opened it
    obtain ⟨-, -, hwal⟩ := installedWorld_ok hash m e w
    obtain ⟨m'', w'', hnew', hopened⟩ :=
      new_logs (fun hp => Or.inl (hwal hp)) fun r hr => absurd hr List.not_mem_nil
    obtain ⟨-, rfl⟩ := Prod.mk.inj (hnew'.symm.trans hnew)
    have hplain : PlainLog w''.disk := hempty (hopened.log hp)
    simp only [maybeTriggerCompactionInternal] at hf
    split at hf
    · obtain ⟨o, e₂, w₂, hc⟩ : ∃ o e₂ w₂, triggerCompactionInternal hash heaps FlushIO.ok.compaction
          { e.withTable .ok r (built hash m e w) with active := some m' } w'' = (o, e₂, w₂) := ⟨_, _, _, rfl⟩
      have hsame := wal_compaction hash heaps FlushIO.ok.compaction
        { e.withTable .ok r (built hash m e w) with active := some m' } w''
      rw [hc] at hf hsame
      cases o with
      | returned ok =>
        obtain ⟨-, rfl⟩ := Prod.mk.inj (Prod.mk.inj hf).2
        exact hplain.congr hsame
      | threw what => exact absurd (Prod.mk.inj hf).1 (by simp)
      | undefined => exact absurd (Prod.mk.inj hf).1 (by simp)
    · obtain ⟨-, rfl⟩ := Prod.mk.inj (Prod.mk.inj hf).2
      exact hplain

/-- **A good call returns.** Only an explicit compaction may return false. -/
theorem Request.Good.returns {c : Request} (h : c.Good hash s) (hs : Serving hash s) (heaps : Heaps) :
    ∃ ok s', s.step hash heaps c.op = (.returned ok, s') ∧ (c = .triggerCompaction ∨ ok = true) ∧
      PlainLog s'.world.disk := by
  obtain ⟨m, ha, hfresh⟩ := hs.steady.active
  have hroom := h.room
  unfold System.HasRoom at hroom
  cases c with
  | put key value now =>
    -- the Put that fills the buffer flushes, and the flush truncates the log
    have hlog := hs.log.write (r := ⟨.put, key, value, now⟩) ⟨⟨h.short.1, h.short.2⟩, h.readable⟩ m
    have hw : Steady hash { s.engine with active := some (m.applyPut key value) }
        (MemTable.writeWorld ⟨.put, key, value, now⟩ m s.world).disk := hs.steady.put ha h.short.1 h.short.2
    rw [Request.op, step_put_ok ha hfresh.mutable]
    split
    · rename_i hfull
      obtain ⟨e', w', hf⟩ : ∃ e' w', flushMemTableInternal hash heaps .ok
          { s.engine with active := some (m.applyPut key value) }
          (MemTable.writeWorld ⟨.put, key, value, now⟩ m s.world) = (.returned (), e', w') := by
        refine hw.flush_returns hroom fun m' hm' => Or.inr ?_
        rw [← Option.some.inj hm']
        exact h.table m ha hfull
      have hplain : PlainLog w'.disk := flush_log (show ({ s.engine with
        active := some (m.applyPut key value) } : StorageEngine).config.walPath ≠ [] from hs.logged) hlog hf
      rw [hf]
      exact ⟨true, _, rfl, Or.inr rfl, hplain⟩
    · exact ⟨true, _, rfl, Or.inr rfl, hlog⟩
  | delete key now =>
    have hplain : Plain ⟨.delete, key, [], now⟩ := ⟨⟨h.short, by norm_num⟩, h.readable⟩
    rw [Request.op, step_delete_ok ha hfresh.mutable]
    exact ⟨true, _, rfl, Or.inr rfl, hs.log.write hplain m⟩
  | flushMemTable =>
    obtain ⟨e', w', hf⟩ : ∃ e' w',
        flushMemTableInternal hash heaps .ok s.engine s.world = (.returned (), e', w') :=
      hs.steady.flush_returns hroom h.table
    simp only [Request.op, System.step, StorageEngine.flushMemTable, hf]
    exact ⟨true, _, rfl, Or.inr rfl, flush_log hs.logged hs.log hf⟩
  | triggerCompaction =>
    -- a compaction may return false, which the map does not see
    obtain ⟨ok, e', w', hc⟩ : ∃ ok e' w', triggerCompactionInternal hash heaps .ok s.engine s.world =
      (.returned ok, e', w') := hs.steady.compaction_returns
    have hsame := wal_compaction hash heaps .ok s.engine s.world
    rw [hc] at hsame
    simp only [Request.op, System.step, StorageEngine.triggerCompaction, hc]
    exact ⟨ok, _, rfl, Or.inl trivial, hs.log.congr hsame⟩
  | close =>
    obtain ⟨e', w', hf⟩ : ∃ e' w',
        flushMemTableInternal hash heaps .ok s.engine s.world = (.returned (), e', w') :=
      hs.steady.flush_returns hroom h.table
    simp only [Request.op, System.step, close_eq, hf]
    exact ⟨true, _, rfl, Or.inr rfl, flush_log hs.logged hs.log hf⟩
  | reopen writeBufferSize compactionThreshold =>
    -- the constructor reads the log and leaves it as it is
    obtain ⟨rs, ts, hkept⟩ := hs.kept
    obtain ⟨rs', hlog, hrs⟩ := hs.log
    obtain ⟨e', w', hnew, -, -, -⟩ := hkept.live_new hs.logged rfl (show ({ s.engine.config with
      writeBufferSize := writeBufferSize, compactionThreshold := compactionThreshold } :
        Config).dbDir = _ from rfl) rfl
    obtain ⟨-, -, m', -, hmem, -⟩ := new_engine hnew
    obtain ⟨m'', w'', hnew', hopened⟩ := new_logs (fun _ => Or.inl hlog) fun r hr => (hrs r hr).short
    obtain ⟨-, rfl⟩ := Prod.mk.inj (hnew'.symm.trans hmem)
    simp only [Request.op, System.step, hnew]
    exact ⟨true, _, rfl, Or.inr rfl, rs', hopened.log hs.logged, hrs⟩

/-- **A good call** serves on, and the live values behind it are those with its write. -/
theorem Serving.step (hs : Serving hash s) {c : Request} (h : c.Good hash s) (heaps : Heaps) :
    ∃ ok s', s.step hash heaps c.op = (.returned ok, s') ∧ (c = .triggerCompaction ∨ ok = true) ∧ Serving hash s' ∧
      s'.engine.liveValue hash = match c.write with
        | none => s.engine.liveValue hash
        | some x => Function.update (s.engine.liveValue hash) x.1 x.2 := by
  obtain ⟨ok, s', hstep, hok, hlog⟩ := h.returns hs heaps
  obtain ⟨rs, ts, hkept⟩ := hs.kept
  have hsound := h.sound hs
  have hshort : c.op.Short := by
    cases c <;> exact h.short
  have hstepped := hkept.step h.room hshort hsound hstep
  have hafter := hkept.after hs.logged h.room hshort hsound hstep
  refine ⟨ok, s', hstep, hok, ⟨hs.steady.step h.short h.room hstep, hstepped.kept, ?_, hlog⟩, ?_⟩
  · rw [hstepped.walPath]
    exact hs.logged
  · have hwrite : c.op.write = c.write := by cases c <;> rfl
    unfold Op.After at hafter
    rw [hwrite] at hafter
    cases hw : c.write with
    | none =>
      rw [hw] at hafter
      exact hafter
    | some x =>
      rw [hw] at hafter
      have htrue : ok = true := hok.resolve_left fun hc => by
        rw [hc] at hw
        exact absurd hw (by simp [Request.write])
      rcases hafter with ⟨ho, -⟩ | ⟨-, hlive⟩
      · simp [htrue] at ho
      · exact hlive

/-! ## The map -/

def inRange (startKey endKey key : Bytes) : Bool := decide (startKey ≤ key ∧ (endKey = [] ∨ key ≤ endKey))

/-- What a map answers to a call, and the map behind it. -/
def Engine.allowed : Specification api Engine
  | m, .put key value, r, m' => r = .returned true ∧ m' = m.put key value
  | m, .delete key, r, m' => r = .returned true ∧ m' = m.delete key
  | m, .find key, r, m' => Bindings.answer r = m.get key ∧ m' = m
  | m, .scan startKey endKey limit, r, m' => r = .ok (upTo limit (m.scan (inRange startKey endKey))) ∧ m' = m
  | m, .prefixScan pre limit, r, m' => r = .ok (upTo limit (m.prefixScan pre)) ∧ m' = m
  | m, .triggerCompaction, r, m' => (∃ ok, r = .returned ok) ∧ m' = m
  | m, .flushMemTable, r, m' => r = .returned true ∧ m' = m
  | m, .close, r, m' => r = .returned true ∧ m' = m
  | m, .reopen _ _, r, m' => r = .returned true ∧ m' = m

/-- The call that changes something, at a time. -/
def ApiCall.request (now : Int64) : ApiCall → Option Request
  | .put key value => some (.put key value now)
  | .delete key => some (.delete key now)
  | .flushMemTable => some .flushMemTable
  | .triggerCompaction => some .triggerCompaction
  | .close => some .close
  | .reopen writeBufferSize compactionThreshold => some (.reopen writeBufferSize compactionThreshold)
  | _ => none

/-- What a call needs; a scan needs that no tie matters. -/
def ApiCall.Good (hash : Bytes → UInt64) (clock : System → Int64) (s : System) (c : ApiCall) : Prop :=
  match c with
  | .find _ => True
  | .scan _ _ _ => TieHarmless hash s.engine
  | .prefixScan _ _ => TieHarmless hash s.engine
  | c => ∀ r ∈ c.request (clock s), r.Good hash s

structure Represents (hash : Bytes → UInt64) (s : System) (m : Engine) : Prop where
  serving : Serving hash s
  live : ∀ key, s.engine.liveValue hash key = m.get key

variable {m : Engine} {clock : System → Int64}

/-- The live pairs are those of the map. -/
theorem Represents.livePairs (h : Represents hash s m) {startKey endKey : Bytes} {L : List (Bytes × Bytes)}
    (hL : LivePairs (s.engine.liveValue hash) startKey endKey L) : L = m.scan (inRange startKey endKey) := by
  refine (OrderedMap.scan_ext hL.asc fun key value => ?_).symm
  rw [hL.mem, h.live, inRange, decide_eq_true_eq]
  exact ⟨fun ⟨h1, h2, h3⟩ => ⟨h3, h1, h2⟩, fun ⟨h3, h1, h2⟩ => ⟨h1, h2, h3⟩⟩

theorem Represents.scan (h : Represents hash s m) (htie : TieHarmless hash s.engine) (heaps : Heaps)
    (startKey endKey : Bytes) (limit : ℕ) : s.engine.scan heaps startKey endKey limit s.world.disk =
      .ok (upTo limit (m.scan (inRange startKey endKey))) := by
  obtain ⟨L, hL, hscan⟩ := scan_spec heaps h.serving.steady.tables
    (fun key x hx => h.serving.steady.preferred htie hx) startKey endKey limit
  rw [← h.livePairs hL]
  exact hscan

theorem Represents.prefixScan (h : Represents hash s m) (htie : TieHarmless hash s.engine) (heaps : Heaps)
    (pre : Bytes) (limit : ℕ) :
    s.engine.prefixScan heaps pre limit s.world.disk = .ok (upTo limit (m.prefixScan pre)) := by
  obtain ⟨⟨L, hscan, hstarts⟩, -⟩ := h.serving.steady.tables.filtersScan heaps pre limit
  have hall : L = m.scan (inRange pre []) := by
    have hmap := h.scan htie heaps pre [] 0
    exact Except.ok.inj (hscan.symm.trans hmap)
  have hfilter : L.filter (fun x => pre.isPrefixOf x.1) = m.prefixScan pre := by
    rw [hall]
    unfold Engine.prefixScan OrderedMap.scan
    rw [List.filter_filter]
    refine List.filter_congr fun x hx => ?_
    change (pre.isPrefixOf x.1 && inRange pre [] x.1) = pre.isPrefixOf x.1
    cases hpre : pre.isPrefixOf x.1 with
    | true =>
      have hle : pre ≤ x.1 := prefix_le (List.isPrefixOf_iff_prefix.1 hpre)
      simp [inRange, hle]
    | false => rfl
  rw [hstarts, hfilter]

/-- The map behind a write. -/
def Engine.written (x : Option (Bytes × Option Bytes)) (m : Engine) : Engine :=
  match x with
  | none => m
  | some (key, some value) => m.put key value
  | some (key, none) => m.delete key

/-- A call that changes something. -/
theorem Represents.request (h : Represents hash s m) {c : Request} (hc : c.Good hash s) (heaps : Heaps) :
    (∃ ok, (s.step hash heaps c.op).1 = .returned ok ∧ (c = .triggerCompaction ∨ ok = true)) ∧
      Represents hash (s.step hash heaps c.op).2 (m.written c.write) := by
  obtain ⟨ok, s', hstep, hok, hserving, hlive⟩ := h.serving.step hc heaps
  rw [hstep]
  refine ⟨⟨ok, rfl, hok⟩, hserving, fun key => ?_⟩
  simp only
  rw [hlive]
  cases hw : c.write with
  | none => exact h.live key
  | some x =>
    obtain ⟨k, v⟩ := x
    cases v with
    | some value => simp only [Engine.written, Function.update_apply, OrderedMap.get_put, h.live, eq_comm]
    | none => simp only [Engine.written, Function.update_apply, OrderedMap.get_delete, h.live, eq_comm]

theorem Represents.request_true (h : Represents hash s m) {c : Request} (hc : c.Good hash s) (heaps : Heaps)
    (hne : c ≠ .triggerCompaction) : (s.step hash heaps c.op).1 = .returned true ∧
      Represents hash (s.step hash heaps c.op).2 (m.written c.write) := by
  obtain ⟨⟨ok, hret, hok⟩, hrep⟩ := h.request hc heaps
  rw [hok.resolve_left hne] at hret
  exact ⟨hret, hrep⟩

/-- **The engine simulates the map.** -/
theorem represents_simulates (hash : Bytes → UInt64) (heaps : Heaps) (clock : System → Int64) :
    Simulates (System.machine hash heaps clock) Engine.allowed (ApiCall.Good hash clock) (Represents hash) := by
  intro s m c h hgood
  cases c with
  | put key value =>
    obtain ⟨hret, hrep⟩ := h.request_true (hgood _ rfl) heaps (by simp)
    exact ⟨_, ⟨hret, rfl⟩, hrep⟩
  | delete key =>
    obtain ⟨hret, hrep⟩ := h.request_true (hgood _ rfl) heaps (by simp)
    exact ⟨_, ⟨hret, rfl⟩, hrep⟩
  | find key => exact ⟨m, ⟨h.live key, rfl⟩, h⟩
  | scan startKey endKey limit => exact ⟨m, ⟨h.scan hgood heaps startKey endKey limit, rfl⟩, h⟩
  | prefixScan pre limit => exact ⟨m, ⟨h.prefixScan hgood heaps pre limit, rfl⟩, h⟩
  | flushMemTable =>
    obtain ⟨hret, hrep⟩ := h.request_true (hgood _ rfl) heaps (by simp)
    exact ⟨m, ⟨hret, rfl⟩, hrep⟩
  | triggerCompaction =>
    obtain ⟨⟨ok, hret, -⟩, hrep⟩ := h.request (hgood _ rfl) heaps
    exact ⟨m, ⟨⟨ok, hret⟩, rfl⟩, hrep⟩
  | close =>
    obtain ⟨hret, hrep⟩ := h.request_true (hgood _ rfl) heaps (by simp)
    exact ⟨m, ⟨hret, rfl⟩, hrep⟩
  | reopen writeBufferSize compactionThreshold =>
    obtain ⟨hret, hrep⟩ := h.request_true (hgood _ rfl) heaps (by simp)
    exact ⟨m, ⟨hret, rfl⟩, hrep⟩

/-- An empty directory is the empty map. -/
theorem represents_fresh (hash : Bytes → UInt64) (hdir : newline ∉ config.dbDir) (hp : config.walPath ≠ [])
    (hopen : StorageEngine.new config .ok (World.ofDisk Disk.empty) = (.ok e, w)) :
    Represents hash ⟨e, w⟩ OrderedMap.empty := by
  obtain ⟨⟨hwal, hkept⟩, hempty⟩ := kept_fresh hash hdir hp hopen
  obtain ⟨-, -, m, -, hmem, -⟩ := new_engine hopen
  have hlog : config.walPath ≠ [] → WAL.Logs (World.ofDisk Disk.empty).disk [] ∨
      (World.ofDisk Disk.empty).disk.wal = none ∧ ([] : List LogRecord) = [] := fun _ => Or.inr ⟨rfl, rfl⟩
  obtain ⟨m', w', hnew, hopened⟩ := new_logs hlog fun r hr => absurd hr List.not_mem_nil
  obtain ⟨-, rfl⟩ := Prod.mk.inj (hnew.symm.trans hmem)
  refine ⟨⟨steady_fresh hopen, hkept, ?_, [], hopened.log hp, fun r hr => absurd hr List.not_mem_nil⟩,
    fun key => ?_⟩
  · change e.config.walPath = config.walPath at hwal
    rw [hwal]
    exact hp
  · rw [hempty]
    rfl

/-- **Every client gets from the engine what the map allows.** -/
theorem engine_refines_map (hdir : newline ∉ config.dbDir) (hp : config.walPath ≠ [])
    (hopen : StorageEngine.new config .ok (World.ofDisk Disk.empty) = (.ok e, w)) {α : Type}
    (client : Client api α)
    (hmeets : (System.machine hash heaps clock).Meets (ApiCall.Good hash clock) client ⟨e, w⟩) :
    ∃ m', Engine.allowed.Allows client OrderedMap.empty
      ((System.machine hash heaps clock).run client ⟨e, w⟩).1 m' ∧
      Represents hash ((System.machine hash heaps clock).run client ⟨e, w⟩).2 m' :=
  (represents_simulates hash heaps clock).run (represents_fresh hash hdir hp hopen) hmeets

instance (r : Request) : Decidable r.Readable :=
  match r with
  | .put key _ _ => inferInstanceAs (Decidable (¬ HidesTimestamp key))
  | .delete key _ => inferInstanceAs (Decidable (¬ HidesTimestamp key))
  | .flushMemTable => .isTrue trivial
  | .triggerCompaction => .isTrue trivial
  | .close => .isTrue trivial
  | .reopen _ _ => .isTrue trivial

instance (r : Request) (s : System) : Decidable (r.TableFits hash s) :=
  match r with
  | .put key value _ => inferInstanceAs (Decidable (∀ m ∈ s.engine.active,
      s.engine.config.writeBufferSize ≤ (m.applyPut key value).approxMemoryUsage →
        Builds hash .ok (m.applyPut key value) s.engine))
  | .flushMemTable =>
    inferInstanceAs (Decidable (∀ m ∈ s.engine.active, m.empty = true ∨ Builds hash .ok m s.engine))
  | .close => inferInstanceAs (Decidable (∀ m ∈ s.engine.active, m.empty = true ∨ Builds hash .ok m s.engine))
  | .delete _ _ => .isTrue trivial
  | .triggerCompaction => .isTrue trivial
  | .reopen _ _ => .isTrue trivial

/-- A good call that neither scans nor compacts two tables with one file id. -/
def ApiCall.Untied (hash : Bytes → UInt64) (clock : System → Int64) (s : System) (c : ApiCall) : Prop :=
  (c.request (clock s) = none → (fileIds s.engine.sstables).Nodup) ∧ ∀ r ∈ c.request (clock s),
    r.Short ∧ r.Readable ∧ s.HasRoom ∧ r.TableFits hash s ∧
      ∀ p ∈ compactionPoint hash r.op s, (fileIds p.engine.sstables).Nodup

instance (c : ApiCall) (now : Int64) : Decidable (c.request now = none) :=
  decidable_of_iff ((c.request now).isNone = true) Option.isNone_iff_eq_none

instance (s : System) (c : ApiCall) : Decidable (c.Untied hash clock s) :=
  inferInstanceAs (Decidable ((c.request (clock s) = none → (fileIds s.engine.sstables).Nodup) ∧
    ∀ r ∈ c.request (clock s), r.Short ∧ r.Readable ∧ s.HasRoom ∧ r.TableFits hash s ∧
      ∀ p ∈ compactionPoint hash r.op s, (fileIds p.engine.sstables).Nodup))

theorem ApiCall.Untied.good {c : ApiCall} (h : c.Untied hash clock s) : c.Good hash clock s := by
  have hrequest : ∀ r ∈ c.request (clock s), r.Good hash s := by
    intro r hr
    obtain ⟨hshort, hread, hroom, hfits, hties⟩ := h.2 r hr
    exact ⟨hshort, hread, hroom, hfits, fun p hp => .of_nodup (hties p hp)⟩
  cases c with
  | find key => exact trivial
  | scan startKey endKey limit => exact .of_nodup (h.1 rfl)
  | prefixScan pre limit => exact .of_nodup (h.1 rfl)
  | put key value => exact hrequest
  | delete key => exact hrequest
  | flushMemTable => exact hrequest
  | triggerCompaction => exact hrequest
  | close => exact hrequest
  | reopen writeBufferSize compactionThreshold => exact hrequest

/-- Two puts and a deletion; the database is closed, opened again and read. -/
def sampleClient : Client api (Except Bytes (List (Bytes × Bytes))) :=
  .call (.put (bytes "a") (bytes "1")) fun _ => .call (.put (bytes "b") (bytes "2")) fun _ =>
    .call (.delete (bytes "a")) fun _ => .call .close fun _ => .call (.reopen 1000 4) fun _ =>
      .call (.scan [] [] 0) .ret

theorem engine_refines_map_sample : ∃ m', Engine.allowed.Allows sampleClient OrderedMap.empty
    ((System.machine (fun _ => 0) firstInHeaps fun _ => 0).run sampleClient
      ⟨loggedEngine 1000 4, loggedDisk⟩).1 m' ∧
      Represents (fun _ => 0) ((System.machine (fun _ => 0) firstInHeaps fun _ => 0).run sampleClient
        ⟨loggedEngine 1000 4, loggedDisk⟩).2 m' := by
  have hopen : StorageEngine.new (loggedEngine 1000 4).config .ok (World.ofDisk Disk.empty) =
      (.ok (loggedEngine 1000 4), loggedDisk) := rfl
  have huntied : (System.machine (fun _ => 0) firstInHeaps fun _ => 0).Meets
    (ApiCall.Untied (fun _ => 0) fun _ => 0)
      sampleClient ⟨loggedEngine 1000 4, loggedDisk⟩ := by decide +kernel
  exact engine_refines_map (by decide) (by decide) hopen sampleClient
    (Machine.Meets.mono (fun _ _ h => h.good) huntied)

end LsmTree
