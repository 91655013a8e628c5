import LsmTree.Proof.CrashPoints
import LsmTree.Proof.WriteBuffer

/-!
# Power losses

A `Device` is the durable content of the files and the changes to them that were not synced;
the engine syncs its log and nothing else. A power loss leaves the durable content and some
of the other changes (`Device.Leaves`).

* `power_loss_keeps`: **as long as nothing is flushed, every write that returned true is
  there again after a power loss**, at every moment.
* `power_loss_keeps_fails`: a flush truncates the log on the strength of a table and a line
  of the manifest that were not synced.
-/

namespace LsmTree

open Base StorageEngine WAL

variable {hash : Bytes → UInt64} {heaps : Heaps} {e : StorageEngine} {w : World} {s s' : System} {config : Config}
  {d : Disk} {rs : List LogRecord} {r : LogRecord}

/-! ## Devices -/

/-- The effect changes the log. -/
def Effect.onLog : Effect → Bool
  | .walOpen => true
  | .walAppend _ => true
  | .walTruncate => true
  | _ => false

structure Device where
  durable : Disk
  unsynced : List Effect

namespace Device

def empty : Device := ⟨.empty, []⟩

/-- A change to a file, or the sync of the log. -/
def perform (v : Device) : Effect → Device
  | .walSync => ⟨runEffects (v.unsynced.filter Effect.onLog) v.durable, v.unsynced.filter fun f => !f.onLog⟩
  | f => ⟨v.durable, v.unsynced ++ [f]⟩

/-- The device after these effects on an empty directory. -/
def after (es : List Effect) : Device := es.foldl perform empty

/-- The files that a power loss may leave. -/
def Leaves (v : Device) (d : Disk) : Prop := ∃ kept, kept.Sublist v.unsynced ∧ d = runEffects kept v.durable

theorem after_snoc (es : List Effect) (f : Effect) : after (es ++ [f]) = (after es).perform f := by
  unfold after
  rw [List.foldl_append]
  rfl

end Device

/-- There is no file but the log, which holds `b` or does not exist. -/
structure OnlyLog (d : Disk) (b : Bytes) : Prop where
  tables : d.tables = fun _ => none
  manifest : d.manifest = none
  log : d.wal.getD [] = b

theorem OnlyLog.walOpen {b : Bytes} (h : OnlyLog d b) : OnlyLog (Effect.walOpen.apply d) b :=
  ⟨h.tables, h.manifest, h.log⟩

theorem OnlyLog.walAppend {b : Bytes} (h : OnlyLog d b) (c : Bytes) :
    OnlyLog (Effect.apply (.walAppend c) d) (b ++ c) :=
  ⟨h.tables, h.manifest, by rw [← h.log]; rfl⟩

/-- The log is durable, but for its creation. -/
structure OnDevice (v : Device) (b : Bytes) : Prop where
  durable : OnlyLog v.durable b
  opens : ∀ f ∈ v.unsynced, f = .walOpen

namespace OnDevice

variable {v : Device} {b c : Bytes}

theorem runOpens {kept : List Effect} (hkept : ∀ f ∈ kept, f = .walOpen) : ∀ {d : Disk}, OnlyLog d b →
    OnlyLog (runEffects kept d) b := by
  induction kept with
  | nil => exact fun h => h
  | cons f fs ih =>
    intro d h
    rw [hkept f List.mem_cons_self]
    exact ih (fun g hg => hkept g (List.mem_cons_of_mem _ hg)) h.walOpen

/-- A power loss leaves the log. -/
theorem leaves (h : OnDevice v b) (hd : v.Leaves d) : OnlyLog d b := by
  obtain ⟨kept, hsub, rfl⟩ := hd
  exact runOpens (fun f hf => h.opens f (hsub.subset hf)) h.durable

theorem walOpen (h : OnDevice v b) : OnDevice (v.perform .walOpen) b := by
  refine ⟨h.durable, fun f hf => ?_⟩
  rcases List.mem_append.1 hf with hf | hf
  · exact h.opens f hf
  · exact List.mem_singleton.1 hf

/-- Before the sync, with the new line or without it. -/
theorem leaves_append (h : OnDevice v b) (hd : (v.perform (.walAppend c)).Leaves d) :
    OnlyLog d b ∨ OnlyLog d (b ++ c) := by
  obtain ⟨kept, hsub, rfl⟩ := hd
  obtain ⟨opened, last, rfl, hopened, hlast⟩ := List.sublist_append_iff.1 hsub
  have hbefore : OnlyLog (runEffects opened v.durable) b :=
    runOpens (fun f hf => h.opens f (hopened.subset hf)) h.durable
  have hrun : runEffects (opened ++ last) (v.perform (.walAppend c)).durable =
      runEffects last (runEffects opened v.durable) := by
    unfold runEffects
    exact List.foldl_append
  rw [hrun]
  rcases List.sublist_singleton.1 hlast with rfl | rfl
  · exact Or.inl hbefore
  · exact Or.inr (hbefore.walAppend c)

/-- After it, with the new line. -/
theorem synced (h : OnDevice v b) : OnDevice ((v.perform (.walAppend c)).perform .walSync) (b ++ c) := by
  have honly : ∀ f ∈ v.unsynced ++ [Effect.walAppend c], f.onLog = true := by
    intro f hf
    rcases List.mem_append.1 hf with hf | hf
    · rw [h.opens f hf]
      rfl
    · rw [List.mem_singleton.1 hf]
      rfl
  refine ⟨?_, fun f hf => ?_⟩
  · change OnlyLog (runEffects ((v.unsynced ++ [Effect.walAppend c]).filter Effect.onLog) v.durable) (b ++ c)
    rw [List.filter_eq_self.2 honly]
    unfold runEffects
    rw [List.foldl_append]
    exact (runOpens h.opens h.durable).walAppend c
  · change f ∈ (v.unsynced ++ [Effect.walAppend c]).filter fun f => !f.onLog at hf
    obtain ⟨hmem, hno⟩ := List.mem_filter.1 hf
    rw [honly f hmem] at hno
    exact absurd hno (by decide)

end OnDevice

/-! ## What is shown after it -/

/-- The lines of the records. -/
def logText (rs : List LogRecord) : Bytes := unlines (rs.map LogRecord.line)

/-- The record is short, and the replay does not stop at it. -/
structure Plain (r : LogRecord) : Prop where
  short : r.Short
  read : ¬ HidesTimestamp r.key

/-- **The log alone is recovered.** -/
theorem OnlyLog.recoverable (h : OnlyLog d (logText rs)) (hrs : ∀ r ∈ rs, Plain r) (dbDir : Bytes) :
    Recoverable hash dbDir d rs [] := by
  refine ⟨fun f content hf => ?_, fun r hr => absurd hr List.not_mem_nil, Or.inr ⟨h.manifest, rfl⟩, ?_,
    fun r hr => (hrs r hr).short⟩
  · rw [h.tables] at hf
    exact absurd hf (by simp)
  · have hopened : Logs (Effect.walOpen.apply d) rs := congrArg some h.log
    have hdecodes : Decodes (Effect.walOpen.apply d) rs := by
      unfold Decodes
      rw [hopened.recover, reached_eq fun r hr => (hrs r hr).read]
    cases hwal : d.wal with
    | some content => exact hdecodes.congr (by simp [Effect.apply, hwal])
    | none =>
      unfold Decodes WAL.recover at hdecodes ⊢
      rw [hwal]
      have hnil : (Effect.walOpen.apply d).wal = some [] := by simp [Effect.apply, hwal]
      rw [hnil] at hdecodes
      exact hdecodes

/-- Opened again, the database shows the last write of each key, but for those that a call
cut short may have overwritten. -/
def Reflects (hash : Bytes → UInt64) (config : Config) (d : Disk) (ws : List (Bytes × Option Bytes))
    (cut : Option (Bytes × Option Bytes)) : Prop :=
  ∃ v, Shows hash config d v ∧ ∀ key x, lastWrite ws key = some x → v key = x ∨ cut = some (key, v key)

theorem OnlyLog.reflects (h : OnlyLog d (logText rs)) (hrs : ∀ r ∈ rs, Plain r) (hdir : newline ∉ config.dbDir)
    (hp : config.walPath ≠ []) (cut : Option (Bytes × Option Bytes)) :
    Reflects hash config d (rs.map LogRecord.write) cut := by
  refine ⟨_, (h.recoverable hrs config.dbDir).shows hdir, fun key x hx => Or.inl ?_⟩
  unfold recoveredView view
  rw [stack_cons, logLayer_of_ne hp, hx]
  rfl

/-- With the record of the call itself. -/
theorem OnlyLog.reflects_last (h : OnlyLog d (logText (rs ++ [r]))) (hrs : ∀ t ∈ rs, Plain t) (hr : Plain r)
    (hdir : newline ∉ config.dbDir) (hp : config.walPath ≠ []) :
    Reflects hash config d (rs.map LogRecord.write) (some r.write) := by
  have hall : ∀ t ∈ rs ++ [r], Plain t := by
    intro t ht
    rcases List.mem_append.1 ht with ht | ht
    · exact hrs t ht
    · rw [List.mem_singleton.1 ht]
      exact hr
  refine ⟨_, (h.recoverable hall config.dbDir).shows hdir, fun key x hx => ?_⟩
  have hlast : recoveredView hash config.walPath (rs ++ [r]) [] key =
      (lastWrite ((rs ++ [r]).map LogRecord.write) key).join := by
    unfold recoveredView view
    rw [stack_cons, logLayer_of_ne hp, tableLayers_nil, stack_nil, Option.or_none]
  rw [hlast, List.map_append, List.map_singleton, lastWrite_snoc]
  by_cases hkey : key = r.write.1
  · right
    rw [hkey, Function.update_self]
    rfl
  · left
    rw [Function.update_of_ne hkey, hx]
    rfl

/-! ## Runs -/

namespace Request

/-- The key written and its value, `none` for a deletion. -/
def write : Request → Option (Bytes × Option Bytes)
  | .put key value _ => some (key, some value)
  | .delete key _ => some (key, none)
  | _ => none

/-- The write, if the call returned true. -/
def acknowledged (r : Request) (o : Outcome Bool) : List (Bytes × Option Bytes) :=
  if o = .returned true then r.write.toList else []

/-- The replay of the log does not stop at the key. -/
def Readable : Request → Prop
  | .put key _ _ => ¬ HidesTimestamp key
  | .delete key _ => ¬ HidesTimestamp key
  | _ => True

/-- The call finds nothing to flush. -/
def Unflushed (s : System) : Request → Prop
  | .put key value _ => ∀ m, s.engine.active = some m →
      (m.applyPut key value).approxMemoryUsage < s.engine.config.writeBufferSize
  | .flushMemTable => ∀ m, s.engine.active = some m → m.empty = true
  | .close => ∀ m, s.engine.active = some m → m.empty = true
  | _ => True

end Request

/-- The states that such calls lead to, with the writes that returned true. -/
inductive AckedRun (hash : Bytes → UInt64) (heaps : Heaps) (P : Request → System → Prop) (s₀ : System) :
    List (Bytes × Option Bytes) → System → Prop
  | start : AckedRun hash heaps P s₀ [] s₀
  | step {ws : List (Bytes × Option Bytes)} {s s' : System} {o : Outcome Bool} (r : Request)
    (h : AckedRun hash heaps P s₀ ws s) (hr : P r s) (hstep : s.step hash heaps r.op = (o, s'))
    (hdefined : o ≠ .undefined) :
    AckedRun hash heaps P s₀ (ws ++ r.acknowledged o) s'

/-- Keys and values are short, and the log can be read. -/
def Request.Logged (r : Request) (_ : System) : Prop := r.Short ∧ r.Readable

/-- And nothing is flushed. -/
def Request.LogOnly (r : Request) (s : System) : Prop := r.Logged s ∧ r.Unflushed s

/-- The records `rs` are in the log, on the device as well, and there is no table. -/
structure LogState (rs : List LogRecord) (s : System) : Prop where
  directory : newline ∉ s.engine.config.dbDir
  logged : s.engine.config.walPath ≠ []
  active : ∃ m, s.engine.active = some m ∧ m.isImmutable = false ∧ m.wal = true
  sstables : s.engine.sstables = []
  disk : OnlyLog s.world.disk (logText rs)
  device : OnDevice (.after s.world.trace) (logText rs)
  plain : ∀ r ∈ rs, Plain r

/-- The effects of a call, and what it leaves. -/
inductive LogStep (rs : List LogRecord) (s : System) (c : Request) : Outcome Bool × System → Prop
  | quiet {o : Outcome Bool} {s' : System} (ht : s'.world.trace = s.world.trace) (ho : c.acknowledged o = [])
    (h : LogState rs s') : LogStep rs s c (o, s')
  | opened {s' : System} (ht : s'.world.trace = s.world.trace ++ [.walOpen]) (hc : c.write = none)
    (h : LogState rs s') : LogStep rs s c (.returned true, s')
  | written {s' : System} {r : LogRecord} (hr : Plain r) (hc : c.write = some r.write)
    (ht : s'.world.trace = s.world.trace ++ [.walAppend (r.line ++ [newline]), .walSync])
    (h : LogState (rs ++ [r]) s') : LogStep rs s c (.returned true, s')

theorem logText_snoc (rs : List LogRecord) (r : LogRecord) :
    logText (rs ++ [r]) = logText rs ++ (r.line ++ [newline]) := by
  unfold logText
  rw [List.map_append, unlines_append]
  simp [unlines_cons, unlines_nil]

/-- A write into the memtable and its log. -/
theorem LogState.write (h : LogState rs s) {m m' : MemTable} (hm : m.wal = true) (hm' : m'.isImmutable = false)
    (hwal : m'.wal = true) (hr : Plain r) :
    LogState (rs ++ [r]) ⟨{ s.engine with active := some m' }, MemTable.writeWorld r m s.world⟩ ∧
      (MemTable.writeWorld r m s.world).trace = s.world.trace ++ [.walAppend (r.line ++ [newline]), .walSync] := by
  unfold MemTable.writeWorld
  rw [if_pos hm]
  refine ⟨⟨h.directory, h.logged, ⟨m', rfl, hm', hwal⟩, h.sstables, ?_, ?_, fun t ht => ?_⟩, ?_⟩
  · rw [logText_snoc]
    exact h.disk.walAppend _
  · rw [logText_snoc, World.trace_perform, World.trace_perform, Device.after_snoc, Device.after_snoc]
    exact h.device.synced
  · rcases List.mem_append.1 ht with ht | ht
    · exact h.plain t ht
    · rw [List.mem_singleton.1 ht]
      exact hr
  · rw [World.trace_perform, World.trace_perform, List.append_assoc]
    rfl

/-- The database is opened on its log. -/
theorem LogState.new (hdir : newline ∉ config.dbDir) (hp : config.walPath ≠ [])
    (hdisk : OnlyLog w.disk (logText rs))
    (hdevice : OnDevice (.after w.trace) (logText rs)) (hrs : ∀ r ∈ rs, Plain r) : ∃ e,
    StorageEngine.new config .ok w = (.ok e, w.perform .walOpen) ∧ LogState rs ⟨e, w.perform .walOpen⟩ := by
  have hfiles : Recoverable (fun _ => 0) config.dbDir w.disk rs [] := hdisk.recoverable hrs config.dbDir
  obtain ⟨m, n, w', hnew, hfresh, -, -⟩ := hfiles.opens hdir
  obtain ⟨-, -, m', -, hmem, -⟩ := new_engine hnew
  obtain rfl : w' = w.perform .walOpen := by
    rcases MemTable.new_end hmem with ⟨what, hno, -⟩ | ⟨hno, -, -⟩ | ⟨-, hw, -⟩
    · exact absurd hno (by simp)
    · exact absurd hno hp
    · exact hw
  refine ⟨_, hnew, hdir, hp, ⟨m, rfl, hfresh.mutable, hfresh.wal.2 hp⟩, rfl, hdisk.walOpen, ?_, hrs⟩
  rw [World.trace_perform, Device.after_snoc]
  exact hdevice.walOpen

/-- **One call that flushes nothing.** -/
theorem LogState.step (h : LogState rs s) {c : Request} (hc : c.LogOnly s) (hash : Bytes → UInt64)
    (heaps : Heaps) :
    LogStep rs s c (s.step hash heaps c.op) := by
  obtain ⟨⟨hshort, hread⟩, hunflushed⟩ := hc
  obtain ⟨m, ha, hm, hwal⟩ := h.active
  have hidle : ∀ {c : Request}, c.write = none → LogStep rs s c (.returned true, s) := by
    intro c hw
    refine .quiet rfl ?_ h
    unfold Request.acknowledged
    rw [hw]
    rfl
  have hnothing : m.empty = true →
      flushMemTableInternal hash heaps .ok s.engine s.world = (.returned (), s.engine, s.world) := fun hempty =>
    flush_idle (not_flushable (Or.inr ⟨m, ha, hempty⟩)) .ok s.world
  cases c with
  | put key value now =>
    -- the memtable stays below the write buffer, so Put does not flush
    have hplain : Plain ⟨.put, key, value, now⟩ := ⟨⟨hshort.1, hshort.2⟩, hread⟩
    have hm' : (m.applyPut key value).isImmutable = false := by rw [MemTable.isImmutable_applyPut, hm]
    have hwal' : (m.applyPut key value).wal = true := by rw [MemTable.wal_applyPut, hwal]
    obtain ⟨hnext, htrace⟩ := h.write hwal hm' hwal' hplain
    rw [Request.op, step_put_ok ha hm, if_neg (UInt64.not_le.2 (hunflushed m ha))]
    exact .written hplain rfl htrace hnext
  | delete key now =>
    -- Delete never flushes
    have hkey : key.length < 2 ^ 32 := hshort
    have hplain : Plain ⟨.delete, key, [], now⟩ := ⟨⟨hkey, by norm_num⟩, hread⟩
    have hm' : (m.applyDelete key).isImmutable = false := by rw [MemTable.isImmutable_applyDelete, hm]
    have hwal' : (m.applyDelete key).wal = true := by rw [MemTable.wal_applyDelete, hwal]
    obtain ⟨hnext, htrace⟩ := h.write hwal hm' hwal' hplain
    rw [Request.op, step_delete_ok ha hm]
    exact .written hplain rfl htrace hnext
  | flushMemTable =>
    have hstep : s.step hash heaps Request.flushMemTable.op = (.returned true, s) :=
      congrArg System.unit (hnothing (hunflushed m ha))
    rw [hstep]
    exact hidle rfl
  | triggerCompaction =>
    -- there is no table yet: a compaction finds no input, at most it has counted its id
    by_cases hth : s.engine.sstables.length < s.engine.config.compactionThreshold.toNat
    · have hstep : s.step hash heaps Request.triggerCompaction.op = (.returned true, s) := by
        simp only [Request.op, System.step, StorageEngine.triggerCompaction, triggerCompactionInternal]
        rw [if_pos hth]
      rw [hstep]
      exact hidle rfl
    · have hstep : s.step hash heaps Request.triggerCompaction.op =
          (.returned false, ⟨{ s.engine with idCounter := s.engine.idCounter + 1 }, s.world⟩) := by
        simp only [Request.op, System.step, StorageEngine.triggerCompaction]
        rw [triggerCompactionInternal_nil h.sstables hth]
      rw [hstep]
      exact .quiet rfl rfl ⟨h.directory, h.logged, h.active, h.sstables, h.disk, h.device, h.plain⟩
  | close =>
    have hstep : s.step hash heaps Request.close.op = (.returned true, s) :=
      congrArg System.unit ((close_eq .ok s.engine s.world).trans (hnothing (hunflushed m ha)))
    rw [hstep]
    exact hidle rfl
  | reopen writeBufferSize compactionThreshold =>
    -- the log is replayed into the memtable of the new engine
    have hdir : newline ∉ ({ s.engine.config with
      writeBufferSize := writeBufferSize, compactionThreshold := compactionThreshold } : Config).dbDir :=
        h.directory
    obtain ⟨e', hnew, hnext⟩ := LogState.new hdir h.logged h.disk h.device h.plain
    have hstep : s.step hash heaps (Request.reopen writeBufferSize compactionThreshold).op =
        (.returned true, ⟨e', s.world.perform .walOpen⟩) := by
      unfold Request.op System.step
      simp only [hnew]
    rw [hstep]
    exact .opened rfl rfl hnext

/-- **The writes that returned true are those in the log.** -/
theorem AckedRun.logState (hdir : newline ∉ config.dbDir) (hp : config.walPath ≠ [])
    (hopen : StorageEngine.new config .ok (World.ofDisk Disk.empty) = (.ok e, w))
    {ws : List (Bytes × Option Bytes)}
    (h : AckedRun hash heaps Request.LogOnly ⟨e, w⟩ ws s) :
    ∃ rs, ws = rs.map LogRecord.write ∧ LogState rs s := by
  induction h with
  | start =>
    have hdisk : OnlyLog (World.ofDisk Disk.empty).disk (logText []) := ⟨rfl, rfl, rfl⟩
    have hdevice : OnDevice (.after (World.ofDisk Disk.empty).trace) (logText []) :=
      ⟨⟨rfl, rfl, rfl⟩, fun f hf => absurd hf List.not_mem_nil⟩
    obtain ⟨e', hnew, hstate⟩ := LogState.new hdir hp hdisk hdevice fun r hr => absurd hr List.not_mem_nil
    obtain ⟨h1, rfl⟩ := Prod.mk.inj (hnew.symm.trans hopen)
    obtain rfl := Except.ok.inj h1
    exact ⟨[], rfl, hstate⟩
  | step c _ hc hstep _ ih =>
    obtain ⟨rs, rfl, hstate⟩ := ih
    have hlog := hstate.step hc hash heaps
    rw [hstep] at hlog
    cases hlog with
    | quiet _ ho hnext => exact ⟨rs, by rw [ho, List.append_nil], hnext⟩
    | opened _ hw hnext =>
      refine ⟨rs, ?_, hnext⟩
      unfold Request.acknowledged
      rw [hw]
      exact List.append_nil _
    | written _ hw _ hnext =>
      refine ⟨_, ?_, hnext⟩
      unfold Request.acknowledged
      rw [hw, List.map_append, List.map_singleton]
      rfl

/-! ## Flushes -/

/-- The effects of a flush, up to the manifest's line. -/
def flushEffects (hash : Bytes → UInt64) (m : MemTable) (e : StorageEngine) : List Effect :=
  [.tableCreate e.flushPath, .tableWrite e.flushPath (tableOf hash m), .manifestAppend (e.flushPath ++ [newline])]

theorem flush_trace {m : MemTable} (ha : e.active = some m) (hne : m.empty = false) {e' : StorageEngine}
    {w' : World} (hf : flushMemTableInternal hash heaps .ok e w = (.returned (), e', w')) :
    w.trace ++ flushEffects hash m e <+: w'.trace := by
  have hcases := flushTable_cases hash .ok e w
  rw [flushMemTableInternal_eq] at hf
  generalize StorageEngine.flushTable hash .ok e w = r at hcases hf
  cases hcases with
  | idle h =>
    rcases h with hno | ⟨m', ha', hempty⟩
    · exact absurd (ha.symm.trans hno) (by simp)
    · obtain rfl := Option.some.inj (ha.symm.trans ha')
      exact absurd (hne.symm.trans hempty) (by decide)
  | notBuilt _ _ _ _ => exact absurd (Prod.mk.inj hf).1 (by simp)
  | notOpened _ _ _ _ _ _ => exact absurd (Prod.mk.inj hf).1 (by simp)
  | noMemTable _ _ _ _ _ _ _ _ => exact absurd (Prod.mk.inj hf).1 (by simp)
  | done m₀ m' r w₁ ha' _ _ hnew =>
    obtain rfl := Option.some.inj (ha.symm.trans ha')
    have hadded : (e.manifest.addSSTable e.flushPath .ok (built hash m e w)).2.2.trace =
        w.trace ++ flushEffects hash m e := by
      simp [Manifest.addSSTable, built, flushEffects]
    -- everything else comes behind these effects
    have htruncated : Extends (e.manifest.addSSTable e.flushPath .ok (built hash m e w)).2.2
        (installedWorld hash .ok m e w) := Extends.opt _ _ _
    have hopened : Extends (installedWorld hash .ok m e w) w₁ := by
      rcases MemTable.new_end hnew with ⟨-, -, rfl⟩ | ⟨-, -, rfl⟩ | ⟨-, rfl, -⟩
      · exact Extends.rfl
      · exact Extends.rfl
      · exact Extends.one _ _
    have hcompacted := maybeCompaction_extends hash heaps FlushIO.ok.compaction
      { e.withTable .ok r (built hash m e w) with active := some m' } w₁
    simp only at hf
    rw [hf] at hcompacted
    rw [← hadded]
    exact Extends.trace ((htruncated.trans hopened).trans hcompacted)

/-- The table of a flush is created and listed, and has no content. -/
def StorageEngine.hollow (e : StorageEngine) (d : Disk) : Disk :=
  runEffects [.tableCreate e.flushPath, .manifestAppend (e.flushPath ++ [newline])] d

/-- The database does not open on it. -/
theorem not_shows_hollow (hdir : newline ∉ e.config.dbDir) (hnone : d.manifest = none) (config : Config)
    (v : Bytes → Option Bytes) : ¬ Shows hash config (e.hollow d) v := by
  intro hshows
  obtain ⟨e₁, w₁, hnew, -⟩ := hshows 0 0
  obtain ⟨ts, n, -, hrec, -, -⟩ := new_engine hnew
  have hmanifest : (e.hollow d).manifest = some (unlines [e.flushPath]) := by
    simp [hollow, runEffects, Effect.apply, hnone, unlines_cons, unlines_nil]
  have hload : Manifest.load (e.hollow d) = ⟨[e.flushPath]⟩ := load_unlines (Or.inl hmanifest) hdir fun f hf =>
    ⟨bytes "data_", by decide, e.idCounter.toNat, List.mem_singleton.1 hf⟩
  have hfile : (e.hollow d).tables e.flushPath = some [] := setTable_self _ _ _
  change recoverTables (e.hollow d) (Manifest.load (e.hollow d)).sstableFiles [] 0 = _ at hrec
  rw [hload] at hrec
  simp only [recoverTables, hfile] at hrec
  exact absurd hrec (by simp [SSTableReader.new, openTable, SSTableFooter.size])

/-- **After a power loss in a flush the database may not open.** -/
theorem flush_lost {m : MemTable} {b : Bytes} (hdir : newline ∉ e.config.dbDir) (ha : e.active = some m)
    (hne : m.empty = false) (hdevice : OnDevice (.after w.trace) b) {e' : StorageEngine} {w' : World}
    (hf : flushMemTableInternal hash heaps .ok e w = (.returned (), e', w')) :
    ∃ d, (Device.after (w'.trace.take (w.trace.length + 3))).Leaves d ∧ ∀ config v, ¬ Shows hash config d v := by
  have htake : w'.trace.take (w.trace.length + 3) = w.trace ++ flushEffects hash m e := by
    have hlen : w.trace.length + 3 = (w.trace ++ flushEffects hash m e).length := by
      rw [List.length_append]
      rfl
    rw [hlen]
    exact (List.prefix_iff_eq_take.1 (flush_trace ha hne hf)).symm
  have hafter : Device.after (w.trace ++ flushEffects hash m e) =
      ⟨(Device.after w.trace).durable, (Device.after w.trace).unsynced ++ flushEffects hash m e⟩ := by
    unfold Device.after flushEffects
    rw [List.foldl_append]
    simp [Device.perform]
  rw [htake, hafter]
  have hsub : [Effect.tableCreate e.flushPath, .manifestAppend (e.flushPath ++ [newline])].Sublist
      (flushEffects hash m e) := .cons_cons _ (.cons _ (.cons_cons _ .slnil))
  exact ⟨e.hollow (Device.after w.trace).durable,
    ⟨_, (List.nil_sublist (Device.after w.trace).unsynced).append hsub, rfl⟩,
    not_shows_hollow hdir hdevice.durable.manifest⟩

/-- **A call that flushes**, and returns. -/
theorem LogState.flushed (h : LogState rs s) {c : Request} (hc : c.Logged s) (hflush : ¬ c.Unflushed s) {ok : Bool}
    (hstep : s.step hash heaps c.op = (.returned ok, s')) :
    ∃ n d, (Device.after (s'.world.trace.take (s.world.trace.length + n))).Leaves d ∧
      ∀ config v, ¬ Shows hash config d v := by
  obtain ⟨m, ha, hm, hwal⟩ := h.active
  -- of the effects of a flush the first three are enough: table, manifest, truncation
  have hnow : m.empty = false → System.unit (flushMemTableInternal hash heaps .ok s.engine s.world) =
      (.returned ok, s') → ∃ n d, (Device.after (s'.world.trace.take (s.world.trace.length + n))).Leaves d ∧
        ∀ config v, ¬ Shows hash config d v := fun hne hunit =>
    ⟨3, flush_lost h.directory ha hne h.device (System.unit_returned hunit)⟩
  have hfull : (¬ ∀ m, s.engine.active = some m → m.empty = true) → m.empty = false := by
    intro hno
    by_contra hempty
    refine hno fun m' ha' => ?_
    obtain rfl := Option.some.inj (ha.symm.trans ha')
    simpa using hempty
  cases c with
  | put key value now =>
    have hread : ¬ HidesTimestamp key := hc.2
    have hplain : Plain ⟨.put, key, value, now⟩ := ⟨⟨hc.1.1, hc.1.2⟩, hread⟩
    have hm' : (m.applyPut key value).isImmutable = false := by rw [MemTable.isImmutable_applyPut, hm]
    have hwal' : (m.applyPut key value).wal = true := by rw [MemTable.wal_applyPut, hwal]
    obtain ⟨hnext, htrace⟩ := h.write hwal hm' hwal' hplain
    -- with the two of the write before them they are five
    have hdue : s.engine.config.writeBufferSize ≤ (m.applyPut key value).approxMemoryUsage := by
      by_contra hroom
      refine hflush fun m' ha' => ?_
      obtain rfl := Option.some.inj (ha.symm.trans ha')
      exact UInt64.not_le.1 hroom
    rw [Request.op, step_put_ok ha hm, if_pos hdue] at hstep
    obtain ⟨d, hd, hno⟩ := flush_lost hnext.directory rfl (MemTable.empty_applyPut key value m) hnext.device
      (System.unit_returned hstep)
    refine ⟨5, d, ?_, hno⟩
    rw [htrace, List.length_append] at hd
    exact hd
  | delete key now => exact absurd trivial hflush
  | flushMemTable => exact hnow (hfull hflush) hstep
  | triggerCompaction => exact absurd trivial hflush
  | close => exact hnow (hfull hflush) (step_close hstep)
  | reopen writeBufferSize compactionThreshold => exact absurd trivial hflush

/-! ## Power losses -/

/-- At every moment of a call a power loss leaves the writes that returned true. -/
def Survives (hash : Bytes → UInt64) (heaps : Heaps) (ws : List (Bytes × Option Bytes)) (s : System)
    (c : Request) :
    Prop :=
  ∀ n d, (Device.after ((s.step hash heaps c.op).2.world.trace.take (s.world.trace.length + n))).Leaves d →
    Reflects hash s.engine.config d ws c.write

/-- **A call that flushes nothing** is survived at every moment. -/
theorem LogState.survives (hstate : LogState rs s) {c : Request} (hc : c.LogOnly s) :
    Survives hash heaps (rs.map LogRecord.write) s c := by
  intro n d hloss
  have hlog := hstate.step hc hash heaps
  generalize s.step hash heaps c.op = r at hlog hloss
  have hkept : OnlyLog d (logText rs) → Reflects hash s.engine.config d (rs.map LogRecord.write) c.write :=
    fun h => h.reflects hstate.plain hstate.directory hstate.logged _
  cases hlog with
  | quiet ht _ _ =>
    -- no effect at all
    simp only [ht] at hloss
    rw [List.take_of_length_le (by omega)] at hloss
    exact hkept (hstate.device.leaves hloss)
  | opened ht _ _ =>
    -- the log is opened, which writes nothing
    simp only [ht] at hloss
    rw [List.take_length_add_append] at hloss
    rcases n with _ | n
    · rw [List.take_zero, List.append_nil] at hloss
      exact hkept (hstate.device.leaves hloss)
    · rw [List.take_of_length_le (by simp), Device.after_snoc] at hloss
      exact hkept (hstate.device.walOpen.leaves hloss)
  | written hr hw ht hnext =>
    simp only [ht] at hloss
    rw [List.take_length_add_append] at hloss
    rw [hw] at hkept ⊢
    rcases n with _ | _ | n
    · rw [List.take_zero, List.append_nil] at hloss
      exact hkept (hstate.device.leaves hloss)
    · -- the line is written and not synced
      rw [List.take_succ_cons, List.take_zero, Device.after_snoc] at hloss
      rcases hstate.device.leaves_append hloss with h | h
      · exact hkept h
      · rw [← logText_snoc] at h
        exact h.reflects_last hstate.plain hr hstate.directory hstate.logged
    · rw [List.take_of_length_le (by simp), ← ht] at hloss
      exact (hnext.device.leaves hloss).reflects_last hstate.plain hr hstate.directory hstate.logged

/-- **After a power loss every write that returned true is there again**, as long as nothing
is flushed. A flush that returns can leave files on which the database does not open. -/
theorem power_loss_keeps (hdir : newline ∉ config.dbDir) (hp : config.walPath ≠ [])
    (hopen : StorageEngine.new config .ok (World.ofDisk Disk.empty) = (.ok e, w))
    {ws : List (Bytes × Option Bytes)}
    (hrun : AckedRun hash heaps Request.LogOnly ⟨e, w⟩ ws s) {c : Request} (hc : c.Logged s) :
    (c.Unflushed s → Survives hash heaps ws s c) ∧
      ((∃ ok, (s.step hash heaps c.op).1 = .returned ok) → Survives hash heaps ws s c → c.Unflushed s) := by
  obtain ⟨rs, rfl, hstate⟩ := hrun.logState hdir hp hopen
  refine ⟨fun hquiet => hstate.survives ⟨hc, hquiet⟩, fun ⟨ok, hok⟩ hsurvives => ?_⟩
  by_contra hflush
  obtain ⟨o, s', hstep⟩ : ∃ o s', s.step hash heaps c.op = (o, s') := ⟨_, _, rfl⟩
  rw [hstep] at hok
  obtain rfl : o = .returned ok := hok
  obtain ⟨n, d, hd, hno⟩ := hstate.flushed hc hflush hstep
  obtain ⟨v, hshows, -⟩ := hsurvives n d (by rw [hstep]; exact hd)
  exact hno _ v hshows

/-- One entry is put. -/
def putFirst : Request := .put (bytes "a") (bytes "1") 0

def putState : System :=
  ((⟨loggedEngine 1000 4, loggedDisk⟩ : System).step (fun _ => 0) firstInHeaps putFirst.op).2

theorem putState_run {P : Request → System → Prop} (h : P putFirst ⟨loggedEngine 1000 4, loggedDisk⟩) :
    AckedRun (fun _ => 0) firstInHeaps P ⟨loggedEngine 1000 4, loggedDisk⟩
      [(bytes "a", some (bytes "1"))] putState := by
  have hstep : (⟨loggedEngine 1000 4, loggedDisk⟩ : System).step (fun _ => 0) firstInHeaps putFirst.op =
      (.returned true, putState) := Prod.ext (by decide +kernel) rfl
  exact AckedRun.start.step putFirst h hstep (by decide)

theorem not_hidesTimestamp_a : ¬ HidesTimestamp (bytes "a") := by decide +kernel

theorem putFirst_logged (s : System) : putFirst.Logged s := ⟨by decide +kernel, not_hidesTimestamp_a⟩

/-- The entry is deleted. -/
theorem power_loss_keeps_delete :
    AckedRun (fun _ => 0) firstInHeaps Request.LogOnly ⟨loggedEngine 1000 4, loggedDisk⟩
      [(bytes "a", some (bytes "1"))] putState ∧
    Survives (fun _ => 0) firstInHeaps [(bytes "a", some (bytes "1"))] putState (.delete (bytes "a") 0) := by
  have hopen : StorageEngine.new (loggedEngine 1000 4).config .ok (World.ofDisk Disk.empty) =
      (.ok (loggedEngine 1000 4), loggedDisk) := rfl
  have hsmall : putFirst.Unflushed ⟨loggedEngine 1000 4, loggedDisk⟩ := by
    intro m hm
    obtain rfl := Option.some.inj hm
    decide +kernel
  have hquiet : putFirst.LogOnly ⟨loggedEngine 1000 4, loggedDisk⟩ := ⟨putFirst_logged _, hsmall⟩
  have hrun := putState_run hquiet
  have hdelete : (Request.delete (bytes "a") 0).Logged putState := ⟨by decide +kernel, not_hidesTimestamp_a⟩
  exact ⟨hrun, (power_loss_keeps (by decide) (by decide) hopen hrun hdelete).1 trivial⟩

/-- The database is not closed or opened again. -/
def Request.Running : Request → Prop
  | .close => False
  | .reopen _ _ => False
  | _ => True

/-- Of the changes of a flush only the truncation of the log survives. -/
theorem power_loss_keeps_fails :
    ¬ ∀ (hash : Bytes → UInt64) (heaps : Heaps) (config : Config) (e : StorageEngine) (w : World)
      (ws : List (Bytes × Option Bytes)) (s : System) (c : Request), newline ∉ config.dbDir → config.walPath ≠ [] →
      StorageEngine.new config .ok (World.ofDisk Disk.empty) = (.ok e, w) →
      AckedRun hash heaps (fun r s => r.Logged s ∧ r.Running) ⟨e, w⟩ ws s → c.Logged s ∧ c.Running →
      Survives hash heaps ws s c := by
  intro hall
  have hopen : StorageEngine.new (loggedEngine 1000 4).config .ok (World.ofDisk Disk.empty) =
      (.ok (loggedEngine 1000 4), loggedDisk) := rfl
  have hsurvives := hall _ _ _ _ _ _ putState .flushMemTable (by decide) (by decide) hopen
    (putState_run ⟨putFirst_logged _, trivial⟩) ⟨⟨trivial, trivial⟩, trivial⟩
  have hkept : [Effect.walTruncate].Sublist (Device.after ((putState.step (fun _ => 0) firstInHeaps
      Request.flushMemTable.op).2.world.trace.take (putState.world.trace.length + 4))).unsynced := by
        decide +kernel
  obtain ⟨v, hshows, hlast⟩ := hsurvives 4 _ ⟨_, hkept, rfl⟩
  have hshown := hshows.shown_eq (bytes "a")
  have hgone : shown (fun _ => 0) putState.engine.config (runEffects [.walTruncate] (Device.after ((putState.step
      (fun _ => 0) firstInHeaps Request.flushMemTable.op).2.world.trace.take
        (putState.world.trace.length + 4))).durable) (bytes "a") = none := by decide +kernel
  have hvalue : v (bytes "a") = some (bytes "1") :=
    (hlast (bytes "a") _ rfl).resolve_right fun hno => absurd hno (by simp [Request.write])
  rw [hgone, hvalue] at hshown
  exact absurd hshown (by simp)

end LsmTree
