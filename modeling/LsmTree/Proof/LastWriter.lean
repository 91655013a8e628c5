import LsmTree.Proof.Calls
import LsmTree.Proof.Effects

/-!
# Reads see the last write

`runCalls` runs `Put`, `Delete` and `FlushMemTable` without an error of the file system,
while no compaction is due. The engine's layers together are then the log of the writes
(`runCalls_records`), wherever the flushes fall.

* `get_lastWrite`: **`Get` answers the last write of the key**, and that there was
  none if there was none.
-/

namespace LsmTree

open Base WAL

variable {hash : Bytes → UInt64} {heaps : Heaps}

/-! ## Opening a memtable -/

namespace MemTable

theorem new_nil (io : MemTableIO) (w : World) : new [] io w = (.ok (blank false), w) := rfl

theorem new_opened {walPath : Bytes} (hp : walPath ≠ []) {io : MemTableIO} (ho : io.openError = none) (w : World) :
    new walPath io w =
      (.ok ((blank true).recoverFromWAL io (w.perform .walOpen).disk), w.perform .walOpen) := by
  unfold new
  rw [if_neg hp, ho]

theorem new_refused {walPath : Bytes} (hp : walPath ≠ []) {io : MemTableIO} {reason : Bytes}
    (ho : io.openError = some reason) (w : World) : ∃ what, new walPath io w = (.error what, w) := by
  unfold new
  rw [if_neg hp, ho]
  exact ⟨_, rfl⟩

/-- On an empty log the memtable is blank. -/
theorem recover_empty {d : Disk} (h : d.wal = some []) (io : MemTableIO) (m : MemTable) :
    m.recoverFromWAL io d = m := by
  unfold recoverFromWAL WAL.recover
  rw [h]
  cases io.readable <;> rfl

end MemTable

/-! ## Runs without compaction -/

/-- A call of the run; every file operation in it succeeds. -/
inductive Call where
  | put (key value : Bytes) (now : Int64)
  | delete (key : Bytes) (now : Int64)
  | flushMemTable

namespace Call

def op : Call → Op
  | .put key value now => .put key value now .ok .ok
  | .delete key now => .delete key now .ok
  | .flushMemTable => .flushMemTable .ok

/-- The key written and its value, `none` for a deletion. -/
def write : Call → Option (Bytes × Option Bytes)
  | .put key value _ => some (key, some value)
  | .delete key _ => some (key, none)
  | .flushMemTable => none

/-- Key and value are shorter than `2^32` bytes. -/
def Short : Call → Prop
  | .put key value _ => key.length < 2 ^ 32 ∧ value.length < 2 ^ 32
  | .delete key _ => key.length < 2 ^ 32
  | .flushMemTable => True

end Call

def Effect.isTable : Effect → Bool
  | .tableWrite _ _ => true
  | _ => false

/-- How many tables were written so far. -/
def World.tablesWritten (w : World) : ℕ := w.trace.countP Effect.isTable

@[simp] theorem World.tablesWritten_perform (e : Effect) (w : World) :
    (w.perform e).tablesWritten = w.tablesWritten + if e.isTable then 1 else 0 := by
  unfold World.tablesWritten
  rw [World.trace_perform, List.countP_append, List.countP_singleton]

/-- One call that returns and leaves fewer tables written than the compaction threshold. -/
def Call.run (hash : Bytes → UInt64) (heaps : Heaps) (s : System) (c : Call) : Option System :=
  match s.step hash heaps c.op with
  | (.returned _, s') =>
    if s'.world.tablesWritten < s'.engine.config.compactionThreshold.toNat then some s' else none
  | _ => none

/-- Calls one after another. -/
def runCalls (hash : Bytes → UInt64) (heaps : Heaps) (calls : List Call) (s : System) : Option System :=
  calls.foldlM (Call.run hash heaps) s

theorem Call.run_eq_some {c : Call} {s s' : System} (h : c.run hash heaps s = some s') :
    ∃ ok, s.step hash heaps c.op = (.returned ok, s') ∧
      s'.world.tablesWritten < s'.engine.config.compactionThreshold.toNat := by
  unfold Call.run at h
  split at h
  · rename_i ok s'' hstep
    split at h
    · rename_i hfew
      obtain rfl := Option.some.inj h
      exact ⟨ok, hstep, hfew⟩
    · exact absurd h (by simp)
  · exact absurd h (by simp)

/-- The engine records the writes `ws` and each table written is one of its tables. -/
structure Records (hash : Bytes → UInt64) (ws : List (Bytes × Option Bytes)) (s : System) : Prop where
  active : ∃ m, s.engine.active = some m ∧ m.isImmutable = false ∧ m.Short
  immutable : s.engine.immutable = none
  stack : stack (s.engine.layers hash) = lastWrite ws
  tables : s.engine.sstables.length = s.world.tablesWritten

namespace StorageEngine

theorem layers_active {e : StorageEngine} {m : MemTable} (ha : e.active = some m) (hi : e.immutable = none) :
    e.layers hash = m.layer :: tableLayers hash e.sstables := by
  unfold layers memLayers
  rw [ha, hi]
  rfl

/-- The new table says what the memtable said. -/
theorem TableReader.layer_eq {m : MemTable} {path : Bytes} {r : SSTableReader} (h : TableReader hash m path r)
    (hm : m.Short) : r.layer hash = m.layer := by
  have hholds : r.Holds hash m.records := ⟨h.reads, m.records_ascending, hm.records⟩
  rw [hholds.layer_eq, m.recordLayer_records]

theorem config_compaction (hash : Bytes → UInt64) (heaps : Heaps) (io : CompactionIO) (e : StorageEngine)
    (w : World) :
    (triggerCompactionInternal hash heaps io e w).2.1.config = e.config := by
  have h := compaction_cases hash heaps io e w
  generalize triggerCompactionInternal hash heaps io e w = r at h
  cases h <;> rfl

theorem config_maybeCompaction (hash : Bytes → UInt64) (heaps : Heaps) (io : CompactionIO) (e : StorageEngine)
    (w : World) :
    (maybeTriggerCompactionInternal hash heaps io e w).2.1.config = e.config := by
  have h := config_compaction hash heaps io e w
  unfold maybeTriggerCompactionInternal
  split
  · generalize triggerCompactionInternal hash heaps io e w = r at h
    obtain ⟨o, e', w'⟩ := r
    cases o <;> exact h
  · rfl

end StorageEngine

theorem Extends.tablesWritten {w w' : World} (h : Extends w w') : w.tablesWritten ≤ w'.tablesWritten :=
  h.trace.sublist.countP_le

namespace StorageEngine

/-- Without errors a new table is written once, and the new memtable is blank. -/
theorem installed_ok (m : MemTable) (e : StorageEngine) (w : World) {m' : MemTable} {w' : World}
    (hnew : MemTable.new e.config.walPath .ok (installedWorld hash .ok m e w) = (.ok m', w')) :
    (∃ wal, m' = MemTable.blank wal) ∧ w'.tablesWritten = w.tablesWritten + 1 := by
  have hcount : (installedWorld hash .ok m e w).tablesWritten = w.tablesWritten + 1 := by
    have hbuilt : (built hash m e w).tablesWritten = w.tablesWritten + 1 := by
      unfold built
      simp [Effect.isTable]
    have htrunc : ∀ w : World, (truncated .ok e w).tablesWritten = w.tablesWritten := by
      intro w
      unfold truncated
      split
      · simp [Effect.isTable]
      · rfl
    unfold installedWorld Manifest.addSSTable
    rw [htrunc]
    simp [hbuilt, FlushIO.ok, Effect.isTable]
  by_cases hp : e.config.walPath = []
  · rw [hp, MemTable.new_nil] at hnew
    obtain ⟨h1, h2⟩ := Prod.mk.inj hnew
    rw [← Except.ok.inj h1, ← h2]
    exact ⟨⟨false, rfl⟩, hcount⟩
  · rw [MemTable.new_opened hp rfl] at hnew
    obtain ⟨h1, h2⟩ := Prod.mk.inj hnew
    have hlog : ((installedWorld hash .ok m e w).perform .walOpen).disk.wal = some [] := by
      unfold installedWorld truncated
      rw [if_pos (by simp [hp, FlushIO.ok])]
      rfl
    rw [← Except.ok.inj h1, ← h2, MemTable.recover_empty hlog]
    exact ⟨⟨true, rfl⟩, by simp [hcount, Effect.isTable]⟩

end StorageEngine

open StorageEngine

variable {ws : List (Bytes × Option Bytes)} {s s' : System}

/-- **A flush changes no answer.** -/
theorem Records.flush (h : Records hash ws s) {o : Outcome Unit} {e' : StorageEngine} {w' : World}
    (hf : flushMemTableInternal hash heaps .ok s.engine s.world = (o, e', w'))
    (ho : o = .returned ()) (hfew : w'.tablesWritten < e'.config.compactionThreshold.toNat) :
    Records hash ws ⟨e', w'⟩ := by
  obtain ⟨m, ha, him, hshort⟩ := h.active
  subst ho
  rw [flushMemTableInternal_eq] at hf
  have hcases := flushTable_cases hash .ok s.engine s.world
  generalize flushTable hash .ok s.engine s.world = r at hcases hf
  cases hcases with
  | idle _ =>
    obtain ⟨-, h2⟩ := Prod.mk.inj hf
    obtain ⟨rfl, rfl⟩ := Prod.mk.inj h2
    exact h
  | notBuilt m what _ _ => exact absurd (Prod.mk.inj hf).1 (by simp)
  | notOpened m what _ _ _ _ => exact absurd (Prod.mk.inj hf).1 (by simp)
  | noMemTable m what r w' _ _ _ _ => exact absurd (Prod.mk.inj hf).1 (by simp)
  | done m₀ m' r w₁ ha' hne hr hnew =>
    have hm : m₀ = m := Option.some.inj (ha'.symm.trans ha)
    subst hm
    obtain ⟨⟨wal, hblank⟩, hcount⟩ := installed_ok m₀ s.engine s.world hnew
    set e₁ : StorageEngine := { s.engine.withTable .ok r (built hash m₀ s.engine s.world) with active := some m' }
      with he₁
    have hlen : e₁.sstables.length = w₁.tablesWritten := by
      rw [hcount, ← h.tables]
      rfl
    have hconf := config_maybeCompaction hash heaps FlushIO.ok.compaction e₁ w₁
    have hmono := (maybeCompaction_extends hash heaps FlushIO.ok.compaction e₁ w₁).tablesWritten
    simp only at hf
    rw [hf] at hconf hmono
    -- as many tables as the threshold asks for would have been written by now
    have hbelow : ¬ e₁.config.compactionThreshold.toNat ≤ e₁.sstables.length := by
      intro hle
      simp only at hconf hmono
      rw [hconf] at hfew
      omega
    unfold maybeTriggerCompactionInternal at hf
    rw [if_neg hbelow] at hf
    obtain ⟨-, h2⟩ := Prod.mk.inj hf
    obtain ⟨rfl, rfl⟩ := Prod.mk.inj h2
    refine ⟨⟨m', rfl, by rw [hblank]; rfl, by rw [hblank]; exact MemTable.short_blank wal⟩, rfl, ?_, hlen⟩
    have hlayers : e₁.layers hash = m'.layer :: r.layer hash :: tableLayers hash s.engine.sstables :=
      layers_active rfl rfl
    rw [hlayers, hblank, MemTable.layer_blank, TableReader.layer_eq hr hshort, ← h.stack,
      layers_active ha h.immutable]
    funext key
    rfl

/-- A write into the memtable. -/
theorem Records.write (h : Records hash ws s) {m m' : MemTable} (ha : s.engine.active = some m)
    (him : m'.isImmutable = false) (hshort : m'.Short) {key : Bytes} {r : Option Bytes}
    (hl : m'.layer = Function.update m.layer key (some r)) {w' : World}
    (hw : w'.tablesWritten = s.world.tablesWritten) :
    Records hash (ws ++ [(key, r)]) ⟨{ s.engine with active := some m' }, w'⟩ := by
  refine ⟨⟨m', rfl, him, hshort⟩, h.immutable, ?_, h.tables.trans hw.symm⟩
  have hlayers : ({ s.engine with active := some m' } : StorageEngine).layers hash =
      m'.layer :: tableLayers hash s.engine.sstables := layers_active rfl h.immutable
  rw [hlayers, hl, stack_update, lastWrite_snoc, ← h.stack, layers_active ha h.immutable]

theorem tablesWritten_writeWorld (r : LogRecord) (m : MemTable) (w : World) :
    (MemTable.writeWorld r m w).tablesWritten = w.tablesWritten := by
  unfold MemTable.writeWorld
  split
  · simp [Effect.isTable]
  · rfl

/-- **One call of the run.** -/
theorem Records.step (h : Records hash ws s) {c : Call} (hc : c.Short) {ok : Bool}
    (hstep : s.step hash heaps c.op = (.returned ok, s'))
    (hfew : s'.world.tablesWritten < s'.engine.config.compactionThreshold.toNat) :
    Records hash (ws ++ c.write.toList) s' := by
  obtain ⟨m, ha, him, hshort⟩ := h.active
  cases c with
  | put key value now =>
    have hw : Records hash (ws ++ [(key, some value)]) ⟨{ s.engine with active := some (m.applyPut key value) },
        MemTable.writeWorld ⟨.put, key, value, now⟩ m s.world⟩ :=
      h.write ha (by rw [MemTable.isImmutable_applyPut, him]) (hshort.applyPut hc.1 hc.2)
        (MemTable.layer_applyPut key value m) (tablesWritten_writeWorld _ m s.world)
    rw [Call.op, step_put_ok ha him] at hstep
    split at hstep
    · exact hw.flush (System.unit_returned hstep) rfl hfew
    · obtain ⟨-, rfl⟩ := Prod.mk.inj hstep
      exact hw
  | delete key now =>
    rw [Call.op, step_delete_ok ha him] at hstep
    obtain ⟨-, rfl⟩ := Prod.mk.inj hstep
    exact h.write ha (by rw [MemTable.isImmutable_applyDelete, him]) (hshort.applyDelete hc)
      (MemTable.layer_applyDelete key m) (tablesWritten_writeWorld _ m s.world)
  | flushMemTable =>
    have hnil : Call.flushMemTable.write.toList = [] := rfl
    rw [hnil, List.append_nil]
    exact h.flush (System.unit_returned hstep) rfl hfew

/-! ## The whole run -/

/-- The engine opened on an empty directory. -/
theorem records_fresh {config : Config} {e : StorageEngine} {w : World}
    (hopen : StorageEngine.new config .ok (World.ofDisk Disk.empty) = (.ok e, w)) : Records hash [] ⟨e, w⟩ := by
  unfold StorageEngine.new at hopen
  have hrec : recoverTables (World.ofDisk Disk.empty).disk
      (Manifest.load (World.ofDisk Disk.empty).disk).sstableFiles [] 0 = .ok ([], 0) := rfl
  simp only at hopen
  rw [hrec] at hopen
  simp only at hopen
  by_cases hp : config.walPath = []
  · rw [hp, MemTable.new_nil] at hopen
    obtain ⟨h1, h2⟩ := Prod.mk.inj hopen
    rw [← Except.ok.inj h1, ← h2]
    exact ⟨⟨_, rfl, rfl, MemTable.short_blank false⟩, rfl, rfl, rfl⟩
  · rw [MemTable.new_opened hp rfl, MemTable.recover_empty rfl] at hopen
    obtain ⟨h1, h2⟩ := Prod.mk.inj hopen
    rw [← Except.ok.inj h1, ← h2]
    exact ⟨⟨_, rfl, rfl, MemTable.short_blank true⟩, rfl, rfl, rfl⟩

/-- The engine's layers are the log of the writes. -/
theorem runCalls_records {s₀ : System} (h₀ : Records hash [] s₀) {calls : List Call}
    (hshort : ∀ c ∈ calls, c.Short) : ∀ {s : System}, runCalls hash heaps calls s₀ = some s →
    Records hash (calls.filterMap Call.write) s := by
  induction calls using List.reverseRecOn with
  | nil =>
    intro s hrun
    obtain rfl := Option.some.inj hrun
    exact h₀
  | append_singleton calls c ih =>
    intro s hrun
    unfold runCalls at hrun
    rw [List.foldlM_append] at hrun
    obtain ⟨s₁, hrun₁, hlast⟩ := Option.bind_eq_some_iff.1 hrun
    rw [List.foldlM_cons] at hlast
    obtain ⟨s₂, hc, hpure⟩ := Option.bind_eq_some_iff.1 hlast
    obtain rfl := Option.some.inj hpure
    obtain ⟨ok, hstep, hfew⟩ := Call.run_eq_some hc
    have hs := ih (fun x hx => hshort x (List.mem_append_left _ hx)) hrun₁
    have hcs := hshort c (List.mem_append_right _ (List.mem_singleton.2 rfl))
    have hwrite : [c].filterMap Call.write = c.write.toList := by
      cases hcw : c.write with
      | none => rw [List.filterMap_cons_none hcw]; rfl
      | some x => rw [List.filterMap_cons_some hcw]; rfl
    rw [List.filterMap_append, hwrite]
    exact hs.step hcs hstep hfew

/-- **`Get` answers the last write of the key.** -/
theorem get_lastWrite {config : Config} {e : StorageEngine} {w : World}
    (hopen : StorageEngine.new config .ok (World.ofDisk Disk.empty) = (.ok e, w)) {calls : List Call}
    (hshort : ∀ c ∈ calls, c.Short) (hrun : runCalls hash heaps calls ⟨e, w⟩ = some s) (key : Bytes) :
    (∀ value, s.engine.get hash key = some (value, false) ↔
      lastWrite (calls.filterMap Call.write) key = some (some value)) ∧
    ((∃ value, s.engine.get hash key = some (value, true)) ↔
      lastWrite (calls.filterMap Call.write) key = some none) ∧
    (s.engine.get hash key = none ↔ lastWrite (calls.filterMap Call.write) key = none) := by
  have h := (runCalls_records (records_fresh hopen) hshort hrun).stack
  rw [← h, ← get_eq]
  cases s.engine.get hash key with
  | none => simp
  | some r =>
    obtain ⟨v, d⟩ := r
    cases d <;> simp [answer]

/-- Queues that take equivalent nodes in the order in which they were pushed. -/
def firstInHeaps : Heaps := ⟨Compactor.order.firstIn, DBIterator.order.firstIn⟩

/-- An engine opened on an empty directory without a log. -/
def unloggedEngine (compactionThreshold : UInt64) : StorageEngine :=
  ⟨⟨1000000, [], [], compactionThreshold⟩, ⟨[]⟩, some (.blank false), none, [], 0⟩

/-- A value is flushed and then deleted. -/
def maskingCalls : List Call := [.put (bytes "a") (bytes "1") 0, .flushMemTable, .delete (bytes "a") 0]

/-- The deletion masks the flushed value. -/
theorem get_lastWrite_masked : ∃ s,
    runCalls (fun _ => 0) firstInHeaps maskingCalls ⟨unloggedEngine 4, .ofDisk .empty⟩ = some s ∧
      ∃ value, s.engine.get (fun _ => 0) (bytes "a") = some (value, true) := by
  have hopen : StorageEngine.new (unloggedEngine 4).config .ok (World.ofDisk Disk.empty) =
      (.ok (unloggedEngine 4), .ofDisk .empty) := rfl
  have hshort : ∀ c ∈ maskingCalls, c.Short := by
    intro c hc
    unfold maskingCalls at hc
    simp only [List.mem_cons, List.not_mem_nil, or_false] at hc
    rcases hc with rfl | rfl | rfl
    · exact ⟨by decide, by decide⟩
    · trivial
    · exact (by decide : (bytes "a").length < 2 ^ 32)
  have hsome : (runCalls (fun _ => 0) firstInHeaps maskingCalls ⟨unloggedEngine 4, .ofDisk .empty⟩).isSome =
      true := by decide +kernel
  obtain ⟨s, hrun⟩ := Option.isSome_iff_exists.1 hsome
  exact ⟨s, hrun, (get_lastWrite hopen hshort hrun (bytes "a")).2.1.2 (by decide +kernel)⟩

end LsmTree
