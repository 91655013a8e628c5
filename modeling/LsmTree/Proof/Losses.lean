import LsmTree.Proof.SoundRuns

/-!
# What is lost when file operations fail

The engine does not look at what `AddSSTable` returns, and a compaction that fails to replace
the manifest's entries by name replaces them by number, with a name for the merged table that
it did not write.

* `flush_keeps`: **what a flush discards of the log is recovered from its table**, in every
  state of a sound run, whatever fails in it, if the manifest gets the table's line and a
  compaction it triggers is safe.
* `flush_keeps_fails`: without the line, the log is truncated all the same.
* `compaction_keeps`: **a compaction that preserves the view loses nothing**, in every state
  of a sound run, whatever fails in it, if it is safe.
* `compaction_keeps_fails`: replaced by number, the manifest lists a table that does not exist.
-/

namespace LsmTree

open Base StorageEngine WAL

variable {hash : Bytes → UInt64} {heaps : Heaps} {e : StorageEngine} {w : World} {s : System} {config : Config}

/-! ## Flushes -/

/-- **A flush loses nothing**: opened again behind it, the database shows the live values
from before. -/
theorem flush_keeps (hdir : newline ∉ config.dbDir) (hp : config.walPath ≠ [])
    (hopen : StorageEngine.new config .ok (World.ofDisk Disk.empty) = (.ok e, w))
    (hrun : SoundRun hash heaps ⟨e, w⟩ s) (hroom : s.HasRoom) {io : FlushIO} (hline : io.addSSTable = .ok)
    (hpoint : ∀ p, flushPoint hash io s.engine s.world = some p →
      io.compaction.Safe p.engine ∧ RanksAgree hash p.engine) :
    Shows hash s.engine.config (flushMemTableInternal hash heaps io s.engine s.world).2.2.disk
      (s.engine.liveValue hash) := by
  obtain ⟨hwal, rs, ts, hkept⟩ := hrun.kept hdir hopen
  obtain ⟨o, e', w', hf⟩ : ∃ o e' w', flushMemTableInternal hash heaps io s.engine s.world = (o, e', w') :=
    ⟨_, _, _, rfl⟩
  have hsilent := hkept.flush hroom hline hpoint hf
  obtain ⟨rs', ts', hkept'⟩ := hsilent.kept
  rw [hf]
  have hshows := hkept'.holds.shows (by rw [hsilent.config, hwal]; exact hp)
  rw [hsilent.config, hsilent.live] at hshows
  exact hshows

/-- An engine with a log. -/
def loggedEngine (writeBufferSize compactionThreshold : UInt64) : StorageEngine :=
  ⟨⟨writeBufferSize, bytes "w", [], compactionThreshold⟩, ⟨[]⟩, some (.blank true), none, [], 0⟩

/-- The empty directory behind it: the log was created. -/
def loggedDisk : World := (World.ofDisk .empty).perform .walOpen

/-- One entry is put. -/
def putOne : Op := .put (bytes "a") (bytes "1") 0 .ok .ok

/-- The log is not truncated, and not opened again. -/
def unopened : FlushIO := { FlushIO.ok with truncate := false, memTable := ⟨some (bytes "no"), true⟩ }

/-- The call throws. -/
theorem flush_keeps_thrown : ∃ s, SoundRun (fun _ => 0) firstInHeaps ⟨loggedEngine 1000 4, loggedDisk⟩ s ∧
    Shows (fun _ => 0) s.engine.config
      (flushMemTableInternal (fun _ => 0) firstInHeaps unopened s.engine s.world).2.2.disk
      (s.engine.liveValue fun _ => 0) := by
  have hopen : StorageEngine.new (loggedEngine 1000 4).config .ok (World.ofDisk Disk.empty) =
      (.ok (loggedEngine 1000 4), loggedDisk) := rfl
  have hsome : (runQuiet (fun _ => 0) firstInHeaps [putOne] ⟨loggedEngine 1000 4, loggedDisk⟩).any (fun s =>
      decide s.HasRoom && (flushPoint (fun _ => 0) unopened s.engine s.world).isNone) = true := by decide +kernel
  obtain ⟨s, hput, hs⟩ := Option.any_eq_true _ _ |>.1 hsome
  simp only [Bool.and_eq_true, decide_eq_true_eq] at hs
  obtain ⟨hroom, hnone⟩ := hs
  have hrun := SoundRun.start.quiet hput
  refine ⟨s, hrun, flush_keeps (by decide) (by decide) hopen hrun hroom rfl fun p hp => ?_⟩
  rw [hp] at hnone
  exact absurd hnone (by simp)

/-- The manifest's line is not written. -/
def unlisted : FlushIO := { FlushIO.ok with addSSTable := .openFails }

/-- After a sound run, the log is truncated all the same, and the table is in no list. -/
theorem flush_keeps_fails :
    ¬ ∀ (hash : Bytes → UInt64) (heaps : Heaps) (config : Config) (e : StorageEngine) (w : World) (s : System)
      (io : FlushIO), newline ∉ config.dbDir → config.walPath ≠ [] →
      StorageEngine.new config .ok (World.ofDisk Disk.empty) = (.ok e, w) → SoundRun hash heaps ⟨e, w⟩ s →
      s.HasRoom → Shows hash s.engine.config (flushMemTableInternal hash heaps io s.engine s.world).2.2.disk
        (s.engine.liveValue hash) := by
  intro hall
  have hopen : StorageEngine.new (loggedEngine 1000 4).config .ok (World.ofDisk Disk.empty) =
      (.ok (loggedEngine 1000 4), loggedDisk) := rfl
  have hsome : (runQuiet (fun _ => 0) firstInHeaps [putOne] ⟨loggedEngine 1000 4, loggedDisk⟩).any (fun s =>
      decide s.HasRoom && decide (shown (fun _ => 0) s.engine.config (flushMemTableInternal (fun _ => 0)
        firstInHeaps unlisted s.engine s.world).2.2.disk (bytes "a") ≠
          s.engine.liveValue (fun _ => 0) (bytes "a"))) = true := by decide +kernel
  obtain ⟨s, hput, hs⟩ := Option.any_eq_true _ _ |>.1 hsome
  simp only [Bool.and_eq_true, decide_eq_true_eq] at hs
  have hshows := hall _ _ _ _ _ s unlisted (by decide) (by decide) hopen
    (SoundRun.start.quiet hput) hs.1
  exact hs.2 (hshows.shown_eq (bytes "a"))

/-! ## Compactions -/

/-- From `s` to `s'` no live value changes, every table that the manifest lists exists, and
opened again the database shows the live values; without a log, those that no memtable had. -/
structure LosesNothing (hash : Bytes → UInt64) (s s' : System) : Prop where
  live : s'.engine.liveValue hash = s.engine.liveValue hash
  loaded : Manifest.load s'.world.disk = s'.engine.manifest
  listed : ∀ f ∈ s'.engine.manifest.sstableFiles, Exists s'.world.disk f = true
  shows : ∃ v, Shows hash s.engine.config s'.world.disk v ∧ ∀ key,
    s.engine.config.walPath ≠ [] ∨ stack s.engine.memLayers key = none → v key = s.engine.liveValue hash key

/-- **A compaction loses nothing**, whatever it returns or throws. -/
theorem compaction_keeps (hdir : newline ∉ config.dbDir)
    (hopen : StorageEngine.new config .ok (World.ofDisk Disk.empty) = (.ok e, w))
    (hrun : SoundRun hash heaps ⟨e, w⟩ s) (hroom : s.HasRoom) {io : CompactionIO} (hsafe : io.Safe s.engine)
    (hmerge : MergePreserves hash heaps s.engine s.world.disk) :
    LosesNothing hash s (s.compacted hash heaps io) := by
  obtain ⟨hwal, rs, ts, hkept⟩ := hrun.kept hdir hopen
  obtain ⟨o, e', w', hc⟩ : ∃ o e' w', triggerCompactionInternal hash heaps io s.engine s.world = (o, e', w') :=
    ⟨_, _, _, rfl⟩
  unfold System.HasRoom at hroom
  have hsilent := hkept.compaction (by omega) hsafe hmerge hc
  obtain ⟨rs', ts', hkept'⟩ := hsilent.kept
  have hmem : e'.memLayers = s.engine.memLayers := by
    rw [← memLayers_compaction hash heaps io s.engine s.world, hc]
  have hsys : s.compacted hash heaps io = ⟨e', w'⟩ := by
    unfold System.compacted
    rw [hc]
  have hload : Manifest.load w'.disk = e'.manifest := by
    rw [hkept'.files.load hkept'.directory, ← hkept'.memory]
  rw [hsys]
  refine ⟨hsilent.live, hload, ?_, recoveredView hash e'.config.walPath rs' ts', ?_, fun key hkey => ?_⟩
  · rw [← hload]
    exact hkept'.files.listed_exist hkept'.directory
  · rw [← hsilent.config]
    exact hkept'.files.shows hkept'.directory
  · rw [← hsilent.live]
    by_cases hp : e'.config.walPath = []
    · refine hkept'.view_of_silent hp ?_
      rw [hmem]
      exact hkey.resolve_left fun hne => hne (by rw [← hsilent.config, hp])
    · exact congrFun (hkept'.view hp) key

/-- Two tables with the same entry; then the database is opened for compactions of two. -/
def sameTables : List Op :=
  [putOne, .flushMemTable .ok, putOne, .flushMemTable .ok, .reopen 1000 2 .ok]

/-- The tables differ in their names only. -/
def Alike (s : System) : Bool :=
  match s.engine.sstables with
  | [] => true
  | t :: ts => ts.all fun r => r.data = t.data && r.footer = t.footer && r.sparseIndex = t.sparseIndex &&
    r.bloomFilter = t.bloomFilter

theorem Alike.layer_eq {t : SSTableReader} {ts : List SSTableReader} (hts : s.engine.sstables = t :: ts)
    (h : Alike s = true) : ∀ r ∈ s.engine.sstables, r.layer hash = t.layer hash := by
  unfold Alike at h
  rw [hts] at h ⊢
  intro r hr
  rcases List.mem_cons.1 hr with rfl | hr
  · rfl
  · have hsame := List.all_eq_true.1 h r hr
    simp only [Bool.and_eq_true, decide_eq_true_eq] at hsame
    obtain ⟨⟨⟨hdata, hfooter⟩, hindex⟩, hfilter⟩ := hsame
    cases r
    cases t
    cases hdata
    cases hfooter
    cases hindex
    cases hfilter
    rfl

/-- So no two of their records contradict each other. -/
theorem mergePreserves_of_alike (hdir : newline ∉ config.dbDir)
    (hopen : StorageEngine.new config .ok (World.ofDisk Disk.empty) = (.ok e, w))
    (hrun : SoundRun hash heaps ⟨e, w⟩ s)
    (h : Alike s = true) : MergePreserves hash heaps s.engine s.world.disk := by
  obtain ⟨-, rs, ts, hkept⟩ := hrun.kept hdir hopen
  refine RanksAgree.mergePreserves ?_ hkept.tables
  rintro key - x ⟨p, hp, hpk, -⟩
  have hmem := List.mem_map_of_mem (f := Prod.snd) hp
  rw [map_snd_ranked, map_snd_namedLayers] at hmem
  obtain ⟨r, hr, hrp⟩ := List.mem_map.1 hmem
  obtain ⟨t, rest, hts⟩ := List.exists_cons_of_ne_nil (List.ne_nil_of_mem hr)
  have hhead : t.layer hash key = some x := by
    rw [← Alike.layer_eq hts h r hr, hrp]
    exact hpk
  unfold view
  rw [hts, tableLayers_cons, stack_cons, hhead]
  rfl

/-- The merged table cannot be opened. -/
def unread : CompactionIO := { CompactionIO.ok with readerOpens := false }

/-- The manifest's entries are not replaced by name. -/
def unnamed : CompactionIO := { CompactionIO.ok with byNames := { ReplaceIO.ok with tmp := .openFails } }

theorem sameTables_run : ∃ s, SoundRun (fun _ => 0) firstInHeaps ⟨unloggedEngine 4, .ofDisk .empty⟩ s ∧
    s.HasRoom ∧ MergePreserves (fun _ => 0) firstInHeaps s.engine s.world.disk ∧ unread.Safe s.engine ∧
      ¬ ∀ f ∈ (s.compacted (fun _ => 0) firstInHeaps unnamed).engine.manifest.sstableFiles,
        Exists (s.compacted (fun _ => 0) firstInHeaps unnamed).world.disk f = true := by
  have hopen : StorageEngine.new (unloggedEngine 4).config .ok (World.ofDisk Disk.empty) =
      (.ok (unloggedEngine 4), .ofDisk .empty) := rfl
  have hsome : (runQuiet (fun _ => 0) firstInHeaps sameTables ⟨unloggedEngine 4, .ofDisk .empty⟩).any (fun s =>
      decide s.HasRoom && Alike s && decide (unread.Safe s.engine) &&
        !(s.compacted (fun _ => 0) firstInHeaps unnamed).engine.manifest.sstableFiles.all
          (Exists (s.compacted (fun _ => 0) firstInHeaps unnamed).world.disk)) = true := by decide +kernel
  obtain ⟨s, hquiet, hs⟩ := Option.any_eq_true _ _ |>.1 hsome
  simp only [Bool.and_eq_true, Bool.not_eq_true', decide_eq_true_eq] at hs
  obtain ⟨⟨⟨hroom, halike⟩, hsafe⟩, hmissing⟩ := hs
  have hrun := SoundRun.start.quiet hquiet
  refine ⟨s, hrun, hroom, mergePreserves_of_alike (by decide) hopen hrun halike, hsafe, fun hlisted => ?_⟩
  exact absurd (List.all_eq_true.2 hlisted) (by rw [hmissing]; decide)

/-- The merged table is listed, and the old ones stay open. -/
theorem compaction_keeps_unread : ∃ s, SoundRun (fun _ => 0) firstInHeaps ⟨unloggedEngine 4, .ofDisk .empty⟩ s ∧
    LosesNothing (fun _ => 0) s (s.compacted (fun _ => 0) firstInHeaps unread) := by
  have hopen : StorageEngine.new (unloggedEngine 4).config .ok (World.ofDisk Disk.empty) =
      (.ok (unloggedEngine 4), .ofDisk .empty) := rfl
  obtain ⟨s, hrun, hroom, hmerge, hsafe, -⟩ := sameTables_run
  exact ⟨s, hrun, compaction_keeps (by decide) hopen hrun hroom hsafe hmerge⟩

/-- Not replaced by name, the entries are replaced by number: the manifest lists a table that
was not written. -/
theorem compaction_keeps_fails :
    ¬ ∀ (hash : Bytes → UInt64) (heaps : Heaps) (config : Config) (e : StorageEngine) (w : World) (s : System)
      (io : CompactionIO), newline ∉ config.dbDir →
      StorageEngine.new config .ok (World.ofDisk Disk.empty) = (.ok e, w) → SoundRun hash heaps ⟨e, w⟩ s →
      s.HasRoom → MergePreserves hash heaps s.engine s.world.disk →
      LosesNothing hash s (s.compacted hash heaps io) := by
  intro hall
  have hopen : StorageEngine.new (unloggedEngine 4).config .ok (World.ofDisk Disk.empty) =
      (.ok (unloggedEngine 4), .ofDisk .empty) := rfl
  obtain ⟨s, hrun, hroom, hmerge, -, hmissing⟩ := sameTables_run
  exact hmissing (hall _ _ _ _ _ s unnamed (by decide) hopen hrun hroom hmerge).listed

end LsmTree
