import LsmTree.Proof.Recovery
import LsmTree.Proof.ManifestFile

/-!
# What an engine keeps in its files

`Kept e d rs ts` sets what the engine has in memory against what its files recover to: the
records `rs` of the log and the tables `ts` of the manifest. The listed tables need not be
the open ones; for a key that no memtable has they say the same.

* `Kept.view`: with a log, the files recover to the live values.
* `Kept.write`, `Kept.refused`: a write, and one that the log refuses.
* `Kept.flushTable`, `Kept.compaction`: **a flush and a compaction keep it**, and change no
  live value, whatever fails in them, if no line of the manifest is lost (`CompactionIO.Safe`).
-/

namespace LsmTree

open Base StorageEngine WAL

variable {hash : Bytes → UInt64} {heaps : Heaps} {e e' : StorageEngine} {w w' : World} {d d' : Disk}
  {rs rs' : List LogRecord} {ts ts' : List SSTableReader} {m m' : MemTable} {r : LogRecord}

structure Kept (hash : Bytes → UInt64) (e : StorageEngine) (d : Disk) (rs : List LogRecord)
    (ts : List SSTableReader) : Prop where
  directory : newline ∉ e.config.dbDir
  files : Recoverable hash e.config.dbDir d rs ts
  tables : TablesOK hash e d
  slot : OneSlot e
  fresh : ∀ m, e.active = some m → Fresh e.config.walPath m
  memory : e.manifest.sstableFiles = (ts.map SSTableReader.filepath).reverse
  below : ∀ r ∈ ts, IsTable e.config.dbDir e.idCounter.toNat r.filepath
  /-- if the manifest lists all open tables, it lists no others -/
  aligned : (∀ r ∈ e.sstables, r.filepath ∈ e.manifest.sstableFiles) → ts = e.sstables
  behind : ∀ key, stack e.memLayers key = none →
    view (tableLayers hash ts) key = view (tableLayers hash e.sstables) key
  logged : e.config.walPath ≠ [] → ∀ key x, lastWrite (rs.map LogRecord.write) key = some x →
    e.liveValue hash key = x
  unlogged : e.config.walPath ≠ [] → ∀ key, lastWrite (rs.map LogRecord.write) key = none →
    stack e.memLayers key = none

namespace Kept

/-- **With a log the files recover to the live values.** -/
theorem view (h : Kept hash e d rs ts) (hp : e.config.walPath ≠ []) :
    recoveredView hash e.config.walPath rs ts = e.liveValue hash := by
  funext key
  have hcons : recoveredView hash e.config.walPath rs ts key =
      ((lastWrite (rs.map LogRecord.write) key).or (stack (tableLayers hash ts) key)).join := by
    unfold recoveredView Base.view
    rw [stack_cons, logLayer_of_ne hp]
  rw [hcons]
  cases hkey : lastWrite (rs.map LogRecord.write) key with
  | some x =>
    rw [Option.some_or, Option.join_some]
    exact (h.logged hp key x hkey).symm
  | none =>
    have hmem := h.unlogged hp key hkey
    have hbehind := h.behind key hmem
    unfold Base.view at hbehind
    rw [Option.none_or, hbehind, liveValue_eq]
    unfold layers
    rw [view_append, hmem]
    rfl

/-- Without a log they do so for the keys that no memtable has. -/
theorem view_of_silent (h : Kept hash e d rs ts) (hp : e.config.walPath = []) {key : Bytes}
    (hmem : stack e.memLayers key = none) :
    recoveredView hash e.config.walPath rs ts key = e.liveValue hash key := by
  have hbehind := h.behind key hmem
  rw [liveValue_eq]
  unfold layers recoveredView logLayer
  rw [view_append, hmem, if_pos hp]
  exact hbehind

/-- The open tables, the manifest and what the memtables say stay as they are. -/
theorem frame (h : Kept hash e d rs ts) (hc : e'.config = e.config) (hs : e'.sstables = e.sstables)
    (hm : e'.manifest = e.manifest) (hl : e'.memLayers = e.memLayers) (hn : e.idCounter.toNat ≤ e'.idCounter.toNat)
    (hslot : OneSlot e') (hfresh : ∀ m, e'.active = some m → Fresh e.config.walPath m)
    (hfiles : Recoverable hash e.config.dbDir d' rs ts) (htables : TablesOK hash e' d') :
    Kept hash e' d' rs ts ∧ e'.liveValue hash = e.liveValue hash := by
  have hlive : e'.liveValue hash = e.liveValue hash := by
    rw [liveValue_eq, liveValue_eq]
    unfold layers
    rw [hl, hs]
  -- every part is about what did not change
  refine ⟨⟨?_, ?_, htables, hslot, ?_, ?_, ?_, ?_, ?_, ?_, ?_⟩, hlive⟩
  · rw [hc]
    exact h.directory
  · rw [hc]
    exact hfiles
  · rw [hc]
    exact hfresh
  · rw [hm]
    exact h.memory
  · rw [hc]
    exact fun r hr => (h.below r hr).mono hn
  · rw [hm, hs]
    exact h.aligned
  · rw [hl, hs]
    exact h.behind
  · rw [hc, hlive]
    exact h.logged
  · rw [hc, hl]
    exact h.unlogged

/-- Files that differ in the manifest's temporary only. -/
theorem congr (h : Kept hash e d rs ts) (ht : d'.tables = d.tables) (hm : d'.manifest = d.manifest)
    (hwal : d'.wal = d.wal) : Kept hash e d' rs ts :=
  (h.frame rfl rfl rfl rfl le_rfl h.slot h.fresh (h.files.congr ht hm (h.files.log.congr hwal))
    (h.tables.congr rfl rfl le_rfl ht)).1

/-- A name with the next number is not listed. -/
theorem path_ne (h : Kept hash e d rs ts) {family : Bytes} (hf : family ∈ families) :
    ∀ r ∈ ts, r.filepath ≠ tablePath e.config.dbDir family e.idCounter.toNat := by
  intro r hr hp
  obtain ⟨family', hf', id, hid, hrp⟩ := h.below r hr
  have hinj := (tablePath_inj hf' hf (hrp.symm.trans hp)).2
  omega

/-- The file with the next number is created, written or removed. -/
theorem setNext (h : Kept hash e d rs ts) (hn : e.idCounter.toNat + 1 < 2 ^ 64) {family : Bytes}
    (hf : family ∈ families) {c : Option Bytes}
    (hc : ∀ content, c = some content → content = [] ∨ ∃ rs, Complete hash content rs) :
    Kept hash e
      { d with tables := setTable d.tables (tablePath e.config.dbDir family e.idCounter.toNat) c } rs ts :=
  (h.frame rfl rfl rfl rfl le_rfl h.slot h.fresh
    (h.files.setTable (h.path_ne hf) fun content hcont => ⟨isTable_next hn hf, hc content hcont⟩)
    (h.tables.write hn hf hc)).1

/-! ## Writes -/

theorem memLayers_active (ha : e.active = some m) (hi : e.immutable = none) : e.memLayers = [m.layer] := by
  unfold memLayers
  rw [ha, hi]
  rfl

theorem immutable_none (h : Kept hash e d rs ts) (ha : e.active = some m) : e.immutable = none := by
  simpa using h.slot (by rw [ha]; rfl)

theorem withActive (ha : e.active = some m) : ({ e with active := some m } : StorageEngine) = e := by
  rw [← ha]

/-- The records behind a write: the log has one more, if there is a log. -/
def written (walPath : Bytes) (rs : List LogRecord) (r : LogRecord) : List LogRecord :=
  if walPath = [] then rs else rs ++ [r]

/-- **A write** into the memtable and its log. -/
theorem write (h : Kept hash e d rs ts) (ha : e.active = some m) (hm : Fresh e.config.walPath m')
    (hlayer : m'.layer = Function.update m.layer r.write.1 (some r.write.2))
    (hfiles : Recoverable hash e.config.dbDir d' (written e.config.walPath rs r) ts) (ht : d'.tables = d.tables) :
    Kept hash { e with active := some m' } d' (written e.config.walPath rs r) ts ∧
      ({ e with active := some m' } : StorageEngine).liveValue hash =
        Function.update (e.liveValue hash) r.write.1 r.write.2 := by
  have hi := h.immutable_none ha
  have hbefore : e.memLayers = [m.layer] := memLayers_active ha hi
  have hafter : ({ e with active := some m' } : StorageEngine).memLayers =
      [Function.update m.layer r.write.1 (some r.write.2)] := by
    rw [← hlayer]
    exact memLayers_active rfl hi
  have hstack : ∀ key, stack ({ e with active := some m' } : StorageEngine).memLayers key = none →
      key ≠ r.write.1 ∧ stack e.memLayers key = none := by
    intro key hnone
    rw [hafter, stack_cons, stack_nil, Option.or_none] at hnone
    by_cases hkey : key = r.write.1
    · rw [hkey, Function.update_self] at hnone
      exact absurd hnone (by simp)
    · rw [Function.update_of_ne hkey] at hnone
      exact ⟨hkey, by rw [hbefore, stack_cons, stack_nil, Option.or_none, hnone]⟩
  have hlive : ({ e with active := some m' } : StorageEngine).liveValue hash =
      Function.update (e.liveValue hash) r.write.1 r.write.2 := by
    have hfront : ({ e with active := some m' } : StorageEngine).layers hash =
        m'.layer :: tableLayers hash e.sstables := layers_active rfl hi
    rw [liveValue_eq, liveValue_eq, hfront, layers_active ha hi, hlayer, view_update]
  -- a written record is the last of the log, and the newest of its key
  have hrecords : e.config.walPath ≠ [] → lastWrite ((written e.config.walPath rs r).map LogRecord.write) =
      Function.update (lastWrite (rs.map LogRecord.write)) r.write.1 (some r.write.2) := by
    intro hp
    unfold written
    rw [if_neg hp, List.map_append]
    exact lastWrite_snoc _ _
  refine ⟨⟨h.directory, hfiles, h.tables.congr rfl rfl le_rfl ht, fun _ => by simp [hi], ?_, h.memory, h.below,
    h.aligned, fun key hkey => h.behind key (hstack key hkey).2, fun hp key x hx => ?_,
    fun hp key hkey => ?_⟩, hlive⟩
  · intro m₁ hm₁
    rw [← Option.some.inj hm₁]
    exact hm
  · -- what the log says is live
    rw [hrecords hp] at hx
    rw [hlive]
    by_cases hkey : key = r.write.1
    · rw [hkey, Function.update_self] at hx ⊢
      exact Option.some.inj hx
    · rw [Function.update_of_ne hkey] at hx ⊢
      exact h.logged hp key x hx
  · -- what the log does not say, no memtable has
    rw [hrecords hp] at hkey
    by_cases hw : key = r.write.1
    · rw [hw, Function.update_self] at hkey
      exact absurd hkey (by simp)
    · rw [Function.update_of_ne hw] at hkey
      have hnone := h.unlogged hp key hkey
      rw [hbefore, stack_cons, stack_nil, Option.or_none] at hnone
      rw [hafter, stack_cons, stack_nil, Option.or_none, Function.update_of_ne hw, hnone]

end Kept

/-- How a write into a memtable ends: it is in the log, if there is one, and in the
memtable, or the log refuses it. -/
inductive WriteEnd (r : LogRecord) (io : AppendIO) (m : MemTable) (w : World) : Bool × MemTable × World → Prop
  | written (h : m.wal = true → io = .ok) :
    WriteEnd r io m w (true, m.applyEntry r.entry, if m.wal then (r.append io w).2 else w)
  | refused (hm : m.wal = true) (h : io ≠ .ok) : WriteEnd r io m w (false, m, (r.append io w).2)

theorem put_end (hm : m.isImmutable = false) (key value : Bytes) (now : Int64) (io : AppendIO) (w : World) :
    WriteEnd ⟨.put, key, value, now⟩ io m w (m.put key value now io w) := by
  have hentry := MemTable.applyEntry_record ⟨.put, key, value, now⟩ m
  simp only at hentry
  unfold MemTable.put
  rw [hm, if_neg (by decide), ← hentry]
  cases hwal : m.wal with
  | false =>
    have hend : WriteEnd ⟨.put, key, value, now⟩ io m w _ := .written fun h =>
      absurd (hwal.symm.trans h) (by decide)
    rwa [hwal] at hend
  | true =>
    cases io with
    | ok =>
      have hend : WriteEnd ⟨.put, key, value, now⟩ .ok m w _ := .written fun _ => rfl
      rwa [hwal] at hend
    | torn n => exact .refused hwal (by simp)

theorem delete_end (hm : m.isImmutable = false) (key : Bytes) (now : Int64) (io : AppendIO) (w : World) :
    WriteEnd ⟨.delete, key, [], now⟩ io m w (m.delete key now io w) := by
  have hentry := MemTable.applyEntry_record ⟨.delete, key, [], now⟩ m
  simp only at hentry
  unfold MemTable.delete
  rw [hm, if_neg (by decide), ← hentry]
  cases hwal : m.wal with
  | false =>
    have hend : WriteEnd ⟨.delete, key, [], now⟩ io m w _ := .written fun h =>
      absurd (hwal.symm.trans h) (by decide)
    rwa [hwal] at hend
  | true =>
    cases io with
    | ok =>
      have hend : WriteEnd ⟨.delete, key, [], now⟩ .ok m w _ := .written fun _ => rfl
      rwa [hwal] at hend
    | torn n => exact .refused hwal (by simp)

/-! ## Flushes -/

namespace Kept

/-- The table of the memtable is listed, and takes its place. -/
theorem listed (h : Kept hash e d rs ts) (hroom : e.idCounter.toNat + 1 < 2 ^ 64) (ha : e.active = some m)
    {io : FlushIO} (hio : io.addSSTable = .ok) {r : SSTableReader}
    (hr : OnDisk hash e.config.dbDir d (2 ^ 64 - 1) r)
    (hpath : r.filepath = e.flushPath) (hlayer : r.layer hash = m.layer) (w : World) :
    Kept hash (e.withTable io r w) (Effect.apply (.manifestAppend (e.flushPath ++ [newline])) d) rs (r :: ts) ∧
      (e.withTable io r w).liveValue hash = e.liveValue hash := by
  have hbefore : e.memLayers = [m.layer] := memLayers_active ha (h.immutable_none ha)
  have hsucc : (e.idCounter + 1).toNat = e.idCounter.toNat + 1 := toNat_succ hroom
  have hman : (e.withTable io r w).manifest.sstableFiles = e.manifest.sstableFiles ++ [e.flushPath] := by
    unfold withTable Manifest.addSSTable
    rw [hio]
  have hnamed : IsTable e.config.dbDir (e.withTable io r w).idCounter.toNat r.filepath := by
    refine ⟨bytes "data_", by decide, e.idCounter.toNat, ?_, hpath⟩
    change e.idCounter.toNat < (e.idCounter + 1).toNat
    omega
  have hmono : e.idCounter.toNat ≤ (e.withTable io r w).idCounter.toNat := by
    change e.idCounter.toNat ≤ (e.idCounter + 1).toNat
    omega
  -- the records are those of the memtable, which was above the tables as well
  have hlive : (e.withTable io r w).liveValue hash = e.liveValue hash := by
    rw [liveValue_eq, liveValue_eq]
    unfold layers
    rw [hbefore]
    unfold withTable memLayers
    rw [tableLayers_cons, hlayer]
    rfl
  have hfiles := h.files.listed hr
  rw [hpath] at hfiles
  refine ⟨⟨h.directory, hfiles, ⟨fun t ht => ?_, h.tables.disk.congr rfl⟩,
    fun hno => absurd hno (by simp [withTable]), fun m' hm' => absurd hm' (by simp [withTable]), ?_,
    fun t ht => ?_, fun hall => ?_, fun key _ => ?_, fun hp key x hx => ?_, fun _ key _ => rfl⟩, hlive⟩
  · rcases List.mem_cons.1 ht with rfl | ht
    · exact ⟨hnamed, hr.file, hr.holds⟩
    · exact (h.tables.live t ht).congr hmono rfl
  · -- the line is the last of the manifest, the table the first of the engine
    rw [hman, h.memory, List.map_cons, List.reverse_cons, hpath]
  · rcases List.mem_cons.1 ht with rfl | ht
    · exact hnamed
    · exact (h.below t ht).mono hmono
  · -- the files that the manifest had before are those of the tables before
    have hold : ∀ t ∈ e.sstables, t.filepath ∈ e.manifest.sstableFiles := by
      intro t ht
      have hmem := hall t (List.mem_cons_of_mem _ ht)
      rw [hman] at hmem
      refine (List.mem_append.1 hmem).resolve_right fun hlast => ?_
      exact h.tables.path_ne (by decide) ht (List.mem_singleton.1 hlast)
    rw [h.aligned hold]
    rfl
  · -- behind the new table the same files are read as before
    change Base.view (tableLayers hash (r :: ts)) key = Base.view (tableLayers hash (r :: e.sstables)) key
    unfold Base.view
    rw [tableLayers_cons, tableLayers_cons, stack_cons, stack_cons]
    cases hk : r.layer hash key with
    | some x => rfl
    | none =>
      have hmem : stack e.memLayers key = none := by
        rw [hbefore, stack_cons, stack_nil, Option.or_none, ← hlayer, hk]
      exact h.behind key hmem
  · rw [hlive]
    exact h.logged hp key x hx

/-- With nothing in the memtables, the log may be truncated. -/
theorem truncated (h : Kept hash e d rs ts) (hmem : ∀ key, stack e.memLayers key = none) :
    Kept hash e (Effect.walTruncate.apply d) [] ts :=
  ⟨h.directory, h.files.truncated, h.tables.congr rfl rfl le_rfl rfl, h.slot, h.fresh, h.memory, h.below,
    h.aligned,
    h.behind, fun _ _ _ hx => absurd hx (by simp), fun _ key _ => hmem key⟩

/-- A memtable that holds nothing but what the log says. -/
theorem reopened (h : Kept hash e d rs ts) (ha : e.active = none) (hi : e.immutable = none)
    (hm : Fresh e.config.walPath m)
    (hlayer : ∀ key x, m.layer key = some x →
      e.config.walPath ≠ [] ∧ lastWrite (rs.map LogRecord.write) key = some x)
    (hfiles : Recoverable hash e.config.dbDir d' rs ts) (ht : d'.tables = d.tables) :
    Kept hash { e with active := some m } d' rs ts ∧
      ({ e with active := some m } : StorageEngine).liveValue hash = e.liveValue hash := by
  have hbefore : e.layers hash = tableLayers hash e.sstables := by
    unfold layers memLayers
    rw [ha, hi]
    rfl
  have hafter : ({ e with active := some m } : StorageEngine).layers hash =
      m.layer :: tableLayers hash e.sstables := layers_active rfl hi
  have hmem : ∀ key, stack e.memLayers key = none := by
    intro key
    unfold memLayers
    rw [ha, hi]
    rfl
  have hnew : ({ e with active := some m } : StorageEngine).memLayers = [m.layer] := memLayers_active rfl hi
  -- what the log adds was live, so the values are those of the tables
  have hlive : ({ e with active := some m } : StorageEngine).liveValue hash = e.liveValue hash := by
    funext key
    rw [liveValue_eq, hafter]
    unfold Base.view
    rw [stack_cons]
    cases hk : m.layer key with
    | some x =>
      obtain ⟨hp, hx⟩ := hlayer key x hk
      rw [Option.some_or, Option.join_some]
      exact (h.logged hp key x hx).symm
    | none =>
      rw [Option.none_or, liveValue_eq, hbefore]
      rfl
  refine ⟨⟨h.directory, hfiles, h.tables.congr rfl rfl le_rfl ht, fun _ => by simp [hi], ?_, h.memory, h.below,
    h.aligned, fun key _ => h.behind key (hmem key), fun hp key x hx => ?_, fun _ key hkey => ?_⟩, hlive⟩
  · intro m₁ hm₁
    rw [← Option.some.inj hm₁]
    exact hm
  · rw [hlive]
    exact h.logged hp key x hx
  · rw [hnew, stack_cons, stack_nil, Option.or_none]
    cases hk : m.layer key with
    | none => rfl
    | some x => exact absurd (hkey.symm.trans (hlayer key x hk).2) (by simp)

/-- The memtable leaves its slot. -/
theorem moved (h : Kept hash e d rs ts) (hroom : e.idCounter.toNat + 1 < 2 ^ 64) (ha : e.active = some m) :
    Kept hash (e.moved m) d rs ts ∧ (e.moved m).liveValue hash = e.liveValue hash := by
  have hmono : e.idCounter.toNat ≤ (e.moved m).idCounter.toNat := by
    change e.idCounter.toNat ≤ (e.idCounter + 1).toNat
    rw [toNat_succ hroom]
    omega
  refine h.frame rfl rfl rfl ?_ hmono (fun hno => absurd hno (by simp [StorageEngine.moved]))
    (fun m' hm' => absurd hm' (by simp [StorageEngine.moved])) h.files (h.tables.congr rfl rfl hmono rfl)
  rw [memLayers_active ha (h.immutable_none ha)]
  rfl

end Kept

/-- The files of an engine that has these live values. -/
def Holds (hash : Bytes → UInt64) (config : Config) (v : Bytes → Option Bytes) (d : Disk) : Prop :=
  ∃ e rs ts, Kept hash e d rs ts ∧ e.config = config ∧ e.liveValue hash = v

theorem Kept.holds (h : Kept hash e d rs ts) : Holds hash e.config (e.liveValue hash) d := ⟨e, rs, ts, h, rfl, rfl⟩

/-- With a log, they show them. -/
theorem Holds.shows {config : Config} {v : Bytes → Option Bytes} (h : Holds hash config v d)
    (hp : config.walPath ≠ []) : Shows hash config d v := by
  obtain ⟨e, rs, ts, hkept, rfl, rfl⟩ := h
  rw [← hkept.view hp]
  exact hkept.files.shows hkept.directory

/-- From `e` on `w` to `e'` on `w'` no live value changes. The files are kept at the end,
and at every point on the way if the manifest is never missing. -/
structure Silent (hash : Bytes → UInt64) (whole : Prop) (e : StorageEngine) (w : World) (e' : StorageEngine)
    (w' : World) : Prop where
  kept : ∃ rs ts, Kept hash e' w'.disk rs ts
  config : e'.config = e.config
  live : e'.liveValue hash = e.liveValue hash
  points : whole → Through (Holds hash e.config (e.liveValue hash)) w w'

section

variable {whole : Prop}

theorem Silent.trans {e'' : StorageEngine} {w'' : World} (h : Silent hash whole e w e' w')
    (h' : Silent hash whole e' w' e'' w'') : Silent hash whole e w e'' w'' := by
  refine ⟨h'.kept, h'.config.trans h.config, h'.live.trans h.live, fun hwhole => (h.points hwhole).trans ?_⟩
  rw [← h.config, ← h.live]
  exact h'.points hwhole

namespace Kept

theorem silent (h : Kept hash e w.disk rs ts) : Silent hash whole e w e w :=
  ⟨⟨rs, ts, h⟩, rfl, rfl, fun _ => .refl h.holds⟩

/-- One effect, and the engine that keeps the files behind it. -/
theorem effect (h : Kept hash e w.disk rs ts) (f : Effect) (h' : Kept hash e' (f.apply w.disk) rs' ts')
    (hc : e'.config = e.config) (hlive : e'.liveValue hash = e.liveValue hash) :
    Silent hash whole e w e' (w.perform f) := by
  refine ⟨⟨rs', ts', h'⟩, hc, hlive, fun _ => .one f h.holds ?_⟩
  rw [← hc, ← hlive]
  exact h'.holds

/-- Another engine with the same files. -/
theorem becomes (h : Kept hash e w.disk rs ts) (h' : Kept hash e' w.disk rs' ts') (hc : e'.config = e.config)
    (hlive : e'.liveValue hash = e.liveValue hash) : Silent hash whole e w e' w :=
  ⟨⟨rs', ts', h'⟩, hc, hlive, fun _ => .refl h.holds⟩

/-- The file with the next number is created and removed again. -/
theorem tried (whole : Prop) (h : Kept hash e w.disk rs ts) (hroom : e.idCounter.toNat + 1 < 2 ^ 64)
    {family : Bytes}
    (hf : family ∈ families) {path : Bytes} (hpath : path = tablePath e.config.dbDir family e.idCounter.toNat)
    (opens : Bool) :
    Kept hash e ((if opens then w.perform (.tableCreate path) else w).perform (.tableRemove path)).disk rs ts ∧
      Silent hash whole e w e ((if opens then w.perform (.tableCreate path) else w).perform
        (.tableRemove path)) := by
  subst hpath
  have hremoved : ∀ {w : World}, Kept hash e w.disk rs ts →
      Kept hash e (w.perform (.tableRemove (tablePath e.config.dbDir family e.idCounter.toNat))).disk rs ts :=
    fun h => h.setNext hroom hf fun content hc => absurd hc (by simp)
  cases opens with
  | true =>
    have hcreated : Kept hash e
        (w.perform (.tableCreate (tablePath e.config.dbDir family e.idCounter.toNat))).disk rs ts :=
      h.setNext hroom hf fun content hc => Or.inl (Option.some.inj hc).symm
    exact ⟨hremoved hcreated,
      (h.effect _ hcreated rfl rfl).trans (hcreated.effect _ (hremoved hcreated) rfl rfl)⟩
  | false => exact ⟨hremoved h, h.effect _ (hremoved h) rfl rfl⟩

/-- A complete table is written to the file with the next number. -/
theorem writeNext (whole : Prop) (h : Kept hash e w.disk rs ts) (hroom : e.idCounter.toNat + 1 < 2 ^ 64)
    {family : Bytes} (hf : family ∈ families) {path : Bytes}
    (hpath : path = tablePath e.config.dbDir family e.idCounter.toNat) {content : Bytes}
    (hcontent : ∃ rs, Complete hash content rs) :
    Kept hash e ((w.perform (.tableCreate path)).perform (.tableWrite path content)).disk rs ts ∧
      Silent hash whole e w e ((w.perform (.tableCreate path)).perform (.tableWrite path content)) := by
  subst hpath
  have hcreated : Kept hash e
      (w.perform (.tableCreate (tablePath e.config.dbDir family e.idCounter.toNat))).disk rs ts :=
    h.setNext hroom hf fun content hc => Or.inl (Option.some.inj hc).symm
  have hwritten : Kept hash e
      ((w.perform (.tableCreate (tablePath e.config.dbDir family e.idCounter.toNat))).perform
        (.tableWrite (tablePath e.config.dbDir family e.idCounter.toNat) content)).disk rs ts :=
    hcreated.setNext hroom hf fun content' hc => Or.inr (Option.some.inj hc ▸ hcontent)
  exact ⟨hwritten, (h.effect _ hcreated rfl rfl).trans (hcreated.effect _ hwritten rfl rfl)⟩

/-- The table of a memtable is built. -/
theorem built (whole : Prop) (h : Kept hash e w.disk rs ts) (hroom : e.idCounter.toNat + 1 < 2 ^ 64)
    (hshort : m.Short) (hlen : (tableOf hash m).length ≤ maxFileSize) :
    Kept hash e (StorageEngine.built hash m e w).disk rs ts ∧
      Silent hash whole e w e (StorageEngine.built hash m e w) := by
  have hcomplete : Complete hash (tableOf hash m) m.records := ⟨rfl, hlen, m.records_ascending, hshort.records⟩
  exact h.writeNext whole hroom (show bytes "data_" ∈ families by decide) rfl ⟨_, hcomplete⟩

/-- The table is installed, and the log truncated or not. -/
theorem installed (whole : Prop) (h : Kept hash e w.disk rs ts) (hroom : e.idCounter.toNat + 1 < 2 ^ 64)
    (ha : e.active = some m) {io : FlushIO} (hio : io.addSSTable = .ok) {r : SSTableReader}
    (hr : TableReader hash m e.flushPath r) :
    Silent hash whole e w (e.withTable io r (StorageEngine.built hash m e w)) (installedWorld hash io m e w) := by
  have hshort := (h.fresh m ha).short
  have hlen : (tableOf hash m).length ≤ maxFileSize := by
    have hdata := hr.reads.short
    rw [hr.reads.data] at hdata
    exact hdata
  obtain ⟨hbuilt, hsilent⟩ := h.built whole hroom hshort hlen
  -- the table on disk has the records of the memtable
  have hon : OnDisk hash e.config.dbDir (StorageEngine.built hash m e w).disk (2 ^ 64 - 1) r := by
    refine ⟨⟨bytes "data_", by decide, e.idCounter.toNat, by omega, hr.filepath⟩, ?_, m.records, hr.reads,
      m.records_ascending, hshort.records⟩
    rw [hr.filepath, hr.reads.data]
    exact setTable_self _ _ _
  obtain ⟨hlisted, hlive⟩ := hbuilt.listed hroom ha hio hon hr.filepath (hr.layer_eq hshort)
    (StorageEngine.built hash m e w)
  -- first the line in the manifest, then the log is truncated
  have hadded := hsilent.trans (hbuilt.effect (.manifestAppend (e.flushPath ++ [newline])) hlisted rfl hlive)
  have hworld : (e.manifest.addSSTable e.flushPath io.addSSTable (StorageEngine.built hash m e w)).2.2 =
      (StorageEngine.built hash m e w).perform (.manifestAppend (e.flushPath ++ [newline])) := by
    unfold Manifest.addSSTable
    rw [hio]
  unfold installedWorld StorageEngine.truncated
  rw [hworld]
  split
  · exact hadded.trans (hlisted.effect _ (hlisted.truncated fun _ => rfl) rfl rfl)
  · exact hadded

end Kept

/-- How opening a memtable ends. -/
theorem MemTable.new_end {walPath : Bytes} {io : MemTableIO} {res : Except Bytes MemTable}
    (h : MemTable.new walPath io w = (res, w')) :
    (∃ what, res = .error what ∧ w' = w) ∨ walPath = [] ∧ res = .ok (.blank false) ∧ w' = w ∨
      walPath ≠ [] ∧ w' = w.perform .walOpen ∧ res = .ok ((MemTable.blank true).recoverFromWAL io w'.disk) := by
  by_cases hp : walPath = []
  · subst hp
    rw [MemTable.new_nil] at h
    obtain ⟨h1, h2⟩ := Prod.mk.inj h
    exact Or.inr (Or.inl ⟨rfl, h1.symm, h2.symm⟩)
  · cases ho : io.openError with
    | none =>
      rw [MemTable.new_opened hp ho] at h
      obtain ⟨h1, rfl⟩ := Prod.mk.inj h
      exact Or.inr (Or.inr ⟨hp, rfl, h1.symm⟩)
    | some reason =>
      obtain ⟨what, hnew⟩ := MemTable.new_refused hp ho w
      obtain ⟨h1, h2⟩ := Prod.mk.inj (hnew.symm.trans h)
      exact Or.inl ⟨what, h1.symm, h2.symm⟩

namespace Kept

/-- A memtable is opened on the log. -/
theorem opened (h : Kept hash e w.disk rs ts) (ha : e.active = none) (hi : e.immutable = none) {io : MemTableIO}
    (hnew : MemTable.new e.config.walPath io w = (.ok m, w')) :
    Silent hash whole e w { e with active := some m } w' := by
  rcases MemTable.new_end hnew with ⟨what, hno, -⟩ | ⟨hp, hm, rfl⟩ | ⟨hp, rfl, hm⟩
  · exact absurd hno (by simp)
  · -- without a log the memtable is blank
    obtain rfl := Except.ok.inj hm
    have hfresh : Fresh e.config.walPath (.blank false) := by
      rw [hp]
      exact fresh_blank []
    obtain ⟨h', hlive⟩ := h.reopened ha hi hfresh (fun key x hx => absurd hx (by simp [MemTable.layer_blank]))
      h.files rfl
    exact h.becomes h' rfl hlive
  · -- with one it has what the log says, or nothing if the log cannot be opened
    obtain rfl := Except.ok.inj hm
    have hfiles : Recoverable hash e.config.dbDir (w.perform .walOpen).disk rs ts := h.files.walOpen
    have hmem : Fresh e.config.walPath ((MemTable.blank true).recoverFromWAL io (w.perform .walOpen).disk) ∧
        ∀ key x, ((MemTable.blank true).recoverFromWAL io (w.perform .walOpen).disk).layer key = some x →
          lastWrite (rs.map LogRecord.write) key = some x := by
      rcases hfiles.log.recoverFromWAL io (.blank true) with hall | ⟨-, hnone⟩
      · rw [hall, MemTable.layer_replay]
        exact ⟨fresh_replay hp h.files.short, fun _ _ hx => hx⟩
      · rw [hnone]
        have hblank := fresh_blank e.config.walPath
        rw [show decide (e.config.walPath ≠ []) = true by simpa using hp] at hblank
        exact ⟨hblank, fun key x hx => absurd hx (by simp [MemTable.layer_blank])⟩
    obtain ⟨h', hlive⟩ := h.reopened ha hi hmem.1 (fun key x hx => ⟨hp, hmem.2 key x hx⟩) hfiles rfl
    exact h.effect .walOpen h' rfl hlive

/-- **A flush** without its compaction, whatever fails in it but the manifest's line. -/
theorem flushTable (h : Kept hash e w.disk rs ts) (hroom : e.idCounter.toNat + 1 < 2 ^ 64) {io : FlushIO}
    (hio : io.addSSTable = .ok) {o : Outcome Bool} (hf : StorageEngine.flushTable hash io e w = (o, e', w')) :
    Silent hash whole e w e' w' := by
  have hcases := flushTable_cases hash io e w
  rw [hf] at hcases
  cases hcases with
  | idle _ => exact h.silent
  | notBuilt m what ha hne =>
    -- the file that was begun is removed again
    obtain ⟨hremoved, hsilent⟩ := h.tried whole hroom (show bytes "data_" ∈ families by decide)
      (show e.flushPath = _ from rfl) io.build.opens
    obtain ⟨hmoved, hlive⟩ := hremoved.moved hroom ha
    exact hsilent.trans (hremoved.becomes hmoved rfl hlive)
  | notOpened m what ha hne hlen ho =>
    -- the table is there, and not in the manifest
    obtain ⟨hbuilt, hsilent⟩ := h.built whole hroom (h.fresh m ha).short hlen
    obtain ⟨hmoved, hlive⟩ := hbuilt.moved hroom ha
    exact hsilent.trans (hbuilt.becomes hmoved rfl hlive)
  | noMemTable m what r w₁ ha hne hr hnew =>
    have hinstalled := h.installed whole hroom ha hio hr
    rcases MemTable.new_end hnew with ⟨-, -, rfl⟩ | ⟨-, hno, -⟩ | ⟨-, -, hno⟩
    · exact hinstalled
    · exact absurd hno (by simp)
    · exact absurd hno (by simp)
  | done m m' r w₁ ha hne hr hnew =>
    have hinstalled := h.installed whole hroom ha hio hr
    obtain ⟨rs', ts', hkept⟩ := hinstalled.kept
    exact hinstalled.trans (hkept.opened rfl rfl hnew)

end Kept

end

end LsmTree
