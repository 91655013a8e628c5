import LsmTree.Proof.Kept
import LsmTree.Proof.FileIds

/-!
# Compactions that keep the files

The manifest's entries are replaced by name, and if that fails by number; the second way
writes a name of its own for the merged table.

* `CompactionIO.Safe`: the second way does not take effect, and neither loses the manifest.
* `Kept.replace`: then the manifest lists the merged table alone, or what it listed before.
* `Kept.compaction`: **a compaction keeps the files and changes no live value**, however it
  ends, if its merge preserves the view.
-/

namespace LsmTree

open Base StorageEngine WAL

variable {hash : Bytes → UInt64} {heaps : Heaps} {e e' : StorageEngine} {w w' : World} {d d' : Disk}
  {rs : List LogRecord} {ts : List SSTableReader} {io : CompactionIO}

/-! ## The manifest -/

/-- The manifest is never removed before the new one takes its place. -/
def ReplaceIO.Whole (io : ReplaceIO) : Prop := io.tmp = .ok → io.rename = false → io.remove = false

instance (io : ReplaceIO) : Decidable io.Whole := by
  unfold ReplaceIO.Whole
  infer_instance

/-- Nor is it in either of the two ways. -/
def CompactionIO.Whole (io : CompactionIO) : Prop := io.byNames.Whole ∧ io.byIds.Whole

instance (io : CompactionIO) : Decidable io.Whole := by
  unfold CompactionIO.Whole
  infer_instance

/-- The manifest is not lost, and its entries are not replaced by number. -/
structure CompactionIO.Safe (io : CompactionIO) (e : StorageEngine) : Prop where
  byNames : e.manifest.hasNames (e.sstables.map SSTableReader.filepath) = true → ¬ io.byNames.Loses
  byIds : (e.manifest.hasNames (e.sstables.map SSTableReader.filepath) = true ∧ io.byNames.Succeeds = true) ∨
    e.manifest.hasIds (fileIds e.sstables) = false ∨ io.byIds.Succeeds = false ∧ ¬ io.byIds.Loses

instance (io : CompactionIO) (e : StorageEngine) : Decidable (io.Safe e) :=
  decidable_of_iff
    ((e.manifest.hasNames (e.sstables.map SSTableReader.filepath) = true → ¬ io.byNames.Loses) ∧
      ((e.manifest.hasNames (e.sstables.map SSTableReader.filepath) = true ∧ io.byNames.Succeeds = true) ∨
        e.manifest.hasIds (fileIds e.sstables) = false ∨ io.byIds.Succeeds = false ∧ ¬ io.byIds.Loses))
    ⟨fun h => ⟨h.1, h.2⟩, fun h => ⟨h.1, h.2⟩⟩

/-- Another temporary. -/
def Disk.withTmp (d : Disk) (tmp : Option Bytes) : Disk := { d with manifestTmp := tmp }

/-- The new list in place of the manifest. -/
def Disk.relisted (d : Disk) (fs : List Bytes) : Disk :=
  { d with manifest := some (unlines fs), manifestTmp := none }

namespace Manifest

/-- Every point of writing the manifest anew, if it is never missing. -/
theorem persist_points {P : Disk → Prop} {updated : List Bytes} {io : ReplaceIO}
    (htmp : ∀ d tmp, P d → P (d.withTmp tmp)) (hw : P w.disk)
    (hrelisted : io.Succeeds = true → P (w.disk.relisted updated)) (hwhole : io.Whole) (m : Manifest) :
    Through P w (m.persist updated io w).2.2 := by
  unfold persist
  unfold ReplaceIO.Succeeds at hrelisted
  cases ht : io.tmp with
  | openFails => exact .refl hw
  | torn n => exact .one _ hw (htmp _ _ hw)
  | ok =>
    have hwritten : Through P w (w.perform (.manifestTmp (unlines updated))) := .one _ hw (htmp _ _ hw)
    simp only
    cases hren : io.rename with
    | true => exact .step _ hwritten (hrelisted (by simp [ht, hren]))
    | false =>
      have hrem : io.remove = false := hwhole ht hren
      simp only [hrem, Bool.false_eq_true, if_false]
      cases hagain : io.renameAgain with
      | true => exact .step _ hwritten (hrelisted (by simp [ht, hagain]))
      | false => exact hwritten

end Manifest

namespace StorageEngine

/-- What the way by number leaves where it does not take effect. -/
structure Untouched (P : Disk → Prop) (m : Manifest) (w : World) (whole : Prop)
    (r : Bool × Manifest × World) : Prop where
  refused : r.1 = false
  manifest : r.2.1 = m
  disk : r.2.2.disk.withTmp none = w.disk.withTmp none
  points : P w.disk → whole → Through P w r.2.2

theorem replaceByIds_untouched {P : Disk → Prop} (htmp : ∀ d tmp, P d → P (d.withTmp tmp)) {m : Manifest}
    {ids : List ℕ}
    {io : ReplaceIO} (hsafe : m.hasIds ids = false ∨ io.Succeeds = false ∧ ¬ io.Loses) (id : ℕ) (w : World) :
    Untouched P m w io.Whole (m.replaceByIds ids id io w) := by
  have hidle : Untouched P m w io.Whole (false, m, w) := ⟨rfl, rfl, rfl, fun hw _ => .refl hw⟩
  unfold Manifest.replaceByIds
  split
  · exact hidle
  · split
    · exact hidle
    · rename_i hhas
      -- the ids are in the manifest: the new one is written, and the renaming is refused
      obtain ⟨hfails, hloses⟩ := hsafe.resolve_left (by simpa using hhas)
      change Untouched P m w io.Whole (m.persist (Manifest.replaceWhere _ _ _) io w)
      generalize Manifest.replaceWhere _ _ _ = updated
      have hpoints : P w.disk → io.Whole → Through P w (m.persist updated io w).2.2 := fun hw hwhole =>
        Manifest.persist_points htmp hw (fun hs => absurd (hfails.symm.trans hs) (by decide)) hwhole m
      have hfst := Manifest.persist_fst updated io m w
      have hend := Manifest.persist_cases updated hloses m w
      generalize m.persist updated io w = r at hfst hend hpoints
      cases hend with
      | replaced w' _ =>
        have hsucceeds : io.Succeeds = true := hfst.symm
        exact absurd (hfails.symm.trans hsucceeds) (by decide)
      | kept w' hd => exact ⟨rfl, rfl, hd, hpoints⟩

/-- How the manifest's part of a safe compaction ends. -/
inductive ReplaceEnd (P : Disk → Prop) (e : StorageEngine) (ts : List SSTableReader) (w : World) (whole : Prop) :
    Bool × Manifest × World → Prop
  | relisted (w' : World) (hts : ts = e.sstables) (hd : w'.disk.withTmp none = w.disk.relisted [e.compactPath])
    (hpoints : P w.disk → P (w.disk.relisted [e.compactPath]) → whole → Through P w w') :
    ReplaceEnd P e ts w whole (true, ⟨[e.compactPath]⟩, w')
  | kept (w' : World) (hd : w'.disk.withTmp none = w.disk.withTmp none)
    (hpoints : P w.disk → whole → Through P w w') : ReplaceEnd P e ts w whole (false, e.manifest, w')

end StorageEngine

/-- **The manifest lists the merged table alone**, or what it listed before. -/
theorem Kept.replace {P : Disk → Prop} (htmp : ∀ d tmp, P d → P (d.withTmp tmp)) (h : Kept hash e d rs ts)
    (hne : e.sstables ≠ []) (hsafe : io.Safe e) (w : World) :
    ReplaceEnd P e ts w io.Whole (replaceInManifest (e.sstables.map SSTableReader.filepath) (fileIds e.sstables)
      e.compactPath e.idCounter.toNat io e.manifest w) := by
  have hids : (e.manifest.hasIds (fileIds e.sstables) = false ∨ io.byIds.Succeeds = false ∧ ¬ io.byIds.Loses) →
      ∀ w : World, Untouched P e.manifest w io.byIds.Whole
        (e.manifest.replaceByIds (fileIds e.sstables) e.idCounter.toNat io.byIds w) :=
    fun hsafe w => replaceByIds_untouched htmp hsafe e.idCounter.toNat w
  unfold replaceInManifest
  by_cases hall : ∀ r ∈ e.sstables, r.filepath ∈ e.manifest.sstableFiles
  · -- every table is listed, so the files read back are those of the engine's tables
    have hts := h.aligned hall
    have hhas : e.manifest.hasNames (e.sstables.map SSTableReader.filepath) = true := by
      unfold Manifest.hasNames
      rw [List.all_eq_true]
      intro f hf
      obtain ⟨r, hr, rfl⟩ := List.mem_map.1 hf
      simpa using hall r hr
    rw [replaceByNames_listed hne (by rw [h.memory, hts])]
    have hfst := Manifest.persist_fst [e.compactPath] io.byNames e.manifest w
    have hend := Manifest.persist_cases [e.compactPath] (hsafe.byNames hhas) e.manifest w
    have hpoints : P w.disk → (io.byNames.Succeeds = true → P (w.disk.relisted [e.compactPath])) →
        io.byNames.Whole → Through P w (e.manifest.persist [e.compactPath] io.byNames w).2.2 :=
      fun hw hrelisted hwhole => Manifest.persist_points htmp hw hrelisted hwhole e.manifest
    generalize e.manifest.persist [e.compactPath] io.byNames w = r at hfst hend hpoints
    cases hend with
    | replaced w' hd =>
      exact .relisted w' hts hd fun hw hrelisted hwhole => hpoints hw (fun _ => hrelisted) hwhole.1
    | kept w' hd =>
      -- by name it failed, and is tried once more by id
      have hfails : io.byNames.Succeeds = false := hfst.symm
      have hunt := hids (hsafe.byIds.resolve_left fun hno => absurd (hfails.symm.trans hno.2) (by decide)) w'
      simp only
      generalize e.manifest.replaceByIds (fileIds e.sstables) e.idCounter.toNat io.byIds w' = r at hunt
      obtain ⟨ok, m', w''⟩ := r
      obtain rfl : ok = false := hunt.refused
      obtain rfl : m' = e.manifest := hunt.manifest
      refine .kept w'' (hunt.disk.trans hd) fun hw hwhole => ?_
      have hfirst : Through P w w' :=
        hpoints hw (fun hs => absurd (hfails.symm.trans hs) (by decide)) hwhole.1
      exact hfirst.trans (hunt.points hfirst.last hwhole.2)
  · -- a table that is not listed cannot be replaced by name
    simp only [not_forall] at hall
    obtain ⟨r, hr, hmiss⟩ := hall
    have hhas : ¬ e.manifest.hasNames (e.sstables.map SSTableReader.filepath) = true := by
      unfold Manifest.hasNames
      rw [List.all_eq_true]
      intro hno
      exact hmiss (by simpa using hno _ (List.mem_map_of_mem hr))
    rw [Manifest.replaceByNames_missing (List.mem_map_of_mem hr) hmiss]
    have hunt := hids (hsafe.byIds.resolve_left fun hno => hhas hno.1) w
    simp only
    generalize e.manifest.replaceByIds (fileIds e.sstables) e.idCounter.toNat io.byIds w = r at hunt
    obtain ⟨ok, m', w''⟩ := r
    obtain rfl : ok = false := hunt.refused
    obtain rfl : m' = e.manifest := hunt.manifest
    exact .kept w'' hunt.disk fun hw hwhole => hunt.points hw hwhole.2

/-! ## The tables -/

namespace Kept

theorem withTmp (h : Kept hash e d rs ts) (tmp : Option Bytes) : Kept hash e (d.withTmp tmp) rs ts :=
  h.congr rfl rfl rfl

theorem ofTmp (h : Kept hash e d rs ts) (hd : d'.withTmp none = d.withTmp none) : Kept hash e d' rs ts := by
  have ht : (d'.withTmp none).tables = (d.withTmp none).tables := congrArg Disk.tables hd
  have hm : (d'.withTmp none).manifest = (d.withTmp none).manifest := congrArg Disk.manifest hd
  have hwal : (d'.withTmp none).wal = (d.withTmp none).wal := congrArg Disk.wal hd
  exact h.congr ht hm hwal

/-- The counter goes on. -/
theorem counted (h : Kept hash e d rs ts) (hroom : e.idCounter.toNat + 1 < 2 ^ 64) :
    Kept hash { e with idCounter := e.idCounter + 1 } d rs ts ∧
      ({ e with idCounter := e.idCounter + 1 } : StorageEngine).liveValue hash = e.liveValue hash := by
  have hmono : e.idCounter.toNat ≤ ({ e with idCounter := e.idCounter + 1 } : StorageEngine).idCounter.toNat := by
    change e.idCounter.toNat ≤ (e.idCounter + 1).toNat
    rw [toNat_succ hroom]
    omega
  exact h.frame rfl rfl rfl rfl hmono h.slot h.fresh h.files (h.tables.congr rfl rfl hmono rfl)

/-- The merged table alone is listed. -/
theorem relisted (h : Kept hash e d rs ts) (hroom : e.idCounter.toNat + 1 < 2 ^ 64) (hne : e.sstables ≠ [])
    {r : SSTableReader} (hr : OnDisk hash e.config.dbDir d (e.idCounter + 1).toNat r)
    (hpath : r.filepath = e.compactPath) (hview : ∀ key, stack e.memLayers key = none →
      Base.view (tableLayers hash [r]) key = Base.view (tableLayers hash e.sstables) key) :
    Kept hash { e with idCounter := e.idCounter + 1, manifest := ⟨[e.compactPath]⟩ }
      (d.relisted [e.compactPath]) rs [r] ∧
      ({ e with idCounter := e.idCounter + 1, manifest := ⟨[e.compactPath]⟩ } : StorageEngine).liveValue hash =
        e.liveValue hash := by
  have hsucc : (e.idCounter + 1).toNat = e.idCounter.toNat + 1 := toNat_succ hroom
  -- the open tables are the old ones still
  have hlive : ({ e with idCounter := e.idCounter + 1, manifest := ⟨[e.compactPath]⟩ } :
    StorageEngine).liveValue hash =
      e.liveValue hash := by
    rw [liveValue_eq, liveValue_eq]
    rfl
  have hlist : [e.compactPath] = ([r].map SSTableReader.filepath).reverse := by rw [← hpath]; rfl
  have hfiles : Recoverable hash e.config.dbDir (d.relisted [e.compactPath]) rs [r] := by
    refine h.files.relisted (fun t ht => ?_) rfl (by rw [← hlist]; rfl) rfl
    rw [List.mem_singleton.1 ht]
    exact hr.congr (by omega) rfl
  refine ⟨⟨h.directory, hfiles, h.tables.congr rfl rfl ?_ rfl, h.slot, h.fresh, hlist, fun t ht => ?_,
    fun hall => ?_,
    hview, fun hp key x hx => ?_, h.unlogged⟩, hlive⟩
  · change e.idCounter.toNat ≤ (e.idCounter + 1).toNat
    omega
  · rw [List.mem_singleton.1 ht]
    exact hr.named
  · -- no open table has the new name
    obtain ⟨t, rest, hts⟩ := List.exists_cons_of_ne_nil hne
    have ht : t ∈ e.sstables := by
      rw [hts]
      exact List.mem_cons_self
    exact absurd (List.mem_singleton.1 (hall t ht)) (h.tables.path_ne (by decide) ht)
  · rw [hlive]
    exact h.logged hp key x hx

/-- The listed tables are taken for the open ones. -/
theorem adopted (h : Kept hash e d rs ts) :
    Kept hash { e with sstables := ts } d rs ts ∧
      ({ e with sstables := ts } : StorageEngine).liveValue hash = e.liveValue hash := by
  have hlive : ({ e with sstables := ts } : StorageEngine).liveValue hash = e.liveValue hash := by
    funext key
    rw [liveValue_eq, liveValue_eq]
    unfold layers
    rw [view_append, view_append,
      show stack ({ e with sstables := ts } : StorageEngine).memLayers key = stack e.memLayers key from rfl]
    cases hmem : stack e.memLayers key with
    | some x => rfl
    | none => exact h.behind key hmem
  refine ⟨⟨h.directory, h.files, ⟨fun r hr => ?_, h.files.disk⟩, h.slot, h.fresh, h.memory, h.below, fun _ => rfl,
    fun _ _ => rfl, fun hp key x hx => ?_, h.unlogged⟩, hlive⟩
  · exact ⟨h.below r hr, (h.files.stands r hr).file, (h.files.stands r hr).holds⟩
  · rw [hlive]
    exact h.logged hp key x hx

/-- A file that is neither listed nor open is removed. -/
theorem removed (h : Kept hash e d rs ts) {f : Bytes} (hts : ∀ r ∈ ts, r.filepath ≠ f)
    (hopen : ∀ r ∈ e.sstables, r.filepath ≠ f) : Kept hash e (Effect.apply (.tableRemove f) d) rs ts :=
  (h.frame rfl rfl rfl rfl le_rfl h.slot h.fresh (h.files.setTable hts fun content hc => absurd hc (by simp))
    ⟨fun r hr => (h.tables.live r hr).setTable le_rfl (hopen r hr) none,
      h.tables.disk.setTable fun content hc => absurd hc (by simp)⟩).1

/-- The old files are removed, or some of them. -/
theorem removeOld (whole : Prop) (removes : Bytes → Bool) {old : List Bytes}
    (hts : ∀ r ∈ ts, r.filepath ∉ old) (hopen : ∀ r ∈ e.sstables, r.filepath ∉ old) : ∀ {w : World},
    Kept hash e w.disk rs ts → Silent hash whole e w e (StorageEngine.removeOld removes old w) := by
  induction old with
  | nil => exact fun h => h.silent
  | cons f fs ih =>
    intro w h
    have hrest : ∀ {w : World}, Kept hash e w.disk rs ts →
        Silent hash whole e w e (StorageEngine.removeOld removes fs w) :=
      ih (fun r hr hmem => hts r hr (List.mem_cons_of_mem _ hmem))
        fun r hr hmem => hopen r hr (List.mem_cons_of_mem _ hmem)
    change Silent hash whole e w e
      (StorageEngine.removeOld removes fs (if removes f then w.perform (.tableRemove f) else w))
    cases removes f with
    | false => exact hrest h
    | true =>
      have hremoved : Kept hash e (w.perform (.tableRemove f)).disk rs ts :=
        h.removed (fun r hr hp => hts r hr (hp ▸ List.mem_cons_self)) fun r hr hp =>
          hopen r hr (hp ▸ List.mem_cons_self)
      exact (h.effect _ hremoved rfl rfl).trans (hrest hremoved)

end Kept

theorem Holds.withTmp {config : Config} {v : Bytes → Option Bytes} (h : Holds hash config v d)
    (tmp : Option Bytes) :
    Holds hash config v (d.withTmp tmp) := by
  obtain ⟨e, rs, ts, hkept, hc, hv⟩ := h
  exact ⟨e, rs, ts, hkept.withTmp tmp, hc, hv⟩

/-- The merged table says what the tables say, where no memtable does. -/
theorem MergePreserves.tables (hmerge : MergePreserves hash heaps e w.disk) {ins : List CompactorInput}
    (hm : Merges hash heaps io e w ins) {r : SSTableReader}
    (hr : r.Holds hash (Compactor.mergedRecords heaps.compaction ins)) (key : Bytes)
    (hmem : stack e.memLayers key = none) :
    Base.view (tableLayers hash [r]) key = Base.view (tableLayers hash e.sstables) key := by
  have hview := congrFun (hmerge ins (inputDisk_of_opens hm)) key
  rw [view_append, view_append, hmem, ← hr.layer_eq] at hview
  exact hview

/-- **A compaction whose merge preserves the view**, whatever fails in it. -/
theorem Kept.compaction (h : Kept hash e w.disk rs ts) (hroom : e.idCounter.toNat + 1 < 2 ^ 64) (hsafe : io.Safe e)
    (hmerge : MergePreserves hash heaps e w.disk) {o : Outcome Bool}
    (hc : triggerCompactionInternal hash heaps io e w = (o, e', w')) : Silent hash io.Whole e w e' w' := by
  have hsst : bytes "sstable_" ∈ families := by decide
  have hcases := compaction_cases hash heaps io e w
  rw [hc] at hcases
  have htmp : ∀ d tmp, Holds hash e.config (e.liveValue hash) d →
      Holds hash e.config (e.liveValue hash) (d.withTmp tmp) := fun d tmp hd => hd.withTmp tmp
  -- the merged table is written, and the manifest goes on from there
  have hmerged : ∀ {ins}, Merges hash heaps io e w ins →
      Kept hash e (merged hash heaps ins e w).disk rs ts ∧
      Silent hash io.Whole e w e (merged hash heaps ins e w) := by
    intro ins hm
    obtain ⟨recs, -, hout⟩ := h.tables.merged_spec hm
    exact h.writeNext io.Whole hroom hsst rfl ⟨_, rfl, hm.length, hout.asc, hout.short⟩
  have hkept : ∀ {ins m' w'}, Merges hash heaps io e w ins → replaced hash heaps io ins e w = (false, m', w') →
      m' = e.manifest ∧ Kept hash e w'.disk rs ts ∧ Silent hash io.Whole e w e w' := by
    intro ins m' w' hm hr
    obtain ⟨hk, hs⟩ := hmerged hm
    have hend := h.replace htmp hm.ne_nil hsafe (merged hash heaps ins e w)
    rw [show replaceInManifest _ _ _ _ _ _ _ = (false, m', w') from hr] at hend
    cases hend with
    | kept _ hd hpoints =>
      have hfinal : Kept hash e w'.disk rs ts := hk.ofTmp hd
      exact ⟨rfl, hfinal, hs.trans ⟨⟨rs, ts, hfinal⟩, rfl, rfl, hpoints hk.holds⟩⟩
  have hrelisted : ∀ {ins m' w'} {r : SSTableReader}, Merges hash heaps io e w ins →
      replaced hash heaps io ins e w = (true, m', w') → r.filepath = e.compactPath →
      r.Reads (Compactor.mergedRecords heaps.compaction ins)
        (SSTableBuilder.filterOf hash (Compactor.mergedRecords heaps.compaction ins)) →
      Kept hash { e with idCounter := e.idCounter + 1, manifest := m' } w'.disk rs [r] ∧
        Silent hash io.Whole e w { e with idCounter := e.idCounter + 1, manifest := m' } w' := by
    intro ins m' w' r hm hr hpath hreads
    obtain ⟨recs, -, hout⟩ := h.tables.merged_spec hm
    obtain ⟨hk, hs⟩ := hmerged hm
    have hend := h.replace htmp hm.ne_nil hsafe (merged hash heaps ins e w)
    rw [show replaceInManifest _ _ _ _ _ _ _ = (true, m', w') from hr] at hend
    cases hend with
    | relisted _ hts hd hpoints =>
      obtain ⟨hnew, hlive⟩ := hk.relisted hroom hm.ne_nil (h.tables.mergedOnDisk hroom hm rfl hpath hreads) hpath
        (hmerge.tables hm ⟨hreads, hout.asc, hout.short⟩)
      have hfinal := hnew.ofTmp hd
      refine ⟨hfinal, hs.trans ⟨⟨rs, [r], hfinal⟩, rfl, hlive, hpoints hk.holds ?_⟩⟩
      rw [← hlive]
      exact hnew.holds
  cases hcases with
  | below _ => exact h.silent
  | notOpened _ => exact h.silent
  | nothing _ =>
    obtain ⟨hcounted, hlive⟩ := h.counted hroom
    exact h.becomes hcounted rfl hlive
  | notBuilt =>
    obtain ⟨hremoved, hsilent⟩ := h.tried io.Whole hroom hsst (show e.compactPath = _ from rfl) io.build.opens
    obtain ⟨hcounted, hlive⟩ := hremoved.counted hroom
    exact hsilent.trans (hremoved.becomes hcounted rfl hlive)
  | notReplaced ins m' _ hm hr =>
    obtain ⟨rfl, hfinal, hsilent⟩ := hkept hm hr
    obtain ⟨hcounted, hlive⟩ := hfinal.counted hroom
    exact hsilent.trans (hfinal.becomes hcounted rfl hlive)
  | notRead ins m' _ hm hr ho =>
    obtain ⟨r, -, hpath, hreads⟩ := reader_opens hash e.compactPath hm.length
    exact (hrelisted hm hr hpath hreads).2
  | done ins m' w₁ r hm hr hnew hpath hreads =>
    obtain ⟨hfinal, hsilent⟩ := hrelisted hm hr hpath hreads
    obtain ⟨hadopted, hlive⟩ := hfinal.adopted
    have hold : ∀ t ∈ [r], t.filepath ∉ e.sstables.map SSTableReader.filepath := by
      intro t ht hmem
      obtain ⟨t', ht', hp⟩ := List.mem_map.1 hmem
      exact h.tables.path_ne hsst ht' (hp.trans (by rw [List.mem_singleton.1 ht, hpath]; rfl))
    exact (hsilent.trans (hfinal.becomes hadopted rfl hlive)).trans
      (Kept.removeOld io.Whole io.removes hold hold hadopted)

end LsmTree
