import LsmTree.Proof.KeptCompaction

/-!
# Runs that keep the files

A step of a run is a call, whatever fails in it, or a call in which the process stops, after
which the database is opened again.

* `Op.Sound`: the log reads back, the manifest's line of a new table is written, and a
  compaction is safe.
* `Kept.step`: **such a call keeps the files**, and at every point in it they recover to the
  live values before it or to those after it.
* `SoundRun.kept`: the files are kept in every state of a run of such steps.
-/

namespace LsmTree

open Base StorageEngine WAL

variable {hash : Bytes → UInt64} {heaps : Heaps} {e e' : StorageEngine} {w w' : World} {d : Disk}
  {rs : List LogRecord} {ts : List SSTableReader} {m m' : MemTable} {r : LogRecord} {config : Config}

/-! ## Opening -/

/-- **The database opened on the files keeps them.** -/
theorem Recoverable.kept (h : Recoverable hash config.dbDir w.disk rs ts) (hdir : newline ∉ config.dbDir) :
    ∃ e w', StorageEngine.new config .ok w = (.ok e, w') ∧ e.config = config ∧ Kept hash e w'.disk rs ts := by
  obtain ⟨m, n, w', hnew, hfresh, hlayer, hfiles⟩ := h.opens hdir
  obtain ⟨htables, -⟩ := TablesOK.reopen h.disk hnew
  refine ⟨_, w', hnew, rfl, hdir, hfiles, htables, fun _ => rfl, ?_, rfl, fun r hr => (htables.live r hr).named,
    fun _ => rfl, fun _ _ => rfl, fun hp key x hx => ?_, fun hp key hkey => ?_⟩
  · intro m₁ hm₁
    rw [← Option.some.inj hm₁]
    exact hfresh
  · have hlog : m.layer key = some x := by
      rw [hlayer, logLayer_of_ne hp]
      exact hx
    rw [liveValue_eq, layers_active rfl rfl]
    unfold Base.view
    rw [stack_cons, hlog]
    rfl
  · have hlog : m.layer key = none := by
      rw [hlayer, logLayer_of_ne hp]
      exact hkey
    rw [Kept.memLayers_active rfl rfl, stack_cons, hlog]
    rfl

/-! ## Writes -/

/-- Of the live values before and after. -/
def HoldsEither (hash : Bytes → UInt64) (config : Config) (v v' : Bytes → Option Bytes) (d : Disk) : Prop :=
  Holds hash config v d ∨ Holds hash config v' d

theorem Fresh.applyEntry {walPath : Bytes} (h : Fresh walPath m) (hr : r.Short) :
    Fresh walPath (m.applyEntry r.entry) := by
  obtain ⟨himm, hwal⟩ := MemTable.applyEntry_flags r.entry m
  exact ⟨himm.trans h.mutable, h.short.applyEntry hr, by rw [hwal]; exact h.wal⟩

/-- **A write**, or one that the log refuses. -/
theorem Kept.writeEnd (h : Kept hash e w.disk rs ts) (ha : e.active = some m) (hr : r.Short) {io : AppendIO}
    (hread : e.config.walPath ≠ [] → AppendDecodes r io w) {ok : Bool} (hend : WriteEnd r io m w (ok, m', w')) :
    ∃ rs', Kept hash { e with active := some m' } w'.disk rs' ts ∧
      Through (HoldsEither hash e.config (e.liveValue hash)
        (({ e with active := some m' } : StorageEngine).liveValue hash)) w w' := by
  have hfresh := h.fresh m ha
  cases hend with
  | written hio =>
    cases hwal : m.wal with
    | true =>
      have hp : e.config.walPath ≠ [] := hfresh.wal.1 hwal
      obtain rfl := hio hwal
      -- the values change when the line is in the log, before it is synced
      have hfiles := h.files.append hr (hread hp)
      have hrecords : Kept.written e.config.walPath rs r = appended rs r .ok := by
        unfold Kept.written appended
        rw [if_neg hp, if_pos rfl]
      rw [← hrecords] at hfiles
      obtain ⟨hkept, -⟩ := h.write ha (hfresh.applyEntry hr) (MemTable.layer_applyEntry r m) hfiles rfl
      refine ⟨_, hkept, ?_⟩
      have hfirst : Through (HoldsEither hash e.config (e.liveValue hash)
          (({ e with active := some (m.applyEntry r.entry) } : StorageEngine).liveValue hash)) w
          (w.perform (.walAppend (jsonLine r.op.name r.key r.value r.time ++ [newline]))) :=
        .one _ (Or.inl h.holds) (Or.inr hkept.holds)
      exact .step .walSync hfirst (Or.inr hkept.holds)
    | false =>
      -- without a log there is no effect on the files
      have hp : e.config.walPath = [] := by
        by_contra hp
        exact absurd (hwal.symm.trans (hfresh.wal.2 hp)) (by decide)
      have hrecords : Kept.written e.config.walPath rs r = rs := if_pos hp
      obtain ⟨hkept, -⟩ := h.write ha (hfresh.applyEntry hr) (MemTable.layer_applyEntry r m)
        (by rw [hrecords]; exact h.files) rfl
      exact ⟨_, hkept, .refl (Or.inl h.holds)⟩
  | refused hm hio =>
    -- a line that is torn says nothing
    have hfiles := h.files.append hr (hread (hfresh.wal.1 hm))
    unfold appended at hfiles
    rw [if_neg hio] at hfiles
    obtain ⟨ht, -⟩ := disk_append r.op.name r.key r.value r.time io w
    have hkept := (h.frame rfl rfl rfl rfl le_rfl h.slot h.fresh hfiles (h.tables.congr rfl rfl le_rfl ht)).1
    rw [Kept.withActive ha]
    refine ⟨rs, hkept, ?_⟩
    cases io with
    | ok => exact absurd rfl hio
    | torn n => exact .one _ (Or.inl h.holds) (Or.inl hkept.holds)

/-! ## Flushes -/

/-- **A flush and the compaction it triggers.** -/
theorem Kept.flush (h : Kept hash e w.disk rs ts) (hroom : e.idCounter.toNat + 2 < 2 ^ 64) {io : FlushIO}
    (hio : io.addSSTable = .ok)
    (hpoint : ∀ p, flushPoint hash io e w = some p → io.compaction.Safe p.engine ∧ RanksAgree hash p.engine)
    {o : Outcome Unit} (hf : flushMemTableInternal hash heaps io e w = (o, e', w')) :
    Silent hash io.compaction.Whole e w e' w' := by
  cases flush_end hf with
  | table htable _ _ => exact h.flushTable (by omega) hio htable
  | @compacted _ _ e₁ _ w₁ _ htable hdue hcompact _ =>
    have hsilent : Silent hash io.compaction.Whole e w e₁ w₁ := h.flushTable (by omega) hio htable
    obtain ⟨rs₁, ts₁, hkept⟩ := hsilent.kept
    obtain ⟨hsafe, hagree⟩ := hpoint ⟨e₁, w₁⟩ (flushPoint_of htable hdue)
    exact hsilent.trans (hkept.compaction (room_flushTable hroom htable) hsafe
      (hagree.mergePreserves hkept.tables) hcompact)

/-! ## One call -/

/-- The file operations of the flush in a call. -/
def Op.flushIO : Op → FlushIO
  | .put _ _ _ _ io => io
  | .flushMemTable io => io
  | .close io => io
  | _ => .ok

/-- What a call appends to the log, and what it opens of it, is read back. -/
def Op.LogDecodes (op : Op) (s : System) : Prop :=
  match op with
  | .put key value now append _ => s.engine.config.walPath ≠ [] →
    AppendDecodes ⟨.put, key, value, now⟩ append s.world
  | .delete key now append => s.engine.config.walPath ≠ [] → AppendDecodes ⟨.delete, key, [], now⟩ append s.world
  | .reopen _ _ io => io.readable = true
  | _ => True

/-- The log reads back, a new table gets its line in the manifest, and a compaction is safe
and its ranks agree. -/
structure Op.Sound (hash : Bytes → UInt64) (op : Op) (s : System) : Prop where
  log : op.LogDecodes s
  line : op.flushIO.addSSTable = .ok
  compaction : ∀ p, compactionPoint hash op s = some p → op.compactionIO.Safe p.engine ∧ RanksAgree hash p.engine

/-- From `s` to `s'` the files are kept at the end, and at every point on the way if the
manifest is never missing. -/
structure Stepped (hash : Bytes → UInt64) (whole : Prop) (s s' : System) : Prop where
  kept : ∃ rs ts, Kept hash s'.engine s'.world.disk rs ts
  walPath : s'.engine.config.walPath = s.engine.config.walPath
  points : whole → Through (HoldsEither hash s.engine.config (s.engine.liveValue hash) (s'.engine.liveValue hash))
    s.world s'.world

variable {whole : Prop} {s s' : System}

theorem Silent.stepped (h : Silent hash whole s.engine s.world s'.engine s'.world) : Stepped hash whole s s' :=
  ⟨h.kept, by rw [h.config], fun hwhole => (h.points hwhole).mono fun _ hd => Or.inl hd⟩

theorem Kept.stepped (h : Kept hash s.engine s.world.disk rs ts) : Stepped hash whole s s :=
  Silent.stepped h.silent

/-- A write, and what the call does behind it. -/
theorem Kept.writeThen (h : Kept hash e w.disk rs ts) (ha : e.active = some m) (hr : r.Short) {io : AppendIO}
    (hread : e.config.walPath ≠ [] → AppendDecodes r io w) {ok : Bool} {w₁ : World}
    (hend : WriteEnd r io m w (ok, m', w₁))
    (hthen : ∀ rs', Kept hash { e with active := some m' } w₁.disk rs' ts →
      Silent hash whole { e with active := some m' } w₁ e' w') :
    Stepped hash whole ⟨e, w⟩ ⟨e', w'⟩ := by
  obtain ⟨rs', hkept, hpoints⟩ := h.writeEnd ha hr hread hend
  have hsilent := hthen rs' hkept
  refine ⟨hsilent.kept, by rw [hsilent.config], fun hwhole => ?_⟩
  simp only
  rw [hsilent.live]
  exact hpoints.trans ((hsilent.points hwhole).mono fun _ hd => Or.inr hd)

theorem Kept.put (h : Kept hash s.engine s.world.disk rs ts) (hroom : s.HasRoom) {key value : Bytes} {now : Int64}
    {append : AppendIO} {io : FlushIO} (hop : (Op.put key value now append io).Short)
    (hsound : (Op.put key value now append io).Sound hash s) {o : Outcome Bool}
    (hstep : s.step hash heaps (.put key value now append io) = (o, s')) :
    Stepped hash io.compaction.Whole s s' := by
  have hshort : LogRecord.Short ⟨.put, key, value, now⟩ := ⟨hop.1, hop.2⟩
  have hwrite : ∀ {m}, s.engine.active = some m → WriteEnd ⟨.put, key, value, now⟩ append m s.world _ :=
    fun ha => put_end (h.fresh _ ha).mutable key value now append s.world
  cases step_put hstep with
  | closed _ => exact h.stepped
  | refused ha hput => exact h.writeThen ha hshort hsound.log (hput ▸ hwrite ha) fun _ hk => hk.silent
  | room ha hput _ => exact h.writeThen ha hshort hsound.log (hput ▸ hwrite ha) fun _ hk => hk.silent
  | full ha hput hfull hflush =>
    have hpoint := hsound.compaction
    unfold compactionPoint at hpoint
    simp only [ha, hput, if_pos hfull] at hpoint
    obtain rfl := System.unit_eq hflush
    exact h.writeThen ha hshort hsound.log (hput ▸ hwrite ha) fun _ hk => hk.flush hroom hsound.line hpoint rfl

theorem Kept.delete (h : Kept hash s.engine s.world.disk rs ts) {key : Bytes} {now : Int64} {append : AppendIO}
    (hop : (Op.delete key now append).Short) (hsound : (Op.delete key now append).Sound hash s) {o : Outcome Bool}
    (hstep : s.step hash heaps (.delete key now append) = (o, s')) : Stepped hash whole s s' := by
  have hshort : LogRecord.Short ⟨.delete, key, [], now⟩ := ⟨hop, by norm_num⟩
  have hwrite : ∀ {m}, s.engine.active = some m → WriteEnd ⟨.delete, key, [], now⟩ append m s.world _ :=
    fun ha => delete_end (h.fresh _ ha).mutable key now append s.world
  cases step_delete hstep with
  | closed _ => exact h.stepped
  | refused ha hdelete => exact h.writeThen ha hshort hsound.log (hdelete ▸ hwrite ha) fun _ hk => hk.silent
  | done ha hdelete => exact h.writeThen ha hshort hsound.log (hdelete ▸ hwrite ha) fun _ hk => hk.silent

/-- A log that can be read is opened as if nothing failed, or refused. -/
theorem new_readable {io : MemTableIO} (hio : io.readable = true) (config : Config) (w : World) :
    StorageEngine.new config io w = StorageEngine.new config .ok w ∨
      ∃ what, StorageEngine.new config io w = (.error what, w) := by
  obtain ⟨openError, readable⟩ := io
  obtain rfl : readable = true := hio
  cases openError with
  | none => exact Or.inl rfl
  | some reason =>
    by_cases hp : config.walPath = []
    · left
      unfold StorageEngine.new
      rw [hp, MemTable.new_nil, MemTable.new_nil]
    · right
      obtain ⟨what, hnew⟩ := MemTable.new_refused hp
        (show (⟨some reason, true⟩ : MemTableIO).openError = _ from rfl) w
      unfold StorageEngine.new
      simp only [hnew]
      split <;> exact ⟨_, rfl⟩

theorem Kept.reopen (h : Kept hash s.engine s.world.disk rs ts) {writeBufferSize compactionThreshold : UInt64}
    {io : MemTableIO} (hio : io.readable = true) {o : Outcome Bool}
    (hstep : s.step hash heaps (.reopen writeBufferSize compactionThreshold io) = (o, s')) :
    Stepped hash whole s s' := by
  unfold System.step at hstep
  simp only at hstep
  rcases new_readable hio { s.engine.config with
    writeBufferSize := writeBufferSize, compactionThreshold := compactionThreshold } s.world with hok | ⟨what, hno⟩
  · -- the log can be read: every record comes back
    have hfiles : Recoverable hash ({ s.engine.config with
        writeBufferSize := writeBufferSize, compactionThreshold := compactionThreshold } :
          Config).dbDir s.world.disk rs ts :=
      h.files
    obtain ⟨e', w', hnew, hc, hkept⟩ := hfiles.kept h.directory
    rw [hok, hnew] at hstep
    obtain ⟨-, rfl⟩ := Prod.mk.inj hstep
    refine ⟨⟨rs, ts, hkept⟩, by rw [hc], fun _ => ?_⟩
    obtain ⟨-, -, m, -, hmem, -⟩ := new_engine hnew
    rcases MemTable.new_end hmem with ⟨what, hno, -⟩ | ⟨-, -, rfl⟩ | ⟨-, rfl, -⟩
    · exact absurd hno (by simp)
    · exact .refl (Or.inl h.holds)
    · refine .one _ (Or.inl h.holds) (Or.inl ?_)
      exact (h.frame rfl rfl rfl rfl le_rfl h.slot h.fresh h.files.walOpen
        (h.tables.congr rfl rfl le_rfl rfl)).1.holds
  · rw [hno] at hstep
    obtain ⟨-, rfl⟩ := Prod.mk.inj hstep
    exact h.stepped

/-- **One call**, whatever it returns or throws. -/
theorem Kept.step (h : Kept hash s.engine s.world.disk rs ts) (hroom : s.HasRoom) {op : Op} (hop : op.Short)
    (hsound : op.Sound hash s) {o : Outcome Bool} (hstep : s.step hash heaps op = (o, s')) :
    Stepped hash op.compactionIO.Whole s s' := by
  cases op with
  | put key value now append io => exact h.put hroom hop hsound hstep
  | delete key now append => exact h.delete hop hsound hstep
  | flushMemTable io =>
    obtain rfl := System.unit_eq hstep
    exact Silent.stepped (h.flush hroom hsound.line hsound.compaction rfl)
  | triggerCompaction io =>
    obtain ⟨hsafe, hagree⟩ := hsound.compaction s rfl
    unfold System.HasRoom at hroom
    exact Silent.stepped (h.compaction (by omega) hsafe (hagree.mergePreserves h.tables)
      (step_triggerCompaction hstep))
  | close io =>
    obtain rfl := System.unit_eq (step_close hstep)
    exact Silent.stepped (h.flush hroom hsound.line hsound.compaction rfl)
  | reopen writeBufferSize compactionThreshold io => exact h.reopen hsound.log hstep

/-! ## Runs -/

/-- A call, or a call in which the process stops after `n` effects; the database is then
opened again with these parameters. -/
inductive RunStep where
  | call (op : Op)
  | crash (op : Op) (n : ℕ) (writeBufferSize compactionThreshold : UInt64)

namespace RunStep

def run (hash : Bytes → UInt64) (heaps : Heaps) (s : System) : RunStep → Option System
  | .call op => op.runAny hash heaps s
  | .crash op n writeBufferSize compactionThreshold =>
    if s.Fits ∧ op.Short then
      match StorageEngine.new { s.engine.config with
        writeBufferSize := writeBufferSize, compactionThreshold := compactionThreshold } .ok
        (.ofDisk (crashDisk s.world (s.step hash heaps op).2.world n)) with
      | (.ok e, w) => some ⟨e, w⟩
      | (.error _, _) => none
    else none

/-- The call is sound; where the process stops in it, it does not remove the manifest. -/
def Sound (hash : Bytes → UInt64) (s : System) : RunStep → Prop
  | .call op => op.Sound hash s
  | .crash op _ _ _ => op.Sound hash s ∧ op.compactionIO.Whole

end RunStep

/-- The states that sound steps lead to. -/
inductive SoundRun (hash : Bytes → UInt64) (heaps : Heaps) (s₀ : System) : System → Prop
  | start : SoundRun hash heaps s₀ s₀
  | step {s s' : System} (st : RunStep) (h : SoundRun hash heaps s₀ s) (hsound : st.Sound hash s)
    (hrun : st.run hash heaps s = some s') : SoundRun hash heaps s₀ s'

/-- The state with its files kept, on the log it started with. -/
def KeptSystem (hash : Bytes → UInt64) (walPath : Bytes) (s : System) : Prop :=
  s.engine.config.walPath = walPath ∧ ∃ rs ts, Kept hash s.engine s.world.disk rs ts

/-- **One step of a run.** -/
theorem KeptSystem.step {walPath : Bytes} (h : KeptSystem hash walPath s) {st : RunStep} (hsound : st.Sound hash s)
    (hrun : st.run hash heaps s = some s') : KeptSystem hash walPath s' := by
  obtain ⟨hwal, rs, ts, hkept⟩ := h
  cases st with
  | call op =>
    obtain ⟨hfits, hop, o, hstep, -⟩ := Op.runAny_eq_some hrun
    have hstepped := hkept.step hfits.room hop hsound hstep
    exact ⟨hstepped.walPath.trans hwal, hstepped.kept⟩
  | crash op n writeBufferSize compactionThreshold =>
    simp only [RunStep.run] at hrun
    split at hrun
    · rename_i hguard
      have hstepped : Stepped hash op.compactionIO.Whole s (s.step hash heaps op).2 :=
        hkept.step hguard.1.room hguard.2 hsound.1 rfl
      have hholds := (hstepped.points hsound.2).crash n
      -- the process may have stopped on either side of a write
      obtain ⟨e₀, rs₀, ts₀, hkept₀, hc₀⟩ : ∃ e₀ rs₀ ts₀, Kept hash e₀
          (crashDisk s.world (s.step hash heaps op).2.world n) rs₀ ts₀ ∧ e₀.config = s.engine.config := by
        rcases hholds with ⟨e₀, rs₀, ts₀, hk, hc, -⟩ | ⟨e₀, rs₀, ts₀, hk, hc, -⟩
        · exact ⟨e₀, rs₀, ts₀, hk, hc⟩
        · exact ⟨e₀, rs₀, ts₀, hk, hc⟩
      have hfiles : Recoverable hash ({ s.engine.config with
        writeBufferSize := writeBufferSize, compactionThreshold := compactionThreshold } : Config).dbDir
        (World.ofDisk (crashDisk s.world (s.step hash heaps op).2.world n)).disk rs₀ ts₀ := by
        have hfiles := hkept₀.files
        rw [hc₀] at hfiles
        exact hfiles
      obtain ⟨e', w', hnew, hc, hkept'⟩ := hfiles.kept hkept.directory
      rw [hnew] at hrun
      obtain rfl := Option.some.inj hrun
      exact ⟨by rw [← hwal, hc], rs₀, ts₀, hkept'⟩
    · exact absurd hrun (by simp)

/-- **Every state of a run** on an empty directory. -/
theorem SoundRun.kept (hdir : newline ∉ config.dbDir)
    (hopen : StorageEngine.new config .ok (World.ofDisk Disk.empty) = (.ok e, w))
    (h : SoundRun hash heaps ⟨e, w⟩ s) : KeptSystem hash config.walPath s := by
  induction h with
  | start =>
    have hfiles : Recoverable hash config.dbDir (World.ofDisk Disk.empty).disk [] [] :=
      recoverable_empty hash config.dbDir
    obtain ⟨e', w', hnew, hc, hkept⟩ := hfiles.kept hdir
    obtain ⟨h1, rfl⟩ := Prod.mk.inj (hnew.symm.trans hopen)
    obtain rfl := Except.ok.inj h1
    exact ⟨by rw [hc], [], [], hkept⟩
  | step st _ hsound hrun ih => exact ih.step hsound hrun

/-! ## Calls that compact nothing -/

instance (r : LogRecord) (io : AppendIO) (w : World) : Decidable (AppendDecodes r io w) := by
  unfold AppendDecodes
  infer_instance

instance (op : Op) (s : System) : Decidable (op.LogDecodes s) :=
  match op with
  | .put key value now append _ => inferInstanceAs
    (Decidable (s.engine.config.walPath ≠ [] → AppendDecodes ⟨.put, key, value, now⟩ append s.world))
  | .delete key now append => inferInstanceAs
    (Decidable (s.engine.config.walPath ≠ [] → AppendDecodes ⟨.delete, key, [], now⟩ append s.world))
  | .reopen _ _ io => inferInstanceAs (Decidable (io.readable = true))
  | .flushMemTable _ => .isTrue trivial
  | .triggerCompaction _ => .isTrue trivial
  | .close _ => .isTrue trivial

/-- A sound call that compacts nothing. -/
def Op.Quiet (hash : Bytes → UInt64) (op : Op) (s : System) : Prop :=
  op.LogDecodes s ∧ op.flushIO.addSSTable = .ok ∧ (compactionPoint hash op s).isNone = true

instance (op : Op) (s : System) : Decidable (op.Quiet hash s) := by
  unfold Op.Quiet
  infer_instance

theorem Op.Quiet.sound {op : Op} (h : op.Quiet hash s) : op.Sound hash s := by
  refine ⟨h.1, h.2.1, fun p hp => ?_⟩
  have hnone := h.2.2
  rw [hp] at hnone
  exact absurd hnone (by simp)

/-- Such calls one after another. -/
def runQuiet (hash : Bytes → UInt64) (heaps : Heaps) (ops : List Op) (s : System) : Option System :=
  ops.foldlM (fun s op => if op.Quiet hash s then op.runAny hash heaps s else none) s

theorem SoundRun.quiet {s₀ : System} {ops : List Op} : ∀ {s : System}, SoundRun hash heaps s₀ s →
    runQuiet hash heaps ops s = some s' → SoundRun hash heaps s₀ s' := by
  unfold runQuiet
  induction ops with
  | nil =>
    intro s h hrun
    exact Option.some.inj hrun ▸ h
  | cons op ops ih =>
    intro s h hrun
    rw [List.foldlM_cons] at hrun
    obtain ⟨s₁, hop, hrun⟩ := Option.bind_eq_some_iff.1 hrun
    split at hop
    · rename_i hquiet
      exact ih (.step (.call op) h hquiet.sound hop) hrun
    · exact absurd hop (by simp)

end LsmTree
