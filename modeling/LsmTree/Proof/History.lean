import LsmTree.Base.History
import LsmTree.Proof.PrefixScan
import LsmTree.Proof.Losses

/-!
# What clients see over crashes

A run of calls, whatever fails in them, of readings in between, and of processes that stop in
a call and are opened again. A call that returned true or threw took place; one that
returned false did not; whether one in which the process stopped did is in doubt.

* `Kept.after`: the live values after a call.
* `ScanSound.preferred`: what a scan takes for the newest record is the newest.
* `durable_history`: **what clients see is the history of one map**: some choice of the
  writes in doubt explains every `Get`, `Scan` and `PrefixScan` of the run, before and after
  each crash.
* `acknowledged_kept`: **a write that took place is there** after every crash, unless a later
  write of the key took its place, and nothing is there that was not written.
-/

namespace LsmTree

open Base StorageEngine WAL
open DBIterator (upTo)

variable {hash : Bytes → UInt64} {heaps : Heaps} {e e' : StorageEngine} {w w' : World} {d : Disk}
  {rs : List LogRecord} {ts : List SSTableReader} {m m' : MemTable} {r : LogRecord} {config : Config}
  {s s' : System}

/-! ## The live values after a call -/

/-- The key written and its value, `none` for a deletion. -/
def Op.write : Op → Option (Bytes × Option Bytes)
  | .put key value _ _ _ => some (key, some value)
  | .delete key _ _ => some (key, none)
  | _ => none

/-- A call that returns false has not written, and one that returns true or throws has. -/
def Outcome.Writes (o : Outcome Bool) (x : Bytes × Option Bytes) (V V' : Bytes → Option Bytes) : Prop :=
  ((o = .returned false ∨ o = .undefined) ∧ V' = V) ∨ (o ≠ .returned false ∧ V' = Function.update V x.1 x.2)

/-- What a call that ends like this does to the live values. -/
def Op.After (op : Op) (o : Outcome Bool) (V V' : Bytes → Option Bytes) : Prop :=
  match op.write with
  | none => V' = V
  | some x => o.Writes x V V'

/-- The live values after a write into the memtable. -/
theorem Kept.live_writeEnd (h : Kept hash e d rs ts) (ha : e.active = some m) {io : AppendIO} {ok : Bool}
    (hend : WriteEnd r io m w (ok, m', w')) : ({ e with active := some m' } : StorageEngine).liveValue hash =
      if ok then Function.update (e.liveValue hash) r.write.1 r.write.2 else e.liveValue hash := by
  have hi := h.immutable_none ha
  cases hend with
  | written =>
    have hfront : ({ e with active := some (m.applyEntry r.entry) } : StorageEngine).layers hash =
        (m.applyEntry r.entry).layer :: tableLayers hash e.sstables := layers_active rfl hi
    rw [if_pos rfl, liveValue_eq, liveValue_eq, hfront, layers_active ha hi, MemTable.layer_applyEntry,
      view_update]
  | refused => rw [Kept.withActive ha, if_neg (by decide)]

theorem Kept.after_put (h : Kept hash s.engine s.world.disk rs ts) (hroom : s.HasRoom) {key value : Bytes}
    {now : Int64} {append : AppendIO} {io : FlushIO} (hop : (Op.put key value now append io).Short)
    (hsound : (Op.put key value now append io).Sound hash s) {o : Outcome Bool}
    (hstep : s.step hash heaps (.put key value now append io) = (o, s')) :
    o.Writes (key, some value) (s.engine.liveValue hash) (s'.engine.liveValue hash) := by
  have hlive : ∀ {m}, s.engine.active = some m → ∀ {ok m' w'}, m.put key value now append s.world = (ok, m', w') →
      ({ s.engine with active := some m' } : StorageEngine).liveValue hash =
        if ok then Function.update (s.engine.liveValue hash) key (some value) else s.engine.liveValue hash :=
    fun ha _ _ _ hput => h.live_writeEnd ha (hput ▸ put_end (h.fresh _ ha).mutable key value now append s.world)
  cases step_put hstep with
  | closed _ => exact Or.inl ⟨Or.inr rfl, rfl⟩
  | refused ha hput => exact Or.inl ⟨Or.inl rfl, hlive ha hput⟩
  | room ha hput _ => exact Or.inr ⟨by simp, hlive ha hput⟩
  | @full m w _ _ ha hput hfull hflush =>
    have hpoint := hsound.compaction
    unfold compactionPoint at hpoint
    simp only [ha, hput, if_pos hfull] at hpoint
    have hend := put_end (h.fresh _ ha).mutable key value now append s.world
    rw [hput] at hend
    obtain ⟨rs₁, hkept, -⟩ := h.writeEnd ha ⟨hop.1, hop.2⟩ hsound.log hend
    obtain ⟨o₂, e₂, w₂, hf⟩ : ∃ o e₂ w₂, flushMemTableInternal hash heaps io
      { s.engine with active := some (m.applyPut key value) } w = (o, e₂, w₂) := ⟨_, _, _, rfl⟩
    have hafter := (hkept.flush hroom hsound.line hpoint hf).live.trans (hlive ha hput)
    rw [hf] at hflush
    cases o₂ <;>
      · obtain ⟨rfl, rfl⟩ := Prod.mk.inj hflush
        exact Or.inr ⟨by simp, hafter⟩

theorem Kept.after_delete (h : Kept hash s.engine s.world.disk rs ts) {key : Bytes} {now : Int64}
    {append : AppendIO} {o : Outcome Bool} (hstep : s.step hash heaps (.delete key now append) = (o, s')) :
    o.Writes (key, none) (s.engine.liveValue hash) (s'.engine.liveValue hash) := by
  have hlive : ∀ {m}, s.engine.active = some m → ∀ {ok m' w'}, m.delete key now append s.world = (ok, m', w') →
      ({ s.engine with active := some m' } : StorageEngine).liveValue hash =
        if ok then Function.update (s.engine.liveValue hash) key none else s.engine.liveValue hash :=
    fun ha _ _ _ hdel => h.live_writeEnd ha (hdel ▸ delete_end (h.fresh _ ha).mutable key now append s.world)
  cases step_delete hstep with
  | closed _ => exact Or.inl ⟨Or.inr rfl, rfl⟩
  | refused ha hdelete => exact Or.inl ⟨Or.inl rfl, hlive ha hdelete⟩
  | done ha hdelete => exact Or.inr ⟨by simp, hlive ha hdelete⟩

/-- The database opened on these files shows what they recover to. -/
theorem Kept.live_new (h : Kept hash e d rs ts) (hp : e.config.walPath ≠ []) (hdisk : w.disk = d)
    (hdir : config.dbDir = e.config.dbDir) (hwal : config.walPath = e.config.walPath) :
    ∃ e' w', StorageEngine.new config .ok w = (.ok e', w') ∧ e'.config = config ∧
      e'.liveValue hash = e.liveValue hash ∧ Kept hash e' w'.disk rs ts := by
  subst hdisk
  have hfiles : Recoverable hash config.dbDir w.disk rs ts := hdir ▸ h.files
  obtain ⟨e', w', hnew, hc, hkept⟩ := hfiles.kept (hdir ▸ h.directory)
  refine ⟨e', w', hnew, hc, ?_, hkept⟩
  have hpath : e'.config.walPath = e.config.walPath := by rw [hc, hwal]
  rw [← h.view hp, ← hkept.view (hpath ▸ hp), hpath]

theorem Kept.after_reopen (h : Kept hash s.engine s.world.disk rs ts) (hp : s.engine.config.walPath ≠ [])
    {writeBufferSize compactionThreshold : UInt64} {io : MemTableIO} (hio : io.readable = true) {o : Outcome Bool}
    (hstep : s.step hash heaps (.reopen writeBufferSize compactionThreshold io) = (o, s')) :
    s'.engine.liveValue hash = s.engine.liveValue hash := by
  unfold System.step at hstep
  simp only at hstep
  rcases new_readable hio { s.engine.config with
    writeBufferSize := writeBufferSize, compactionThreshold := compactionThreshold } s.world with hok | ⟨what, hno⟩
  · obtain ⟨e', w', hnew, hc, hlive, hkept⟩ := h.live_new hp rfl (show ({ s.engine.config with
      writeBufferSize := writeBufferSize, compactionThreshold := compactionThreshold } :
        Config).dbDir = _ from rfl) rfl
    rw [hok, hnew] at hstep
    obtain ⟨-, rfl⟩ := Prod.mk.inj hstep
    exact hlive
  · rw [hno] at hstep
    obtain ⟨-, rfl⟩ := Prod.mk.inj hstep
    rfl

/-- **The live values after a call**, whatever it returns or throws. -/
theorem Kept.after (h : Kept hash s.engine s.world.disk rs ts) (hp : s.engine.config.walPath ≠ [])
    (hroom : s.HasRoom) {op : Op} (hop : op.Short) (hsound : op.Sound hash s) {o : Outcome Bool}
    (hstep : s.step hash heaps op = (o, s')) :
    op.After o (s.engine.liveValue hash) (s'.engine.liveValue hash) := by
  cases op with
  | put key value now append io => exact h.after_put hroom hop hsound hstep
  | delete key now append => exact h.after_delete hstep
  | flushMemTable io =>
    obtain rfl := System.unit_eq hstep
    exact (h.flush hroom hsound.line hsound.compaction rfl).live
  | triggerCompaction io =>
    obtain ⟨hsafe, hagree⟩ := hsound.compaction s rfl
    unfold System.HasRoom at hroom
    exact (h.compaction (by omega) hsafe (hagree.mergePreserves h.tables) (step_triggerCompaction hstep)).live
  | close io =>
    obtain rfl := System.unit_eq (step_close hstep)
    exact (h.flush hroom hsound.line hsound.compaction rfl).live
  | reopen writeBufferSize compactionThreshold io => exact h.after_reopen hp hsound.log hstep

/-! ## Scans -/

/-- Ranks agree, and no table has a generation that an iterator gives to a memtable. -/
structure ScanSound (hash : Bytes → UInt64) (e : StorageEngine) : Prop where
  agree : RanksAgree hash e
  below : ∀ id ∈ fileIds e.sstables, id < 2 ^ 64 - 2

/-- Behind a memtable of a greater generation than the tables have. -/
theorem preferred_memtable {g : ℕ} {L : Layer Bytes Bytes} {As : List (ℕ × Layer Bytes Bytes)} {key : Bytes}
    {x : Option Bytes} (hlt : ∀ t ∈ As, t.1 < g) (h : Preferred ((g, L) :: As) key x) :
    L key = some x ∨ L key = none ∧ Preferred As key x := by
  obtain ⟨t, ht, hx, hmax⟩ := h
  rcases List.mem_cons.1 ht with rfl | ht
  · exact Or.inl hx
  · right
    refine ⟨?_, t, ht, hx, fun t' ht' => hmax t' (List.mem_cons_of_mem _ ht')⟩
    by_contra hhead
    exact absurd (hmax (g, L) List.mem_cons_self hhead) (not_le.2 (hlt t ht))

/-- **What a scan takes for the newest record of a key is the newest.** -/
theorem ScanSound.preferred (h : ScanSound hash e) (hslot : OneSlot e) {key : Bytes} {x : Option Bytes}
    (hx : Preferred (scanLayers hash e) key x) : x = e.liveValue hash key := by
  have hbelow : ∀ t ∈ ranked (namedLayers hash e.sstables), t.1 < 2 ^ 64 - 2 := fun t ht =>
    h.below t.1 (by rw [fileIds_eq hash]; exact List.mem_map_of_mem ht)
  -- one memtable in front of the tables
  have hfront : ∀ (g : ℕ) (m : MemTable), 2 ^ 64 - 2 ≤ g → e.memLayers = [m.layer] →
      scanLayers hash e = (g, m.layer) :: ranked (namedLayers hash e.sstables) → x = e.liveValue hash key := by
    intro g m hg hmem hlayers
    rw [hlayers] at hx
    rw [liveValue_eq]
    unfold layers
    rw [view_append, hmem, stack_cons, stack_nil, Option.or_none]
    rcases preferred_memtable (fun t ht => (hbelow t ht).trans_le hg) hx with hk | ⟨hk, htables⟩
    · rw [hk]
    · rw [hk]
      exact h.agree key (by rw [hmem, stack_cons, stack_nil, Option.or_none, hk]) x htables
  cases ha : e.active with
  | some m =>
    have hi : e.immutable = none := by simpa using hslot (by rw [ha]; rfl)
    refine hfront (2 ^ 64 - 1) m (by norm_num) (Kept.memLayers_active ha hi) ?_
    unfold scanLayers
    rw [ha, hi]
    rfl
  | none =>
    cases hi : e.immutable with
    | some m =>
      refine hfront (2 ^ 64 - 2) m le_rfl ?_ ?_
      · unfold memLayers
        rw [ha, hi]
        rfl
      · unfold scanLayers
        rw [ha, hi]
        rfl
    | none =>
      have hmem : e.memLayers = [] := by
        unfold memLayers
        rw [ha, hi]
        rfl
      have hlayers : scanLayers hash e = ranked (namedLayers hash e.sstables) := by
        unfold scanLayers
        rw [ha, hi]
        rfl
      rw [hlayers] at hx
      rw [liveValue_eq]
      unfold layers
      rw [hmem]
      exact h.agree key (by rw [hmem, stack_nil]) x hx

/-! ## Runs -/

/-- What a client reads, with what it is told. -/
inductive Reading where
  | get (key : Bytes) (value : Option Bytes)
  | scan (startKey endKey : Bytes) (limit : ℕ) (results : Except Bytes (List (Bytes × Bytes)))
  | prefixScan (pre : Bytes) (limit : ℕ) (results : Except Bytes (List (Bytes × Bytes)))

/-- It is what the map with these values shows. -/
def Reading.TrueOf : Sees Bytes Bytes Reading
  | .get key value, V => value = V key
  | .scan startKey endKey limit results, V => ∃ L, LivePairs V startKey endKey L ∧ results = .ok (upTo limit L)
  | .prefixScan pre limit results, V =>
    ∃ L, LivePairs V pre [] L ∧ results = .ok (upTo limit (L.filter fun x => pre.isPrefixOf x.1))

/-- What clients see of a step: the write of a call that did not return false, and the one in
which the process stopped as in doubt. -/
def RunStep.seen (hash : Bytes → UInt64) (heaps : Heaps) (s : System) :
    RunStep → List (Happening Bytes Bytes Reading)
  | .call op =>
    if (s.step hash heaps op).1 = .returned false then [] else op.write.toList.map fun x => .wrote x true
  | .crash op _ _ _ => op.write.toList.map fun x => .wrote x false

/-- A sound step of a run, or a reading. `Get` answers as it does through the bindings. -/
inductive Watched (hash : Bytes → UInt64) (heaps : Heaps) (s : System) :
    List (Happening Bytes Bytes Reading) → System → Prop
  | step (st : RunStep) {s' : System} (hsound : st.Sound hash s) (hrun : st.run hash heaps s = some s') :
    Watched hash heaps s (st.seen hash heaps s) s'
  | get (key : Bytes) : Watched hash heaps s [.saw (.get key (s.engine.liveValue hash key))] s
  | scan (startKey endKey : Bytes) (limit : ℕ) (hsound : ScanSound hash s.engine) :
    Watched hash heaps s [.saw
      (.scan startKey endKey limit (s.engine.scan heaps startKey endKey limit s.world.disk))] s
  | prefixScan (pre : Bytes) (limit : ℕ) (hsound : ScanSound hash s.engine) :
    Watched hash heaps s [.saw (.prefixScan pre limit (s.engine.prefixScan heaps pre limit s.world.disk))] s

/-- What a call does to the history, if it is over. -/
theorem Op.After.goesOn {op : Op} {o : Outcome Bool} {V V' : Bytes → Option Bytes} (h : op.After o V V')
    (hdefined : o ≠ .undefined) : GoesOn Reading.TrueOf V
      (if o = .returned false then [] else op.write.toList.map fun x => .wrote x true) V' := by
  unfold Op.After at h
  cases hw : op.write with
  | none =>
    rw [hw] at h
    obtain rfl : V' = V := h
    split <;> exact .nothing _
  | some x =>
    rw [hw] at h
    rcases h with ⟨ho, rfl⟩ | ⟨ho, rfl⟩
    · rw [if_pos (ho.resolve_right hdefined)]
      exact .nothing _
    · rw [if_neg ho]
      exact .took V x true

/-- And if the process stopped in it, before or after. -/
theorem Op.After.goesOn_doubt {op : Op} {o : Outcome Bool} {V V' V₁ : Bytes → Option Bytes} (h : op.After o V V')
    (heither : V₁ = V ∨ V₁ = V') :
    GoesOn Reading.TrueOf V (op.write.toList.map fun x => .wrote x false) V₁ := by
  unfold Op.After at h
  cases hw : op.write with
  | none =>
    rw [hw] at h
    obtain rfl : V' = V := h
    obtain rfl : V₁ = V' := heither.elim id id
    exact .nothing _
  | some x =>
    rw [hw] at h
    rcases heither with rfl | rfl
    · exact .lost _ x
    · rcases h with ⟨-, rfl⟩ | ⟨-, rfl⟩
      · exact .lost _ x
      · exact .took V x false

/-- **One step goes on with the history.** -/
theorem KeptSystem.watched {walPath : Bytes} (h : KeptSystem hash walPath s) (hp : walPath ≠ [])
    {es : List (Happening Bytes Bytes Reading)} (hstep : Watched hash heaps s es s') :
    KeptSystem hash walPath s' ∧
    GoesOn Reading.TrueOf (s.engine.liveValue hash) es (s'.engine.liveValue hash) := by
  obtain ⟨hwal, rs, ts, hkept⟩ := h
  have hpath : s.engine.config.walPath ≠ [] := hwal ▸ hp
  cases hstep with
  | step st hsound hrun =>
    refine ⟨KeptSystem.step ⟨hwal, rs, ts, hkept⟩ hsound hrun, ?_⟩
    cases st with
    | call op =>
      obtain ⟨hfits, hop, o, hcall, hdefined⟩ := Op.runAny_eq_some hrun
      have hafter := hkept.after hpath hfits.room hop hsound hcall
      simp only [RunStep.seen, hcall]
      exact hafter.goesOn hdefined
    | crash op n writeBufferSize compactionThreshold =>
      simp only [RunStep.run] at hrun
      split at hrun
      · rename_i hguard
        have hafter : op.After (s.step hash heaps op).1 (s.engine.liveValue hash)
            ((s.step hash heaps op).2.engine.liveValue hash) :=
              hkept.after hpath hguard.1.room hguard.2 hsound.1 rfl
        have hstepped : Stepped hash op.compactionIO.Whole s (s.step hash heaps op).2 :=
          hkept.step hguard.1.room hguard.2 hsound.1 rfl
        -- the files the process left, and the live values they are those of
        obtain ⟨e₀, rs₀, ts₀, hkept₀, hc₀, heither⟩ : ∃ e₀ rs₀ ts₀, Kept hash e₀
            (crashDisk s.world (s.step hash heaps op).2.world n) rs₀ ts₀ ∧ e₀.config = s.engine.config ∧
            (e₀.liveValue hash = s.engine.liveValue hash ∨
              e₀.liveValue hash = (s.step hash heaps op).2.engine.liveValue hash) := by
          rcases (hstepped.points hsound.2).crash n with ⟨e₀, rs₀, ts₀, hk, hc, hv⟩ | ⟨e₀, rs₀, ts₀, hk, hc, hv⟩
          · exact ⟨e₀, rs₀, ts₀, hk, hc, Or.inl hv⟩
          · exact ⟨e₀, rs₀, ts₀, hk, hc, Or.inr hv⟩
        have hdisk : (World.ofDisk (crashDisk s.world (s.step hash heaps op).2.world n)).disk =
            crashDisk s.world (s.step hash heaps op).2.world n := rfl
        obtain ⟨e', w', hnew, -, hlive, -⟩ := hkept₀.live_new (hc₀ ▸ hpath) hdisk (show ({ s.engine.config with
          writeBufferSize := writeBufferSize, compactionThreshold := compactionThreshold } : Config).dbDir = _ from
            (congrArg Config.dbDir hc₀).symm) (congrArg Config.walPath hc₀).symm
        rw [hnew] at hrun
        obtain rfl := Option.some.inj hrun
        refine hafter.goesOn_doubt ?_
        rw [hlive]
        exact heither
      · exact absurd hrun (by simp)
  | get key => exact ⟨⟨hwal, rs, ts, hkept⟩, .saw rfl⟩
  | scan startKey endKey limit hsound =>
    refine ⟨⟨hwal, rs, ts, hkept⟩, .saw ?_⟩
    exact scan_spec heaps hkept.tables (fun key x hx => hsound.preferred hkept.slot hx) startKey endKey limit
  | prefixScan pre limit hsound =>
    refine ⟨⟨hwal, rs, ts, hkept⟩, .saw ?_⟩
    obtain ⟨L, hL, hscan⟩ := scan_spec heaps hkept.tables (fun key x hx => hsound.preferred hkept.slot hx) pre [] 0
    obtain ⟨⟨L', hscan', hprefix⟩, -⟩ := hkept.tables.filtersScan heaps pre limit
    obtain rfl : L = L' := Except.ok.inj (hscan.symm.trans hscan')
    exact ⟨L, hL, hprefix⟩

/-- The database opened on an empty directory. -/
theorem kept_fresh (hash : Bytes → UInt64) (hdir : newline ∉ config.dbDir) (hp : config.walPath ≠ [])
    (hopen : StorageEngine.new config .ok (World.ofDisk Disk.empty) = (.ok e, w)) :
    KeptSystem hash config.walPath ⟨e, w⟩ ∧ e.liveValue hash = fun _ => none := by
  have hfiles : Recoverable hash config.dbDir (World.ofDisk Disk.empty).disk [] [] :=
    recoverable_empty hash config.dbDir
  obtain ⟨e', w', hnew, rfl, hkept⟩ := hfiles.kept hdir
  obtain ⟨h1, rfl⟩ := Prod.mk.inj (hnew.symm.trans hopen)
  obtain rfl := Except.ok.inj h1
  refine ⟨⟨rfl, [], [], hkept⟩, ?_⟩
  rw [← hkept.view hp]
  funext key
  unfold recoveredView
  rw [logLayer_of_ne hp]
  rfl

/-- **Every state of a run.** -/
theorem watched_run (hdir : newline ∉ config.dbDir) (hp : config.walPath ≠ [])
    (hopen : StorageEngine.new config .ok (World.ofDisk Disk.empty) = (.ok e, w))
    {es : List (Happening Bytes Bytes Reading)} (hrun : SeenRun (Watched hash heaps) ⟨e, w⟩ es s) :
    KeptSystem hash config.walPath s ∧ Explained Reading.TrueOf es (s.engine.liveValue hash) := by
  obtain ⟨hkept, hempty⟩ := kept_fresh hash hdir hp hopen
  exact Explained.run (fun s : System => s.engine.liveValue hash) hkept hempty (fun h hs => h.watched hp hs) hrun

/-- **What clients see is the history of one map**: some choice of the writes in doubt
explains all they read, before and after each crash, and the live values at the end, which
are those that the database shows if it is opened again. -/
theorem durable_history (hdir : newline ∉ config.dbDir) (hp : config.walPath ≠ [])
    (hopen : StorageEngine.new config .ok (World.ofDisk Disk.empty) = (.ok e, w))
    {es : List (Happening Bytes Bytes Reading)} (hrun : SeenRun (Watched hash heaps) ⟨e, w⟩ es s) :
    Explained Reading.TrueOf es (s.engine.liveValue hash) ∧
      Shows hash s.engine.config s.world.disk (s.engine.liveValue hash) := by
  obtain ⟨⟨hwal, rs, ts, hkept⟩, hexplained⟩ := watched_run hdir hp hopen hrun
  exact ⟨hexplained, hkept.holds.shows (by rw [hwal]; exact hp)⟩

/-- Such tables are ordered by number. -/
theorem ScanSound.of_descending (hd : Descending e.sstables) (hn : (fileIds e.sstables).Nodup)
    (hbelow : ∀ id ∈ fileIds e.sstables, id < 2 ^ 64 - 2) : ScanSound hash e :=
  ⟨(TieHarmless.of_nodup hn).ranksAgree hd, hbelow⟩

/-- A second value for the key of `putOne`. -/
def putTwo : Op := .put (bytes "a") (bytes "2") 0 .ok .ok

/-- The process stops in it, behind the first effect. -/
def stopped : RunStep := .crash putTwo 1 1000 4

instance (ts : List SSTableReader) : Decidable (Descending ts) := by
  unfold Descending
  infer_instance

/-- What is seen where the process stops in the second put. -/
def stoppedEvents (s : System) : List (Happening Bytes Bytes Reading) :=
  [.wrote (bytes "a", some (bytes "1")) true, .wrote (bytes "a", some (bytes "2")) false,
    .saw (.scan [] [] 0 (s.engine.scan firstInHeaps [] [] 0 s.world.disk))]

/-- A value is put and flushed, another one put over it when the process stops, and all is
read after that. -/
theorem stopped_run : ∃ s, SeenRun (Watched (fun _ => 0) firstInHeaps) ⟨loggedEngine 1000 4, loggedDisk⟩
    (stoppedEvents s) s := by
  have hsome : (putOne.runAny (fun _ => 0) firstInHeaps ⟨loggedEngine 1000 4, loggedDisk⟩).any (fun s₁ =>
      ((Op.flushMemTable .ok).runAny (fun _ => 0) firstInHeaps s₁).any fun s₂ =>
        (stopped.run (fun _ => 0) firstInHeaps s₂).any fun s₃ =>
          decide ((Op.flushMemTable .ok).Quiet (fun _ => 0) s₁) && decide (putTwo.Quiet (fun _ => 0) s₂) &&
            decide (Descending s₃.engine.sstables) && decide (fileIds s₃.engine.sstables).Nodup &&
              decide (∀ id ∈ fileIds s₃.engine.sstables, id < 2 ^ 64 - 2)) = true := by decide +kernel
  have hfirst : putOne.Quiet (fun _ => 0) ⟨loggedEngine 1000 4, loggedDisk⟩ := by decide +kernel
  have hput : (System.step (fun _ => 0) firstInHeaps putOne ⟨loggedEngine 1000 4, loggedDisk⟩).1 ≠
      .returned false := by decide +kernel
  obtain ⟨s₁, hrun₁, hsome⟩ := Option.any_eq_true _ _ |>.1 hsome
  obtain ⟨s₂, hrun₂, hsome⟩ := Option.any_eq_true _ _ |>.1 hsome
  obtain ⟨s₃, hrun₃, hs⟩ := Option.any_eq_true _ _ |>.1 hsome
  simp only [Bool.and_eq_true, decide_eq_true_eq] at hs
  obtain ⟨⟨⟨⟨hflush, htwo⟩, hd⟩, hn⟩, hbelow⟩ := hs
  have h₁ : SeenRun (Watched (fun _ => 0) firstInHeaps) ⟨loggedEngine 1000 4, loggedDisk⟩
      ([] ++ RunStep.seen (fun _ => 0) firstInHeaps ⟨loggedEngine 1000 4, loggedDisk⟩ (.call putOne)) s₁ :=
    .step .start (Watched.step (.call putOne) hfirst.sound hrun₁)
  simp only [RunStep.seen, if_neg hput] at h₁
  have h₂ := h₁.step (Watched.step (.call (.flushMemTable .ok)) hflush.sound hrun₂)
  have h₃ := h₂.step (Watched.step stopped ⟨htwo.sound, by decide⟩ hrun₃)
  have h₄ := h₃.step (Watched.scan [] [] 0 (.of_descending hd hn hbelow))
  refine ⟨s₃, ?_⟩
  simpa [RunStep.seen, Op.write, putOne, putTwo, stopped, stoppedEvents] using h₄

theorem durable_history_stopped : ∃ s : System, Explained Reading.TrueOf (stoppedEvents s)
    (s.engine.liveValue fun _ => 0) ∧
    Shows (fun _ => 0) s.engine.config s.world.disk (s.engine.liveValue fun _ => 0) := by
  have hopen : StorageEngine.new (loggedEngine 1000 4).config .ok (World.ofDisk Disk.empty) =
      (.ok (loggedEngine 1000 4), loggedDisk) := rfl
  obtain ⟨s, hrun⟩ := stopped_run
  exact ⟨s, durable_history (by decide) (by decide) hopen hrun⟩

/-- **A write that took place is there**, unless a later one or one in doubt took its place,
and nothing is there that was not written. -/
theorem acknowledged_kept (hdir : newline ∉ config.dbDir) (hp : config.walPath ≠ [])
    (hopen : StorageEngine.new config .ok (World.ofDisk Disk.empty) = (.ok e, w))
    {es : List (Happening Bytes Bytes Reading)} (hrun : SeenRun (Watched hash heaps) ⟨e, w⟩ es s) (key : Bytes) :
    (∀ before after v, es = before ++ .wrote (key, v) true :: after → (∀ v', .wrote (key, v') true ∉ after) →
      s.engine.liveValue hash key = v ∨ .wrote (key, s.engine.liveValue hash key) false ∈ after) ∧
    ∀ v, s.engine.liveValue hash key = some v → ∃ certain, .wrote (key, some v) certain ∈ es := by
  obtain ⟨-, hexplained⟩ := watched_run hdir hp hopen hrun
  refine ⟨fun before after v hes hlast => ?_, fun v hv => hexplained.written hv⟩
  rw [hes] at hexplained
  exact hexplained.latest hlast

theorem acknowledged_kept_stopped : ∃ s : System,
    s.engine.liveValue (fun _ => 0) (bytes "a") = some (bytes "1") ∨
      .wrote (bytes "a", s.engine.liveValue (fun _ => 0) (bytes "a")) false ∈ (stoppedEvents s).tail := by
  have hopen : StorageEngine.new (loggedEngine 1000 4).config .ok (World.ofDisk Disk.empty) =
      (.ok (loggedEngine 1000 4), loggedDisk) := rfl
  obtain ⟨s, hrun⟩ := stopped_run
  exact ⟨s, (acknowledged_kept (by decide) (by decide) hopen hrun (bytes "a")).1 [] _ _ rfl
    (by simp [stoppedEvents])⟩

end LsmTree
