import LsmTree.Spec.ScanThread
import LsmTree.Proof.LastWriter

/-!
# The memtables under a scan

* `call_slots`: what a call does to the two memtable slots, whatever file operations fail.
* `dropped_stepCall`: a flush drops its memtable if and only if its table is built and opened
  again.
* `Refers`: the memtables that the iterator refers to are there until a flush drops one.
* `keepsRefs_iff`: in a run every call of the iterator finds its memtables owned if and
  only if none comes after a flush that dropped its memtable.
-/

namespace LsmTree

open Base StorageEngine

variable {hash : Bytes → UInt64} {heaps : Heaps}

/-! ## The slots -/

theorem slots_trigger (hash : Bytes → UInt64) (heaps : Heaps) (io : CompactionIO) (e : StorageEngine) (w : World) :
    (triggerCompactionInternal hash heaps io e w).2.1.active = e.active ∧
      (triggerCompactionInternal hash heaps io e w).2.1.immutable = e.immutable := by
  have hcases := compaction_cases hash heaps io e w
  generalize triggerCompactionInternal hash heaps io e w = r at hcases
  cases hcases <;> exact ⟨rfl, rfl⟩

theorem slots_compaction (hash : Bytes → UInt64) (heaps : Heaps) (io : CompactionIO) (e : StorageEngine)
    (w : World) :
    (maybeTriggerCompactionInternal hash heaps io e w).2.1.active = e.active ∧
      (maybeTriggerCompactionInternal hash heaps io e w).2.1.immutable = e.immutable := by
  have h := slots_trigger hash heaps io e w
  unfold maybeTriggerCompactionInternal
  split
  · generalize triggerCompactionInternal hash heaps io e w = r at h
    obtain ⟨o, e', w'⟩ := r
    cases o <;> exact h
  · exact ⟨rfl, rfl⟩

/-- What a call leaves in the slots, if it moves the active memtable or not. -/
structure SlotsAfter (moved : Bool) (e e' : StorageEngine) : Prop where
  still : moved = false → e'.active.isSome = e.active.isSome ∧ e'.immutable.isSome = e.immutable.isSome
  moved : moved = true → e.active.isSome ∧ (e'.active = none ∧ e'.immutable.isSome ∨ e'.immutable = none)

theorem SlotsAfter.same {e e' : StorageEngine} (ha : e'.active.isSome = e.active.isSome)
    (hi : e'.immutable = e.immutable) : SlotsAfter false e e' :=
  ⟨fun _ => ⟨ha, by rw [hi]⟩, fun h => (nomatch h)⟩

theorem flush_slots (hash : Bytes → UInt64) (heaps : Heaps) (io : FlushIO) (e : StorageEngine) (w : World) :
    SlotsAfter (Flushable e) e (flushMemTableInternal hash heaps io e w).2.1 := by
  rw [flushMemTableInternal_eq]
  have hcases := flushTable_cases hash io e w
  generalize flushTable hash io e w = r at hcases
  cases hcases with
  | idle h =>
    rw [not_flushable h]
    exact .same rfl rfl
  | notBuilt m what ha hne =>
    rw [flushable_of ha hne]
    exact ⟨fun h => (nomatch h), fun _ => ⟨by rw [ha]; rfl, Or.inl ⟨rfl, rfl⟩⟩⟩
  | notOpened m what ha hne hlen ho =>
    rw [flushable_of ha hne]
    exact ⟨fun h => (nomatch h), fun _ => ⟨by rw [ha]; rfl, Or.inl ⟨rfl, rfl⟩⟩⟩
  | noMemTable m what r w' ha hne hr hnew =>
    rw [flushable_of ha hne]
    exact ⟨fun h => (nomatch h), fun _ => ⟨by rw [ha]; rfl, Or.inr rfl⟩⟩
  | done m m' r w' ha hne hr hnew =>
    rw [flushable_of ha hne]
    refine ⟨fun h => (nomatch h), fun _ => ⟨by rw [ha]; rfl, Or.inr ?_⟩⟩
    exact (slots_compaction hash heaps io.compaction _ w').2

/-- **A flush drops its memtable** if and only if the table is built and opened again. -/
theorem immutable_flush_iff {m : MemTable} {e : StorageEngine} (ha : e.active = some m) (hne : m.empty = false)
    (io : FlushIO) (w : World) : (flushMemTableInternal hash heaps io e w).2.1.immutable = none ↔
      Builds hash io.build m e ∧ io.readerOpens = true := by
  have hsame : ∀ {m'}, e.active = some m' → m' = m := fun ha' => Option.some.inj (ha'.symm.trans ha)
  rw [flushMemTableInternal_eq]
  have hcases := flushTable_cases hash io e w
  generalize flushTable hash io e w = r at hcases
  cases hcases with
  | idle h =>
    rcases h with hnone | ⟨m', ha', hempty⟩
    · exact absurd (hnone.symm.trans ha) (by simp)
    · rw [hsame ha', hne] at hempty
      exact absurd hempty (by decide)
  | notBuilt m' what ha' hne' hb =>
    obtain rfl := hsame ha'
    exact ⟨fun h => absurd h (by simp [moved]), fun h => absurd h.1 hb⟩
  | notOpened m' what ha' hne' hlen ho =>
    exact ⟨fun h => absurd h (by simp [moved]), fun h => absurd (ho.symm.trans h.2) (by decide)⟩
  | noMemTable m' what r w' ha' hne' hr hnew hb ho =>
    obtain rfl := hsame ha'
    exact iff_of_true rfl ⟨hb, ho⟩
  | done m' m₁ r w' ha' hne' hr hnew hb ho =>
    obtain rfl := hsame ha'
    exact iff_of_true (slots_compaction hash heaps io.compaction _ w').2 ⟨hb, ho⟩

/-- **One call**, whatever file operations fail in it. -/
theorem call_slots {c : EngineCall} {s s' : System} {o : Outcome Bool} (hstep : s.step hash heaps c.op = (o, s'))
    (ho : o ≠ .undefined) : SlotsAfter (c.moves s) s.engine s'.engine := by
  -- only a flush moves a memtable to the other slot
  cases c with
  | put key value now append io =>
    unfold EngineCall.moves
    cases step_put hstep with
    | closed _ => exact absurd rfl ho
    | refused ha hput =>
      simp only [ha, hput]
      exact .same (by rw [ha]) rfl
    | room ha hput hroom =>
      simp only [ha, hput, Bool.true_and]
      rw [decide_eq_false hroom, Bool.false_and]
      exact .same (by rw [ha]; rfl) rfl
    | full ha hput hfull hflush =>
      obtain rfl := System.unit_eq hflush
      simp only [ha, hput, Bool.true_and]
      rw [decide_eq_true hfull, Bool.true_and]
      obtain ⟨hstill, hmoved⟩ := flush_slots hash heaps io { s.engine with active := some _ } _
      exact ⟨fun h => (hstill h).imp_left fun hs => by rw [hs, ha]; rfl,
        fun h => ⟨by rw [ha]; rfl, (hmoved h).2⟩⟩
  | delete key now append =>
    cases step_delete hstep with
    | closed _ => exact absurd rfl ho
    | refused ha _ => exact .same (by rw [ha]) rfl
    | done ha _ => exact .same (by rw [ha]; rfl) rfl
  | flushMemTable io =>
    obtain rfl := System.unit_eq hstep
    exact flush_slots hash heaps io s.engine s.world
  | triggerCompaction io =>
    obtain ⟨ha, hi⟩ := slots_trigger hash heaps io s.engine s.world
    rw [step_triggerCompaction hstep] at ha hi
    exact .same (by rw [ha]) hi
  | close io =>
    obtain rfl := System.unit_eq (step_close hstep)
    exact flush_slots hash heaps io s.engine s.world

/-- The memtable that a call flushes, and how the file operations of the flush end. -/
def EngineCall.flushes (s : System) : EngineCall → Option (MemTable × FlushIO)
  | .put key value now append io =>
    match s.engine.active with
    | none => none
    | some m =>
      match m.put key value now append s.world with
      | (ok, m, _) =>
        if ok && s.engine.config.writeBufferSize ≤ m.approxMemoryUsage && !m.empty then some (m, io) else none
  | .flushMemTable io | .close io =>
    match s.engine.active with
    | none => none
    | some m => if m.empty then none else some (m, io)
  | .delete _ _ _ | .triggerCompaction _ => none

theorem EngineCall.moves_eq (c : EngineCall) (s : System) : c.moves s = (c.flushes s).isSome := by
  cases c with
  | put key value now append io =>
    unfold moves flushes
    cases s.engine.active with
    | none => rfl
    | some m =>
      simp only
      generalize m.put key value now append s.world = r
      obtain ⟨ok, m', w'⟩ := r
      simp only
      split <;> simp_all
  | delete key now append => rfl
  | flushMemTable io | close io =>
    unfold moves flushes
    cases s.engine.active with
    | none => rfl
    | some m => cases hm : m.empty <;> simp [hm]
  | triggerCompaction io => rfl

/-- What `FlushMemTable` and `Close` flush is the active memtable. -/
theorem active_of_flushes {s : System} {c : EngineCall} {io io' : FlushIO} {m : MemTable}
    (hc : c = .flushMemTable io' ∨ c = .close io') (hflush : c.flushes s = some (m, io)) :
    s.engine.active = some m ∧ m.empty = false ∧ io' = io := by
  unfold EngineCall.flushes at hflush
  cases ha : s.engine.active with
  | none => rcases hc with rfl | rfl <;> exact absurd hflush (by simp [ha])
  | some m' =>
    rcases hc with rfl | rfl <;>
      · simp only [ha] at hflush
        split at hflush
        · cases hflush
        · rename_i hne
          obtain ⟨rfl, rfl⟩ := Prod.mk.inj (Option.some.inj hflush)
          exact ⟨rfl, by simpa using hne, rfl⟩

/-- A call that flushes drops the memtable if the flush does. -/
theorem call_drops_iff {c : EngineCall} {s s' : System} {o : Outcome Bool} {m : MemTable} {io : FlushIO}
    (hstep : s.step hash heaps c.op = (o, s')) (hflush : c.flushes s = some (m, io)) :
    s'.engine.immutable = none ↔ Builds hash io.build m s.engine ∧ io.readerOpens = true := by
  cases c with
  | put key value now append io' =>
    unfold EngineCall.flushes at hflush
    cases step_put hstep with
    | closed ha => simp [ha] at hflush
    | refused ha hput => simp [ha, hput] at hflush
    | room ha hput hroom => simp [ha, hput, hroom] at hflush
    | full ha hput hfull hend =>
      obtain rfl := System.unit_eq hend
      simp only [ha, hput] at hflush
      split at hflush
      · rename_i hgoes
        obtain ⟨rfl, rfl⟩ := Prod.mk.inj (Option.some.inj hflush)
        simp only [Bool.and_eq_true, Bool.not_eq_true'] at hgoes
        exact immutable_flush_iff (e := { s.engine with active := some _ }) rfl hgoes.2 io' _
      · cases hflush
  | delete key now append => cases hflush
  | flushMemTable io' =>
    obtain ⟨ha, hne, rfl⟩ := active_of_flushes (Or.inl rfl) hflush
    obtain rfl := System.unit_eq hstep
    exact immutable_flush_iff ha hne io' s.world
  | triggerCompaction io' => cases hflush
  | close io' =>
    obtain ⟨ha, hne, rfl⟩ := active_of_flushes (Or.inr rfl) hflush
    obtain rfl := System.unit_eq (step_close hstep)
    exact immutable_flush_iff ha hne io' s.world

/-! ## Reachable engines -/

/-- Only one slot is in use. -/
def OneSlot (e : StorageEngine) : Prop := e.active.isSome → e.immutable.isSome = false

theorem SlotsAfter.oneSlot {moved : Bool} {e e' : StorageEngine} (h : SlotsAfter moved e e') (he : OneSlot e) :
    OneSlot e' := by
  unfold OneSlot at he ⊢
  cases moved with
  | false =>
    obtain ⟨ha, hi⟩ := h.still rfl
    rw [ha, hi]
    exact he
  | true =>
    obtain ⟨-, ⟨ha, -⟩ | hi⟩ := h.moved rfl
    · rw [ha]
      exact fun hnone => (nomatch hnone)
    · rw [hi]
      exact fun _ => rfl

/-- Calls one after another, whatever they return or throw, and whatever file operations
fail; no call has undefined behaviour. -/
def reach (hash : Bytes → UInt64) (heaps : Heaps) (ops : List Op) (s : System) : Option System :=
  ops.foldlM (fun s op => match s.step hash heaps op with
    | (.undefined, _) => none
    | (_, s') => some s') s

theorem oneSlot_new {config : Config} {io : MemTableIO} {e : StorageEngine} {w w' : World}
    (h : StorageEngine.new config io w = (.ok e, w')) : OneSlot e := by
  unfold StorageEngine.new at h
  simp only at h
  split at h
  · cases (Prod.mk.inj h).1
  · split at h
    · cases (Prod.mk.inj h).1
    · obtain rfl := Except.ok.inj (Prod.mk.inj h).1
      exact fun _ => rfl

theorem oneSlot_step {op : Op} {s s' : System} {o : Outcome Bool} (h : OneSlot s.engine)
    (hstep : s.step hash heaps op = (o, s')) (ho : o ≠ .undefined) : OneSlot s'.engine := by
  cases op with
  | put key value now append io => exact (call_slots (c := .put key value now append io) hstep ho).oneSlot h
  | delete key now append => exact (call_slots (c := .delete key now append) hstep ho).oneSlot h
  | flushMemTable io => exact (call_slots (c := .flushMemTable io) hstep ho).oneSlot h
  | triggerCompaction io => exact (call_slots (c := .triggerCompaction io) hstep ho).oneSlot h
  | close io => exact (call_slots (c := .close io) hstep ho).oneSlot h
  | reopen writeBufferSize compactionThreshold io =>
    simp only [System.step] at hstep
    split at hstep
    · rename_i e w hnew
      obtain ⟨-, rfl⟩ := Prod.mk.inj hstep
      exact oneSlot_new hnew
    · obtain ⟨-, rfl⟩ := Prod.mk.inj hstep
      exact h

theorem oneSlot_reach {ops : List Op} : ∀ {s s' : System}, OneSlot s.engine → reach hash heaps ops s = some s' →
    OneSlot s'.engine := by
  induction ops with
  | nil =>
    intro s s' h hreach
    obtain rfl := Option.some.inj hreach
    exact h
  | cons op ops ih =>
    intro s s' h hreach
    unfold reach at hreach
    rw [List.foldlM_cons, Option.bind_eq_bind, Option.bind_eq_some_iff] at hreach
    obtain ⟨s₁, hone, hrest⟩ := hreach
    obtain ⟨o, s₂, hstep⟩ : ∃ o s₂, s.step hash heaps op = (o, s₂) := ⟨_, _, rfl⟩
    rw [hstep] at hone
    have ho : o ≠ .undefined := by
      rintro rfl
      cases hone
    obtain rfl : s₂ = s₁ := by
      cases o with
      | undefined => exact absurd rfl ho
      | returned a => exact Option.some.inj hone
      | threw what => exact Option.some.inj hone
    exact ih (oneSlot_step h hstep ho) hrest

/-! ## The scanning thread -/

namespace Threads

variable {st st' : Threads heaps} {t : Scanner heaps}

/-- A scan that has begun with a memtable to write to refers to that one; otherwise to the
one that a failed flush has left, which stays. -/
inductive Refers (st : Threads heaps) (t : Scanner heaps) : Prop where
  | active (b : ℕ) (href : t.refs .active = some b) (hother : t.refs .immutable = none)
    (hkept : st.dropped = false → st.name = b ∧ st.sys.engine.active.isSome = true ∨
      st.name = b + 1 ∧ st.sys.engine.active.isSome = false ∧ st.sys.engine.immutable.isSome = true)
    (hlost : st.dropped = true → st.name = b + 1 ∧ st.sys.engine.immutable.isSome = false ∨ b + 1 < st.name)
  | left (hnone : st.sys.engine.active.isSome = false) (href : t.refs .active = none)
    (hother : ∀ n, t.refs .immutable = some n → n + 1 = st.name ∧ st.sys.engine.immutable.isSome = true)
    (hkept : st.dropped = false)

theorem isSome_owned (st : Threads heaps) (n : ℕ) : (st.owned n).isSome =
    if n = st.name then st.sys.engine.active.isSome
    else if n + 1 = st.name then st.sys.engine.immutable.isSome else false := by
  unfold owned
  split_ifs <;> simp

/-- The memtables are owned until one is dropped. -/
theorem Refers.ownsRefs_iff (h : Refers st t) : st.OwnsRefs t ↔ st.dropped = false := by
  cases h with
  | active b href hother hkept hlost =>
    -- the iterator was built over one list only
    have honly : st.OwnsRefs t ↔ (st.owned b).isSome = true := by
      constructor
      · exact fun hall => hall .active b href
      · intro hb slot n hn
        cases slot with
        | active =>
          rw [href] at hn
          rwa [← Option.some.inj hn]
        | immutable =>
          rw [hother] at hn
          cases hn
    rw [honly, isSome_owned]
    cases hd : st.dropped with
    | false =>
      rcases hkept hd with ⟨hn, ha⟩ | ⟨hn, -, hi⟩
      · simp [hn, ha]
      · simp [hn, hi]
    | true =>
      rcases hlost hd with ⟨hn, hi⟩ | hn
      · simp [hn, hi]
      · rw [if_neg (by omega), if_neg (by omega)]
        simp
  | left hnone href hother hkept =>
    refine iff_of_true (fun slot n hn => ?_) hkept
    cases slot with
    | active =>
      rw [href] at hn
      cases hn
    | immutable =>
      obtain ⟨hname, hi⟩ := hother n hn
      rw [isSome_owned, if_neg (by omega), if_pos hname, hi]

/-- What holds between two steps. -/
structure Tracked (st : Threads heaps) : Prop where
  one : OneSlot st.sys.engine
  named : 0 < st.name
  refers : ∀ t, st.scanner = some t → Refers st t

theorem refs_iterate {lists : MemSlot → SkipList} {t' : Scanner heaps} (h : t.iterate lists = some t') :
    t'.refs = t.refs := by
  unfold Scanner.iterate at h
  split at h
  · split at h
    · cases h
    · split at h
      · cases h
      · obtain rfl := Option.some.inj h
        rfl
  · split at h
    · cases h
    · obtain rfl := Option.some.inj h
      rfl
  · obtain rfl := Option.some.inj h
    rfl
  · obtain rfl := Option.some.inj h
    rfl

theorem Refers.congr (h : Refers st t) {t' : Scanner heaps} (hrefs : t'.refs = t.refs)
    (sc : Option (Scanner heaps)) :
    Refers { st with scanner := sc } t' := by
  cases h with
  | active b href hother hkept hlost =>
    exact .active b (by rw [hrefs, href]) (by rw [hrefs, hother]) hkept hlost
  | left hnone href hother hkept =>
    exact .left hnone (by rw [hrefs, href]) (by rwa [hrefs]) hkept

/-- What another thread's call does. -/
theorem stepCall_eq {c : EngineCall} (h : st.stepCall hash c = some st') :
    ∃ o s', st.sys.step hash heaps c.op = (o, s') ∧ o ≠ .undefined ∧ st' = { st with
      sys := s'
      name := if c.moves st.sys then st.name + 1 else st.name
      dropped := st.dropped || (c.moves st.sys && s'.engine.immutable.isNone) } := by
  obtain ⟨o, s', hcall⟩ : ∃ o s', st.sys.step hash heaps c.op = (o, s') := ⟨_, _, rfl⟩
  unfold stepCall at h
  rw [hcall] at h
  refine ⟨o, s', hcall, ?_⟩
  cases o with
  | undefined => cases h
  | returned a => exact ⟨by simp, (Option.some.inj h).symm⟩
  | threw what => exact ⟨by simp, (Option.some.inj h).symm⟩

/-- **What drops a memtable**: a flush in another thread's call whose table is built and opened
again, whatever the other file operations of the flush do. -/
theorem dropped_stepCall {c : EngineCall} (h : st.stepCall hash c = some st') : st'.dropped = true ↔
    st.dropped = true ∨ ∃ m io, c.flushes st.sys = some (m, io) ∧ Builds hash io.build m st.sys.engine ∧
      io.readerOpens = true := by
  obtain ⟨o, s', hcall, -, rfl⟩ := stepCall_eq h
  simp only
  rw [Bool.or_eq_true, Bool.and_eq_true, Option.isNone_iff_eq_none, c.moves_eq]
  refine or_congr_right ⟨?_, ?_⟩
  · rintro ⟨hmoves, hnone⟩
    obtain ⟨⟨m, io⟩, hflush⟩ := Option.isSome_iff_exists.1 hmoves
    exact ⟨m, io, hflush, (call_drops_iff hcall hflush).1 hnone⟩
  · rintro ⟨m, io, hflush, hdrops⟩
    exact ⟨by rw [hflush]; rfl, (call_drops_iff hcall hflush).2 hdrops⟩

/-- Another thread's call. -/
theorem Refers.stepCall (h : Refers st t) {c : EngineCall} (hstep : st.stepCall hash c = some st') :
    Refers st' t := by
  obtain ⟨o, s', hcall, ho, rfl⟩ := stepCall_eq hstep
  have hslots := call_slots hcall ho
  cases hm : c.moves st.sys with
  | false =>
    rw [hm] at hslots
    obtain ⟨ha, hi⟩ := hslots.still rfl
    cases h with
    | active b href hother hkept hlost =>
      refine .active b href hother ?_ ?_
      · simpa [ha, hi] using hkept
      · simpa [ha, hi] using hlost
    | left hnone href hother hkept =>
      refine .left (by rw [← hnone]; exact ha) href ?_ ?_
      · simpa [hi] using hother
      · simpa using hkept
  | true =>
    rw [hm] at hslots
    obtain ⟨hactive, hafter⟩ := hslots.moved rfl
    cases h with
    | left hnone href hother hkept =>
      -- there is no memtable to flush any more
      rw [hnone] at hactive
      cases hactive
    | active b href hother hkept hlost =>
      cases hd : st.dropped with
      | true =>
        refine .active b href hother (fun h => by simp at h) fun _ => Or.inr ?_
        simp only [if_true]
        rcases hlost hd with ⟨hname, -⟩ | hname <;> omega
      | false =>
        have hname : st.name = b := by
          rcases hkept hd with ⟨hname, -⟩ | ⟨-, hnone, -⟩
          · exact hname
          · rw [hnone] at hactive
            cases hactive
        rcases hafter with ⟨ha, hi⟩ | hi
        · refine .active b href hother (fun _ => Or.inr ?_) fun h => ?_
          · simp [hname, ha, hi]
          · rw [Option.isSome_iff_ne_none] at hi
            simp [hi] at h
        · refine .active b href hother (fun h => ?_) fun _ => Or.inl ?_
          · simp [hi] at h
          · simp [hname, hi]

theorem Tracked.stepCall (h : Tracked st) {c : EngineCall} (hstep : st.stepCall hash c = some st') :
    Tracked st' := by
  have hrefers : ∀ t, st.scanner = some t → Refers st' t := fun t ht => (h.refers t ht).stepCall hstep
  obtain ⟨o, s', hcall, ho, rfl⟩ := stepCall_eq hstep
  have hslots := call_slots hcall ho
  refine ⟨hslots.oneSlot h.one, ?_, hrefers⟩
  have hpos := h.named
  simp only
  split <;> omega

/-- The iterator refers to the memtable of the slot in use. -/
theorem Tracked.stepBuild (h : Tracked st) (c : ScanCall) : Tracked (st.stepBuild c) := by
  unfold Threads.stepBuild
  split
  · exact h
  · split
    · exact h
    · rename_i it hnew
      refine ⟨h.one, h.named, fun t ht => ?_⟩
      obtain rfl := Option.some.inj ht
      have hpos := h.named
      cases ha : st.sys.engine.active.isSome with
      | true =>
        have hi := h.one ha
        refine .active st.name ?_ ?_ (fun _ => Or.inl ⟨rfl, ha⟩) fun hd => (nomatch hd)
        · simp
        · simp [hi]
      | false =>
        refine .left ha (by simp) (fun n hn => ?_) rfl
        simp only at hn
        split at hn
        · rename_i hi
          obtain rfl := Option.some.inj hn
          exact ⟨by simp only; omega, hi⟩
        · cases hn

theorem Tracked.stepIterate (h : Tracked st) (hstep : st.stepIterate = some st') : Tracked st' := by
  have hmove : ∀ t, st.scanner = some t →
      Tracked { st with scanner := t.iterate (st.lists t) } := fun t ht => by
    refine ⟨h.one, h.named, fun t' ht' => ?_⟩
    exact (h.refers t ht).congr (refs_iterate ht') _
  unfold Threads.stepIterate at hstep
  split at hstep
  · obtain rfl := Option.some.inj hstep
    exact h
  · rename_i t ht
    split at hstep
    · split at hstep
      · obtain rfl := Option.some.inj hstep
        exact hmove t ht
      · cases hstep
    · obtain rfl := Option.some.inj hstep
      exact hmove t ht

/-- **One step.** -/
theorem Tracked.step (h : Tracked st) {ev : Event} (hstep : st.step hash ev = some st') : Tracked st' := by
  cases ev with
  | call c => exact h.stepCall hstep
  | build c =>
    obtain rfl := Option.some.inj hstep
    exact h.stepBuild c
  | iterate => exact h.stepIterate hstep

/-- **Every run.** -/
theorem Tracked.run {events : List Event} : ∀ {st st' : Threads heaps}, Tracked st →
    Threads.run hash events st = some st' → Tracked st' := by
  induction events with
  | nil =>
    intro st st' h hrun
    obtain rfl := Option.some.inj hrun
    exact h
  | cons ev events ih =>
    intro st st' h hrun
    unfold Threads.run at hrun
    rw [List.foldlM_cons, Option.bind_eq_bind, Option.bind_eq_some_iff] at hrun
    obtain ⟨st₁, hone, hrest⟩ := hrun
    exact ih (h.step hone) hrest

/-- Nobody scans. -/
def start (heaps : Heaps) (s : System) : Threads heaps := ⟨s, 1, none, false⟩

/-- At every call of the iterator the engine owns the memtables that it refers to. -/
def KeepsRefs (hash : Bytes → UInt64) (events : List Event) (st : Threads heaps) : Prop :=
  ∀ pre post st' t, events = pre ++ .iterate :: post → run hash pre st = some st' → st'.scanner = some t →
    st'.OwnsRefs t

/-- No call of the iterator comes after a flush that dropped its memtable since the iterator was built. -/
def NoneDropped (hash : Bytes → UInt64) (events : List Event) (st : Threads heaps) : Prop :=
  ∀ pre post st' t, events = pre ++ .iterate :: post → run hash pre st = some st' → st'.scanner = some t →
    st'.dropped = false

end Threads

open Threads

/-- **A scan finds its memtables owned** if and only if no flush drops one under it. -/
theorem keepsRefs_iff {config : Config} {io : MemTableIO} {w₀ w : World} {e : StorageEngine}
    (hopen : StorageEngine.new config io w₀ = (.ok e, w)) {ops : List Op} {s : System}
    (hreach : reach hash heaps ops ⟨e, w⟩ = some s) (events : List Event) :
    KeepsRefs hash events (start heaps s) ↔ NoneDropped hash events (start heaps s) := by
  have hstart : Tracked (start heaps s) :=
    ⟨oneSlot_reach (oneSlot_new hopen) hreach, Nat.one_pos, fun _ h => (nomatch h)⟩
  have hiff : ∀ {pre st' t}, run hash pre (start heaps s) = some st' → st'.scanner = some t →
      (st'.OwnsRefs t ↔ st'.dropped = false) := fun hrun ht =>
    ((hstart.run hrun).refers _ ht).ownsRefs_iff
  constructor
  · exact fun h pre post st' t hev hrun ht => (hiff hrun ht).1 (h pre post st' t hev hrun ht)
  · exact fun h pre post st' t hev hrun ht => (hiff hrun ht).2 (h pre post st' t hev hrun ht)

/-- Another thread's flush, under a scan, cannot create its table: the memtable stays in the other slot. -/
def failedUnder : List Event :=
  [.call (.put (bytes "b") (bytes "2") 0 .ok .ok), .build (.scan [] [] 0),
    .call (.flushMemTable { FlushIO.ok with build := ⟨false, none⟩ })]

/-- A scan of a table and a memtable finds the memtable owned behind a flush that failed. -/
theorem keepsRefs_iff_failed : ∃ s,
    reach (fun _ => 0) firstInHeaps [.put (bytes "a") (bytes "1") 0 .ok .ok, .flushMemTable .ok]
      ⟨unloggedEngine 4, .ofDisk .empty⟩ = some s ∧
    KeepsRefs (fun _ => 0) (failedUnder ++ [.iterate]) (start firstInHeaps s) := by
  have hopen : StorageEngine.new (unloggedEngine 4).config .ok (World.ofDisk Disk.empty) =
      (.ok (unloggedEngine 4), .ofDisk .empty) := rfl
  have hsome : (reach (fun _ => 0) firstInHeaps [.put (bytes "a") (bytes "1") 0 .ok .ok, .flushMemTable .ok]
      ⟨unloggedEngine 4, .ofDisk .empty⟩).any (fun s => (run (fun _ => 0) failedUnder (start firstInHeaps s)).any
        fun st => st.sys.engine.active.isNone && !st.dropped) = true := by decide +kernel
  obtain ⟨s, hreach, hs⟩ := (Option.any_eq_true _ _).1 hsome
  obtain ⟨st, hrun, hst⟩ := (Option.any_eq_true _ _).1 hs
  refine ⟨s, hreach, (keepsRefs_iff hopen hreach _).2 fun pre post st' t hev hrun' _ => ?_⟩
  -- the one call of the iterator comes last
  obtain rfl : pre = failedUnder := by
    obtain _ | ⟨a, _ | ⟨b, _ | ⟨c, _ | ⟨d, l⟩⟩⟩⟩ := pre <;> simp [failedUnder] at hev ⊢
    exact ⟨hev.1.symm, hev.2.1.symm, hev.2.2.1.symm⟩
  obtain rfl := Option.some.inj (hrun.symm.trans hrun')
  simpa using (Bool.and_eq_true_iff.1 hst).2

/-- Another thread flushes after the iterator was built. -/
def flushedUnder : List Event :=
  [.call (.put (bytes "a") (bytes "1") 0 .ok .ok), .build (.scan [] [] 0), .call (.flushMemTable .ok)]

/-- A scan can find its memtable released. -/
theorem keepsRefs_fails : ¬ ∀ (hash : Bytes → UInt64) (heaps : Heaps) (config : Config) (io : MemTableIO)
    (w₀ w : World) (e : StorageEngine) (ops : List Op) (s : System),
    StorageEngine.new config io w₀ = (.ok e, w) → reach hash heaps ops ⟨e, w⟩ = some s →
      ∀ events, KeepsRefs hash events (start heaps s) := by
  intro hall
  have hopen : StorageEngine.new (unloggedEngine 4).config .ok (World.ofDisk Disk.empty) =
      (.ok (unloggedEngine 4), .ofDisk .empty) := rfl
  have hkeeps := hall (fun _ => 0) firstInHeaps _ _ _ _ _ [] _ hopen rfl (flushedUnder ++ [.iterate])
  have hsome : (run (fun _ => 0) flushedUnder (start firstInHeaps ⟨unloggedEngine 4, .ofDisk .empty⟩)).any
      (fun st => st.scanner.any fun t => !decide (st.OwnsRefs t)) = true := by decide +kernel
  obtain ⟨st, hrun, hst⟩ := (Option.any_eq_true _ _).1 hsome
  obtain ⟨t, ht, hnot⟩ := (Option.any_eq_true _ _).1 hst
  have howns := hkeeps flushedUnder [] st t rfl hrun ht
  rw [decide_eq_true howns] at hnot
  cases hnot

end LsmTree
