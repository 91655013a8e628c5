import LsmTree.Proof.ScanThread
import LsmTree.Proof.MemAccount

/-!
# The bound on the write buffer

`Put` flushes when the usage counter has reached the size of the write buffer. `Delete`
does not look at it.

* `Below.step`: every call keeps the counter below the size, if a `Delete` leaves room.
* `buffer_bounded`: so does every run, and `buffer_bounded_fails` is a `Delete` that
  leaves none.
-/

namespace LsmTree

open Base StorageEngine

variable {hash : Bytes → UInt64} {heaps : Heaps} {config : Config} {s s' : System}

namespace MemTable

variable {m : MemTable}

theorem empty_applyPut (key value : Bytes) (m : MemTable) : (m.applyPut key value).empty = false := by
  rw [Bool.eq_false_iff]
  intro h
  have hchain := (empty_iff _).1 h
  rw [list_applyPut] at hchain
  exact insertKey_ne_nil hchain

/-- A deletion lowers the counter or counts one more node. -/
theorem usage_applyDelete (key : Bytes) (m : MemTable) : (m.applyDelete key).approxMemoryUsage =
    match m.list.find key with
    | some existing => m.approxMemoryUsage - .ofNat existing.value.length
    | none => m.approxMemoryUsage + estimateNodeMemory key [] := by
  unfold applyDelete
  cases m.list.find key with
  | none => rfl
  | some existing =>
    simp only
    split
    · rfl
    · rename_i hzero
      rw [show existing.value.length = 0 by omega]
      exact (UInt64.sub_zero _).symm

end MemTable

/-! ## One call -/

/-- The counter of the active memtable is below the size of the write buffer. -/
structure Below (config : Config) (s : System) : Prop where
  same : s.engine.config = config
  active : ∀ m, s.engine.active = some m → m.approxMemoryUsage < config.writeBufferSize

/-- A `Delete` leaves room: its key is in the active memtable, with a value that is counted
there, or the counter and the new node together are below the size of the write buffer. -/
def LeavesRoom (c : Call) (s : System) : Prop :=
  match c with
  | .delete key _ => ∀ m, s.engine.active = some m →
    match m.list.find key with
    | some existing => existing.value.length ≤ m.approxMemoryUsage.toNat
    | none => m.approxMemoryUsage + MemTable.estimateNodeMemory key [] < s.engine.config.writeBufferSize
  | _ => True

/-- A flush leaves a fresh memtable, or none. -/
theorem Below.flush (h : Below config s ∨ s.engine.config = config ∧ Flushable s.engine = true)
    (hsize : 0 < config.writeBufferSize) {o : Outcome Unit} {e' : StorageEngine} {w' : World}
    (hf : flushMemTableInternal hash heaps .ok s.engine s.world = (o, e', w')) : Below config ⟨e', w'⟩ := by
  have hconfig : s.engine.config = config := h.elim Below.same And.left
  rw [flushMemTableInternal_eq] at hf
  have hcases := flushTable_cases hash .ok s.engine s.world
  generalize flushTable hash .ok s.engine s.world = r at hcases hf
  cases hcases with
  | idle hidle =>
    obtain ⟨-, h2⟩ := Prod.mk.inj hf
    obtain ⟨rfl, rfl⟩ := Prod.mk.inj h2
    rcases h with h | ⟨-, hflush⟩
    · exact h
    · -- a flush that has nothing to do leaves the memtable below the buffer as it was
      exact absurd ((not_flushable hidle).symm.trans hflush) (by decide)
  | notBuilt m what _ _ =>
    obtain ⟨-, h2⟩ := Prod.mk.inj hf
    obtain ⟨rfl, rfl⟩ := Prod.mk.inj h2
    exact ⟨hconfig, fun m hm => (nomatch hm)⟩
  | notOpened m what _ _ _ _ =>
    obtain ⟨-, h2⟩ := Prod.mk.inj hf
    obtain ⟨rfl, rfl⟩ := Prod.mk.inj h2
    exact ⟨hconfig, fun m hm => (nomatch hm)⟩
  | noMemTable m what r w' _ _ _ _ =>
    obtain ⟨-, h2⟩ := Prod.mk.inj hf
    obtain ⟨rfl, rfl⟩ := Prod.mk.inj h2
    exact ⟨hconfig, fun m hm => (nomatch hm)⟩
  | done m m' r w₁ _ _ _ hnew =>
    -- the new memtable is blank, and a compaction leaves it alone
    obtain ⟨⟨wal, hblank⟩, -⟩ := installed_ok m s.engine s.world hnew
    simp only at hf
    have hactive := (slots_compaction hash heaps FlushIO.ok.compaction
      { s.engine.withTable .ok r (built hash m s.engine s.world) with active := some m' } w₁).1
    have hkept := config_maybeCompaction hash heaps FlushIO.ok.compaction
      { s.engine.withTable .ok r (built hash m s.engine s.world) with active := some m' } w₁
    rw [hf] at hactive hkept
    refine ⟨hkept.trans hconfig, fun m₁ hm₁ => ?_⟩
    obtain rfl := Option.some.inj (hm₁.symm.trans hactive)
    rw [hblank]
    exact hsize

theorem Below.put (h : Below config s) (hsize : 0 < config.writeBufferSize) {key value : Bytes} {now : Int64}
    {o : Outcome Bool} (hend : PutEnd hash heaps key value now .ok .ok s (o, s')) : Below config s' := by
  cases hend with
  | closed _ => exact h
  | refused ha _ =>
    refine ⟨h.same, fun m' hm' => ?_⟩
    obtain rfl := Option.some.inj hm'
    exact h.active _ ha
  | room _ _ hroom =>
    refine ⟨h.same, fun m' hm' => ?_⟩
    obtain rfl := Option.some.inj hm'
    rw [← h.same]
    exact UInt64.not_le.1 hroom
  | @full m w _ _ _ _ _ hflush =>
    obtain rfl := System.unit_eq hflush
    have hsome : Flushable { s.engine with active := some (m.applyPut key value) } = true :=
      flushable_of rfl (MemTable.empty_applyPut key value m)
    exact Below.flush (s := ⟨{ s.engine with active := some (m.applyPut key value) }, w⟩)
      (Or.inr ⟨h.same, hsome⟩) hsize rfl

theorem Below.delete (h : Below config s) {key : Bytes} {now : Int64} (hroom : LeavesRoom (.delete key now) s)
    {o : Outcome Bool} (hend : DeleteEnd key now .ok s (o, s')) : Below config s' := by
  cases hend with
  | closed _ => exact h
  | refused ha _ =>
    refine ⟨h.same, fun m' hm' => ?_⟩
    obtain rfl := Option.some.inj hm'
    exact h.active _ ha
  | @done m _ ha _ =>
    refine ⟨h.same, fun m' hm' => ?_⟩
    obtain rfl := Option.some.inj hm'
    have hbefore := h.active m ha
    have hroom := hroom m ha
    rw [MemTable.usage_applyDelete]
    cases hfind : m.list.find key with
    | none =>
      rw [hfind] at hroom
      rw [← h.same]
      exact hroom
    | some existing =>
      -- the value is counted in the memtable, so the subtraction does not wrap
      rw [hfind] at hroom
      have hroom : existing.value.length ≤ m.approxMemoryUsage.toNat := hroom
      have hval : (UInt64.ofNat existing.value.length).toNat = existing.value.length :=
        UInt64.toNat_ofNat_of_lt' (lt_of_le_of_lt hroom m.approxMemoryUsage.toNat_lt)
      have hle : UInt64.ofNat existing.value.length ≤ m.approxMemoryUsage := by
        rw [UInt64.le_iff_toNat_le, hval]
        exact hroom
      have hsub := UInt64.toNat_sub_of_le _ _ hle
      rw [UInt64.lt_iff_toNat_lt] at hbefore ⊢
      simp only
      omega

/-- **One call keeps the counter below the size**, if a `Delete` leaves room. -/
theorem Below.step (h : Below config s) (hsize : 0 < config.writeBufferSize) (c : Call) (hroom : LeavesRoom c s) :
    Below config (s.step hash heaps c.op).2 := by
  obtain ⟨o, s', hstep⟩ : ∃ o s', s.step hash heaps c.op = (o, s') := ⟨_, _, rfl⟩
  rw [hstep]
  cases c with
  | put key value now => exact h.put hsize (step_put hstep)
  | delete key now => exact h.delete hroom (step_delete hstep)
  | flushMemTable =>
    obtain rfl := System.unit_eq hstep
    exact Below.flush (Or.inl h) hsize rfl

/-! ## Runs -/

/-- The state after calls in which every file operation succeeds. -/
def afterCalls (hash : Bytes → UInt64) (heaps : Heaps) (calls : List Call) (s : System) : System :=
  calls.foldl (fun s c => (s.step hash heaps c.op).2) s

/-- Every `Delete` of the run leaves room in the state it is called in. -/
def RoomyRun (hash : Bytes → UInt64) (heaps : Heaps) (calls : List Call) (s : System) : Prop :=
  ∀ before c later, calls = before ++ c :: later → LeavesRoom c (afterCalls hash heaps before s)

theorem afterCalls_snoc (calls : List Call) (c : Call) (s : System) :
    afterCalls hash heaps (calls ++ [c]) s = ((afterCalls hash heaps calls s).step hash heaps c.op).2 := by
  unfold afterCalls
  rw [List.foldl_append]
  rfl

/-- The engine opened on an empty directory. -/
theorem below_fresh (hsize : 0 < config.writeBufferSize) {e : StorageEngine} {w : World}
    (hopen : StorageEngine.new config .ok (World.ofDisk Disk.empty) = (.ok e, w)) : Below config ⟨e, w⟩ := by
  have hrec : recoverTables (World.ofDisk Disk.empty).disk
      (Manifest.load (World.ofDisk Disk.empty).disk).sstableFiles [] 0 = .ok ([], 0) := rfl
  have hblank : ∀ wal m, some (MemTable.blank wal) = some m → m.approxMemoryUsage < config.writeBufferSize := by
    intro wal m hm
    obtain rfl := Option.some.inj hm
    exact hsize
  unfold StorageEngine.new at hopen
  simp only at hopen
  rw [hrec] at hopen
  simp only at hopen
  by_cases hp : config.walPath = []
  · rw [hp, MemTable.new_nil] at hopen
    obtain ⟨h1, -⟩ := Prod.mk.inj hopen
    rw [← Except.ok.inj h1]
    exact ⟨rfl, hblank false⟩
  · rw [MemTable.new_opened hp rfl, MemTable.recover_empty rfl] at hopen
    obtain ⟨h1, -⟩ := Prod.mk.inj hopen
    rw [← Except.ok.inj h1]
    exact ⟨rfl, hblank true⟩

/-- **Every run keeps the counter below the size**, if its `Delete`s leave room. -/
theorem Below.run (hsize : 0 < config.writeBufferSize) (h : Below config s) : ∀ calls : List Call,
    RoomyRun hash heaps calls s → Below config (afterCalls hash heaps calls s) := by
  intro calls
  induction calls using List.reverseRecOn with
  | nil => exact fun _ => h
  | append_singleton calls c ih =>
    intro hroom
    have hbefore := ih fun before c' later hcalls =>
      hroom before c' (later ++ [c]) (by rw [hcalls, List.append_assoc, List.cons_append])
    rw [afterCalls_snoc]
    exact hbefore.step hsize c (hroom calls c [] rfl)

/-- A flush that returns leaves an active memtable where there was one. -/
theorem active_flush {io : FlushIO} {e e' : StorageEngine} {w w' : World} {u : Unit}
    (hf : flushMemTableInternal hash heaps io e w = (.returned u, e', w')) (ha : e.active.isSome) :
    e'.active.isSome := by
  rw [flushMemTableInternal_eq] at hf
  have hcases := flushTable_cases hash io e w
  generalize flushTable hash io e w = r at hcases hf
  cases hcases with
  | idle _ =>
    obtain ⟨-, h2⟩ := Prod.mk.inj hf
    obtain ⟨rfl, -⟩ := Prod.mk.inj h2
    exact ha
  | notBuilt m what _ _ => exact absurd (Prod.mk.inj hf).1 (by simp)
  | notOpened m what _ _ _ _ => exact absurd (Prod.mk.inj hf).1 (by simp)
  | noMemTable m what r w' _ _ _ _ => exact absurd (Prod.mk.inj hf).1 (by simp)
  | done m m' r w₁ _ _ _ _ =>
    have hactive := (slots_compaction hash heaps io.compaction
      { e.withTable io r (built hash m e w) with active := some m' } w₁).1
    simp only at hf
    rw [hf] at hactive
    rw [show e'.active = some m' from hactive]
    rfl

/-- A write that returns true leaves an active memtable. -/
theorem active_of_true {c : Call} (hc : c.write.isSome) (h : (s.step hash heaps c.op).1 = .returned true) :
    (s.step hash heaps c.op).2.engine.active.isSome := by
  obtain ⟨o, s', hstep⟩ : ∃ o s', s.step hash heaps c.op = (o, s') := ⟨_, _, rfl⟩
  rw [hstep] at h ⊢
  obtain rfl : o = .returned true := h
  cases c with
  | put key value now =>
    cases step_put hstep with
    | room _ _ _ => rfl
    | full _ _ _ hflush => exact active_flush (System.unit_returned hflush) rfl
  | delete key now =>
    cases step_delete hstep with
    | done _ _ => rfl
  | flushMemTable => exact absurd hc (by simp [Call.write])

/-- **The write buffer is bounded** in every run whose `Delete`s leave room: after each
`Put` and `Delete` that returns true the counter is below the size. -/
theorem buffer_bounded (hsize : 0 < config.writeBufferSize) {e : StorageEngine} {w : World}
    (hopen : StorageEngine.new config .ok (World.ofDisk Disk.empty) = (.ok e, w)) {calls : List Call}
    (hroom : RoomyRun hash heaps calls ⟨e, w⟩) : ∀ before c later, calls = before ++ c :: later → c.write.isSome →
      ((afterCalls hash heaps before ⟨e, w⟩).step hash heaps c.op).1 = .returned true →
        ∃ m, (afterCalls hash heaps (before ++ [c]) ⟨e, w⟩).engine.active = some m ∧
          m.approxMemoryUsage < config.writeBufferSize := by
  intro before c later hcalls hc htrue
  have hpre : RoomyRun hash heaps (before ++ [c]) ⟨e, w⟩ := fun before' c' later' h =>
    hroom before' c' (later' ++ later) (by rw [hcalls, ← List.cons_append, ← List.append_assoc, ← h]; simp)
  have hbelow := (below_fresh hsize hopen).run hsize _ hpre
  have hactive := active_of_true hc htrue
  rw [← afterCalls_snoc] at hactive
  obtain ⟨m, hm⟩ := Option.isSome_iff_exists.1 hactive
  exact ⟨m, hm, hbelow.active m hm⟩

/-- A write buffer of two hundred bytes, and no log. -/
def smallBuffer : Config := ⟨200, [], bytes "db", 4⟩

def smallEngine : StorageEngine := ⟨smallBuffer, ⟨[]⟩, some (.blank false), none, [], 0⟩

theorem smallEngine_opened : StorageEngine.new smallBuffer .ok (World.ofDisk Disk.empty) =
    (.ok smallEngine, World.ofDisk Disk.empty) := rfl

/-- A key is put and deleted. -/
theorem buffer_bounded_put_delete : ∃ m,
    (afterCalls (fun _ => 0) firstInHeaps [.put (bytes "b") (bytes "2") 1, .delete (bytes "b") 2]
      ⟨smallEngine, World.ofDisk Disk.empty⟩).engine.active = some m ∧ m.approxMemoryUsage < 200 := by
  have hroom : RoomyRun (fun _ => 0) firstInHeaps [.put (bytes "b") (bytes "2") 1, .delete (bytes "b") 2]
      ⟨smallEngine, World.ofDisk Disk.empty⟩ := by
    intro before c later hcalls
    rcases before with _ | ⟨c₁, _ | ⟨c₂, before⟩⟩
    · obtain ⟨rfl, -⟩ := List.cons.inj hcalls
      trivial
    · obtain ⟨rfl, hrest⟩ := List.cons.inj hcalls
      obtain ⟨rfl, -⟩ := List.cons.inj hrest
      intro m hm
      obtain rfl := Option.some.inj hm
      have hcounted : (bytes "2").length ≤
          (MemTable.applyPut (bytes "b") (bytes "2") (.blank false)).approxMemoryUsage.toNat := by decide +kernel
      exact hcounted
    · obtain ⟨-, hrest⟩ := List.cons.inj hcalls
      exact absurd (List.cons.inj hrest).2 (by simp)
  exact buffer_bounded (by decide) smallEngine_opened hroom [.put (bytes "b") (bytes "2") 1]
    (.delete (bytes "b") 2) []
    rfl rfl (by decide +kernel)

/-- Two deletions of keys that are not there count for two hundred and twenty-six bytes. -/
theorem buffer_bounded_fails : ¬ ∀ (hash : Bytes → UInt64) (heaps : Heaps) (config : Config) (e : StorageEngine)
    (w : World) (calls : List Call), 0 < config.writeBufferSize →
    StorageEngine.new config .ok (World.ofDisk Disk.empty) = (.ok e, w) →
    ∀ before c later, calls = before ++ c :: later → c.write.isSome →
      ((afterCalls hash heaps before ⟨e, w⟩).step hash heaps c.op).1 = .returned true →
        ∃ m, (afterCalls hash heaps (before ++ [c]) ⟨e, w⟩).engine.active = some m ∧
          m.approxMemoryUsage < config.writeBufferSize := by
  intro hall
  obtain ⟨m, hm, hlt⟩ := hall (fun _ => 0) firstInHeaps smallBuffer smallEngine (World.ofDisk Disk.empty)
    [.delete (bytes "a") 1, .delete (bytes "b") 2] (by decide) smallEngine_opened [.delete (bytes "a") 1]
    (.delete (bytes "b") 2) [] rfl rfl (by decide +kernel)
  obtain rfl := Option.some.inj hm
  exact absurd hlt (by decide +kernel)

end LsmTree
