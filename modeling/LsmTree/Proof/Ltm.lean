import LsmTree.Proof.Api
import LsmTree.Proof.Recall
import LsmTree.Spec.Ltm

/-!
# The Python layer on the engine

What was shown of the layer on an ordered map holds of it on the engine.

* `yields_appendMessage` and the others: on a map, a method as a client does what it does as a
  function of the map.
* `ltm_refines`: **every program gets from the layer on the engine what it gets from the layer on
  a map**.
* `agent_recalls`: **so an agent recalls the best of what it remembered**, through flushes,
  compactions and restarts.
-/

namespace LsmTree

open Base
open DBIterator (upTo)

variable {ν φ μ τ δ : Type} {m m' m₁ : Engine}

namespace Ltm

/-! ## Calls of the engine -/

/-- On a map, a client gives this answer. -/
abbrev Yields {α : Type} (client : Client api α) (m : Engine) (a : α) (m' : Engine) : Prop :=
  Engine.allowed.Yields client m a m'

theorem yields_pure {α : Type} (a : α) (m : Engine) : Yields (pure a) m a m := Specification.yields_ret _ a m

theorem yields_get (key : Bytes) (m : Engine) : Yields (Bindings.get key) m (m.get key) m := by
  intro r m'
  unfold Bindings.get
  rw [Specification.allows_call]
  constructor
  · rintro ⟨raw, t, ⟨hanswer, rfl⟩, hret⟩
    obtain ⟨rfl, rfl⟩ := Specification.allows_ret.1 hret
    exact ⟨hanswer, rfl⟩
  · rintro ⟨rfl, rfl⟩
    refine ⟨(m'.get key).map fun v => (v, false), m', ⟨?_, rfl⟩, Specification.allows_ret.2 ⟨?_, rfl⟩⟩
    · cases m'.get key <;> rfl
    · cases m'.get key <;> rfl

/-- A call that a map answers in one way. -/
theorem yields_call {α : Type} (c : ApiCall) (f : c.Result → α) (r : c.Result)
    (h : ∀ r' m₁, Engine.allowed m c r' m₁ ↔ r' = r ∧ m₁ = m') :
    Yields (.call c fun r => .ret (f r)) m (f r) m' := by
  intro a m''
  rw [Specification.allows_call]
  constructor
  · rintro ⟨r', m₁, hcall, hret⟩
    obtain ⟨rfl, rfl⟩ := (h r' m₁).1 hcall
    exact Specification.allows_ret.1 hret
  · rintro ⟨rfl, rfl⟩
    exact ⟨r, m'', (h _ _).2 ⟨rfl, rfl⟩, Specification.allows_ret.2 ⟨rfl, rfl⟩⟩

theorem yields_put (key value : Bytes) (m : Engine) :
    Yields (Bindings.put key value) m (.ok true) (m.put key value) :=
  yields_call (.put key value) Bindings.raised (.returned true) fun _ _ => Iff.rfl

theorem yields_delete (key : Bytes) (m : Engine) : Yields (Bindings.delete key) m (.ok true) (m.delete key) :=
  yields_call (.delete key) Bindings.raised (.returned true) fun _ _ => Iff.rfl

theorem yields_prefixScan (pre : Bytes) (m : Engine) :
    Yields (Bindings.prefixScan pre 0) m (.ok (m.prefixScan pre)) m :=
  yields_call (.prefixScan pre 0) (Except.mapError fun _ => PyError.other) (.ok (m.prefixScan pre))
  fun _ _ => Iff.rfl

theorem yields_reopen (memtableCapacity : UInt64) (m : Engine) :
    Yields (Bindings.reopen memtableCapacity) m (.ok true) m :=
  yields_call (.reopen memtableCapacity 4) Bindings.raised (.returned true) fun _ _ => Iff.rfl

/-! ## Methods -/

variable {α β : Type} {client : Client api (Except PyError α)} {next : α → Client api (Except PyError β)}

theorem yields_andThen {a : α} {r : Except PyError β} (h : Yields client m (.ok a) m₁)
    (hn : Yields (next a) m₁ r m') :
    Yields (andThen client next) m r m' := h.bind hn

theorem yields_raised {err : PyError} (h : Yields client m (.error err) m₁) :
    Yields (andThen client next) m (.error err) m₁ := h.bind (yields_pure _ _)

section

open ChatHistory

variable [EmptyCollection δ]

theorem yields_appendMessage (json : MessageJson τ δ) (sessionId role content : Bytes) (metadata : Option δ)
    (now : τ) (m : Engine) : Yields (appendMessage json sessionId role content metadata now) m
      (ChatHistory.appendMessage json sessionId role content metadata now m).1
      (ChatHistory.appendMessage json sessionId role content metadata now m).2 := by
  unfold appendMessage ChatHistory.appendMessage
  refine (yields_get _ m).bind ?_
  cases nextTurn (m.get (metaKey sessionId)) with
  | error err => exact yields_pure _ m
  | ok turnIndex =>
    simp only
    cases json.dumps ⟨role, content, now, metadata.getD ∅⟩ with
    | error err => exact yields_pure _ m
    | ok payload => exact yields_andThen (yields_put _ _ m) (yields_andThen (yields_put _ _ _) (yields_pure _ _))

theorem yields_getHistory (json : MessageJson τ δ) (sessionId : Bytes) (lastN : Option ℤ) (m : Engine) :
    Yields (getHistory json sessionId lastN) m (ChatHistory.getHistory json sessionId lastN m) m :=
  yields_andThen (yields_prefixScan _ m) (yields_pure _ m)

theorem yields_deleteAll (keys : List Bytes) :
    ∀ m : Engine, Yields (deleteAll keys) m (.ok ()) (m.deleteAll keys) := by
  induction keys with
  | nil => exact yields_pure _
  | cons key keys ih => exact fun m => yields_andThen (yields_delete key m) (ih _)

theorem yields_clearSession (sessionId : Bytes) (m : Engine) :
    Yields (clearSession sessionId) m (.ok ()) (ChatHistory.clearSession sessionId m) :=
  yields_andThen (yields_prefixScan _ m) (yields_andThen (yields_deleteAll _ m)
    (yields_andThen (yields_delete _ _) (yields_pure _ _)))

end

section

open MemoryStore

theorem yields_putChunk (dumps : MemoryChunk ν μ → Except PyError Bytes) (chunk : MemoryChunk ν μ) (m : Engine) :
    Yields (putChunk dumps chunk) m (MemoryStore.putChunk dumps .stored chunk m).1
      (MemoryStore.putChunk dumps .stored chunk m).2 := by
  unfold putChunk MemoryStore.putChunk
  cases dumps chunk with
  | error err => exact yields_pure _ m
  | ok payload => exact yields_andThen (yields_put _ _ m) (yields_pure _ _)

theorem yields_getChunk [EmptyCollection μ] (json : ChunkJson ν μ) (docId : Bytes) (chunkId : ℤ) (m : Engine) :
    Yields (getChunk json docId chunkId) m (MemoryStore.getChunk json docId chunkId m) m := by
  unfold getChunk MemoryStore.getChunk
  refine (yields_get _ m).bind ?_
  cases m.get (chunkKey docId chunkId) <;> exact yields_pure _ m

theorem yields_deleteChunk (docId : Bytes) (chunkId : ℤ) (m : Engine) :
    Yields (deleteChunk docId chunkId) m (.ok ()) (MemoryStore.deleteChunk docId chunkId m) :=
  yields_andThen (yields_delete _ m) (yields_pure _ _)

end

section

open VectorStore

variable [EmptyCollection μ]

omit [EmptyCollection μ] in
theorem yields_newVectorStore (json : VectorJson ν φ μ) (dim : ℤ) (m : Engine) :
    Yields (newVectorStore json dim) m (VectorStore.new json dim m) m := by
  unfold newVectorStore VectorStore.new
  refine yields_andThen (yields_prefixScan _ m) ?_
  cases (m.prefixScan (bytes "vec:")).foldlM (rehydrateItem json)
    ((VectorIndex.empty : VectorIndex φ dim), -1) with
  | error err => exact yields_pure _ m
  | ok st => exact (yields_get _ m).bind (yields_pure _ m)

theorem yields_add (json : VectorJson ν φ μ) (c : AddCall ν μ) (vs : VectorStore φ) (m : Engine) :
    Yields (add json c vs) m ((vs.add json ⟨.stored, .stored⟩ c m).1, (vs.add json ⟨.stored, .stored⟩ c m).2.1)
      (vs.add json ⟨.stored, .stored⟩ c m).2.2 := by
  unfold add VectorStore.add
  rcases vs.prepare json c with ⟨err | payload, vs'⟩
  · exact yields_pure _ m
  · exact (yields_andThen (yields_put _ _ m) (yields_andThen (yields_put _ _ _) (yields_pure _ _))).bind
      (yields_pure _ _)

theorem yields_readMatches {json : VectorJson ν φ μ} (payloads : PayloadJson json) (ms : List (ℤ × φ))
    (m : Engine) :
    Yields (readMatches payloads ms) m (ms.mapM (readMatch payloads m)) m := by
  induction ms with
  | nil => exact yields_pure _ m
  | cons x ms ih =>
    unfold readMatches
    rw [List.mapM_cons, readMatch]
    refine (yields_get _ m).bind ?_
    cases readPayload payloads x.2 (m.get (vecKey x.1)) with
    | error err => exact yields_pure _ m
    | ok found =>
      cases hrest : ms.mapM (readMatch payloads m) with
      | error err =>
        rw [hrest] at ih
        exact yields_raised ih
      | ok rest =>
        rw [hrest] at ih
        exact yields_andThen ih (yields_pure _ m)

theorem yields_search (fl : Floats φ) (metric : Bytes) {json : VectorJson ν φ μ} (payloads : PayloadJson json)
    (queryVector : List ν) (topK : ℤ) (vs : VectorStore φ) (m : Engine) :
    Yields (search fl metric payloads queryVector topK vs) m
      (vs.search fl metric payloads queryVector topK m) m := by
  unfold search VectorStore.search
  split
  · exact yields_pure _ m
  · split
    · exact yields_pure _ m
    · cases vs.index.search fl json.float metric queryVector topK with
      | error err => exact yields_pure _ m
      | ok found =>
        have hread := yields_readMatches payloads found m
        simp only [bind, Except.bind]
        cases hresult : found.mapM (readMatch payloads m) with
        | error err =>
          rw [hresult] at hread
          exact yields_raised hread
        | ok read =>
          rw [hresult] at hread
          exact yields_andThen hread (yields_pure _ m)

end

section

open MemoryManager

variable [EmptyCollection μ] [EmptyCollection δ]

theorem yields_remember (mm : Backend ν φ μ) (c : RememberCall μ) (vs : VectorStore φ) (m : Engine) :
    Yields (remember mm c vs) m
      ((MemoryManager.remember mm ⟨.stored, ⟨.stored, .stored⟩⟩ c vs m).1,
        (MemoryManager.remember mm ⟨.stored, ⟨.stored, .stored⟩⟩ c vs m).2.1)
      (MemoryManager.remember mm ⟨.stored, ⟨.stored, .stored⟩⟩ c vs m).2.2 := by
  unfold remember MemoryManager.remember
  cases embed mm c.text with
  | error err => exact yields_pure _ m
  | ok embedding =>
    have hput := yields_putChunk mm.dumpsChunk (c.chunk embedding) m
    simp only
    generalize MemoryStore.putChunk mm.dumpsChunk .stored (c.chunk embedding) m = r at hput
    obtain ⟨err | u, m₁⟩ := r
    · exact hput.bind (yields_pure _ m₁)
    · exact hput.bind (yields_add mm.json _ vs m₁)

omit [EmptyCollection μ] in
theorem yields_recentMessages (json : MessageJson τ δ) (sessionId : Option Bytes) (lastNTurns : ℤ) (m : Engine) :
    Yields
      (match sessionId with
        | none => pure (.ok [])
        | some s => if s = [] then pure (.ok []) else getHistory json s (some lastNTurns)) m
      (recentMessages json sessionId lastNTurns m) m := by
  unfold recentMessages
  cases sessionId with
  | none => exact yields_pure _ m
  | some s =>
    simp only
    split
    · exact yields_pure _ m
    · exact yields_getHistory json s _ m

theorem yields_hybridRecall (mm : Agent ν φ μ τ δ) (query : Bytes) (sessionId : Option Bytes)
    (topKFacts lastNTurns : ℤ) (vs : VectorStore φ) (m : Engine) :
    Yields (hybridRecall mm query sessionId topKFacts lastNTurns vs) m
      (MemoryManager.recall mm query sessionId topKFacts lastNTurns vs m) m := by
  unfold hybridRecall MemoryManager.recall
  cases embed mm.backend query with
  | error err => exact yields_pure _ m
  | ok queryVec =>
    have hsearch := yields_search mm.floats (bytes "cos") mm.payloads queryVec topKFacts vs m
    have hmessages := yields_recentMessages mm.messages sessionId lastNTurns m
    simp only [bind, Except.bind]
    cases hhits : vs.search mm.floats (bytes "cos") mm.payloads queryVec topKFacts m with
    | error err =>
      rw [hhits] at hsearch
      exact yields_raised hsearch
    | ok hits =>
      rw [hhits] at hsearch
      refine yields_andThen hsearch ?_
      cases hrecent : recentMessages mm.messages sessionId lastNTurns m with
      | error err =>
        rw [hrecent] at hmessages
        exact yields_raised hmessages
      | ok messages =>
        rw [hrecent] at hmessages
        exact yields_andThen hmessages (yields_pure _ m)

/-- **Each call of the manager** does on a map, as a client, what `onMap` says. -/
theorem yields_manager (mm : Agent ν φ μ τ δ) (json : ChunkJson ν μ) (dim : ℤ) (vs : VectorStore φ) (m : Engine)
    (c : Call μ τ δ) : Yields (manager mm json dim vs c) m
      ((onMap mm json dim (vs, m) c).1, (onMap mm json dim (vs, m) c).2.1) (onMap mm json dim (vs, m) c).2.2 := by
  cases c with
  | remember c => exact yields_remember mm.backend c vs m
  | addChatTurn c =>
    exact (yields_appendMessage mm.messages c.session c.role c.content c.metadata c.now m).bind (yields_pure _ _)
  | getChatHistory sessionId lastN =>
    exact (yields_getHistory mm.messages sessionId lastN m).bind (yields_pure _ _)
  | clearSession sessionId => exact (yields_clearSession sessionId m).bind (yields_pure _ _)
  | getChunk docId chunkId => exact (yields_getChunk json docId chunkId m).bind (yields_pure _ _)
  | deleteChunk docId chunkId => exact (yields_deleteChunk docId chunkId m).bind (yields_pure _ _)
  | hybridRecall query sessionId topKFacts lastNTurns =>
    exact (yields_hybridRecall mm query sessionId topKFacts lastNTurns vs m).bind (yields_pure _ _)
  | reopen memtableCapacity =>
    have hnew : Yields (andThen (Bindings.reopen memtableCapacity) fun _ => newVectorStore mm.backend.json dim) m
        (VectorStore.new mm.backend.json dim m) m :=
      yields_andThen (yields_reopen memtableCapacity m) (yields_newVectorStore mm.backend.json dim m)
    cases hresult : VectorStore.new mm.backend.json dim m with
    | error err =>
      have hmap : onMap mm json dim (vs, m) (.reopen memtableCapacity) = (.error err, vs, m) := by
        simp only [onMap, hresult]
      rw [hmap]
      rw [hresult] at hnew
      exact hnew.bind (yields_pure _ m)
    | ok vs' =>
      have hmap : onMap mm json dim (vs, m) (.reopen memtableCapacity) = (.ok (), vs', m) := by
        simp only [onMap, hresult]
      rw [hmap]
      rw [hresult] at hnew
      exact hnew.bind (yields_pure _ m)

variable {hash : Bytes → UInt64} {heaps : Heaps} {clock : System → Int64} {config : Config} {e : StorageEngine}
  {w : World}

/-- What the calls of the manager need of the engine. -/
def Call.Good (hash : Bytes → UInt64) (heaps : Heaps) (clock : System → Int64) (mm : Agent ν φ μ τ δ)
    (json : ChunkJson ν μ) (dim : ℤ) (s : VectorStore φ × System) (c : (calls ν φ μ τ δ).Call) : Prop :=
  (System.machine hash heaps clock).Meets (ApiCall.Good hash clock) (manager mm json dim s.1 c) s.2

/-- As `ApiCall.Untied`, of all the calls of the engine. -/
def Call.Untied (hash : Bytes → UInt64) (heaps : Heaps) (clock : System → Int64) (mm : Agent ν φ μ τ δ)
    (json : ChunkJson ν μ) (dim : ℤ) (s : VectorStore φ × System) (c : (calls ν φ μ τ δ).Call) : Prop :=
  (System.machine hash heaps clock).Meets (ApiCall.Untied hash clock) (manager mm json dim s.1 c) s.2

instance (mm : Agent ν φ μ τ δ) (json : ChunkJson ν μ) (dim : ℤ) (s : VectorStore φ × System)
    (c : (calls ν φ μ τ δ).Call) : Decidable (Call.Untied hash heaps clock mm json dim s c) :=
  inferInstanceAs (Decidable (Machine.Meets _ _ _ _))

theorem Call.Untied.good {mm : Agent ν φ μ τ δ} {json : ChunkJson ν μ} {dim : ℤ} {s : VectorStore φ × System}
    {c : (calls ν φ μ τ δ).Call} (h : Call.Untied hash heaps clock mm json dim s c) :
    Call.Good hash heaps clock mm json dim s c := Machine.Meets.mono (fun _ _ h => h.good) h

/-- **The layer on the engine simulates the layer on a map.** -/
theorem manager_simulates (mm : Agent ν φ μ τ δ) (json : ChunkJson ν μ) (dim : ℤ) :
    Simulates ((manager mm json dim).on (System.machine hash heaps clock))
      (Specification.exactly (onMap mm json dim))
      (Call.Good hash heaps clock mm json dim) fun s t => s.1 = t.1 ∧ Represents hash s.2 t.2 := by
  refine Simulates.handler (represents_simulates hash heaps clock) fun {x m c r x' m'} h => ?_
  obtain ⟨hr, hm⟩ := (yields_manager mm json dim x m c _ _).1 h
  obtain ⟨rfl, rfl⟩ := Prod.mk.inj hr
  rw [hm]
  rfl

/-- **Every program gets from the layer on the engine what it gets from the layer on a map.** -/
theorem ltm_refines (mm : Agent ν φ μ τ δ) (json : ChunkJson ν μ) (dim : ℤ) (hdir : newline ∉ config.dbDir)
    (hp : config.walPath ≠ []) (hopen : StorageEngine.new config .ok (World.ofDisk Disk.empty) = (.ok e, w))
    {α : Type} (program : Client (calls ν φ μ τ δ) α)
    (hmeets : ((manager mm json dim).on (System.machine hash heaps clock)).Meets
      (Call.Good hash heaps clock mm json dim) program (⟨dim, .empty, 0⟩, ⟨e, w⟩)) :
    ∃ m, Represents hash (((manager mm json dim).on (System.machine hash heaps clock)).run program
        (⟨dim, .empty, 0⟩, ⟨e, w⟩)).2.2 m ∧
      (onMap mm json dim).run program (⟨dim, .empty, 0⟩, .empty) =
        ((((manager mm json dim).on (System.machine hash heaps clock)).run program (⟨dim, .empty, 0⟩, ⟨e, w⟩)).1,
          (((manager mm json dim).on (System.machine hash heaps clock)).run program
            (⟨dim, .empty, 0⟩, ⟨e, w⟩)).2.1, m) := by
  obtain ⟨⟨vs, m⟩, hallows, hvs, hrep⟩ := (manager_simulates mm json dim).run
    (s := (⟨dim, .empty, 0⟩, ⟨e, w⟩)) (t := (⟨dim, .empty, 0⟩, .empty))
      ⟨rfl, represents_fresh hash hdir hp hopen⟩ hmeets
  refine ⟨m, hrep, ?_⟩
  rw [← Specification.allows_exactly.1 hallows, hvs]

/-- The manager of `skyAgent` on an engine. -/
abbrev skyMachine : Machine (calls ℤ ℤ (List Bytes) Unit (List Bytes)) (VectorStore ℤ × System) :=
  (manager skyAgent skyTable.chunks 1).on (System.machine (fun _ => 0) firstInHeaps fun _ => 0)

/-- A document and a message, which fill the memtable; the manager is opened again and remembers a
second document. -/
def skyProgram : Client (calls ℤ ℤ (List Bytes) Unit (List Bytes)) (Except PyError ℤ) :=
  .call (.remember ⟨bytes "sky", some (bytes "a"), none, []⟩) fun _ =>
    .call (.addChatTurn ⟨bytes "s", bytes "user", bytes "hello", none, ()⟩) fun _ => .call (.reopen 700) fun _ =>
      .call (.remember ⟨bytes "sea", some (bytes "b"), none, []⟩) .ret

theorem ltm_refines_sky : ((onMap skyAgent skyTable.chunks 1).run skyProgram (⟨1, .empty, 0⟩, .empty)).1 =
    (skyMachine.run skyProgram (⟨1, .empty, 0⟩, ⟨loggedEngine 700 4, loggedDisk⟩)).1 := by
  have hopen : StorageEngine.new (loggedEngine 700 4).config .ok (World.ofDisk Disk.empty) =
      (.ok (loggedEngine 700 4), loggedDisk) := rfl
  have huntied : skyMachine.Meets (Call.Untied (fun _ => 0) firstInHeaps (fun _ => 0) skyAgent skyTable.chunks 1)
      skyProgram (⟨1, .empty, 0⟩, ⟨loggedEngine 700 4, loggedDisk⟩) := by decide +kernel
  obtain ⟨m, -, hrun⟩ := ltm_refines skyAgent skyTable.chunks 1 (by decide) (by decide) hopen skyProgram
    (Machine.Meets.mono (fun _ _ h => h.good) huntied)
  rw [hrun]

/-! ## What an agent recalls -/

/-- The call that writes, or opens the manager again. -/
def Call.write : Call μ τ δ → Option (ManagerCall μ τ δ)
  | .remember c => some (.remember c)
  | .addChatTurn c => some (.addChatTurn c)
  | .clearSession sessionId => some (.clearSession sessionId)
  | .deleteChunk docId chunkId => some (.deleteChunk docId chunkId)
  | .reopen _ => some .reopen
  | _ => none

theorem onMap_step (mm : Agent ν φ μ τ δ) (json : ChunkJson ν μ) (dim : ℤ) (st : VectorStore φ × Engine)
    (c : Call μ τ δ) : (onMap mm json dim st c).2 = c.write.elim st (ManagerCall.run mm dim st) := by
  cases c with
  | reopen memtableCapacity =>
    obtain ⟨vs, m⟩ := st
    cases hnew : VectorStore.new mm.backend.json dim m <;> simp [onMap, Call.write, ManagerCall.run, hnew]
  | _ => rfl

/-- **A program on a map** leaves what its writes do. -/
theorem onMap_state (mm : Agent ν φ μ τ δ) (json : ChunkJson ν μ) (dim : ℤ) {α : Type}
    (program : Client (calls ν φ μ τ δ) α) :
    ((onMap mm json dim).run program (⟨dim, .empty, 0⟩, .empty)).2 =
      runManager mm dim (((onMap mm json dim).made program (⟨dim, .empty, 0⟩, .empty)).filterMap Call.write) := by
  rw [Machine.state_run, runManager, List.foldl_filterMap]
  congr 1
  funext st c
  rw [onMap_step]
  cases c.write <;> rfl

/-- The program, and a last `recall`. -/
def thenRecall {α : Type} (program : Client (calls ν φ μ τ δ) α) (query : Bytes) (sessionId : Option Bytes)
    (topK lastN : ℤ) : Client (calls ν φ μ τ δ) (Except PyError (Recalled φ μ τ)) :=
  program.bind fun _ => .call (.hybridRecall query sessionId topK lastN) .ret

/-- **An agent recalls the best of what it remembered** in its program, and the last turns of the
session, through flushes, compactions and restarts of the engine. -/
theorem agent_recalls {mm : Agent ν φ μ τ δ} {json : ChunkJson ν μ} {dim : ℤ} (hagree : DumpsAgree mm.backend json)
    (hdir : newline ∉ config.dbDir) (hp : config.walPath ≠ [])
    (hopen : StorageEngine.new config .ok (World.ofDisk Disk.empty) = (.ok e, w)) {α : Type}
    (program : Client (calls ν φ μ τ δ) α) {query : Bytes} (sessionId : Option Bytes) (topK lastN : ℤ)
    (hmeets : ((manager mm json dim).on (System.machine hash heaps clock)).Meets
      (Call.Good hash heaps clock mm json dim)
      (thenRecall program query sessionId topK lastN) (⟨dim, .empty, 0⟩, ⟨e, w⟩))
    {past : List (ManagerCall μ τ δ)}
    (hpast : (((manager mm json dim).on (System.machine hash heaps clock)).made program
      (⟨dim, .empty, 0⟩, ⟨e, w⟩)).filterMap Call.write = past)
    (hfew : past.length ≤ 10 ^ 8) {queryVec : List ν} {q : List φ}
    (hembed : embed mm.backend query = .ok queryVec) (hq : queryVec.mapM mm.backend.json.float = .ok q)
    (hdim : (queryVec.length : ℤ) = dim)
    (hcmp : ∀ ts, scored mm.floats q (remembered mm dim past) = .ok ts → mm.floats.Compares Prod.snd ts) :
    (((manager mm json dim).on (System.machine hash heaps clock)).run
      (thenRecall program query sessionId topK lastN)
      (⟨dim, .empty, 0⟩, ⟨e, w⟩)).1 = (do
        let hits ← best mm.floats mm.payloads.restored q topK (remembered mm dim past)
        let messages ← recentMessages mm.messages sessionId lastN
          (ChatHistory.callAll mm.messages (past.filterMap ManagerCall.chat))
        pure (recalled mm.capitalize query hits messages)) := by
  have hsim : Simulates ((manager mm json dim).on (System.machine hash heaps clock))
      (Specification.exactly (onMap mm json dim)) (Call.Good hash heaps clock mm json dim)
      fun s t => s.1 = t.1 ∧ Represents hash s.2 t.2 := manager_simulates mm json dim
  have hstart : (⟨dim, .empty, 0⟩ : VectorStore φ) = ⟨dim, .empty, 0⟩ ∧ Represents hash ⟨e, w⟩ OrderedMap.empty :=
    ⟨rfl, represents_fresh hash hdir hp hopen⟩
  obtain ⟨t', hallows, -⟩ := hsim.run (s := (⟨dim, .empty, 0⟩, ⟨e, w⟩))
    (t := (⟨dim, .empty, 0⟩, .empty)) hstart hmeets
  have hrun := (Prod.mk.inj (Specification.allows_exactly.1 hallows)).1
  have hlast : (onMap mm json dim).run (thenRecall program query sessionId topK lastN) (⟨dim, .empty, 0⟩, .empty) =
      onMap mm json dim ((onMap mm json dim).run program (⟨dim, .empty, 0⟩, .empty)).2
        (.hybridRecall query sessionId topK lastN) := Machine.run_bind _
  -- the map is asked what the engine is asked
  rw [hsim.made (t := (⟨dim, .empty, 0⟩, .empty)) hstart hmeets.of_bind] at hpast
  rw [hlast, onMap_state, hpast] at hrun
  refine hrun.trans ?_
  exact (holds_runManager hagree dim past hfew).recall (chats_runManager mm dim past) hembed hq hdim hcmp
    sessionId topK lastN

theorem agent_recalls_sky :
    (skyMachine.run (thenRecall skyProgram (bytes "?") (some (bytes "s")) 2 5)
      (⟨1, .empty, 0⟩, ⟨loggedEngine 700 4, loggedDisk⟩)).1 =
    .ok ⟨bytes "?", [⟨bytes "sky", 1, []⟩, ⟨bytes "sea", -1, []⟩], [⟨bytes "user", bytes "hello", ()⟩],
      bytes "### Relevant Knowledge:\n- sky\n- sea\n\n### Conversation History:\nUser: hello"⟩ := by
  have hopen : StorageEngine.new (loggedEngine 700 4).config .ok (World.ofDisk Disk.empty) =
      (.ok (loggedEngine 700 4), loggedDisk) := rfl
  have huntied : skyMachine.Meets (Call.Untied (fun _ => 0) firstInHeaps (fun _ => 0) skyAgent skyTable.chunks 1)
      (thenRecall skyProgram (bytes "?") (some (bytes "s")) 2 5)
      (⟨1, .empty, 0⟩, ⟨loggedEngine 700 4, loggedDisk⟩) := by decide +kernel
  have hpast :
      (skyMachine.made skyProgram (⟨1, .empty, 0⟩, ⟨loggedEngine 700 4, loggedDisk⟩)).filterMap Call.write =
      [.remember ⟨bytes "sky", some (bytes "a"), none, []⟩,
        .addChatTurn ⟨bytes "s", bytes "user", bytes "hello", none, ()⟩, .reopen,
        .remember ⟨bytes "sea", some (bytes "b"), none, []⟩] := rfl
  have hq : embed skyAgent.backend (bytes "?") = .ok [5] := by decide +kernel
  refine (agent_recalls (q := [5]) sky_dumpsAgree (by decide) (by decide) hopen skyProgram (some (bytes "s")) 2 5
    (Machine.Meets.mono (fun _ _ h => h.good) huntied) hpast (by decide) hq rfl (by decide)
    fun ts _ => VectorStore.compares_whole Prod.snd ts).trans ?_
  decide +kernel

end

end Ltm

end LsmTree
