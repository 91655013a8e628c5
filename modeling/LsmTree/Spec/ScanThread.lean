import LsmTree.Spec.Engine

/-!
# A scan next to other threads (`engine.cpp`, `python_bindings.cpp`)

`NewIterator` builds the iterator under the mutex. The calls of `Valid`, `Key`, `Value`
and `Next` that `Scan` and `PrefixScan` make after that are not under the mutex, and
calls of other threads come between them.

Memtables are named by the number of flushes that began before they were made, so that
it can be told whether the one an iterator was made from is still there.
-/

namespace LsmTree

open Base

/-- A call of another thread. -/
inductive EngineCall where
  | put (key value : Bytes) (now : Int64) (append : WAL.AppendIO) (io : FlushIO)
  | delete (key : Bytes) (now : Int64) (append : WAL.AppendIO)
  | flushMemTable (io : FlushIO)
  | triggerCompaction (io : CompactionIO)
  | close (io : FlushIO)

def EngineCall.op : EngineCall → Op
  | .put key value now append io => .put key value now append io
  | .delete key now append => .delete key now append
  | .flushMemTable io => .flushMemTable io
  | .triggerCompaction io => .triggerCompaction io
  | .close io => .close io

inductive ScanCall where
  | scan (startKey endKey : Bytes) (limit : ℕ)
  | prefixScan (pre : Bytes) (limit : ℕ)

namespace ScanCall

def startKey : ScanCall → Bytes
  | .scan startKey _ _ => startKey
  | .prefixScan pre _ => pre

def endKey : ScanCall → Bytes
  | .scan _ endKey _ => endKey
  | .prefixScan _ _ => []

def limit : ScanCall → ℕ
  | .scan _ _ limit => limit
  | .prefixScan _ limit => limit

/-- `key.rfind(prefix, 0) != 0` -/
def leaves : ScanCall → Bytes → Bool
  | .scan _ _ _, _ => false
  | .prefixScan pre _, key => !pre.isPrefixOf key

end ScanCall

/-- The call of the iterator that the loop makes next. -/
inductive ScanPc where
  | valid
  | key
  | value (key : Bytes)
  | next

variable (hash : Bytes → UInt64) (heaps : Heaps)

/-- The thread in the loop of `Scan` or `PrefixScan`. -/
structure Scanner where
  call : ScanCall
  it : DBIterator heaps.scan
  /-- the memtables that the iterator was made from -/
  refs : MemSlot → Option ℕ
  pc : ScanPc
  results : List (Bytes × Bytes)

variable {heaps} in
/-- One call of the iterator, and the loop up to the next; `none` when it ends. -/
def Scanner.iterate (lists : MemSlot → SkipList) (t : Scanner heaps) : Option (Scanner heaps) :=
  match t.pc with
  | .valid =>
    if !t.it.valid then none
    else if 0 < t.call.limit && t.call.limit ≤ t.results.length then none
    else some { t with pc := .key }
  | .key => if t.call.leaves t.it.currentKey then none else some { t with pc := .value t.it.currentKey }
  | .value key => some { t with results := t.results ++ [(key, t.it.currentValue)], pc := .next }
  | .next => some { t with it := t.it.next lists, pc := .valid }

/-- The engine, its files and the thread that scans. -/
structure Threads where
  sys : System
  /-- the name of the active memtable; the immutable one has the name before -/
  name : ℕ
  scanner : Option (Scanner heaps)
  /-- A flush has dropped its memtable since the iterator was built. No step depends on it. -/
  dropped : Bool

/-- The call moves the active memtable to the immutable slot, to write it to a table. -/
def EngineCall.moves (s : System) : EngineCall → Bool
  | .put key value now append _ =>
    match s.engine.active with
    | none => false
    | some m =>
      match m.put key value now append s.world with
      | (ok, m, _) => ok && s.engine.config.writeBufferSize ≤ m.approxMemoryUsage && !m.empty
  | .flushMemTable _ | .close _ => s.engine.active.any fun m => !m.empty
  | .delete _ _ _ | .triggerCompaction _ => false

inductive Event where
  /-- another thread's call -/
  | call (c : EngineCall)
  /-- the scanning thread calls `Scan` or `PrefixScan`, and builds the iterator -/
  | build (c : ScanCall)
  /-- its next call of the iterator -/
  | iterate

namespace Threads

variable {heaps}

/-- The skip list of the memtable with this name, if the engine owns it. -/
def owned (st : Threads heaps) (n : ℕ) : Option SkipList :=
  if n = st.name then st.sys.engine.active.map MemTable.list
  else if n + 1 = st.name then st.sys.engine.immutable.map MemTable.list
  else none

/-- Every memtable that the iterator refers to is owned by the engine. -/
def OwnsRefs (st : Threads heaps) (t : Scanner heaps) : Prop :=
  ∀ slot n, t.refs slot = some n → (st.owned n).isSome

instance (st : Threads heaps) (t : Scanner heaps) : Decidable (st.OwnsRefs t) :=
  decidable_of_iff ((∀ n ∈ t.refs .active, (st.owned n).isSome) ∧ ∀ n ∈ t.refs .immutable, (st.owned n).isSome)
    ⟨fun h slot n hn => by
      cases slot with
      | active => exact h.1 n hn
      | immutable => exact h.2 n hn, fun h => ⟨fun n hn => h .active n hn, fun n hn => h .immutable n hn⟩⟩

/-- The skip lists behind the iterator's slots. -/
def lists (st : Threads heaps) (t : Scanner heaps) (slot : MemSlot) : SkipList :=
  ((t.refs slot).bind st.owned).getD .new

/-- The iterator of the scanning thread goes one call further. Nothing is said of a `Next`
over a released memtable. -/
def stepIterate (st : Threads heaps) : Option (Threads heaps) :=
  match st.scanner with
  | none => some st
  | some t =>
    match t.pc with
    | .next => if st.OwnsRefs t then some { st with scanner := t.iterate (st.lists t) } else none
    | _ => some { st with scanner := t.iterate (st.lists t) }

def stepBuild (c : ScanCall) (st : Threads heaps) : Threads heaps :=
  match st.scanner with
  | some _ => st
  | none =>
    match st.sys.engine.newIterator heaps c.startKey c.endKey st.sys.world.disk with
    -- the exception leaves `Scan`
    | .error _ => st
    | .ok it =>
      let refs : MemSlot → Option ℕ
        | .active => if st.sys.engine.active.isSome then some st.name else none
        | .immutable => if st.sys.engine.immutable.isSome then some (st.name - 1) else none
      { st with scanner := some ⟨c, it, refs, .valid, []⟩, dropped := false }

def stepCall (c : EngineCall) (st : Threads heaps) : Option (Threads heaps) :=
  match st.sys.step hash heaps c.op with
  | (.undefined, _) => none
  | (_, sys) =>
    let moved := c.moves st.sys
    some { st with
      sys := sys
      name := if moved then st.name + 1 else st.name
      dropped := st.dropped || (moved && sys.engine.immutable.isNone) }

/-- One step; `none` where the behaviour is undefined. -/
def step (st : Threads heaps) : Event → Option (Threads heaps)
  | .call c => stepCall hash c st
  | .build c => some (stepBuild c st)
  | .iterate => stepIterate st

def run (events : List Event) (st : Threads heaps) : Option (Threads heaps) := events.foldlM (step hash) st

end Threads

end LsmTree
