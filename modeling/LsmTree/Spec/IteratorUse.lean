import LsmTree.Spec.ScanThread

/-!
# An iterator between calls of the engine (`engine.cpp`, `db_iterator.cpp`)

One thread calls `NewIterator`, and then `Next` of what it got and calls of the engine
in any order. The state is that of a scanning thread (`Threads`), which makes the calls
of the engine itself.
-/

namespace LsmTree

open Base

/-- The nodes that the memtable iterators stand at. -/
def DBIterator.nodes {pq : PriorityQueue DBIterator.HeapNode DBIterator.order.gt} (it : DBIterator pq) :
    List (MemSlot × Bytes) :=
  it.state.sources.filterMap fun s => s.memIter.bind fun (slot, it) => it.node.map fun key => (slot, key)

/-- What the thread calls next. -/
inductive Use where
  /-- `Next` of the iterator -/
  | next
  | call (c : EngineCall)

variable (hash : Bytes → UInt64) {heaps : Heaps}

/-- The pairs that the iterator has shown; the one it stands at comes last. -/
def Scanner.shown (t : Scanner heaps) : List (Bytes × Bytes) :=
  t.results ++ if t.it.valid then [(t.it.currentKey, t.it.currentValue)] else []

namespace Threads

/-- The engine owns the memtables that the iterator stands in. -/
def ownsNodes (st : Threads heaps) (t : Scanner heaps) : Bool :=
  t.it.nodes.all fun (slot, _) => (t.refs slot).any fun n => (st.owned n).isSome

/-- `NewIterator`. -/
def newIterator (startKey endKey : Bytes) (st : Threads heaps) : Threads heaps :=
  st.stepBuild (.scan startKey endKey 0)

/-- `Next`. Nothing is said where it would read a released memtable. -/
def useNext (st : Threads heaps) : Option (Threads heaps) :=
  match st.scanner with
  | none => some st
  | some t =>
    if !t.it.valid then some st
    else if st.ownsNodes t then
      some { st with scanner := some { t with it := t.it.next (st.lists t), results := t.shown } }
    else none

def use (st : Threads heaps) : Use → Option (Threads heaps)
  | .next => st.useNext
  | .call c => st.stepCall hash c

def uses (us : List Use) (st : Threads heaps) : Option (Threads heaps) := us.foldlM (use hash) st

end Threads

/-! ## What a call changes -/

namespace EngineCall

/-- The key and value that the call writes to the memtable; a deletion writes no value. -/
def writes (s : System) : EngineCall → Option (Bytes × Option Bytes)
  | .put key value now append _ =>
    match s.engine.active with
    | none => none
    | some m => if (m.put key value now append s.world).1 then some (key, some value) else none
  | .delete key now append =>
    match s.engine.active with
    | none => none
    | some m => if (m.delete key now append s.world).1 then some (key, none) else none
  | .flushMemTable _ | .triggerCompaction _ | .close _ => none

/-- The call flushes the memtable and comes through to dropping it. -/
def drops (heaps : Heaps) (s : System) (c : EngineCall) : Bool :=
  c.moves s && (s.step hash heaps c.op).2.engine.immutable.isNone

end EngineCall

end LsmTree
