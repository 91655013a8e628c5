import LsmTree.Spec.MemTable
import LsmTree.Spec.Compactor

/-!
# The range iterator (`db_iterator.cpp`)

A merge of memtable and table iterators that skips deleted keys. A memtable iterator
reads the skip list as it is at that moment, so the functions take the present lists.
-/

namespace LsmTree

open Base

/-- The slot a memtable iterator was made from. -/
inductive MemSlot where
  | active
  | immutable
  deriving DecidableEq, Repr

structure DBIteratorSource where
  generationId : ℕ
  memIter : Option (MemSlot × SkipList.Iterator)
  sstIter : Option SSTableIterator

namespace DBIteratorSource

/-- `while (sst_iter->Valid() && sst_iter->Key() < target) sst_iter->Next();` -/
def skipTo (target : Bytes) : ℕ → SSTableIterator → SSTableIterator
  | 0, it => it
  | fuel + 1, it => if it.valid && it.key < target then skipTo target fuel it.next else it

section

variable (lists : MemSlot → SkipList) (s : DBIteratorSource)

def valid : Bool :=
  match s.memIter, s.sstIter with
  | some (_, it), _ => it.valid
  | none, some it => it.valid
  | none, none => false

def seekToFirst : DBIteratorSource :=
  { s with
    memIter := s.memIter.map fun (slot, _) => (slot, .seekToFirst (lists slot))
    sstIter := s.sstIter.map .seekToFirst }

def seek (target : Bytes) : DBIteratorSource :=
  match s.memIter with
  | some (slot, _) => { s with memIter := some (slot, .seek (lists slot) target) }
  | none =>
    { s with
      sstIter := s.sstIter.map fun it => skipTo target (it.file.data.length + 1) it.seekToFirst }

def next : DBIteratorSource :=
  { s with
    memIter := s.memIter.map fun (slot, it) => (slot, it.next (lists slot))
    sstIter := s.sstIter.map .next }

def key : Bytes :=
  match s.memIter, s.sstIter with
  | some (_, it), _ => it.node.getD []
  | none, some it => it.key
  | none, none => []

/-- The entry of the memtable node, or the table record, as value and deletion flag. -/
def valueAndDeleted : Bytes × Bool :=
  match s.memIter, s.sstIter with
  | some (slot, it), _ =>
    match it.entry (lists slot) with
    | some entry => (entry.value, entry.type = .kTypeDeletion)
    | none => ([], false)
  | none, some it => (it.value, it.isDeleted)
  | none, none => ([], false)

/-- More than the records a source can hold. -/
def size : ℕ :=
  match s.memIter, s.sstIter with
  | some (slot, _), _ => (lists slot).chain.length
  | none, some it => it.file.data.length + 1
  | none, none => 0

end

end DBIteratorSource

namespace DBIterator

structure HeapNode where
  key : Bytes
  generationId : ℕ
  sourceIdx : ℕ
  deriving DecidableEq, Repr

/-- `HeapNode::operator>` is `order.gt`. -/
def order : NodeOrder Bytes HeapNode := ⟨HeapNode.key, HeapNode.generationId, HeapNode.sourceIdx⟩

def sourceNode (i : ℕ) (s : DBIteratorSource) : Option HeapNode :=
  if s.valid then some ⟨s.key, s.generationId, i⟩ else none

def sources (lists : MemSlot → SkipList) : Sources HeapNode DBIteratorSource (Bytes × Bool) :=
  ⟨sourceNode, DBIteratorSource.valueAndDeleted lists, DBIteratorSource.next lists⟩

end DBIterator

structure DBIterator (pq : PriorityQueue DBIterator.HeapNode DBIterator.order.gt) where
  startKey : Bytes
  endKey : Bytes
  state : MergeState pq DBIteratorSource
  currentKey : Bytes
  currentValue : Bytes
  valid : Bool

namespace DBIterator

variable {pq : PriorityQueue HeapNode order.gt}

def invalidate (it : DBIterator pq) : DBIterator pq :=
  { it with valid := false, currentKey := [], currentValue := [] }

/-- `!end_key_.empty() && key > end_key_` -/
def beyondEnd (it : DBIterator pq) (key : Bytes) : Bool := it.endKey ≠ [] && it.endKey < key

section

variable (lists : MemSlot → SkipList)

/-- The loop of `FindNextAliveKey`. -/
def findNextAliveKeyGo (fuel : ℕ) : ℕ → DBIterator pq → DBIterator pq
  | 0, it => it.invalidate
  | n + 1, it =>
    match Merge.popWinner (sources lists) fuel it.state with
    | none => it.invalidate
    | some (top, candidate, st) =>
      let it := { it with state := st }
      if it.beyondEnd top.key then it.invalidate
      else
        match candidate with
        | some (value, false) => { it with currentKey := top.key, currentValue := value, valid := true }
        | _ => findNextAliveKeyGo fuel n it

/-- More than the rounds the sources can take. -/
def rounds (it : DBIterator pq) : ℕ :=
  (it.state.sources.map (DBIteratorSource.size lists)).sum + it.state.sources.length

def findNextAliveKey (it : DBIterator pq) : DBIterator pq :=
  findNextAliveKeyGo lists (it.rounds lists) (it.rounds lists + 1) it

/-- An empty heap, filled from the sources. -/
def restart (srcs : List DBIteratorSource) (it : DBIterator pq) : DBIterator pq :=
  { it with state := Merge.fill (sources lists) srcs }

def seekToFirst (it : DBIterator pq) : DBIterator pq :=
  findNextAliveKey lists (it.restart lists (it.state.sources.map fun s =>
    if it.startKey ≠ [] then s.seek lists it.startKey else s.seekToFirst lists))

def seek (targetKey : Bytes) (it : DBIterator pq) : DBIterator pq :=
  let seekTarget := if it.startKey ≠ [] ∧ targetKey < it.startKey then it.startKey else targetKey
  if it.beyondEnd seekTarget then { it with state := ⟨it.state.sources, pq.empty⟩ }.invalidate
  else findNextAliveKey lists (it.restart lists (it.state.sources.map fun s => s.seek lists seekTarget))

def next (it : DBIterator pq) : DBIterator pq := if it.valid then it.findNextAliveKey lists else it

/-- `InitSources`: a memtable slot holds an iterator or none. -/
def initSources (active immutable : Bool) (sstableInputs : List CompactorInput) : List DBIteratorSource :=
  (if active then [⟨2 ^ 64 - 1, some (.active, ⟨none⟩), none⟩] else []) ++
    (if immutable then [⟨2 ^ 64 - 2, some (.immutable, ⟨none⟩), none⟩] else []) ++
    sstableInputs.filterMap fun input => input.iterator.map fun it => ⟨input.fileId, none, some it⟩

/-- The constructor with both memtable iterators. -/
def new (active immutable : Bool) (sstableInputs : List CompactorInput) (startKey endKey : Bytes) :
    DBIterator pq :=
  seekToFirst lists
    ⟨startKey, endKey, ⟨initSources active immutable sstableInputs, pq.empty⟩, [], [], false⟩

end

end DBIterator

end LsmTree
