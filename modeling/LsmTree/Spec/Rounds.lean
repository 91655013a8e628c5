import LsmTree.Spec.DBIterator
import LsmTree.Base.MergeEnds

/-!
# Loops as the source has them (`sstable_reader.cpp`, `compactor.cpp`, `db_iterator.cpp`)

The loops of the other files of this directory count their rounds down. Here each stands
without a count: a round goes round again or leaves, for as long as it takes, and a call
comes to an end if its loops do.
-/

namespace LsmTree

open Base

namespace SSTableReader

/-! ## Readers -/

/-- What the constructor's loop has: the sparse index so far, the bytes read, the file. -/
structure IndexLoop where
  index : List (Bytes × ℕ)
  bytesRead : ℕ
  file : IfStream

/-- A round of the loop over the sparse index; it is left with `none` where there is no room
for a key. -/
def indexRound (allocates : ℕ → Bool) (indexSize : ℕ) (st : IndexLoop) :
    IndexLoop ⊕ Option (List (Bytes × ℕ)) :=
  if indexSize ≤ st.bytesRead || !st.file.good then .inr (some st.index)
  else
    let (kl, s) := st.file.read 4
    if s.fail then .inr (some st.index)
    else if allocates (ofLE kl) = false then .inr none
    else
      let (key, s) := if 0 < ofLE kl then s.read (ofLE kl) else ([], s)
      let (off, s) := s.read 8
      if s.fail then .inr (some st.index)
      else .inl ⟨st.index ++ [(key, ofLE off)], st.bytesRead + 4 + ofLE kl + 8, s⟩

/-- The constructor comes to an end: it throws a text, or has made a reader. -/
def NewReturns (filepath : Bytes) (content : Option Bytes) (allocates : ℕ → Bool)
    (out : Except Bytes SSTableReader) : Prop :=
  match openTable filepath content with
  | .error what => out = .error what
  | .ok (s, footer) =>
    match BloomFilter.default.deserialize (s.seekg footer.filterOffset) allocates with
    | .error what => out = .error what
    | .ok (bloom, s) =>
      ∃ index, Loop.Ends (Loop.ofFun (indexRound allocates footer.indexSize))
          ⟨[], 0, s.seekg footer.indexOffset⟩ index ∧
        out = match index with
          | none => .error (bytes "std::bad_alloc")
          | some index => .ok ⟨filepath, s.data, footer, index, bloom⟩

/-- A round of the forward scan. -/
def scanRound (indexOffset : ℕ) (key : Bytes) (s : IfStream) : IfStream ⊕ Option (Bytes × Bool) × IfStream :=
  if !s.good then .inr (none, s)
  else if indexOffset ≤ s.tellg then .inr (none, s)
  else
    match readRecord s with
    | (none, s) => .inr (none, s)
    | (some r, s) =>
      if r.key = key then .inr (some (r.value, r.isDeleted), s)
      else if key < r.key then .inr (none, s)
      else .inl s

/-- `Get` comes to an end, with what it found and the stream it leaves behind. -/
def GetReturns (hash : Bytes → UInt64) (r : SSTableReader) (key : Bytes) (s : IfStream)
    (out : Option (Bytes × Bool) × IfStream) : Prop :=
  if !r.bloomFilter.mayContain hash key then out = (none, s)
  else
    match startOffset r.sparseIndex key with
    | none => out = (none, s)
    | some off => Loop.Ends (Loop.ofFun (scanRound r.footer.indexOffset key)) (s.clear.seekg off) out

end SSTableReader

namespace Compactor

/-! ## Compaction -/

variable (hash : Bytes → UInt64) {pq : PriorityQueue HeapNode order.gt}

/-- A round of the loop over the heap; the loop is left with `false` where an `Add` fails. -/
def mergeRound (purgeTombstones : Bool) (s : MergeState pq CompactorInput × SSTableBuilder)
    (o : MergeState pq CompactorInput × SSTableBuilder ⊕ Bool × MergeState pq CompactorInput × SSTableBuilder) :
    Prop :=
  ∃ p, Merge.Pops inputs s.1 p ∧
    o = match p with
      | none => .inr (true, s)
      | some (winner, _, st) =>
        match emit hash purgeTombstones winner s.2 with
        | (false, b) => .inr (false, st, b)
        | (true, b) => .inl (st, b)

/-- `Compact` comes to an end: its answer, the inputs with their iterators where it leaves
them, and the files. -/
def CompactReturns (pq : PriorityQueue HeapNode order.gt) (ins : List CompactorInput) (outputPath : Bytes)
    (purgeTombstones : Bool) (io : BuildIO) (w : World) (out : Bool × List CompactorInput × World) : Prop :=
  if ins = [] then out = (true, ins, w)
  else if outputPath = [] then out = (false, ins, w)
  else
    let ins := ins.map fun input => { input with iterator := input.iterator.map .seekToFirst }
    let (b, w) := SSTableBuilder.create outputPath io w
    ∃ ok st b', Loop.Ends (mergeRound hash purgeTombstones) ((Merge.fill inputs ins : MergeState pq _), b)
        (ok, st, b') ∧
      match ok with
      | false => out = (false, st.sources, b'.destroy w)
      | true =>
        let (ok, b, w) := b'.commit w
        out = (ok, st.sources, b.destroy w)

end Compactor

/-! ## The range iterator -/

namespace DBIteratorSource

variable (lists : MemSlot → SkipList)

/-- A round of the loop in `Seek` over a table's records. -/
def skipRound (target : Bytes) (it : SSTableIterator) : SSTableIterator ⊕ SSTableIterator :=
  if it.valid && it.key < target then .inl it.next else .inr it

/-- `Seek` of a source comes to an end. -/
def SeekReturns (target : Bytes) (s s' : DBIteratorSource) : Prop :=
  match s.memIter, s.sstIter with
  | none, some it =>
    ∃ it', Loop.Ends (Loop.ofFun (skipRound target)) it.seekToFirst it' ∧ s' = { s with sstIter := some it' }
  | _, _ => s' = s.seek lists target

end DBIteratorSource

namespace DBIterator

variable {pq : PriorityQueue HeapNode order.gt} (lists : MemSlot → SkipList)

/-- A round of the loop of `FindNextAliveKey`. -/
def findRound (it : DBIterator pq) (o : DBIterator pq ⊕ DBIterator pq) : Prop :=
  ∃ p, Merge.Pops (sources lists) it.state p ∧
    o = match p with
      | none => .inr it.invalidate
      | some (top, candidate, st) =>
        let it := { it with state := st }
        if it.beyondEnd top.key then .inr it.invalidate
        else
          match candidate with
          | some (value, false) => .inr { it with currentKey := top.key, currentValue := value, valid := true }
          | _ => .inl it

inductive Call where
  | seekToFirst
  | seek (targetKey : Bytes)
  | next

def call (it : DBIterator pq) : Call → DBIterator pq
  | .seekToFirst => it.seekToFirst lists
  | .seek targetKey => it.seek lists targetKey
  | .next => it.next lists

/-- The call comes to an end. -/
def CallReturns (it it' : DBIterator pq) : Call → Prop
  | .seekToFirst =>
    ∃ srcs, List.Forall₂ (fun s s' =>
        if it.startKey ≠ [] then s.SeekReturns lists it.startKey s' else s' = s.seekToFirst lists)
        it.state.sources srcs ∧
      Loop.Ends (findRound lists) (it.restart lists srcs) it'
  | .seek targetKey =>
    let seekTarget := if it.startKey ≠ [] ∧ targetKey < it.startKey then it.startKey else targetKey
    if it.beyondEnd seekTarget then it' = { it with state := ⟨it.state.sources, pq.empty⟩ }.invalidate
    else
      ∃ srcs, List.Forall₂ (DBIteratorSource.SeekReturns lists seekTarget) it.state.sources srcs ∧
        Loop.Ends (findRound lists) (it.restart lists srcs) it'
  | .next => if it.valid then Loop.Ends (findRound lists) it it' else it' = it

end DBIterator

end LsmTree
