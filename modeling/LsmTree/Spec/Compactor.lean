import LsmTree.Spec.SSTable
import LsmTree.Spec.Disk
import LsmTree.Base.Merge

/-!
# The compactor (`compactor.cpp`)

A k-way merge of table iterators into one new table. For equal keys the node with the
greatest file id comes first, the others are dropped; with `purge_tombstones` a winning
deletion is dropped too.
-/

namespace LsmTree

open Base

/-! ## Table files -/

/-- How building a table ends: whether the file opens, and how many writes succeed
before one fails (`none` if none does). -/
structure BuildIO where
  opens : Bool
  budget : Option ℕ
  deriving DecidableEq

def BuildIO.ok : BuildIO := ⟨true, none⟩

namespace SSTableBuilder

/-- The constructor with its effect. -/
def create (path : Bytes) (io : BuildIO) (w : World) : SSTableBuilder × World :=
  (new path io.opens io.budget, if io.opens then w.perform (.tableCreate path) else w)

/-- `Finish` with its effect. -/
def commit (b : SSTableBuilder) (w : World) : Bool × SSTableBuilder × World :=
  match b.finish with
  | (true, b) => (true, b, w.perform (.tableWrite b.filePath b.file.buf))
  | (false, b) => (false, b, w)

/-- The destructor: an unfinished file is removed. -/
def destroy (b : SSTableBuilder) (w : World) : World :=
  if b.finished then w else w.perform (.tableRemove b.filePath)

end SSTableBuilder

/-! ## Merging -/

structure CompactorInput where
  fileId : ℕ
  iterator : Option SSTableIterator

namespace Compactor

structure HeapNode where
  key : Bytes
  value : Bytes
  isDeleted : Bool
  fileId : ℕ
  inputIdx : ℕ
  deriving DecidableEq, Repr

/-- `HeapNode::operator>` is `order.gt`. -/
def order : NodeOrder Bytes HeapNode := ⟨HeapNode.key, HeapNode.fileId, HeapNode.inputIdx⟩

/-- The node of an input's current record. -/
def inputNode (i : ℕ) (input : CompactorInput) : Option HeapNode :=
  match input.iterator with
  | none => none
  | some it => if it.valid then some ⟨it.key, it.value, it.isDeleted, input.fileId, i⟩ else none

def inputs : Sources HeapNode CompactorInput Unit :=
  ⟨inputNode, fun _ => (), fun input => { input with iterator := input.iterator.map .next }⟩

variable (hash : Bytes → UInt64)

/-- What is written for a winner. -/
def emit (purgeTombstones : Bool) (winner : HeapNode) (b : SSTableBuilder) : Bool × SSTableBuilder :=
  if winner.isDeleted then
    if purgeTombstones then (true, b) else b.add hash winner.key [] true
  else b.add hash winner.key winner.value false

/-- The loop over the heap; `false` where an `Add` fails. -/
def mergeLoop {pq : PriorityQueue HeapNode order.gt} (purgeTombstones : Bool) (fuel : ℕ) :
    ℕ → MergeState pq CompactorInput → SSTableBuilder → Bool × SSTableBuilder
  | 0, _, b => (true, b)
  | n + 1, st, b =>
    match Merge.popWinner inputs fuel st with
    | none => (true, b)
    | some (winner, _, st) =>
      match emit hash purgeTombstones winner b with
      | (false, b) => (false, b)
      | (true, b) => mergeLoop purgeTombstones fuel n st b

/-- More than the records an input can hold. -/
def inputSize (input : CompactorInput) : ℕ :=
  match input.iterator with
  | none => 0
  | some it => it.file.data.length + 1

def compact (pq : PriorityQueue HeapNode order.gt) (ins : List CompactorInput) (outputPath : Bytes)
    (purgeTombstones : Bool) (io : BuildIO) (w : World) : Bool × World :=
  if ins = [] then (true, w)
  else if outputPath = [] then (false, w)
  else
    let ins := ins.map fun input => { input with iterator := input.iterator.map .seekToFirst }
    let fuel := (ins.map inputSize).sum
    let (b, w) := SSTableBuilder.create outputPath io w
    match mergeLoop hash purgeTombstones (fuel + ins.length) fuel (Merge.fill inputs ins : MergeState pq _) b with
    | (false, b) => (false, b.destroy w)
    | (true, b) =>
      let (ok, b, w) := b.commit w
      (ok, b.destroy w)

end Compactor

end LsmTree
