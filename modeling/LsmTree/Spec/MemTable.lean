import LsmTree.Spec.Wal
import LsmTree.Base.Ascending

/-!
# The memtable (`skiplist.cpp`, `memtable.cpp`)

A skip list in front of the write-ahead log. The skip list is its level-0 chain: the
upper levels decide how fast a node is found and not which one. The iterator holds a
node of the chain, named by its key, and reads the entry it has at that moment; nodes
are never unlinked while the list lives.
-/

namespace LsmTree

open Base

inductive ValueType where
  | kTypeValue
  | kTypeDeletion
  deriving DecidableEq, Repr

structure MemTableEntry where
  value : Bytes
  type : ValueType
  deriving DecidableEq, Repr

namespace SkipList

structure Node where
  key : Bytes
  entry : MemTableEntry
  deriving DecidableEq, Repr

end SkipList

/-- The level-0 chain, in strictly ascending key order. -/
structure SkipList where
  chain : List SkipList.Node
  sorted : Ascending SkipList.Node.key chain

namespace SkipList

def new : SkipList := ⟨[], ascending_nil⟩

def empty (l : SkipList) : Bool := l.chain.isEmpty

/-- The chain from the first node with key at or after `key`. -/
def findGreaterOrEqual (l : SkipList) (key : Bytes) : List Node :=
  l.chain.dropWhile fun x => x.key < key

def insert (l : SkipList) (key : Bytes) (entry : MemTableEntry) : SkipList :=
  ⟨insertKey Node.key ⟨key, entry⟩ l.chain, l.sorted.insertKey _⟩

def find (l : SkipList) (key : Bytes) : Option MemTableEntry :=
  match l.findGreaterOrEqual key with
  | x :: _ => if x.key = key then some x.entry else none
  | [] => none

/-- `SkipList::Iterator`: the key of its node, if it has one. -/
structure Iterator where
  node : Option Bytes
  deriving DecidableEq, Repr

namespace Iterator

def valid (it : Iterator) : Bool := it.node.isSome

def seekToFirst (l : SkipList) : Iterator := ⟨l.chain.head?.map Node.key⟩

def seek (l : SkipList) (target : Bytes) : Iterator :=
  ⟨(l.findGreaterOrEqual target).head?.map Node.key⟩

def next (l : SkipList) (it : Iterator) : Iterator :=
  match it.node with
  | none => it
  | some key => ⟨(l.findGreaterOrEqual key).tail.head?.map Node.key⟩

/-- The node's entry at this moment. -/
def entry (l : SkipList) (it : Iterator) : Option MemTableEntry := it.node.bind l.find

end Iterator

end SkipList

structure MemTable where
  list : SkipList
  /-- `wal_ != nullptr` -/
  wal : Bool
  approxMemoryUsage : UInt64
  numEntries : UInt64
  isImmutable : Bool

/-- How opening the log for writing and reading it back ends: `none`, or the system's
text for the error; and whether the existing file can be read. -/
structure MemTableIO where
  openError : Option Bytes
  readable : Bool
  deriving DecidableEq

def MemTableIO.ok : MemTableIO := ⟨none, true⟩

namespace MemTable

/-- `sizeof(SkipList::Node)`: two strings, the value type and one pointer. -/
def sizeofNode : UInt64 := 80

def estimateNodeMemory (key value : Bytes) : UInt64 :=
  sizeofNode + .ofNat key.length + .ofNat value.length + 32

def empty (m : MemTable) : Bool := m.list.empty

def markImmutable (m : MemTable) : MemTable := { m with isImmutable := true }

/-- The part of `Put` after the log, also that of the replay of a `PUT`. -/
def applyPut (key value : Bytes) (m : MemTable) : MemTable :=
  match m.list.find key with
  | some existing =>
    { m with
      approxMemoryUsage :=
        if existing.value.length ≤ value.length then
          m.approxMemoryUsage + .ofNat (value.length - existing.value.length)
        else m.approxMemoryUsage - .ofNat (existing.value.length - value.length)
      list := m.list.insert key ⟨value, .kTypeValue⟩ }
  | none =>
    { m with
      approxMemoryUsage := m.approxMemoryUsage + estimateNodeMemory key value
      numEntries := m.numEntries + 1
      list := m.list.insert key ⟨value, .kTypeValue⟩ }

/-- The part of `Delete` after the log, also that of the replay of a `DELETE`. -/
def applyDelete (key : Bytes) (m : MemTable) : MemTable :=
  match m.list.find key with
  | some existing =>
    { m with
      approxMemoryUsage :=
        if 0 < existing.value.length then m.approxMemoryUsage - .ofNat existing.value.length
        else m.approxMemoryUsage
      list := m.list.insert key ⟨[], .kTypeDeletion⟩ }
  | none =>
    { m with
      approxMemoryUsage := m.approxMemoryUsage + estimateNodeMemory key []
      numEntries := m.numEntries + 1
      list := m.list.insert key ⟨[], .kTypeDeletion⟩ }

/-- The replay of one log entry; other operations are skipped. -/
def applyEntry (m : MemTable) (e : LogEntry) : MemTable :=
  if e.operation = bytes "PUT" then m.applyPut e.key e.value
  else if e.operation = bytes "DELETE" then m.applyDelete e.key
  else m

def recoverFromWAL (io : MemTableIO) (d : Disk) (m : MemTable) : MemTable :=
  match WAL.recover io.readable d with
  | (false, _) => m
  | (true, entries) => entries.foldl applyEntry m

/-- A memtable with no entries. -/
def blank (wal : Bool) : MemTable := ⟨.new, wal, 0, 0, false⟩

/-- The constructor: opens the log, creating it, and replays it. -/
def new (walPath : Bytes) (io : MemTableIO) (w : World) : Except Bytes MemTable × World :=
  if walPath = [] then (.ok (blank false), w)
  else
    match io.openError with
    | some reason =>
      (.error (bytes "Failed to open WAL file for writing: " ++ walPath ++ bytes " (" ++ reason ++
        bytes ")"), w)
    | none =>
      let w := w.perform .walOpen
      (.ok ((blank true).recoverFromWAL io w.disk), w)

def put (key value : Bytes) (now : Int64) (io : WAL.AppendIO) (m : MemTable) (w : World) :
    Bool × MemTable × World :=
  if m.isImmutable then (false, m, w)
  else if m.wal then
    match WAL.append (bytes "PUT") key value now io w with
    | (false, w) => (false, m, w)
    | (true, w) => (true, m.applyPut key value, w)
  else (true, m.applyPut key value, w)

def delete (key : Bytes) (now : Int64) (io : WAL.AppendIO) (m : MemTable) (w : World) :
    Bool × MemTable × World :=
  if m.isImmutable then (false, m, w)
  else if m.wal then
    match WAL.append (bytes "DELETE") key [] now io w with
    | (false, w) => (false, m, w)
    | (true, w) => (true, m.applyDelete key, w)
  else (true, m.applyDelete key, w)

/-- `Get`: nothing recorded, or the value and whether the key is deleted. -/
def get (m : MemTable) (key : Bytes) : Option (Bytes × Bool) :=
  match m.list.find key with
  | none => none
  | some entry => if entry.type = .kTypeDeletion then some ([], true) else some (entry.value, false)

end MemTable

end LsmTree
