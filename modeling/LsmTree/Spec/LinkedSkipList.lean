import LsmTree.Spec.MemTable

/-!
# The skip list with its nodes (`skiplist.cpp`)

`SkipList` is the level-0 chain; here are the nodes behind it, with the forward pointers
of all levels. Addresses are places of a memory that only grows, and a freed place stays
empty. Reading or writing a node that is not there, an entry behind the end of a pointer
array, or a slot that was not filled is `none`: the program has no defined behaviour there.

The heights of new nodes, which `RandomHeight` draws, are arguments.
-/

namespace LsmTree

open Base

/-- A node has as many forward pointers as it is high. -/
structure LinkedSkipList.Node where
  key : Bytes
  entry : MemTableEntry
  forward : List (Option ℕ)
  deriving DecidableEq, Repr

structure LinkedSkipList where
  memory : List (Option LinkedSkipList.Node)
  maxHeight : ℕ
  deriving DecidableEq, Repr

namespace LinkedSkipList

def kMaxHeight : ℕ := 16

/-- What `RandomHeight` can return. -/
def Height : Type := { h : ℕ // 1 ≤ h ∧ h ≤ kMaxHeight }

/-- The address of `head_`. -/
def head : ℕ := 0

/-! ## Memory -/

def node (l : LinkedSkipList) (a : ℕ) : Option Node := (l.memory[a]?).join

def setNode (a : ℕ) (n : Node) (l : LinkedSkipList) : LinkedSkipList :=
  { l with memory := l.memory.set a (some n) }

def forward (l : LinkedSkipList) (a i : ℕ) : Option (Option ℕ) := do
  let n ← l.node a
  n.forward[i]?

def setForward (a i : ℕ) (p : Option ℕ) (l : LinkedSkipList) : Option LinkedSkipList := do
  let n ← l.node a
  if i < n.forward.length then some (l.setNode a { n with forward := n.forward.set i p }) else none

def setEntry (a : ℕ) (entry : MemTableEntry) (l : LinkedSkipList) : Option LinkedSkipList := do
  let n ← l.node a
  pure (l.setNode a { n with entry := entry })

def allocateNode (key : Bytes) (entry : MemTableEntry) (height : ℕ) (l : LinkedSkipList) : ℕ × LinkedSkipList :=
  (l.memory.length, { l with memory := l.memory ++ [some ⟨key, entry, List.replicate height none⟩] })

def freeNode (a : ℕ) (l : LinkedSkipList) : Option LinkedSkipList := do
  let _ ← l.node a
  pure { l with memory := l.memory.set a none }

/-- The constructor. -/
def new : LinkedSkipList := ⟨[some ⟨[], ⟨[], .kTypeValue⟩, List.replicate kMaxHeight none⟩], 1⟩

/-! ## Operations -/

/-- The loop of `Clear` that frees the nodes. -/
def freeChain : ℕ → Option ℕ → LinkedSkipList → Option LinkedSkipList
  | 0, _, _ => none
  | _ + 1, none, l => some l
  | fuel + 1, some current, l => do
    let next ← l.forward current 0
    let l ← l.freeNode current
    freeChain fuel next l

def clear (l : LinkedSkipList) : Option LinkedSkipList := do
  let current ← l.forward head 0
  let l ← freeChain (l.memory.length + 1) current l
  let l ← (List.range kMaxHeight).foldlM (fun l i => l.setForward head i none) l
  pure { l with maxHeight := 1 }

def empty (l : LinkedSkipList) : Option Bool := do
  let p ← l.forward head 0
  pure p.isNone

/-- The array `Node *update[kMaxHeight]`: its slots are not filled at first. -/
abbrev Slots := ℕ → Option ℕ

def Slots.blank : Slots := fun _ => none

/-- `update[i] = x` -/
def Slots.fill (i x : ℕ) (update : Slots) : Option Slots :=
  if i < kMaxHeight then some (Function.update update i (some x)) else none

/-- `next != nullptr && next->key < key` -/
def before (l : LinkedSkipList) (key : Bytes) (next : Option ℕ) : Option Bool :=
  match next with
  | none => some false
  | some a => do
    let n ← l.node a
    pure (decide (n.key < key))

/-- The loop of `FindGreaterOrEqual` at the node `x` and a level; without an array nothing
is recorded. -/
def descend (l : LinkedSkipList) (key : Bytes) : ℕ → ℕ → ℕ → Option Slots → Option (Option ℕ × Option Slots)
  | 0, _, _, _ => none
  | fuel + 1, x, level, update => do
    let next ← l.forward x level
    let further ← l.before key next
    match further, next with
    | true, some y => descend l key fuel y level update
    | _, _ =>
      let update ← update.elim (some none) fun update => (update.fill level x).map some
      match level with
      | 0 => some (next, update)
      | level + 1 => descend l key fuel x level update

/-- The loop goes on or down at most once for each node and each level. -/
def findGreaterOrEqual (l : LinkedSkipList) (key : Bytes) (update : Option Slots) :
    Option (Option ℕ × Option Slots) :=
  l.descend key (l.memory.length + kMaxHeight) head (l.maxHeight - 1) update

/-- `x->forward[i] = update[i]->forward[i]; update[i]->forward[i] = x;` -/
def linkLevel (update : Slots) (x : ℕ) (l : LinkedSkipList) (i : ℕ) : Option LinkedSkipList := do
  let p ← update i
  let next ← l.forward p i
  let l ← l.setForward x i next
  l.setForward p i (some x)

def insert (key : Bytes) (entry : MemTableEntry) (height : Height) (l : LinkedSkipList) :
    Option LinkedSkipList := do
  let (x, update) ← l.findGreaterOrEqual key (some .blank)
  let update ← update
  let found ← x.elim (some none) fun a => (l.node a).map fun n => if n.key = key then some a else none
  match found with
  | some a => l.setEntry a entry
  | none =>
    -- the levels above the old `max_height_`, which the search did not reach
    let update ← (List.range' l.maxHeight (height.val - l.maxHeight)).foldlM
      (fun u i => Slots.fill i head u) update
    let (x, l) := allocateNode key entry height.val { l with maxHeight := max l.maxHeight height.val }
    (List.range height.val).foldlM (linkLevel update x) l

def find (l : LinkedSkipList) (key : Bytes) : Option (Option MemTableEntry) := do
  let (x, _) ← l.findGreaterOrEqual key none
  x.elim (some none) fun a => (l.node a).map fun n => if n.key = key then some n.entry else none

/-- `SkipList::Iterator` -/
structure Iterator where
  node : Option ℕ
  deriving DecidableEq, Repr

namespace Iterator

def valid (it : Iterator) : Bool := it.node.isSome

def seekToFirst (l : LinkedSkipList) : Option Iterator := (l.forward head 0).map Iterator.mk

def seek (l : LinkedSkipList) (target : Bytes) : Option Iterator :=
  (l.findGreaterOrEqual target none).map fun r => ⟨r.1⟩

def next (l : LinkedSkipList) (it : Iterator) : Option Iterator :=
  it.node.elim (some it) fun a => (l.forward a 0).map Iterator.mk

def key (l : LinkedSkipList) (it : Iterator) : Option Bytes := (it.node.bind l.node).map Node.key

def entry (l : LinkedSkipList) (it : Iterator) : Option MemTableEntry := (it.node.bind l.node).map Node.entry

end Iterator

end LinkedSkipList

end LsmTree
