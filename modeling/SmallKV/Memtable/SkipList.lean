import SmallKV.Utils.Codec
import Mathlib.Order.Lattice
import Mathlib.Data.Int.Init

/-!
# Memtable/SkipList — the skip list of `memtable/skiplist.h`, as it computes

Nodes live in a heap and are named by pointers; the head node `head_` is the first one allocated.
A node's `next` vector holds one link per level.  The search loops are the source's
`while (true)` loops, run on fuel: one step for each node of the heap and each level is more than
any of them takes (`Memtable/SkipListSearch`).  `RandomLevel` tosses a coin, so its outcome is an
argument of `insert`.
-/

namespace SmallKV

/-- The concept `HasSize`: what a key or a value counts for in the memory usage. -/
class HasSize (α : Type) where
  size : α → ℕ

instance : HasSize (List UInt8) := ⟨List.length⟩

/-- A pointer to a node of the heap. -/
abbrev NodePtr := ℕ

/-- `SkipList::Node`. -/
structure SkipNode (Key Value : Type) where
  key : Key
  value : Value
  next : List (Option NodePtr)
  deriving Repr

/-- `GetLevel`: a node has as many levels as links. -/
def SkipNode.getLevel {Key Value : Type} (nd : SkipNode Key Value) : ℕ := nd.next.length

/-- `SkipList`: the heap of its nodes, `max_level`, `size` and `mem_usage`.  Nodes are never
freed. -/
structure SkipList (Key Value : Type) where
  heap : List (SkipNode Key Value)
  maxLevel : ℕ
  size : ℤ
  memUsage : ℤ
  deriving Repr

/-- The outcomes of `RandomLevel`. -/
abbrev Level := {n : ℕ // 1 ≤ n ∧ n ≤ 12}

namespace SkipList

variable {Key Value : Type}

/-- `kMaxHeight`. -/
def kMaxHeight : ℕ := 12

/-- `head_`. -/
def head : NodePtr := 0

/-- The constructor: a head node of full height, and nothing else. -/
def new [Inhabited Key] [Inhabited Value] : SkipList Key Value where
  heap := [⟨default, default, List.replicate kMaxHeight none⟩]
  maxLevel := 1
  size := 0
  memUsage := 0

/-- `GetCurrentHeight`. -/
def getCurrentHeight (s : SkipList Key Value) : ℕ := s.maxLevel

/-- `GetSize`, which returns an `int`. -/
def getSize (s : SkipList Key Value) : ℤ := toInt32 s.size

/-- `GetMemUsage`. -/
def getMemUsage (s : SkipList Key Value) : ℤ := s.memUsage

/-! ## Pointers -/

/-- `*p`. -/
def deref (s : SkipList Key Value) (p : NodePtr) : Exec (SkipNode Key Value) :=
  orFault .wildPointer s.heap[p]?

/-- `p->next[i]`. -/
def linkAt (s : SkipList Key Value) (p : NodePtr) (i : ℕ) : Exec (Option NodePtr) := do
  let nd ← s.deref p
  orFault .outOfBounds nd.next[i]?

/-- The list after `p->next[i] = q`, where `p` has more than `i` links. -/
def withLink (s : SkipList Key Value) (p : NodePtr) (i : ℕ) (q : Option NodePtr) :
    SkipList Key Value :=
  { s with heap := s.heap.modify p fun nd => { nd with next := nd.next.set i q } }

/-- `p->next[i] = q`. -/
def setLink (s : SkipList Key Value) (p : NodePtr) (i : ℕ) (q : Option NodePtr) :
    Exec (SkipList Key Value) := do
  let nd ← s.deref p
  require (i < nd.getLevel) .outOfBounds
  return s.withLink p i q

/-- `prev[i] = p`. -/
def setPrev (prev : List (Option NodePtr)) (i : ℕ) (p : NodePtr) :
    Exec (List (Option NodePtr)) := do
  require (i < prev.length) .outOfBounds
  return prev.set i (some p)

/-- More steps than a search loop takes. -/
def fuel (s : SkipList Key Value) : ℕ := s.heap.length + kMaxHeight

/-! ## Searching -/

section Search

variable [LinearOrder Key]

/-- The loop that `Contains` and `Get` both run: the node with the key, if there is one. -/
def searchLoop (s : SkipList Key Value) (key : Key) :
    ℕ → NodePtr → ℕ → Exec (Option (SkipNode Key Value))
  | 0, _, _ => .error .diverged
  | fuel + 1, cur, level => do
      match ← s.linkAt cur level with
      | none => if level = 0 then return none else s.searchLoop key fuel cur (level - 1)
      | some next =>
          let nd ← s.deref next
          if nd.key = key then return some nd
          else if nd.key < key then s.searchLoop key fuel next level
          else if level = 0 then return none
          else s.searchLoop key fuel cur (level - 1)

/-- `Contains`. -/
def contains (s : SkipList Key Value) (key : Key) : Exec Bool := do
  let found ← s.searchLoop key s.fuel head (s.getCurrentHeight - 1)
  return found.isSome

/-- `Get`. -/
def get (s : SkipList Key Value) (key : Key) : Exec (Option Value) := do
  let found ← s.searchLoop key s.fuel head (s.getCurrentHeight - 1)
  return found.map SkipNode.value

/-- The loop of `FindPrevNode`: on each level, the last node whose key is below `key`. -/
def findPrevLoop (s : SkipList Key Value) (key : Key) :
    ℕ → NodePtr → ℕ → List (Option NodePtr) → Exec (List (Option NodePtr))
  | 0, _, _, _ => .error .diverged
  | fuel + 1, cur, level, prev => do
      let descend : Exec (List (Option NodePtr)) := do
        let prev ← setPrev prev level cur
        if level = 0 then return prev else s.findPrevLoop key fuel cur (level - 1) prev
      match ← s.linkAt cur level with
      | none => descend
      | some next =>
          let nd ← s.deref next
          if key ≤ nd.key then descend else s.findPrevLoop key fuel next level prev

/-- `FindPrevNode`. -/
def findPrevNode (s : SkipList Key Value) (key : Key) (prev : List (Option NodePtr)) :
    Exec (List (Option NodePtr)) :=
  s.findPrevLoop key s.fuel head (s.getCurrentHeight - 1) prev

/-! ## Insert -/

/-- `NewNode`: the node goes to the end of the heap. -/
def newNode (s : SkipList Key Value) (key : Key) (level : ℕ) (value : Value) :
    SkipList Key Value :=
  { s with heap := s.heap ++ [⟨key, value, List.replicate level none⟩] }

/-- The body of the linking loop of `Insert`: link the new node `new` in on level `i`. -/
def linkLevel (prev : List (Option NodePtr)) (new : NodePtr) (s : SkipList Key Value) (i : ℕ) :
    Exec (SkipList Key Value) := do
  match ← orFault .outOfBounds prev[i]? with
  | none =>
      let s ← s.setLink new i none
      s.setLink head i (some new)
  | some p =>
      let next ← s.linkAt p i
      let s ← s.setLink new i next
      s.setLink p i (some new)

/-- Run the body of a loop over the levels `0, …, n - 1`, in this order. -/
def forLevels (body : SkipList Key Value → ℕ → Exec (SkipList Key Value)) :
    ℕ → SkipList Key Value → Exec (SkipList Key Value)
  | 0, s => .ok s
  | n + 1, s => do
      let s ← forLevels body n s
      body s n

variable [HasSize Key] [HasSize Value]

/-- `Insert`, where `RandomLevel` returns `level`. -/
def insert (s : SkipList Key Value) (key : Key) (value : Value) (level : Level) :
    Exec (SkipList Key Value) := do
  if ← s.contains key then return s
  let s := { s with
    size := s.size + 1
    memUsage := s.memUsage + HasSize.size key + HasSize.size value }
  let prev ← s.findPrevNode key (List.replicate kMaxHeight none)
  let s := { s with maxLevel := max level.1 s.maxLevel }
  let new := s.heap.length
  forLevels (linkLevel prev new) level.1 (s.newNode key level.1 value)

/-! ## Delete -/

/-- The search loop of `Delete`: the predecessor on each level where the next node is the target or
lies above it, and the number of levels of the target. -/
def deletePrevLoop (s : SkipList Key Value) (key : Key) :
    ℕ → NodePtr → ℕ → List (Option NodePtr) → ℤ → Exec (List (Option NodePtr) × ℤ)
  | 0, _, _, _, _ => .error .diverged
  | fuel + 1, cur, level, prev, levelOfTarget => do
      match ← s.linkAt cur level with
      | none =>
          -- on level 0 this is the branch the source logs as an error point
          if level = 0 then return (prev, levelOfTarget)
          else s.deletePrevLoop key fuel cur (level - 1) prev levelOfTarget
      | some next =>
          let nd ← s.deref next
          if nd.key = key then
            let prev ← setPrev prev level cur
            if level = 0 then return (prev, (nd.getLevel : ℤ))
            else s.deletePrevLoop key fuel cur (level - 1) prev nd.getLevel
          else if nd.key < key then s.deletePrevLoop key fuel next level prev levelOfTarget
          else
            let prev ← setPrev prev level cur
            if level = 0 then return (prev, levelOfTarget)
            else s.deletePrevLoop key fuel cur (level - 1) prev levelOfTarget

/-- The body of the unlinking loop of `Delete` on level `i`:
`prev[i]->next[i] = prev[i]->next[i]->next[i]`. -/
def unlinkLevel (prev : List (Option NodePtr)) (s : SkipList Key Value) (i : ℕ) :
    Exec (SkipList Key Value) := do
  match ← orFault .outOfBounds prev[i]? with
  | none => return s
  | some p =>
      let target ← orFault .assertion (← s.linkAt p i)
      let next ← s.linkAt target i
      s.setLink p i next

/-- `Delete`. -/
def delete (s : SkipList Key Value) (key : Key) : Exec (SkipList Key Value) := do
  if !(← s.contains key) then return s
  let s := { s with size := s.size - 1 }
  let (prev, levelOfTarget) ←
    s.deletePrevLoop key s.fuel head (s.getCurrentHeight - 1) (List.replicate kMaxHeight none) (-1)
  let s := { s with memUsage := s.memUsage - HasSize.size key }
  let prev₀ ← orFault .nullPointer prev[0]?.join
  let target ← orFault .nullPointer (← s.linkAt prev₀ 0)
  let nd ← s.deref target
  let s := { s with memUsage := s.memUsage - HasSize.size nd.value }
  forLevels (unlinkLevel prev) levelOfTarget.toNat s

end Search

/-! ## Iterating -/

/-- `SkipListIterator`: the node it stands on; a fresh iterator stands on none. -/
structure Iterator where
  node : Option NodePtr := none

/-- `Valid`. -/
def Iterator.valid (it : Iterator) : Bool := it.node.isSome

/-- `MoveToFirst`. -/
def moveToFirst (s : SkipList Key Value) : Exec Iterator := do
  return ⟨← s.linkAt head 0⟩

/-- The node of an iterator, under the `assert(Valid())` of `Next`, `key` and `value`. -/
def Iterator.current (it : Iterator) : Exec NodePtr :=
  orFault .assertion it.node

/-- `Next`. -/
def Iterator.next (s : SkipList Key Value) (it : Iterator) : Exec Iterator := do
  return ⟨← s.linkAt (← it.current) 0⟩

/-- `key()` and `value()`. -/
def Iterator.entry (s : SkipList Key Value) (it : Iterator) : Exec (Key × Value) := do
  let nd ← s.deref (← it.current)
  return (nd.key, nd.value)

/-- The entries an iterator visits: `Next` until `Valid` is false. -/
def visit (s : SkipList Key Value) : ℕ → Iterator → Exec (List (Key × Value))
  | 0, _ => .error .diverged
  | fuel + 1, it =>
      if it.valid then do
        let e ← it.entry s
        let rest ← s.visit fuel (← it.next s)
        return e :: rest
      else return []

/-- A whole traversal: `MoveToFirst`, then `Next` until `Valid` is false. -/
def traverse (s : SkipList Key Value) : Exec (List (Key × Value)) := do
  s.visit s.fuel (← s.moveToFirst)

end SkipList

end SmallKV
