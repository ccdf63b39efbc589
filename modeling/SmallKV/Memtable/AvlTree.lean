import SmallKV.Foundations.Cursor
import SmallKV.Foundations.SortedMap

/-!
# Memtable/AvlTree — the search tree of `memtable/avl_tree.h` and its iterator

The iterator walks a tree with an explicit stack of nodes.  What it has still to visit is read off
that stack: every node on it, each followed by its right subtree (`pending`).  `SeekToFirst` and
`Seek` fill the stack for their entries, and `Next` takes off the first of them, so that a traversal
visits exactly the entries it was positioned for (`traversal_spec`).  The header declares the
operations that change a tree without a body; that a tree is ordered is assumed here.
-/

namespace SmallKV

/-- `AVLNode *`: the null pointer, or a node. -/
inductive AVLNode (Key Value : Type) where
  | null
  | node (key : Key) (value : Value) (left right : AVLNode Key Value)
  deriving DecidableEq, Repr

namespace AVLNode

variable {Key Value : Type}

/-- `if (node)`. -/
def isNull : AVLNode Key Value → Bool
  | null => true
  | node .. => false

/-- `node->key` and `node->value`. -/
def entry : AVLNode Key Value → Exec (Key × Value)
  | null => .error .nullPointer
  | node key value _ _ => .ok (key, value)

/-- The entries of a tree, from left to right. -/
def entries : AVLNode Key Value → List (Key × Value)
  | null => []
  | node key value left right => left.entries ++ (key, value) :: right.entries

/-- A binary search tree with distinct keys: those on the left of a node lie below its own, those on
the right above it. -/
def Ordered [LT Key] : AVLNode Key Value → Prop
  | null => True
  | node key _ left right =>
      left.Ordered ∧ right.Ordered ∧ (∀ e ∈ left.entries, e.1 < key) ∧
        ∀ e ∈ right.entries, key < e.1

/-- Whether a tree is ordered is decided by going through it. -/
instance decidableOrdered [LinearOrder Key] : ∀ n : AVLNode Key Value, Decidable n.Ordered
  | null => isTrue trivial
  | node key _ left right =>
      have := decidableOrdered left
      have := decidableOrdered right
      inferInstanceAs (Decidable (left.Ordered ∧ right.Ordered ∧
        (∀ e ∈ left.entries, e.1 < key) ∧ ∀ e ∈ right.entries, key < e.1))

end AVLNode

/-- `AVLTree`. -/
structure AVLTree (Key Value : Type) where
  root : AVLNode Key Value
  deriving DecidableEq, Repr

namespace AVLTree

variable {Key Value : Type}

section Search

variable [LinearOrder Key]

/-- `searchNode`. -/
def searchNode : AVLNode Key Value → Key → AVLNode Key Value
  | .null, _ => .null
  | .node k v left right, key =>
      if key < k then searchNode left key
      else if k < key then searchNode right key
      else .node k v left right

/-- `Search`, and what `*value_ptr` holds afterwards; `none` is a null `value_ptr`. -/
def search (t : AVLTree Key Value) (key : Key) (valuePtr : Option Value) : Bool × Option Value :=
  match searchNode t.root key with
  | .null => (false, valuePtr)
  | .node _ value _ _ => (true, valuePtr.map fun _ => value)

end Search

/-! ## The iterator -/

/-- `AVLIterator`; the top of `path_stack_` is the head of the list. -/
structure AVLIterator (Key Value : Type) where
  tree : AVLTree Key Value
  currentNode : AVLNode Key Value
  pathStack : List (AVLNode Key Value)
  deriving Repr

namespace AVLIterator

/-- `Valid`. -/
def valid (it : AVLIterator Key Value) : Bool := !it.currentNode.isNull

/-- `key()` and `value()`. -/
def entry (it : AVLIterator Key Value) : Exec (Key × Value) := it.currentNode.entry

/-- `pushLeftPath`. -/
def pushLeftPath : AVLNode Key Value → List (AVLNode Key Value) → List (AVLNode Key Value)
  | .null, stack => stack
  | .node k v left right, stack => pushLeftPath left (.node k v left right :: stack)

/-- The iterator standing on the top of a stack, or on no node when the stack is empty. -/
def onTop (tree : AVLTree Key Value) : List (AVLNode Key Value) → AVLIterator Key Value
  | [] => ⟨tree, .null, []⟩
  | node :: stack => ⟨tree, node, node :: stack⟩

/-- `findFirst`. -/
def findFirst (it : AVLIterator Key Value) : AVLIterator Key Value :=
  onTop it.tree (pushLeftPath it.tree.root [])

/-- `SeekToFirst`. -/
def seekToFirst (it : AVLIterator Key Value) : AVLIterator Key Value := it.findFirst

/-- The constructor. -/
def new (tree : AVLTree Key Value) : AVLIterator Key Value :=
  seekToFirst ⟨tree, .null, []⟩

/-- `findNext`. -/
def findNext (it : AVLIterator Key Value) : Exec (AVLIterator Key Value) :=
  match it.pathStack with
  | [] => .ok { it with currentNode := .null }
  | .null :: _ => .error .nullPointer
  | .node _ _ _ right :: stack =>
      .ok (onTop it.tree (if right.isNull then stack else pushLeftPath right stack))

/-- `Next`. -/
def next (it : AVLIterator Key Value) : Exec (AVLIterator Key Value) := it.findNext

/-- The loop of `Seek`: the nodes on the way to `target` that do not lie below it. -/
def seekPath [LinearOrder Key] (target : Key) :
    AVLNode Key Value → List (AVLNode Key Value) → List (AVLNode Key Value)
  | .null, stack => stack
  | .node k v left right, stack =>
      if target ≤ k then seekPath target left (.node k v left right :: stack)
      else seekPath target right stack

/-- `Seek`. -/
def seek [LinearOrder Key] (it : AVLIterator Key Value) (target : Key) : AVLIterator Key Value :=
  onTop it.tree (seekPath target it.tree.root [])

/-- The iterator as its callers use it. -/
def cursor : Cursor (AVLIterator Key Value) (Key × Value) := ⟨valid, entry, next⟩

end AVLIterator

end AVLTree

/-! ## Ordered trees -/

namespace AVLNode

variable {Key Value : Type} [LinearOrder Key]

/-- **An ordered tree lists its entries in strictly ascending order.** -/
theorem Ordered.pairwise {n : AVLNode Key Value} (h : n.Ordered) :
    n.entries.Pairwise fun e e' => e.1 < e'.1 := by
  induction n with
  | null => exact List.Pairwise.nil
  | node key value left right ihl ihr =>
    obtain ⟨hl, hr, hbelow, habove⟩ := h
    refine List.pairwise_append.mpr ⟨ihl hl, List.pairwise_cons.mpr ⟨habove, ihr hr⟩, ?_⟩
    intro e he e' he'
    rcases List.mem_cons.mp he' with rfl | he'
    · exact hbelow e he
    · exact (hbelow e he).trans (habove e' he')

/-- The entries from a target on, in a tree whose root is one of them. -/
theorem Ordered.filter_of_le {key target : Key} {value : Value} {left right : AVLNode Key Value}
    (h : (node key value left right).Ordered) (hle : target ≤ key) :
    (node key value left right).entries.filter (target ≤ ·.1) =
      left.entries.filter (target ≤ ·.1) ++ (key, value) :: right.entries := by
  obtain ⟨-, -, -, habove⟩ := h
  have hright : right.entries.filter (target ≤ ·.1) = right.entries :=
    List.filter_eq_self.mpr fun e he => decide_eq_true (hle.trans (habove e he).le)
  rw [entries, List.filter_append, List.filter_cons_of_pos (by simpa using hle), hright]

/-- The entries from a target on, in a tree whose root is not one of them. -/
theorem Ordered.filter_of_lt {key target : Key} {value : Value} {left right : AVLNode Key Value}
    (h : (node key value left right).Ordered) (hlt : key < target) :
    (node key value left right).entries.filter (target ≤ ·.1) =
      right.entries.filter (target ≤ ·.1) := by
  obtain ⟨-, -, hbelow, -⟩ := h
  have hleft : left.entries.filter (target ≤ ·.1) = [] :=
    List.filter_eq_nil_iff.mpr fun e he => by simpa using (hbelow e he).trans hlt
  rw [entries, List.filter_append, hleft, List.nil_append,
    List.filter_cons_of_neg (by simpa using hlt)]

/-- **The map an ordered tree holds.** -/
def Ordered.toMap {n : AVLNode Key Value} (h : n.Ordered) : SortedMap Key Value :=
  ⟨n.entries, h.pairwise⟩

/-- **`searchNode` ends on the node of the key**, or on no node if the tree has none. -/
theorem Ordered.searchNode_cases {n : AVLNode Key Value} (h : n.Ordered) (key : Key) :
    (∃ v l r, AVLTree.searchNode n key = node key v l r ∧ (key, v) ∈ n.entries) ∨
      AVLTree.searchNode n key = null ∧ ∀ v, (key, v) ∉ n.entries := by
  induction n with
  | null => exact Or.inr ⟨rfl, fun v => List.not_mem_nil⟩
  | node k value left right ihl ihr =>
    obtain ⟨hl, hr, hbelow, habove⟩ := h
    rcases lt_trichotomy key k with hlt | rfl | hgt
    · have hstep : AVLTree.searchNode (node k value left right) key
          = AVLTree.searchNode left key := by simp [AVLTree.searchNode, hlt]
      rw [hstep]
      refine (ihl hl).imp ?_ (And.imp_right fun hleft v hv => ?_)
      · rintro ⟨v, l, r, hs, hv⟩
        exact ⟨v, l, r, hs, List.mem_append_left _ hv⟩
      · rcases List.mem_append.mp hv with hv | hv
        · exact hleft v hv
        · rcases List.mem_cons.mp hv with heq | hv
          · exact hlt.ne (Prod.mk.inj heq).1
          · exact hlt.not_gt (habove _ hv)
    · exact Or.inl ⟨value, left, right, by simp [AVLTree.searchNode], by simp [entries]⟩
    · have hstep : AVLTree.searchNode (node k value left right) key
          = AVLTree.searchNode right key := by simp [AVLTree.searchNode, hgt, hgt.not_gt]
      rw [hstep]
      refine (ihr hr).imp ?_ (And.imp_right fun hright v hv => ?_)
      · rintro ⟨v, l, r, hs, hv⟩
        exact ⟨v, l, r, hs, List.mem_append_right _ (List.mem_cons_of_mem _ hv)⟩
      · rcases List.mem_append.mp hv with hv | hv
        · exact hgt.not_gt (hbelow _ hv)
        · rcases List.mem_cons.mp hv with heq | hv
          · exact hgt.ne' (Prod.mk.inj heq).1
          · exact hright v hv

end AVLNode

namespace AVLTree

variable {Key Value : Type}

/-- **`Search` answers for the map the tree holds.** -/
theorem search_spec [LinearOrder Key] {t : AVLTree Key Value} (h : t.root.Ordered) (key : Key)
    (valuePtr : Option Value) : t.search key valuePtr =
      (h.toMap.contains key, (h.toMap.lookup key).elim valuePtr fun v => valuePtr.map fun _ => v) := by
  rcases h.searchNode_cases key with ⟨v, l, r, hs, hv⟩ | ⟨hs, hnone⟩
  · have hlookup : h.toMap.lookup key = some v := (h.toMap.mem_entries_iff v).mp hv
    simp [search, hs, SortedMap.contains, hlookup]
  · have hlookup : h.toMap.lookup key = none :=
      Option.eq_none_iff_forall_ne_some.mpr fun v hv => hnone v ((h.toMap.mem_entries_iff v).mpr hv)
    simp [search, hs, SortedMap.contains, hlookup]

/-! ## What an iterator has still to visit -/

namespace AVLIterator

/-- What a node on the stack stands for: its own entry, then those of its right subtree. -/
def pendingAt : AVLNode Key Value → List (Key × Value)
  | .null => []
  | .node key value _ right => (key, value) :: right.entries

/-- What a stack stands for, from its top on. -/
def pending (stack : List (AVLNode Key Value)) : List (Key × Value) := stack.flatMap pendingAt

@[simp] theorem pending_nil : pending ([] : List (AVLNode Key Value)) = [] := rfl

/-- The iterator stands on the top of a stack of nodes that stands for the entries `es`. -/
def Pending (it : AVLIterator Key Value) (es : List (Key × Value)) : Prop :=
  ∃ stack, it = onTop it.tree stack ∧ .null ∉ stack ∧ pending stack = es

/-- **`pushLeftPath` puts a whole subtree in front.** -/
theorem pending_pushLeftPath (n : AVLNode Key Value) (stack : List (AVLNode Key Value)) :
    pending (pushLeftPath n stack) = n.entries ++ pending stack := by
  induction n generalizing stack with
  | null => rfl
  | node key value left right ihl _ =>
    rw [pushLeftPath, ihl, AVLNode.entries, List.append_assoc]
    rfl

theorem null_notMem_pushLeftPath {n : AVLNode Key Value} {stack : List (AVLNode Key Value)}
    (h : .null ∉ stack) : .null ∉ pushLeftPath n stack := by
  induction n generalizing stack with
  | null => exact h
  | node key value left right ihl _ => exact ihl (by simpa using h)

/-- The test for a right child saves a call that does nothing. -/
theorem pushLeftPath_right (right : AVLNode Key Value) (stack : List (AVLNode Key Value)) :
    (if right.isNull then stack else pushLeftPath right stack) = pushLeftPath right stack := by
  cases right <;> rfl

/-- **The loop of `Seek` puts the entries of a subtree in front that do not lie below the target.** -/
theorem pending_seekPath [LinearOrder Key] {n : AVLNode Key Value} (h : n.Ordered) (target : Key)
    (stack : List (AVLNode Key Value)) :
    pending (seekPath target n stack) = n.entries.filter (target ≤ ·.1) ++ pending stack := by
  induction n generalizing stack with
  | null => rfl
  | node key value left right ihl ihr =>
    rw [seekPath]
    split_ifs with hle
    · rw [ihl h.1, h.filter_of_le hle, List.append_assoc]
      rfl
    · rw [ihr h.2.1, h.filter_of_lt (not_le.mp hle)]

theorem null_notMem_seekPath [LinearOrder Key] {n : AVLNode Key Value} {target : Key}
    {stack : List (AVLNode Key Value)} (h : .null ∉ stack) : .null ∉ seekPath target n stack := by
  induction n generalizing stack with
  | null => exact h
  | node key value left right ihl ihr =>
    rw [seekPath]
    split_ifs
    · exact ihl (by simpa using h)
    · exact ihr h

@[simp] theorem onTop_tree (t : AVLTree Key Value) (stack : List (AVLNode Key Value)) :
    (onTop t stack).tree = t := by
  cases stack <;> rfl

theorem Pending.onTop {t : AVLTree Key Value} {stack : List (AVLNode Key Value)}
    (h : .null ∉ stack) : Pending (onTop t stack) (pending stack) :=
  ⟨stack, by rw [onTop_tree], h, rfl⟩

/-- **`SeekToFirst` leaves every entry to visit.** -/
theorem pending_seekToFirst (it : AVLIterator Key Value) :
    Pending it.seekToFirst it.tree.root.entries := by
  have hnull : .null ∉ pushLeftPath it.tree.root [] := null_notMem_pushLeftPath List.not_mem_nil
  have h := Pending.onTop (t := it.tree) hnull
  rwa [pending_pushLeftPath, pending_nil, List.append_nil] at h

/-- **`Seek` leaves the entries from its target on to visit.** -/
theorem pending_seek [LinearOrder Key] (it : AVLIterator Key Value) (h : it.tree.root.Ordered)
    (target : Key) : Pending (it.seek target) (it.tree.root.entries.filter (target ≤ ·.1)) := by
  have hnull : .null ∉ seekPath target it.tree.root [] := null_notMem_seekPath List.not_mem_nil
  have hseek := Pending.onTop (t := it.tree) hnull
  rwa [pending_seekPath h, pending_nil, List.append_nil] at hseek

/-- A stack of nodes that stands for nothing is empty. -/
theorem eq_nil_of_pending {stack : List (AVLNode Key Value)} (h : .null ∉ stack)
    (hes : pending stack = []) : stack = [] := by
  cases stack with
  | nil => rfl
  | cons n stack =>
    cases n with
    | null => exact absurd List.mem_cons_self h
    | node key value left right => simp [pending, pendingAt] at hes

/-- **`Next` takes off the first entry**, and it is the one the iterator stood on. -/
theorem Pending.next {it : AVLIterator Key Value} {e : Key × Value} {es : List (Key × Value)}
    (h : Pending it (e :: es)) :
    it.valid = true ∧ it.entry = .ok e ∧ ∃ it', it.next = .ok it' ∧ Pending it' es := by
  obtain ⟨stack, hit, hnull, hes⟩ := h
  cases stack with
  | nil => simp [pending] at hes
  | cons n stack =>
    cases n with
    | null => exact absurd List.mem_cons_self hnull
    | node key value left right =>
      have hstack : AVLNode.null ∉ stack := fun hmem => hnull (List.mem_cons_of_mem _ hmem)
      obtain ⟨rfl, rfl⟩ := List.cons_eq_cons.mp hes
      rw [hit]
      refine ⟨rfl, rfl, _, rfl, ?_⟩
      rw [pushLeftPath_right]
      have hnext := Pending.onTop (t := it.tree) (null_notMem_pushLeftPath (n := right) hstack)
      rwa [pending_pushLeftPath] at hnext

/-- **An iterator yields what it has still to visit.** -/
theorem Pending.yields {it : AVLIterator Key Value} {es : List (Key × Value)} (h : Pending it es) :
    cursor.Yields it es := by
  refine Cursor.Yields.of_pending (P := Pending) (fun it h => ?_) (fun it e es h => h.next) h
  obtain ⟨stack, hit, hnull, hes⟩ := h
  rw [hit, eq_nil_of_pending hnull hes]
  rfl

/-- **A traversal**: from `it` on it visits `es`, whose keys strictly ascend, and it ends after as
many calls of `Next` as there are entries. -/
structure Visits [LinearOrder Key] (it : AVLIterator Key Value) (es : List (Key × Value)) : Prop where
  ascending : es.Pairwise fun e e' => e.1 < e'.1
  visited : ∀ fuel, cursor.visit fuel it = if es.length < fuel then .ok es else .error .diverged
  ends : ∀ n ≤ es.length, ∃ it', cursor.advance n it = .ok it' ∧
    (it'.valid = true ↔ n < es.length)

theorem Pending.visits [LinearOrder Key] {it : AVLIterator Key Value} {es : List (Key × Value)}
    (h : Pending it es) (hes : es.Pairwise fun e e' => e.1 < e'.1) : Visits it es where
  ascending := hes
  visited := h.yields.visit_eq
  ends n hn := by
    obtain ⟨it', hrun, hyields⟩ := h.yields.advance hn
    refine ⟨it', hrun, hyields.valid_iff.trans ?_⟩
    rw [Ne, List.drop_eq_nil_iff, not_le]

/-- **The iterator and the search of an ordered tree**, whatever the iterator was used for before:
`Seek` is for the entries from its target on, `SeekToFirst` for all, and `Search` finds the value of
an entry exactly when there is one for the key. -/
theorem traversal_spec [LinearOrder Key] (it : AVLIterator Key Value) (h : it.tree.root.Ordered) :
    (∀ target, Visits (it.seek target) (it.tree.root.entries.filter (target ≤ ·.1))) ∧
      Visits it.seekToFirst it.tree.root.entries ∧
      ∀ key valuePtr,
        ((it.tree.search key valuePtr).1 = true ↔ ∃ v, (key, v) ∈ it.tree.root.entries) ∧
        ∀ v, (key, v) ∈ it.tree.root.entries →
          (it.tree.search key valuePtr).2 = valuePtr.map fun _ => v := by
  refine ⟨fun target => ?_, (pending_seekToFirst it).visits h.pairwise, fun key valuePtr => ?_⟩
  · exact (pending_seek it h target).visits (h.pairwise.filter _)
  · have hmem : ∀ v, (key, v) ∈ it.tree.root.entries ↔ h.toMap.lookup key = some v :=
      h.toMap.mem_entries_iff
    rw [search_spec h]
    refine ⟨?_, fun v hv => ?_⟩
    · simp only [hmem, SortedMap.contains, Option.isSome_iff_exists]
    · rw [(hmem v).mp hv, Option.elim_some]

/-- A tree that leans to the right. -/
def leaning : AVLTree ℕ Bool :=
  ⟨.node 2 true (.node 1 false .null .null) (.node 5 false .null (.node 7 true .null .null))⟩

/-- Seeking a key between two others, and the traversal a new iterator is positioned for. -/
theorem traversal_spec_leaning :
    cursor.visit 3 ((new leaning).seek 3) = .ok [(5, false), (7, true)] ∧
      cursor.visit 5 (new leaning) = .ok [(1, false), (2, true), (5, false), (7, true)] :=
  have h := traversal_spec (new leaning) (by decide)
  ⟨(h.1 3).visited 3, h.2.1.visited 5⟩

end AVLIterator

end AVLTree

end SmallKV
