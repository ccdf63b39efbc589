import SmallKV.Foundations.Exec
import SmallKV.Utils.Codec

/-!
# Cache/Lru — the reference-counted LRU cache of `cache/lru.h`

Nodes live in a heap; `nodes` lists the cached ones from the most to the least recently used, and
`index` maps a key to its position in that list, named by the node that stands there.  A node that
leaves the cache goes to the garbage station and loses the cache's reference; `unref` destroys it
when no reference is left.

`WF` is the shape of the cache, whatever the counts are.  Each operation keeps it, and
`insert_spec`, `erase_spec` and `get_spec` say what it does to the cached values.
-/

namespace SmallKV

/-- The address of a node. -/
abbrev NodeId := ℕ

/-- `Node`, of `cache/node.h`. -/
structure LruNode (K V : Type) where
  key : K
  val : V
  refCnt : ℤ
  inCache : Bool
  deriving Repr

/-- The key and the value of a node. -/
def LruNode.entry {K V : Type} (nd : LruNode K V) : K × V := (nd.key, nd.val)

/-- `LRU`.  `destroyed` is the sequence of nodes that `destructor` was called for. -/
structure LRU (K V : Type) where
  cap : ℕ
  heap : NodeId → Option (LruNode K V)
  fresh : NodeId
  nodes : List NodeId
  index : K → Option NodeId
  garbageStation : K → Option NodeId
  destroyed : List NodeId

namespace LRU

variable {K V : Type}

/-- The constructor. -/
def new (cap : ℕ) : LRU K V where
  cap := cap
  heap _ := none
  fresh := 0
  nodes := []
  index _ := none
  garbageStation _ := none
  destroyed := []

/-- `*node`. -/
def deref (l : LRU K V) (n : NodeId) : Exec (LruNode K V) := orFault .wildPointer (l.heap n)

section Operations

variable [DecidableEq K]

/-- `ref`. -/
def ref (l : LRU K V) (n : NodeId) : Exec (LRU K V) := do
  let nd ← l.deref n
  return { l with
    heap := Function.update l.heap n (some { nd with refCnt := toInt32 (nd.refCnt + 1) }) }

/-- `unref`. -/
def unref (l : LRU K V) (n : NodeId) : Exec (LRU K V) := do
  let nd ← l.deref n
  let refCnt := toInt32 (nd.refCnt - 1)
  if refCnt ≤ 0 then
    return { l with
      heap := Function.update l.heap n none
      garbageStation := Function.update l.garbageStation nd.key none
      destroyed := l.destroyed ++ [n] }
  else return { l with heap := Function.update l.heap n (some { nd with refCnt := refCnt }) }

/-- `phantom_erase_node`. -/
def phantomEraseNode (l : LRU K V) (n : NodeId) : Exec (LRU K V) := do
  let nd ← l.deref n
  let pos ← orFault .nullPointer (l.index nd.key)
  unref { l with
    heap := Function.update l.heap n (some { nd with inCache := false })
    nodes := l.nodes.erase pos
    index := Function.update l.index nd.key none
    garbageStation := Function.update l.garbageStation nd.key (some n) } n

/-- `nodes.splice(nodes.begin(), nodes, pos)`. -/
def splice (l : LRU K V) (pos : NodeId) : LRU K V := { l with nodes := pos :: l.nodes.erase pos }

/-- `insert`.  A node made for a key that is there already is not linked in anywhere. -/
def insert (l : LRU K V) (key : K) (val : V) : Exec (LRU K V) :=
  let newNode := l.fresh
  let l := { l with
    heap := Function.update l.heap newNode (some ⟨key, val, 1, true⟩)
    fresh := l.fresh + 1 }
  match l.index key with
  | none =>
      let l := { l with
        nodes := newNode :: l.nodes
        index := Function.update l.index key (some newNode) }
      if l.cap < l.nodes.length then do
        let oldNode ← orFault .nullPointer l.nodes.getLast?
        l.phantomEraseNode oldNode
      else return l
  | some pos => return { l.splice pos with index := Function.update l.index key (some pos) }

/-- `erase`. -/
def erase (l : LRU K V) (key : K) : Exec (LRU K V) :=
  match l.index key with
  | none => return l
  | some pos => l.phantomEraseNode pos

/-- `get`: the node, or null. -/
def get (l : LRU K V) (key : K) : Exec (LRU K V × Option NodeId) :=
  match l.index key with
  | none => return (l, none)
  | some pos => do
      let l ← ref { l.splice pos with index := Function.update l.index key (some pos) } pos
      return (l, some pos)

/-- `contains`. -/
def contains (l : LRU K V) (key : K) : Bool := (l.index key).isSome

/-- `release`: for a key that is not in the index, `index[key]` makes a singular iterator. -/
def release (l : LRU K V) (key : K) : Exec (LRU K V) := do
  let pos ← orFault .nullPointer (l.index key)
  l.unref pos

end Operations

/-! ## The shape of the cache -/

/-- **The shape of the cache**: the list has no repetitions, its nodes live, and the index holds
exactly their keys. -/
structure WF (l : LRU K V) : Prop where
  nodup : l.nodes.Nodup
  live : ∀ n ∈ l.nodes, ∃ nd, l.heap n = some nd
  indexed : ∀ k n, l.index k = some n ↔ n ∈ l.nodes ∧ ∃ nd, l.heap n = some nd ∧ nd.key = k
  fresh : ∀ n, l.fresh ≤ n → l.heap n = none

/-- The value cached under a key. -/
def cached (l : LRU K V) (key : K) : Option V :=
  ((l.index key).bind l.heap).map LruNode.val

variable {l l' : LRU K V} {key k : K} {val : V} {n m : NodeId} {nd : LruNode K V}

theorem wf_new (cap : ℕ) : WF (new cap : LRU K V) where
  nodup := List.nodup_nil
  live := by simp [new]
  indexed := by simp [new]
  fresh _ _ := rfl

/-- A cached key has a live node in the list. -/
theorem WF.exists_node (h : WF l) (hk : l.index k = some n) :
    ∃ nd, l.heap n = some nd ∧ nd.key = k ∧ n ∈ l.nodes := by
  obtain ⟨hn, nd, hnd, hkey⟩ := (h.indexed k n).mp hk
  exact ⟨nd, hnd, hkey, hn⟩

/-- A node in the list is found under its key. -/
theorem WF.index_key (h : WF l) (hn : n ∈ l.nodes) (hnd : l.heap n = some nd) :
    l.index nd.key = some n :=
  (h.indexed nd.key n).mpr ⟨hn, nd, hnd, rfl⟩

theorem contains_iff (h : WF l) : l.contains k = true ↔ ∃ v, l.cached k = some v := by
  rw [contains, cached]
  cases hk : l.index k with
  | none => simp
  | some n =>
    obtain ⟨nd, hnd, -⟩ := h.exists_node hk
    simp [hnd]

theorem cached_eq_none (h : WF l) : l.cached k = none ↔ l.index k = none := by
  have hc := contains_iff h (k := k)
  rw [contains] at hc
  cases hk : l.index k <;> cases hv : l.cached k <;> simp_all

/-- A node elsewhere in the list has another key. -/
theorem WF.key_ne (h : WF l) (hn : n ∈ l.nodes) (hnd : l.heap n = some nd) {nd' : LruNode K V}
    (hm : m ∈ l.nodes) (hmd : l.heap m = some nd') (hne : m ≠ n) : nd'.key ≠ nd.key := by
  intro heq
  have hidx := h.index_key hm hmd
  rw [heq, h.index_key hn hnd] at hidx
  exact hne (Option.some.inj hidx).symm

theorem WF.ne_fresh (h : WF l) (hn : n ∈ l.nodes) : n ≠ l.fresh := by
  rintro rfl
  obtain ⟨nd, hnd⟩ := h.live _ hn
  rw [h.fresh _ (Nat.le_refl _)] at hnd
  cases hnd

/-! ## Moving nodes about -/

/-- `l'` has the nodes of `l` in another order, with the same keys and values. -/
structure Shuffled (l l' : LRU K V) : Prop where
  cap : l'.cap = l.cap
  nodes : l'.nodes.Perm l.nodes
  index : l'.index = l.index
  heap : ∀ m ∈ l.nodes, (l'.heap m).map LruNode.entry = (l.heap m).map LruNode.entry
  fresh : ∀ n, l'.fresh ≤ n → l'.heap n = none

namespace Shuffled

theorem node (hs : Shuffled l l') (hm : m ∈ l.nodes) :
    (∃ nd, l'.heap m = some nd ∧ nd.key = k) ↔ ∃ nd, l.heap m = some nd ∧ nd.key = k := by
  have heq := hs.heap m hm
  cases h : l.heap m <;> cases h' : l'.heap m <;> simp_all [LruNode.entry]

/-- **Reordering keeps the shape of the cache.** -/
theorem wf (hs : Shuffled l l') (h : WF l) : WF l' where
  nodup := hs.nodes.nodup_iff.mpr h.nodup
  live m hm := by
    have hm' := hs.nodes.mem_iff.mp hm
    obtain ⟨nd, hnd⟩ := h.live m hm'
    obtain ⟨nd', hnd', -⟩ := (hs.node hm').mpr ⟨nd, hnd, rfl⟩
    exact ⟨nd', hnd'⟩
  indexed k m := by
    rw [hs.index, h.indexed, hs.nodes.mem_iff]
    exact and_congr_right fun hm => (hs.node hm).symm
  fresh := hs.fresh

/-- **Reordering keeps the cached values.** -/
theorem cached (hs : Shuffled l l') (h : WF l) (k : K) : l'.cached k = l.cached k := by
  rw [LRU.cached, LRU.cached, hs.index]
  cases hk : l.index k with
  | none => rfl
  | some n =>
    obtain ⟨nd, hnd, -, hn⟩ := h.exists_node hk
    have heq := hs.heap n hn
    cases h' : l'.heap n <;> simp_all [LruNode.entry]

end Shuffled

theorem WF.lt_fresh (h : WF l) (hnd : l.heap n = some nd) : n < l.fresh := by
  by_contra hle
  rw [h.fresh n (Nat.le_of_not_lt hle)] at hnd
  cases hnd

/-- Setting the count of a node moves nothing. -/
theorem shuffled_count (h : WF l) (hnd : l.heap n = some nd) (hnodes : l'.nodes.Perm l.nodes)
    (hindex : l'.index = l.index) (hcap : l'.cap = l.cap) (hfresh : l'.fresh = l.fresh)
    (hheap : ∀ m ≠ n, l'.heap m = l.heap m) {cnt : ℤ}
    (hcount : l'.heap n = some { nd with refCnt := cnt }) : Shuffled l l' where
  cap := hcap
  nodes := hnodes
  index := hindex
  heap m _ := by
    by_cases hmn : m = n
    · rw [hmn, hcount, hnd]
      rfl
    · rw [hheap m hmn]
  fresh m hm := by
    rw [hfresh] at hm
    rw [hheap m (Nat.ne_of_gt (Nat.lt_of_lt_of_le (h.lt_fresh hnd) hm)), h.fresh m hm]

theorem perm_splice (hn : n ∈ l.nodes) : (l.splice n).nodes.Perm l.nodes :=
  (List.perm_cons_erase hn).symm

/-- The cache after `insert` of a key that is cached: its node moves to the front, and the new node
is linked in nowhere. -/
def touch (l : LRU K V) (n : NodeId) (key : K) (val : V) : LRU K V :=
  { l.splice n with
    heap := Function.update l.heap l.fresh (some ⟨key, val, 1, true⟩)
    fresh := l.fresh + 1 }

theorem shuffled_touch (h : WF l) (hn : n ∈ l.nodes) (key : K) (val : V) :
    Shuffled l (l.touch n key val) where
  cap := rfl
  nodes := perm_splice hn
  index := rfl
  heap m hm := by
    simp only [touch, Function.update_of_ne (h.ne_fresh hm)]
  fresh m hm := by
    have hm' : l.fresh + 1 ≤ m := hm
    exact (Function.update_of_ne (Nat.ne_of_gt hm') _ _).trans
      (h.fresh m (Nat.le_of_succ_le hm'))

variable [DecidableEq K]

/-! ## Reference counts -/

/-- What `unref` does: the node loses a reference, and is destroyed when none is left. -/
structure Unref (l : LRU K V) (n : NodeId) (nd : LruNode K V) (l' : LRU K V) : Prop where
  cap : l'.cap = l.cap
  fresh : l'.fresh = l.fresh
  nodes : l'.nodes = l.nodes
  index : l'.index = l.index
  heap : ∀ m ≠ n, l'.heap m = l.heap m
  outcome :
    toInt32 (nd.refCnt - 1) ≤ 0 ∧ l'.heap n = none ∧ l'.destroyed = l.destroyed ++ [n] ∨
    0 < toInt32 (nd.refCnt - 1) ∧ l'.destroyed = l.destroyed ∧
      l'.heap n = some { nd with refCnt := toInt32 (nd.refCnt - 1) }

/-- **`unref` of a live node.** -/
theorem unref_spec (hn : l.heap n = some nd) : ∃ l', l.unref n = .ok l' ∧ Unref l n nd l' := by
  by_cases hcnt : toInt32 (nd.refCnt - 1) ≤ 0
  · refine ⟨_, by simp only [unref, deref, hn, orFault_some, ok_bind, if_pos hcnt]; rfl, ?_⟩
    refine ⟨rfl, rfl, rfl, rfl, fun m hm => Function.update_of_ne hm _ _, Or.inl ⟨hcnt, ?_, rfl⟩⟩
    exact Function.update_self _ _ _
  · refine ⟨_, by simp only [unref, deref, hn, orFault_some, ok_bind, if_neg hcnt]; rfl, ?_⟩
    refine ⟨rfl, rfl, rfl, rfl, fun m hm => Function.update_of_ne hm _ _,
      Or.inr ⟨by omega, rfl, ?_⟩⟩
    exact Function.update_self _ _ _

/-- What `phantom_erase_node` does: the node leaves the list and the index, and loses the cache's
reference. -/
structure Left (l : LRU K V) (n : NodeId) (nd : LruNode K V) (l' : LRU K V) : Prop where
  cap : l'.cap = l.cap
  fresh : l'.fresh = l.fresh
  nodes : l'.nodes = l.nodes.erase n
  index : l'.index = Function.update l.index nd.key none
  heap : ∀ m ≠ n, l'.heap m = l.heap m
  outcome :
    toInt32 (nd.refCnt - 1) ≤ 0 ∧ l'.heap n = none ∧ l'.destroyed = l.destroyed ++ [n] ∨
    0 < toInt32 (nd.refCnt - 1) ∧ l'.destroyed = l.destroyed ∧
      l'.heap n = some { nd with refCnt := toInt32 (nd.refCnt - 1), inCache := false }

/-- **`phantom_erase_node` of a cached node.** -/
theorem phantomEraseNode_spec (h : WF l) (hn : n ∈ l.nodes) (hnd : l.heap n = some nd) :
    ∃ l', l.phantomEraseNode n = .ok l' ∧ Left l n nd l' := by
  let l₁ : LRU K V := { l with
    heap := Function.update l.heap n (some { nd with inCache := false })
    nodes := l.nodes.erase n
    index := Function.update l.index nd.key none
    garbageStation := Function.update l.garbageStation nd.key (some n) }
  obtain ⟨l', hrun, hu⟩ := unref_spec (l := l₁) (n := n) (Function.update_self _ _ _)
  refine ⟨l', ?_, hu.cap, hu.fresh, hu.nodes, hu.index, fun m hm => ?_, hu.outcome⟩
  · simp only [phantomEraseNode, deref, hnd, orFault_some, ok_bind, h.index_key hn hnd]
    exact hrun
  · rw [hu.heap m hm]
    exact Function.update_of_ne hm _ _

/-- The other nodes stay in the list. -/
theorem Left.mem_nodes (hl : Left l n nd l') (h : l.nodes.Nodup) {m : NodeId} :
    m ∈ l'.nodes ↔ m ≠ n ∧ m ∈ l.nodes := by
  rw [hl.nodes, h.mem_erase_iff]

/-- No other node is destroyed. -/
theorem Left.mem_destroyed (hl : Left l n nd l') {m : NodeId} (hm : m ≠ n) :
    m ∈ l'.destroyed ↔ m ∈ l.destroyed := by
  rcases hl.outcome with ⟨-, -, heq⟩ | ⟨-, heq, -⟩ <;> simp [heq, hm]

/-- **A node that leaves takes its key along and nothing else.** -/
theorem Left.wf (hl : Left l n nd l') (h : WF l) (hn : n ∈ l.nodes) (hnd : l.heap n = some nd) :
    WF l' where
  nodup := hl.nodes ▸ h.nodup.erase n
  live m hm := by
    obtain ⟨hne, hm⟩ := (hl.mem_nodes h.nodup).mp hm
    rw [hl.heap m hne]
    exact h.live m hm
  indexed k m := by
    rw [hl.mem_nodes h.nodup, hl.index]
    by_cases hmn : m = n
    · subst hmn
      simp only [ne_eq, not_true_eq_false, false_and, iff_false]
      by_cases hk : k = nd.key
      · simp [hk]
      · rw [Function.update_of_ne hk, h.indexed]
        rintro ⟨-, nd', hnd', hkey⟩
        obtain rfl : nd = nd' := Option.some.inj (hnd.symm.trans hnd')
        exact hk hkey.symm
    · rw [hl.heap m hmn]
      by_cases hk : k = nd.key
      · subst hk
        rw [Function.update_self]
        refine iff_of_false (by simp) ?_
        rintro ⟨⟨-, hm⟩, nd', hmd, hkey⟩
        exact h.key_ne hn hnd hm hmd hmn hkey
      · rw [Function.update_of_ne hk, h.indexed]
        simp [hmn]
  fresh m hm := by
    have hm' : l.fresh ≤ m := hl.fresh ▸ hm
    have hne : m ≠ n := by
      rintro rfl
      rw [h.fresh m hm'] at hnd
      cases hnd
    rw [hl.heap m hne, h.fresh m hm']

theorem Left.cached (hl : Left l n nd l') (h : WF l) (hn : n ∈ l.nodes)
    (hnd : l.heap n = some nd) (k : K) :
    l'.cached k = if k = nd.key then none else l.cached k := by
  rw [LRU.cached, LRU.cached, hl.index]
  by_cases hk : k = nd.key
  · simp [hk]
  · rw [Function.update_of_ne hk, if_neg hk]
    cases hidx : l.index k with
    | none => rfl
    | some m =>
      have hne : m ≠ n := by
        rintro rfl
        obtain ⟨nd', hnd', hkey, -⟩ := h.exists_node hidx
        obtain rfl : nd = nd' := Option.some.inj (hnd.symm.trans hnd')
        exact hk hkey.symm
      simp [hl.heap m hne]

/-! ## The operations -/

/-- **`get` of a cached key** moves its node to the front and counts a reference. -/
theorem get_present (hk : l.index key = some n) (hnd : l.heap n = some nd) :
    l.get key = .ok ({ l with
      heap := Function.update l.heap n (some { nd with refCnt := toInt32 (nd.refCnt + 1) })
      nodes := n :: l.nodes.erase n }, some n) := by
  have hindex : Function.update l.index key (some n) = l.index := by
    rw [← hk, Function.update_eq_self]
  simp only [get, hk, ref, deref, splice, hnd, orFault_some, ok_bind, hindex]
  rfl

/-- **`get` answers for the cached values**, and keeps them. -/
theorem get_spec (h : WF l) (key : K) : ∃ l' r, l.get key = .ok (l', r) ∧ Shuffled l l' ∧
    (r.bind l'.heap).map LruNode.val = l.cached key := by
  cases hk : l.index key with
  | none =>
    refine ⟨l, none, by simp [get, hk], ⟨rfl, .refl _, rfl, fun _ _ => rfl, h.fresh⟩, ?_⟩
    simp [cached, hk]
  | some n =>
    obtain ⟨nd, hnd, -, hn⟩ := h.exists_node hk
    refine ⟨_, _, get_present hk hnd, ?_, by simp [cached, hk, hnd]⟩
    exact shuffled_count h hnd (perm_splice hn) rfl rfl rfl
      (fun m hm => Function.update_of_ne hm _ _) (Function.update_self _ _ _)

/-- **`erase` drops the cached value** and no other. -/
theorem erase_spec (h : WF l) (key : K) : ∃ l', l.erase key = .ok l' ∧ WF l' ∧ l'.cap = l.cap ∧
    ∀ k, l'.cached k = if k = key then none else l.cached k := by
  cases hk : l.index key with
  | none =>
    refine ⟨l, by simp [erase, hk], h, rfl, fun k => ?_⟩
    by_cases hkey : k = key
    · simp [hkey, cached, hk]
    · simp [hkey]
  | some n =>
    obtain ⟨nd, hnd, rfl, hn⟩ := h.exists_node hk
    obtain ⟨l', hrun, hleft⟩ := phantomEraseNode_spec h hn hnd
    exact ⟨l', by simp [erase, hk, hrun], hleft.wf h hn hnd, hleft.cap, hleft.cached h hn hnd⟩

/-- The cache after `insert` has put a new node in front, before it evicts one. -/
def pushFront (l : LRU K V) (key : K) (val : V) : LRU K V :=
  { l with
    heap := Function.update l.heap l.fresh (some ⟨key, val, 1, true⟩)
    fresh := l.fresh + 1
    nodes := l.fresh :: l.nodes
    index := Function.update l.index key (some l.fresh) }

theorem heap_pushFront_fresh :
    (l.pushFront key val).heap l.fresh = some ⟨key, val, 1, true⟩ :=
  Function.update_self _ _ _

theorem heap_pushFront_of_ne {m : NodeId} (hm : m ≠ l.fresh) :
    (l.pushFront key val).heap m = l.heap m :=
  Function.update_of_ne hm _ _

/-- Behind the new node the last one stays the last. -/
theorem getLast?_pushFront (hne : l.nodes ≠ []) :
    (l.pushFront key val).nodes.getLast? = l.nodes.getLast? := by
  obtain ⟨m, ms, hsplit⟩ := List.exists_cons_of_ne_nil hne
  rw [pushFront, hsplit, List.getLast?_cons_cons]

section PushFront

variable (h : WF l) (hk : l.index key = none)

include h

include hk in
/-- Its shape is kept. -/
theorem wf_pushFront (val : V) : WF (l.pushFront key val) where
  nodup := List.nodup_cons.mpr ⟨fun hn => h.ne_fresh hn rfl, h.nodup⟩
  live m hm := by
    rcases List.mem_cons.mp hm with rfl | hm
    · exact ⟨_, heap_pushFront_fresh⟩
    · obtain ⟨nd, hnd⟩ := h.live m hm
      exact ⟨nd, (heap_pushFront_of_ne (h.ne_fresh hm)).trans hnd⟩
  indexed k m := by
    simp only [pushFront, List.mem_cons]
    by_cases hm : m = l.fresh
    · subst hm
      by_cases hkey : k = key
      · simp [hkey]
      · rw [Function.update_of_ne hkey]
        refine iff_of_false (fun hidx => ?_) (by simp [Ne.symm hkey])
        obtain ⟨nd, hnd, -, hn⟩ := h.exists_node hidx
        exact h.ne_fresh hn rfl
    · rw [Function.update_of_ne hm]
      by_cases hkey : k = key
      · subst hkey
        rw [Function.update_self]
        refine iff_of_false (by simpa using Ne.symm hm) ?_
        rintro ⟨hmem, hnd⟩
        have hidx := (h.indexed k m).mpr ⟨hmem.resolve_left hm, hnd⟩
        rw [hk] at hidx
        cases hidx
      · rw [Function.update_of_ne hkey, h.indexed]
        simp [hm]
  fresh m hm := by
    have hm' : l.fresh + 1 ≤ m := hm
    exact (heap_pushFront_of_ne (Nat.ne_of_gt hm')).trans (h.fresh m (Nat.le_of_succ_le hm'))

theorem cached_pushFront (k : K) :
    (l.pushFront key val).cached k = if k = key then some val else l.cached k := by
  rw [cached, cached]
  by_cases hkey : k = key
  · simp [hkey, pushFront]
  · simp only [pushFront, Function.update_of_ne hkey, if_neg hkey]
    cases hidx : l.index k with
    | none => rfl
    | some n =>
      obtain ⟨nd, hnd, -, hn⟩ := h.exists_node hidx
      simp [h.ne_fresh hn]

include hk in
omit h in
/-- A cache below its capacity takes the new node. -/
theorem insert_roomy (hcap : l.nodes.length < l.cap) (val : V) :
    l.insert key val = .ok (l.pushFront key val) := by
  have hfull : ¬ l.cap < (l.fresh :: l.nodes).length := Nat.not_lt.mpr hcap
  simp only [insert, hk, if_neg hfull]
  rfl

include hk in
omit h in
/-- A cache at its capacity loses the last node. -/
theorem insert_eq_phantomEraseNode (hcap : l.cap ≤ l.nodes.length) (val : V)
    (hlast : (l.pushFront key val).nodes.getLast? = some n) :
    l.insert key val = (l.pushFront key val).phantomEraseNode n := by
  have hfull : l.cap < (l.fresh :: l.nodes).length := Nat.lt_succ_of_le hcap
  have hlast : (l.fresh :: l.nodes).getLast? = some n := hlast
  simp only [insert, hk, if_pos hfull, hlast, orFault_some, ok_bind]
  rfl

include hk in
/-- A cache at its capacity evicts the last node for it. -/
theorem insert_full (hcap : l.cap ≤ l.nodes.length) (val : V) :
    ∃ l' n nd, l.insert key val = .ok l' ∧ (l.pushFront key val).nodes.getLast? = some n ∧
      (l.pushFront key val).heap n = some nd ∧ Left (l.pushFront key val) n nd l' := by
  have hwf := wf_pushFront h hk val
  obtain ⟨n, hlast⟩ : ∃ n, (l.fresh :: l.nodes).getLast? = some n :=
    ⟨_, List.getLast?_eq_some_getLast (List.cons_ne_nil _ _)⟩
  have hn : n ∈ (l.pushFront key val).nodes := List.mem_of_getLast? hlast
  obtain ⟨nd, hnd⟩ := hwf.live n hn
  obtain ⟨l', hrun, hleft⟩ := phantomEraseNode_spec hwf hn hnd
  exact ⟨l', n, nd, (insert_eq_phantomEraseNode hk hcap val hlast).trans hrun, hlast, hnd, hleft⟩

include hk in
/-- **Inserting a key that is not cached** puts a new node in front; a cache over its capacity then
evicts the last node. -/
theorem insert_absent (val : V) :
    l.insert key val = .ok (l.pushFront key val) ∧ l.nodes.length < l.cap ∨
    ∃ l' n nd, l.insert key val = .ok l' ∧ n ∈ (l.pushFront key val).nodes ∧
      (l.pushFront key val).heap n = some nd ∧ Left (l.pushFront key val) n nd l' := by
  rcases Nat.lt_or_ge l.nodes.length l.cap with hcap | hcap
  · exact Or.inl ⟨insert_roomy hk hcap val, hcap⟩
  · obtain ⟨l', n, nd, hrun, hlast, hnd, hleft⟩ := insert_full h hk hcap val
    exact Or.inr ⟨l', n, nd, hrun, List.mem_of_getLast? hlast, hnd, hleft⟩

end PushFront

theorem insert_present (hk : l.index key = some n) :
    l.insert key val = .ok (l.touch n key val) := by
  have hindex : Function.update l.index key (some n) = l.index := by
    rw [← hk, Function.update_eq_self]
  simp only [insert, hk, splice, hindex]
  rfl

/-- **`insert` caches the value only under a key that is not cached**, and may evict one key. -/
theorem insert_spec (h : WF l) (key : K) (val : V) :
    ∃ l', l.insert key val = .ok l' ∧ WF l' ∧ l'.cap = l.cap ∧
      ∀ k v, l'.cached k = some v →
        l.cached k = some v ∨ k = key ∧ v = val ∧ l.cached k = none := by
  cases hk : l.index key with
  | some n =>
    obtain ⟨nd, -, -, hn⟩ := h.exists_node hk
    have hs := shuffled_touch h hn key val
    exact ⟨_, insert_present hk, hs.wf h, rfl, fun k v hv => Or.inl (hs.cached h k ▸ hv)⟩
  | none =>
    have hnone : l.cached key = none := (cached_eq_none h).mpr hk
    have hpush : ∀ k v, (l.pushFront key val).cached k = some v →
        l.cached k = some v ∨ k = key ∧ v = val ∧ l.cached k = none := by
      intro k v hv
      rw [cached_pushFront h] at hv
      by_cases hkey : k = key
      · rw [if_pos hkey] at hv
        exact Or.inr ⟨hkey, (Option.some.inj hv).symm, hkey ▸ hnone⟩
      · exact Or.inl ((if_neg hkey).symm.trans hv)
    have hwf := wf_pushFront h hk val
    rcases insert_absent h hk val with ⟨hrun, -⟩ | ⟨l', n, nd, hrun, hn, hnd, hleft⟩
    · exact ⟨_, hrun, hwf, rfl, hpush⟩
    · refine ⟨l', hrun, hleft.wf hwf hn hnd, hleft.cap, fun k v hv => hpush k v ?_⟩
      rw [hleft.cached hwf hn hnd] at hv
      exact (Option.ite_none_left_eq_some.mp hv).2

end LRU

end SmallKV
