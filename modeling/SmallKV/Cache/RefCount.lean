import SmallKV.Cache.Lru

/-!
# Cache/RefCount — pins on an LRU cache, and the nodes they keep alive

A caller pins a node by a `get` that returns it and gives the pin back by a `release` of the key.
`Session` is a cache with the pins outstanding on it, and `Safe` says that counting references does
its job: cached and pinned nodes are alive, and a node that left the cache is destroyed, once, as
soon as nothing pins it.

`release` finds its node through the index, so it releases the right one only while the key still
denotes the pinned node.  Under that condition, and as long as the counts stay inside an `int32_t`,
every run is safe (`safe_of_released_while_cached`); a pin that outlives its cache entry
destroys a node that is still cached (`not_refCountSafe`).
-/

namespace SmallKV.LRU

variable {K V : Type}

/-- A cache, the outstanding pins, and the nodes that have been put into the cache. -/
structure Session (K V : Type) where
  lru : LRU K V
  pins : List (K × NodeId)
  entered : List NodeId

/-- The calls on a cache.  A `release` names the pin it gives back; the cache is told the key
only. -/
inductive Call (K V : Type)
  | insert (key : K) (val : V)
  | erase (key : K)
  | get (key : K)
  | release (key : K) (pin : NodeId)
  deriving Repr

namespace Session

/-- A session on a new cache. -/
def new (cap : ℕ) : Session K V := ⟨LRU.new cap, [], []⟩

/-- A caller releases only what a `get` of that key returned and it has not released yet. -/
def Legal (s : Session K V) : Call K V → Prop
  | .release key pin => (key, pin) ∈ s.pins
  | _ => True

/-- The number of pins on a node. -/
def pinsOn (s : Session K V) (n : NodeId) : ℕ := s.pins.countP fun p => p.2 = n

/-- The key of a pin still denotes the pinned node when it is released, and no node has so many
pins that one more would overflow its `int32_t` count. -/
def Kept (s : Session K V) : Call K V → Prop
  | .release key pin => s.lru.index key = some pin
  | .get key => ∀ n, s.lru.index key = some n → s.pinsOn n + 2 < 2 ^ 31
  | _ => True

instance [DecidableEq K] (s : Session K V) : DecidablePred s.Legal
  | .release key pin => inferInstanceAs (Decidable ((key, pin) ∈ s.pins))
  | .insert _ _ | .erase _ | .get _ => .isTrue trivial

instance (s : Session K V) : DecidablePred s.Kept
  | .release key pin => inferInstanceAs (Decidable (s.lru.index key = some pin))
  | .get key => inferInstanceAs (Decidable (∀ n ∈ s.lru.index key, s.pinsOn n + 2 < 2 ^ 31))
  | .insert _ _ | .erase _ => .isTrue trivial

/-- **Counting references works**: what is cached or pinned is alive, no node is destroyed twice,
and a node that left the cache is destroyed exactly when nothing pins it. -/
structure Safe (s : Session K V) : Prop where
  cached : ∀ n, n ∈ s.lru.nodes ∨ (∃ k, s.lru.index k = some n) → n ∉ s.lru.destroyed
  pinned : ∀ k n, (k, n) ∈ s.pins → n ∉ s.lru.destroyed
  once : s.lru.destroyed.Nodup
  left : ∀ n ∈ s.entered, n ∉ s.lru.nodes → (n ∈ s.lru.destroyed ↔ ∀ k, (k, n) ∉ s.pins)

/-! ## The count of a node -/

/-- The references the session accounts for: the cache's own, and the pins. -/
def refs (s : Session K V) (n : NodeId) : ℕ := (if n ∈ s.lru.nodes then 1 else 0) + s.pinsOn n

/-- **The counting invariant**: a node that was put into the cache and still has references is alive
and its count is their number; one without references is destroyed. -/
structure Inv (s : Session K V) : Prop where
  wf : WF s.lru
  entered : ∀ n ∈ s.lru.nodes, n ∈ s.entered
  pins : ∀ p ∈ s.pins, p.2 ∈ s.entered
  older : ∀ n ∈ s.entered, n < s.lru.fresh
  bound : ∀ n, s.refs n < 2 ^ 31
  alive : ∀ n ∈ s.entered, 0 < s.refs n → n ∉ s.lru.destroyed ∧
    ∃ nd, s.lru.heap n = some nd ∧ nd.refCnt = s.refs n
  dead : ∀ n ∈ s.entered, s.refs n = 0 → n ∈ s.lru.destroyed
  destroyed : s.lru.destroyed.Nodup ∧ ∀ n ∈ s.lru.destroyed, n ∈ s.entered

variable {s s' : Session K V} {key : K} {val : V} {n m pin : NodeId}

theorem pinsOn_pos : 0 < s.pinsOn n ↔ ∃ k, (k, n) ∈ s.pins := by
  rw [pinsOn, List.countP_pos_iff]
  constructor
  · rintro ⟨⟨k, m⟩, hm, heq⟩
    exact ⟨k, (of_decide_eq_true heq : m = n) ▸ hm⟩
  · rintro ⟨k, hk⟩
    exact ⟨(k, n), hk, decide_eq_true rfl⟩

theorem refs_pos_of_mem (hn : n ∈ s.lru.nodes) : 0 < s.refs n := by
  simp [refs, hn]

theorem refs_pos_of_pin {k : K} (hk : (k, n) ∈ s.pins) : 0 < s.refs n := by
  have hpos : 0 < s.pinsOn n := pinsOn_pos.mpr ⟨k, hk⟩
  rw [refs]
  omega

/-- **The invariant is what safety needs.** -/
theorem Inv.safe (h : Inv s) : Safe s where
  cached n hn := by
    have hmem : n ∈ s.lru.nodes := by
      rcases hn with hn | ⟨k, hk⟩
      · exact hn
      · exact ((h.wf.indexed k n).mp hk).1
    exact (h.alive n (h.entered n hmem) (refs_pos_of_mem hmem)).1
  pinned k n hk := (h.alive n (h.pins (k, n) hk) (refs_pos_of_pin hk)).1
  once := h.destroyed.1
  left n hn hout := by
    have hrefs : s.refs n = s.pinsOn n := by simp [refs, hout]
    constructor
    · intro hdead k hk
      exact (h.alive n hn (refs_pos_of_pin hk)).1 hdead
    · intro hfree
      refine h.dead n hn ?_
      rw [hrefs]
      by_contra hne
      obtain ⟨k, hk⟩ := pinsOn_pos.mp (Nat.pos_of_ne_zero hne)
      exact hfree k hk

theorem inv_new (cap : ℕ) : Inv (new cap : Session K V) where
  wf := wf_new cap
  entered := by simp [new, LRU.new]
  pins := by simp [new]
  older := by simp [new]
  bound n := by simp [new, refs, pinsOn, LRU.new]
  alive := by simp [new]
  dead := by simp [new]
  destroyed := by simp [new, LRU.new]

/-- Moving a node to the front, with a new node that is linked in nowhere. -/
theorem Inv.touch (h : Inv s) (hn : n ∈ s.lru.nodes) (key : K) (val : V) :
    Inv { s with lru := s.lru.touch n key val } := by
  have hmem : ∀ m, m ∈ (s.lru.touch n key val).nodes ↔ m ∈ s.lru.nodes := fun m =>
    (shuffled_touch h.wf hn key val).nodes.mem_iff
  have hrefs : ∀ m, refs { s with lru := s.lru.touch n key val } m = s.refs m := fun m => by
    simp only [refs, pinsOn, hmem]
  refine ⟨(shuffled_touch h.wf hn key val).wf h.wf, ?_, h.pins, ?_, ?_, ?_, ?_, h.destroyed⟩
  · exact fun m hm => h.entered m ((hmem m).mp hm)
  · exact fun m hm => Nat.lt_succ_of_lt (h.older m hm)
  · exact fun m => hrefs m ▸ h.bound m
  · intro m hm hpos
    rw [hrefs] at hpos ⊢
    obtain ⟨hlive, nd, hnd, hcnt⟩ := h.alive m hm hpos
    exact ⟨hlive, nd, (Function.update_of_ne (Nat.ne_of_lt (h.older m hm)) _ _).trans hnd, hcnt⟩
  · exact fun m hm hzero => h.dead m hm (hrefs m ▸ hzero)

/-- **Counting a pin on a cached node**, up or down. -/
theorem Inv.recount (h : Inv s) (hn : n ∈ s.lru.nodes) (hwf : WF s'.lru)
    (hnodes : ∀ m, m ∈ s'.lru.nodes ↔ m ∈ s.lru.nodes) (hentered : s'.entered = s.entered)
    (hfresh : s'.lru.fresh = s.lru.fresh) (hdestroyed : s'.lru.destroyed = s.lru.destroyed)
    (hpins : ∀ p ∈ s'.pins, p.2 ∈ s.entered) (hother : ∀ m ≠ n, s'.pinsOn m = s.pinsOn m)
    (hheap : ∀ m ≠ n, s'.lru.heap m = s.lru.heap m) (hbound : s'.pinsOn n + 1 < 2 ^ 31)
    (hcount : ∃ nd, s'.lru.heap n = some nd ∧ nd.refCnt = s'.pinsOn n + 1) : Inv s' := by
  have hself : s'.refs n = s'.pinsOn n + 1 := by
    rw [refs, if_pos ((hnodes n).mpr hn), Nat.add_comm]
  have hrefs : ∀ m ≠ n, s'.refs m = s.refs m := fun m hm => by
    simp only [refs, hnodes, hother m hm]
  refine ⟨hwf, ?_, ?_, ?_, ?_, ?_, ?_, ?_⟩
  · exact fun m hm => hentered ▸ h.entered m ((hnodes m).mp hm)
  · exact fun p hp => hentered ▸ hpins p hp
  · exact fun m hm => hfresh ▸ h.older m (hentered ▸ hm)
  · intro m
    by_cases hmn : m = n
    · rwa [hmn, hself]
    · exact hrefs m hmn ▸ h.bound m
  · intro m hm hpos
    rw [hdestroyed]
    by_cases hmn : m = n
    · subst hmn
      obtain ⟨nd, hnd, hcnt⟩ := hcount
      exact ⟨(h.alive m (h.entered m hn) (refs_pos_of_mem hn)).1, nd, hnd, by rw [hcnt, hself]; rfl⟩
    · rw [hrefs m hmn] at hpos ⊢
      exact hheap m hmn ▸ h.alive m (hentered ▸ hm) hpos
  · intro m hm hzero
    by_cases hmn : m = n
    · subst hmn
      omega
    · exact hdestroyed ▸ h.dead m (hentered ▸ hm) (hrefs m hmn ▸ hzero)
  · exact hdestroyed ▸ hentered ▸ h.destroyed

/-! ## The calls -/

variable [DecidableEq K] {l' : LRU K V} {nd : LruNode K V}

/-- One call; `get` answers with a node, or null. -/
def step (s : Session K V) : Call K V → Exec (Session K V × Option NodeId)
  | .insert key val => do
      let entered := if s.lru.contains key then s.entered else s.lru.fresh :: s.entered
      return (⟨← s.lru.insert key val, s.pins, entered⟩, none)
  | .erase key => do return (⟨← s.lru.erase key, s.pins, s.entered⟩, none)
  | .get key => do
      let (lru, r) ← s.lru.get key
      return (⟨lru, (r.map fun n => (key, n)).toList ++ s.pins, s.entered⟩, r)
  | .release key pin => do
      return (⟨← s.lru.release key, s.pins.erase (key, pin), s.entered⟩, none)

omit [DecidableEq K] in
/-- A cached node counts its pins and the cache. -/
theorem Inv.refCnt_eq (h : Inv s) (hn : n ∈ s.lru.nodes) (hnd : s.lru.heap n = some nd) :
    nd.refCnt = s.pinsOn n + 1 := by
  obtain ⟨-, nd', hnd', hcnt⟩ := h.alive n (h.entered n hn) (refs_pos_of_mem hn)
  obtain rfl : nd = nd' := Option.some.inj (hnd.symm.trans hnd')
  rw [hcnt, refs, if_pos hn]
  omega

omit [DecidableEq K] in
/-- Without the cache's reference it counts its pins. -/
theorem Inv.toInt32_unref (h : Inv s) (hn : n ∈ s.lru.nodes) (hnd : s.lru.heap n = some nd) :
    toInt32 (nd.refCnt - 1) = s.pinsOn n := by
  have hbound := h.bound n
  rw [refs, if_pos hn] at hbound
  rw [h.refCnt_eq hn hnd, Int.add_sub_cancel, toInt32_of_lt (by omega)]

/-- **A node that leaves the cache** is left to its pins, and destroyed when it has none. -/
theorem Inv.left (h : Inv s) (hn : n ∈ s.lru.nodes) (hnd : s.lru.heap n = some nd)
    (hl : Left s.lru n nd l') : Inv { s with lru := l' } := by
  have hmem : ∀ m, m ∈ l'.nodes ↔ m ≠ n ∧ m ∈ s.lru.nodes := fun m => hl.mem_nodes h.wf.nodup
  have hself : refs { s with lru := l' } n = s.pinsOn n ∧ s.refs n = 1 + s.pinsOn n := by
    simp [refs, pinsOn, hmem, hn]
  have hother : ∀ m ≠ n, refs { s with lru := l' } m = s.refs m := fun m hm => by
    simp [refs, pinsOn, hmem, hm]
  obtain ⟨hlive, -⟩ := h.alive n (h.entered n hn) (refs_pos_of_mem hn)
  have hbound := h.bound n
  have hout := hl.outcome
  rw [h.toInt32_unref hn hnd] at hout
  refine ⟨hl.wf h.wf hn hnd, ?_, h.pins, ?_, ?_, ?_, ?_, ?_⟩
  · exact fun m hm => h.entered m ((hmem m).mp hm).2
  · exact fun m hm => hl.fresh ▸ h.older m hm
  · intro m
    by_cases hmn : m = n
    · subst hmn
      omega
    · exact hother m hmn ▸ h.bound m
  · intro m hm hpos
    by_cases hmn : m = n
    · subst hmn
      rcases hout with ⟨hle, -⟩ | ⟨-, hd, hheap⟩
      · omega
      · exact ⟨hd ▸ hlive, _, hheap, by rw [hself.1]⟩
    · rw [hother m hmn] at hpos ⊢
      obtain ⟨hm', hex⟩ := h.alive m hm hpos
      exact ⟨(hl.mem_destroyed hmn).not.mpr hm', hl.heap m hmn ▸ hex⟩
  · intro m hm hzero
    by_cases hmn : m = n
    · subst hmn
      rcases hout with ⟨-, -, hd⟩ | ⟨hlt, -⟩
      · simp [hd]
      · omega
    · exact (hl.mem_destroyed hmn).mpr (h.dead m hm (hother m hmn ▸ hzero))
  · rcases hout with ⟨-, -, hd⟩ | ⟨-, hd, -⟩
    · simp only [hd]
      refine ⟨?_, fun m hm => ?_⟩
      · rw [List.nodup_append]
        refine ⟨h.destroyed.1, by simp, fun a ha b hb heq => hlive ?_⟩
        rwa [← List.mem_singleton.mp hb, ← heq]
      · rcases List.mem_append.mp hm with hm | hm
        · exact h.destroyed.2 m hm
        · exact List.mem_singleton.mp hm ▸ h.entered n hn
    · exact hd ▸ h.destroyed

/-- A new node enters with the cache's reference. -/
theorem Inv.pushFront (h : Inv s) (hk : s.lru.index key = none) (val : V) :
    Inv { s with lru := s.lru.pushFront key val, entered := s.lru.fresh :: s.entered } := by
  have hnew : s.pinsOn s.lru.fresh = 0 := by
    by_contra hne
    obtain ⟨k, hk⟩ := pinsOn_pos.mp (Nat.pos_of_ne_zero hne)
    exact Nat.lt_irrefl _ (h.older _ (h.pins _ hk))
  have hself : refs { s with lru := s.lru.pushFront key val, entered := s.lru.fresh :: s.entered }
      s.lru.fresh = 1 := by
    have hpins : s.pins.countP (fun p => p.2 = s.lru.fresh) = 0 := hnew
    simp [refs, pinsOn, LRU.pushFront, hpins]
  have hother : ∀ m ≠ s.lru.fresh, refs { s with
      lru := s.lru.pushFront key val, entered := s.lru.fresh :: s.entered } m = s.refs m :=
    fun m hm => by simp [refs, pinsOn, LRU.pushFront, hm]
  have hdead : s.lru.fresh ∉ s.lru.destroyed := fun hm =>
    Nat.lt_irrefl _ (h.older _ (h.destroyed.2 _ hm))
  refine ⟨wf_pushFront h.wf hk val, ?_, ?_, ?_, ?_, ?_, ?_, ?_⟩
  · intro m hm
    rcases List.mem_cons.mp hm with rfl | hm
    · exact List.mem_cons_self
    · exact List.mem_cons_of_mem _ (h.entered m hm)
  · exact fun p hp => List.mem_cons_of_mem _ (h.pins p hp)
  · intro m hm
    rcases List.mem_cons.mp hm with rfl | hm
    · exact Nat.lt_succ_self _
    · exact Nat.lt_succ_of_lt (h.older m hm)
  · intro m
    by_cases hm : m = s.lru.fresh
    · subst hm
      rw [hself]
      decide
    · exact hother m hm ▸ h.bound m
  · intro m hm hpos
    by_cases hmf : m = s.lru.fresh
    · subst hmf
      exact ⟨hdead, _, heap_pushFront_fresh, by rw [hself]; rfl⟩
    · rw [hother m hmf] at hpos ⊢
      obtain ⟨hlive, nd, hnd, hcnt⟩ := h.alive m ((List.mem_cons.mp hm).resolve_left hmf) hpos
      exact ⟨hlive, nd, (heap_pushFront_of_ne hmf).trans hnd, hcnt⟩
  · intro m hm hzero
    by_cases hmf : m = s.lru.fresh
    · subst hmf
      rw [hself] at hzero
      cases hzero
    · exact h.dead m ((List.mem_cons.mp hm).resolve_left hmf) (hother m hmf ▸ hzero)
  · exact ⟨h.destroyed.1, fun m hm => List.mem_cons_of_mem _ (h.destroyed.2 m hm)⟩

/-- `insert` lets a node in, and perhaps another one out. -/
theorem Inv.insert (h : Inv s) (key : K) (val : V) :
    ∃ s' r, s.step (.insert key val) = .ok (s', r) ∧ Inv s' := by
  cases hk : s.lru.index key with
  | none =>
    have hcontains : s.lru.contains key = false := by simp [LRU.contains, hk]
    have hpush := h.pushFront hk val
    rcases insert_absent h.wf hk val with ⟨hrun, -⟩ | ⟨l', n, nd, hrun, hn, hnd, hleft⟩
    · exact ⟨_, none, by simp [Session.step, hcontains, hrun], hpush⟩
    · exact ⟨_, none, by simp [Session.step, hcontains, hrun], hpush.left hn hnd hleft⟩
  | some n =>
    obtain ⟨-, -, -, hn⟩ := h.wf.exists_node hk
    have hcontains : s.lru.contains key = true := by simp [LRU.contains, hk]
    exact ⟨_, none, by simp [Session.step, hcontains, insert_present hk], h.touch hn key val⟩

/-- `erase` lets a node out. -/
theorem Inv.erase (h : Inv s) (key : K) :
    ∃ s' r, s.step (.erase key) = .ok (s', r) ∧ Inv s' := by
  cases hk : s.lru.index key with
  | none => exact ⟨s, none, by simp [Session.step, LRU.erase, hk], h⟩
  | some n =>
    obtain ⟨nd, hnd, -, hn⟩ := h.wf.exists_node hk
    obtain ⟨l', hrun, hleft⟩ := phantomEraseNode_spec h.wf hn hnd
    exact ⟨_, none, by simp [Session.step, LRU.erase, hk, hrun], h.left hn hnd hleft⟩

/-- **`get` pins its node**, if the count has room for one more. -/
theorem Inv.get (h : Inv s) {key : K} (hkept : s.Kept (.get key)) :
    ∃ s' r, s.step (.get key) = .ok (s', r) ∧ Inv s' := by
  cases hk : s.lru.index key with
  | none => exact ⟨s, none, by simp [Session.step, LRU.get, hk], h⟩
  | some n =>
    obtain ⟨nd, hnd, -, hn⟩ := h.wf.exists_node hk
    let l' : LRU K V := { s.lru with
      heap := Function.update s.lru.heap n (some { nd with refCnt := toInt32 (nd.refCnt + 1) })
      nodes := n :: s.lru.nodes.erase n }
    have hrun : s.lru.get key = .ok (l', some n) := get_present hk hnd
    have hshuffled : Shuffled s.lru l' := shuffled_count h.wf hnd (perm_splice hn) rfl rfl rfl
      (fun m hm => Function.update_of_ne hm _ _) (Function.update_self _ _ _)
    have hbound : s.pinsOn n + 2 < 2 ^ 31 := hkept n hk
    refine ⟨⟨l', (key, n) :: s.pins, s.entered⟩, some n, by simp [Session.step, hrun], ?_⟩
    have hself : pinsOn ⟨l', (key, n) :: s.pins, s.entered⟩ n = s.pinsOn n + 1 := by
      simp [pinsOn]
    refine h.recount hn (hshuffled.wf h.wf) ?_ rfl rfl rfl ?_ ?_ ?_ ?_ ?_
    · exact fun m => (perm_splice hn).mem_iff
    · intro p hp
      rcases List.mem_cons.mp hp with rfl | hp
      · exact h.entered n hn
      · exact h.pins p hp
    · exact fun m hm => by simp [pinsOn, Ne.symm hm]
    · exact fun m hm => Function.update_of_ne hm _ _
    · rw [hself]
      omega
    · refine ⟨_, Function.update_self _ _ _, ?_⟩
      have hcnt : nd.refCnt + 1 = (s.pinsOn n + 2 : ℕ) := by
        rw [h.refCnt_eq hn hnd]
        omega
      simp only [hself, hcnt, toInt32_of_lt hbound]
      omega

/-- **`release` takes a pin away**, while its key still denotes the node. -/
theorem Inv.release (h : Inv s) {key : K} {pin : NodeId} (hpin : (key, pin) ∈ s.pins)
    (hk : s.lru.index key = some pin) :
    ∃ s' r, s.step (.release key pin) = .ok (s', r) ∧ Inv s' := by
  obtain ⟨nd, hnd, -, hn⟩ := h.wf.exists_node hk
  obtain ⟨l', hrun, hu⟩ := unref_spec hnd
  have hcount : ∀ m, s.pinsOn m =
      pinsOn ⟨l', s.pins.erase (key, pin), s.entered⟩ m + if pin = m then 1 else 0 := fun m => by
    have hperm := (List.perm_cons_erase hpin).countP_eq fun p => decide (p.2 = m)
    simpa [pinsOn, List.countP_cons] using hperm
  have hself := hcount pin
  rw [if_pos rfl] at hself
  have hbound := h.bound pin
  rw [refs, if_pos hn] at hbound
  -- the cache still holds the node, so the count stays positive
  have hcnt := h.toInt32_unref hn hnd
  obtain ⟨hd, hheap⟩ : l'.destroyed = s.lru.destroyed ∧
      l'.heap pin = some { nd with refCnt := toInt32 (nd.refCnt - 1) } := by
    rcases hu.outcome with ⟨hle, -⟩ | ⟨-, hd, hheap⟩
    · omega
    · exact ⟨hd, hheap⟩
  refine ⟨⟨l', s.pins.erase (key, pin), s.entered⟩, none,
    by simp [Session.step, LRU.release, hk, hrun], ?_⟩
  have hshuffled : Shuffled s.lru l' := shuffled_count h.wf hnd (hu.nodes ▸ .refl _) hu.index
    hu.cap hu.fresh hu.heap hheap
  refine h.recount hn (hshuffled.wf h.wf) ?_ rfl hu.fresh hd ?_ ?_ hu.heap ?_ ?_
  · exact fun m => by rw [hu.nodes]
  · exact fun p hp => h.pins p (List.mem_of_mem_erase hp)
  · exact fun m hm => by rw [hcount m, if_neg (Ne.symm hm)]; rfl
  · omega
  · exact ⟨_, hheap, by rw [hcnt, hself]; rfl⟩

/-- **Every call that keeps the condition returns and keeps the invariant.** -/
theorem Inv.step (h : Inv s) {c : Call K V} (hlegal : s.Legal c) (hkept : s.Kept c) :
    ∃ s' r, s.step c = .ok (s', r) ∧ Inv s' := by
  cases c with
  | insert key val => exact h.insert key val
  | erase key => exact h.erase key
  | get key => exact h.get hkept
  | release key pin => exact h.release hlegal hkept

/-- **Reference counting is safe while pins are released under a cached key**: every run in which a
caller releases only its own pins, each while its key still denotes the pinned node, and in which
no count overflows, returns and ends in a safe state. -/
theorem safe_of_released_while_cached (cap : ℕ) (calls : List (Call K V))
    (h : Along Session.step (fun s c => Legal s c ∧ Kept s c) (new cap) calls) :
    ∃ s rs, runFrom Session.step (new cap) calls = .ok (s, rs) ∧ Safe s := by
  obtain ⟨s, rs, hrun, hinv⟩ := run_total Session.step
    (fun s c (hi : Inv s) hc => hi.step hc.1 hc.2) calls (new cap) (inv_new cap) h
  exact ⟨s, rs, hrun, hinv.safe⟩

/-- Counting references is safe in every run of legal calls. -/
def RefCountSafe (K V : Type) [DecidableEq K] : Prop :=
  ∀ (cap : ℕ) (calls : List (Call K V)), Along Session.step Legal (new cap) calls →
    ∃ s rs, runFrom Session.step (new cap) calls = .ok (s, rs) ∧ Safe s

/-- A pin that outlives its entry: the key is erased and inserted again before the release. -/
def stalePin : List (Call Bytes Bytes) :=
  [.insert [1] [10], .get [1], .erase [1], .insert [1] [20], .release [1] 0]

/-- **A pin that outlives its entry destroys the node that is cached now.** -/
theorem not_refCountSafe : ¬ RefCountSafe Bytes Bytes := by
  intro h
  obtain ⟨s, rs, hrun, hsafe⟩ := h 2 stalePin (by decide)
  have hend : (runFrom Session.step (new 2) stalePin).map
      (fun r => (r.1.lru.nodes, r.1.lru.destroyed)) = .ok ([1], [1]) := rfl
  rw [hrun] at hend
  obtain ⟨hnodes, hdestroyed⟩ := Prod.mk.inj (Except.ok.inj hend)
  exact hsafe.cached 1 (Or.inl (by rw [hnodes]; decide)) (by rw [hdestroyed]; decide)

/-- A pin given back before its entry is erased. -/
theorem safe_of_released_while_cached_four :
    ∃ s rs, runFrom Session.step (new 2)
      ([.insert [1] [10], .get [1], .release [1] 0, .erase [1]] : List (Call Bytes Bytes)) =
        .ok (s, rs) ∧ Safe s :=
  safe_of_released_while_cached 2 _ (by decide)

end Session

end SmallKV.LRU
