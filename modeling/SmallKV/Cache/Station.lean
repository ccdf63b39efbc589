import SmallKV.Cache.RefCount

/-!
# Cache/Station — the garbage station of an LRU cache

A node that leaves the cache while it is pinned waits in the garbage station, under its key.  There
is room for one node under a key, and `unref` clears that place whatever stands there.  So a node is
lost when the next one with its key leaves, and without a `release` the station tracks every node
exactly when no node leaves whose key has one waiting (`station_tracks_iff`).
-/

namespace SmallKV.LRU

variable {K V : Type}

/-! ## Nodes held by the station -/

/-- Of the nodes `T`, those that live outside the list wait in the station under their keys. -/
def Held (T : NodeId → Prop) (l : LRU K V) : Prop :=
  ∀ n nd, T n → l.heap n = some nd → n ∉ l.nodes → l.garbageStation nd.key = some n

namespace Session

/-- **The station tracks the nodes that have left**: a node that left the list with a positive count
is in it; a node that was put into the cache lives with a count other than zero or has been
destroyed, and what is destroyed is gone, from the station too; and the list, the index and the
station have no dangling entry. -/
structure Tracked (s : Session K V) : Prop where
  waiting : ∀ n ∈ s.entered, n ∉ s.lru.nodes → ∀ nd, s.lru.heap n = some nd → 0 < nd.refCnt →
    s.lru.garbageStation nd.key = some n
  counted : ∀ n ∈ s.entered, n ∈ s.lru.destroyed ∨ ∃ nd, s.lru.heap n = some nd ∧ nd.refCnt ≠ 0
  gone : ∀ n ∈ s.lru.destroyed, s.lru.heap n = none ∧ ∀ k, s.lru.garbageStation k ≠ some n
  listed : ∀ n, n ∈ s.lru.nodes ∨ (∃ k, s.lru.index k = some n) → ∃ nd, s.lru.heap n = some nd
  stationed : ∀ k n, s.lru.garbageStation k = some n →
    n ∉ s.lru.nodes ∧ ∃ nd, s.lru.heap n = some nd ∧ nd.key = k

/-- No node is leaked: whatever lives is in the list or in the station. -/
def NoLeak (s : Session K V) : Prop := Held (fun _ => True) s.lru

/-- What holds of the nodes anyway. -/
structure Nodes (s : Session K V) : Prop where
  wf : WF s.lru
  entered : ∀ n ∈ s.lru.nodes, n ∈ s.entered
  older : ∀ n ∈ s.entered, n < s.lru.fresh
  left : ∀ n ∈ s.entered, n ∉ s.lru.nodes → ∀ nd, s.lru.heap n = some nd → 0 < nd.refCnt
  alive : ∀ n ∈ s.entered, n ∈ s.lru.destroyed ∨ ∃ nd, s.lru.heap n = some nd
  gone : ∀ n ∈ s.lru.destroyed, n < s.lru.fresh ∧ s.lru.heap n = none
  stationed : ∀ k n, s.lru.garbageStation k = some n →
    n ∈ s.entered ∧ n ∉ s.lru.nodes ∧ ∃ nd, s.lru.heap n = some nd ∧ nd.key = k

/-- No count is zero. -/
def Counted (s : Session K V) : Prop :=
  ∀ n ∈ s.lru.nodes, ∀ nd, s.lru.heap n = some nd → nd.refCnt ≠ 0

variable {s s' : Session K V} {key k : K} {val : V} {n m : NodeId} {nd : LruNode K V}

theorem nodes_new (cap : ℕ) : Nodes (new cap : Session K V) where
  wf := wf_new cap
  entered := by simp [new, LRU.new]
  older := by simp [new]
  left := by simp [new]
  alive := by simp [new]
  gone := by simp [new, LRU.new]
  stationed := by simp [new, LRU.new]

/-- **What there is to show of the tracking.** -/
theorem Nodes.tracked_iff (h : Nodes s) :
    Tracked s ↔ Held (· ∈ s.entered) s.lru ∧ Counted s := by
  constructor
  · intro ht
    refine ⟨fun n nd hn hnd hout => ht.waiting n hn hout nd hnd (h.left n hn hout nd hnd), ?_⟩
    intro n hn nd hnd
    rcases ht.counted n (h.entered n hn) with hdead | ⟨nd', hnd', hcnt⟩
    · rw [(h.gone n hdead).2] at hnd
      cases hnd
    · obtain rfl := Option.some.inj (hnd.symm.trans hnd')
      exact hcnt
  · rintro ⟨hheld, hcounted⟩
    refine ⟨fun n hn hout nd hnd _ => hheld n nd hn hnd hout, fun n hn => ?_, fun n hn => ?_,
      fun n hn => ?_, fun k n hk => (h.stationed k n hk).2⟩
    · refine (h.alive n hn).imp_right fun ⟨nd, hnd⟩ => ⟨nd, hnd, ?_⟩
      by_cases hmem : n ∈ s.lru.nodes
      · exact hcounted n hmem nd hnd
      · exact (h.left n hn hmem nd hnd).ne'
    · refine ⟨(h.gone n hn).2, fun k hk => ?_⟩
      obtain ⟨-, -, nd, hnd, -⟩ := h.stationed k n hk
      rw [(h.gone n hn).2] at hnd
      cases hnd
    · rcases hn with hn | ⟨k, hk⟩
      · exact h.wf.live n hn
      · obtain ⟨nd, hnd, -⟩ := h.wf.exists_node hk
        exact ⟨nd, hnd⟩

end Session

/-! ## The operations and the station -/

section Operations

variable {l l' : LRU K V} {T T' : NodeId → Prop} {key k : K} {val : V} {n m : NodeId}
  {nd : LruNode K V}

/-- A new node in front of the list is held by the list. -/
theorem Held.pushFront [DecidableEq K] (h : Held T l) (hT : ∀ n, T' n → T n ∨ n = l.fresh) :
    Held T' (l.pushFront key val) := by
  intro n nd hn hnd hout
  have hne : n ≠ l.fresh := fun heq => hout (heq ▸ List.mem_cons_self)
  have hold : l.heap n = some nd := (heap_pushFront_of_ne hne).symm.trans hnd
  exact h n nd ((hT n hn).resolve_right hne) hold fun hmem => hout (List.mem_cons_of_mem _ hmem)

/-- Moving a node to the front loses none of the old nodes. -/
theorem Held.touch (h : Held T l) (hT : ¬ T l.fresh) (hn : n ∈ l.nodes) :
    Held T (l.touch n key val) := by
  intro m md hm hmd hout
  have hne : m ≠ l.fresh := fun heq => hT (heq ▸ hm)
  have hold : l.heap m = some md := (Function.update_of_ne hne _ _).symm.trans hmd
  exact h m md hm hold fun hmem => hout ((perm_splice hn).mem_iff.mpr hmem)

/-- The cache after a `get` that found its node. -/
def counted (l : LRU K V) (n : NodeId) (nd : LruNode K V) : LRU K V :=
  { l with
    heap := Function.update l.heap n (some { nd with refCnt := toInt32 (nd.refCnt + 1) })
    nodes := n :: l.nodes.erase n }

theorem Held.counted (h : Held T l) (hn : n ∈ l.nodes) : Held T (l.counted n nd) := by
  intro m md hm hmd hout
  have hmem : m ∉ l.nodes := fun hmem => hout ((perm_splice hn).mem_iff.mpr hmem)
  have hne : m ≠ n := fun heq => hmem (heq ▸ hn)
  exact h m md hm ((Function.update_of_ne hne _ _).symm.trans hmd) hmem

variable [DecidableEq K]

/-- **What `phantom_erase_node` does to the station**: the key of the node gets the node, or nothing
when the node is destroyed. -/
theorem phantomEraseNode_station (h : WF l) (hn : n ∈ l.nodes) (hnd : l.heap n = some nd) :
    ∃ l', l.phantomEraseNode n = .ok l' ∧ Left l n nd l' ∧ l'.garbageStation =
      Function.update l.garbageStation nd.key
        (if 0 < toInt32 (nd.refCnt - 1) then some n else none) := by
  obtain ⟨l', hrun, hleft⟩ := phantomEraseNode_spec h hn hnd
  refine ⟨l', hrun, hleft, ?_⟩
  simp only [phantomEraseNode, unref, deref, hnd, orFault_some, ok_bind, h.index_key hn hnd,
    Function.update_self] at hrun
  split_ifs at hrun with hcnt
  · obtain rfl := Except.ok.inj hrun
    rw [if_neg (Int.not_lt.mpr hcnt)]
    exact Function.update_idem _ _ _
  · obtain rfl := Except.ok.inj hrun
    rw [if_pos (Int.not_le.mp hcnt)]

/-- **A node that leaves is held, and displaces what waits under its key.** -/
theorem Held.left_iff (h : Held T l) (hn : n ∈ l.nodes)
    (hstation : ∀ k m, l.garbageStation k = some m →
      T m ∧ m ∉ l.nodes ∧ ∃ md, l.heap m = some md ∧ md.key = k)
    (hl : Left l n nd l') (hl' : l'.garbageStation = Function.update l.garbageStation nd.key
      (if 0 < toInt32 (nd.refCnt - 1) then some n else none)) (hwf : l.nodes.Nodup) :
    Held T l' ↔ l.garbageStation nd.key = none := by
  have hmem : ∀ m, m ∈ l'.nodes ↔ m ≠ n ∧ m ∈ l.nodes := fun m => hl.mem_nodes hwf
  constructor
  · intro h'
    by_contra hsome
    obtain ⟨m, hm⟩ := Option.ne_none_iff_exists'.mp hsome
    obtain ⟨hTm, hout, md, hmd, hkey⟩ := hstation _ _ hm
    have hne : m ≠ n := fun heq => hout (heq ▸ hn)
    have hheld := h' m md hTm (hl.heap m hne ▸ hmd) fun hm' => hout ((hmem m).mp hm').2
    rw [hkey, hl', Function.update_self] at hheld
    split_ifs at hheld
    exact hne (Option.some.inj hheld).symm
  · intro hnone m md hTm hmd hout
    by_cases hmn : m = n
    · subst hmn
      rcases hl.outcome with ⟨-, hheap, -⟩ | ⟨hcnt, -, hheap⟩
      · rw [hheap] at hmd
        cases hmd
      · obtain rfl := Option.some.inj (hheap.symm.trans hmd)
        rw [hl', Function.update_self, if_pos hcnt]
    · have hold := h m md hTm (hl.heap m hmn ▸ hmd) fun hm => hout ((hmem m).mpr ⟨hmn, hm⟩)
      have hkey : md.key ≠ nd.key := fun heq => by
        rw [heq, hnone] at hold
        cases hold
      rw [hl', Function.update_of_ne hkey, hold]

end Operations

namespace Session

variable {s s₁ s₂ : Session K V} {l' : LRU K V} {key k : K} {val : V} {n m : NodeId}
  {nd : LruNode K V}

/-! ## What the calls do -/

/-- What a call does: the nodes stay in order; their tracking is kept exactly when the call is
`alone`; and then a new leak is kept out exactly when it is `listed`. -/
structure Effect (s s₁ : Session K V) (alone listed : Prop) : Prop where
  nodes : Nodes s₁
  tracked : Held (· ∈ s.entered) s.lru → Counted s →
    ((Held (· ∈ s₁.entered) s₁.lru ∧ Counted s₁) ↔ alone)
  leak : NoLeak s → alone → (NoLeak s₁ ↔ listed)

theorem Nodes.unchanged (h : Nodes s) : Effect s s True True :=
  ⟨h, fun hheld hcounted => iff_of_true ⟨hheld, hcounted⟩ trivial, fun hleak _ => iff_of_true hleak
    trivial⟩

/-- A call in two steps, the first of which is harmless. -/
theorem Effect.trans {alone listed : Prop} (h : Effect s s₁ True True)
    (h' : Effect s₁ s₂ alone listed) : Effect s s₂ alone listed where
  nodes := h'.nodes
  tracked hheld hcounted := by
    obtain ⟨hheld₁, hcounted₁⟩ := (h.tracked hheld hcounted).mpr trivial
    exact h'.tracked hheld₁ hcounted₁
  leak hleak halone := h'.leak ((h.leak hleak trivial).mpr trivial) halone

/-- A new node has the count of the cache's reference, and the other nodes are what they were. -/
theorem Nodes.enter [DecidableEq K] (h : Nodes s) (hk : s.lru.index key = none) (val : V) :
    Nodes { s with lru := s.lru.pushFront key val, entered := s.lru.fresh :: s.entered } where
  wf := wf_pushFront h.wf hk val
  entered n hn := (List.mem_cons.mp hn).elim (fun heq => heq ▸ List.mem_cons_self)
    fun hmem => List.mem_cons_of_mem _ (h.entered n hmem)
  older n hn := by
    rcases List.mem_cons.mp hn with rfl | hmem
    · exact Nat.lt_succ_self _
    · exact (h.older n hmem).trans (Nat.lt_succ_self _)
  left n hn hout nd hnd := by
    rcases List.mem_cons.mp hn with rfl | hmem
    · exact absurd List.mem_cons_self hout
    · exact h.left n hmem (fun hm => hout (List.mem_cons_of_mem _ hm)) nd
        ((heap_pushFront_of_ne (h.older n hmem).ne).symm.trans hnd)
  alive n hn := by
    rcases List.mem_cons.mp hn with rfl | hmem
    · exact Or.inr ⟨_, heap_pushFront_fresh⟩
    · exact (h.alive n hmem).imp_right fun ⟨nd, hnd⟩ =>
        ⟨nd, (heap_pushFront_of_ne (h.older n hmem).ne).trans hnd⟩
  gone n hn := by
    obtain ⟨hlt, hnone⟩ := h.gone n hn
    exact ⟨hlt.trans (Nat.lt_succ_self _), (heap_pushFront_of_ne hlt.ne).trans hnone⟩
  stationed k n hkn := by
    obtain ⟨hn, hout, nd, hnd, hkey⟩ := h.stationed k n hkn
    have hne : n ≠ s.lru.fresh := (h.older n hn).ne
    exact ⟨List.mem_cons_of_mem _ hn, fun hmem => (List.mem_cons.mp hmem).elim hne hout, nd,
      (heap_pushFront_of_ne hne).trans hnd, hkey⟩

/-- **A new node enters.** -/
theorem Nodes.pushFront [DecidableEq K] (h : Nodes s) (hk : s.lru.index key = none) (val : V) :
    Effect s { s with lru := s.lru.pushFront key val, entered := s.lru.fresh :: s.entered }
      True True where
  nodes := h.enter hk val
  tracked hheld hcounted := by
    refine iff_of_true ⟨hheld.pushFront fun n hn => (List.mem_cons.mp hn).symm, ?_⟩ trivial
    intro n hn nd hnd
    rcases List.mem_cons.mp hn with rfl | hmem
    · obtain rfl := Option.some.inj (heap_pushFront_fresh.symm.trans hnd)
      exact one_ne_zero
    · exact hcounted n hmem nd ((heap_pushFront_of_ne (h.wf.ne_fresh hmem)).symm.trans hnd)
  leak hleak _ := iff_of_true (hleak.pushFront fun n _ => Or.inl trivial) trivial

/-- A node that leaves is destroyed or has references, and the other nodes are what they were. -/
theorem Nodes.leave [DecidableEq K] (h : Nodes s) (hn : n ∈ s.lru.nodes)
    (hnd : s.lru.heap n = some nd) (hl : Left s.lru n nd l')
    (hl' : l'.garbageStation = Function.update s.lru.garbageStation nd.key
      (if 0 < toInt32 (nd.refCnt - 1) then some n else none)) : Nodes { s with lru := l' } where
  wf := hl.wf h.wf hn hnd
  entered m hm := h.entered m ((hl.mem_nodes h.wf.nodup).mp hm).2
  older m hm := hl.fresh ▸ h.older m hm
  left m hm hout md hmd := by
    by_cases hmn : m = n
    · subst hmn
      rcases hl.outcome with ⟨-, hheap, -⟩ | ⟨hcnt, -, hheap⟩
      · rw [hheap] at hmd
        cases hmd
      · obtain rfl := Option.some.inj (hheap.symm.trans hmd)
        exact hcnt
    · have hout' : m ∉ s.lru.nodes := fun hm' => hout ((hl.mem_nodes h.wf.nodup).mpr ⟨hmn, hm'⟩)
      exact h.left m hm hout' md (hl.heap m hmn ▸ hmd)
  alive m hm := by
    by_cases hmn : m = n
    · subst hmn
      rcases hl.outcome with ⟨-, -, hdead⟩ | ⟨-, -, hheap⟩
      · exact Or.inl (by rw [hdead]; simp)
      · exact Or.inr ⟨_, hheap⟩
    · exact (h.alive m hm).imp (hl.mem_destroyed hmn).mpr fun ⟨md, hmd⟩ =>
        ⟨md, hl.heap m hmn ▸ hmd⟩
  gone m hm := by
    by_cases hmn : m = n
    · subst hmn
      refine ⟨hl.fresh ▸ h.older m (h.entered m hn), ?_⟩
      rcases hl.outcome with ⟨-, hheap, -⟩ | ⟨-, heq, -⟩
      · exact hheap
      · -- a node in the list was not destroyed
        have hnone := (h.gone m (heq ▸ hm)).2
        rw [hnd] at hnone
        cases hnone
    · obtain ⟨hlt, hnone⟩ := h.gone m ((hl.mem_destroyed hmn).mp hm)
      exact ⟨hl.fresh ▸ hlt, (hl.heap m hmn).trans hnone⟩
  stationed k m hk := by
    rw [hl'] at hk
    by_cases hkey : k = nd.key
    · subst hkey
      rw [Function.update_self] at hk
      split_ifs at hk with hcnt
      obtain rfl := Option.some.inj hk
      rcases hl.outcome with ⟨hle, -⟩ | ⟨-, -, hheap⟩
      · exact absurd hle (Int.not_le.mpr hcnt)
      · exact ⟨h.entered n hn, fun hm => ((hl.mem_nodes h.wf.nodup).mp hm).1 rfl, _, hheap, rfl⟩
    · rw [Function.update_of_ne hkey] at hk
      obtain ⟨hm, hout, md, hmd, hmk⟩ := h.stationed k m hk
      have hmn : m ≠ n := fun heq => hout (heq ▸ hn)
      exact ⟨hm, fun hm' => hout ((hl.mem_nodes h.wf.nodup).mp hm').2, md,
        (hl.heap m hmn).trans hmd, hmk⟩

/-- **A node leaves**: the place under its key has to be free. -/
theorem Nodes.leaves [DecidableEq K] (h : Nodes s) (hn : n ∈ s.lru.nodes)
    (hnd : s.lru.heap n = some nd) (hl : Left s.lru n nd l')
    (hl' : l'.garbageStation = Function.update s.lru.garbageStation nd.key
      (if 0 < toInt32 (nd.refCnt - 1) then some n else none)) :
    Effect s { s with lru := l' } (s.lru.garbageStation nd.key = none) True where
  nodes := h.leave hn hnd hl hl'
  tracked hheld hcounted := by
    have hcounted' : Counted { s with lru := l' } := fun m hm md hmd => by
      obtain ⟨hmn, hm⟩ := (hl.mem_nodes h.wf.nodup).mp hm
      exact hcounted m hm md (hl.heap m hmn ▸ hmd)
    rw [and_iff_left hcounted']
    exact hheld.left_iff hn h.stationed hl hl' h.wf.nodup
  leak hleak halone := by
    have hstation : ∀ k m, s.lru.garbageStation k = some m →
        True ∧ m ∉ s.lru.nodes ∧ ∃ md, s.lru.heap m = some md ∧ md.key = k :=
      fun k m hk => ⟨trivial, (h.stationed k m hk).2⟩
    exact iff_of_true ((Held.left_iff hleak hn hstation hl hl' h.wf.nodup).mpr halone) trivial

/-- A cache with the same nodes in its list, and the nodes outside of it as they were. -/
theorem Nodes.of_same_nodes (h : Nodes s) (hwf : WF l') (hmem : ∀ m, m ∈ l'.nodes ↔ m ∈ s.lru.nodes)
    (hfresh : s.lru.fresh ≤ l'.fresh) (hstation : l'.garbageStation = s.lru.garbageStation)
    (hdestroyed : l'.destroyed = s.lru.destroyed)
    (hheap : ∀ m < s.lru.fresh, m ∉ s.lru.nodes → l'.heap m = s.lru.heap m)
    (pins : List (K × NodeId)) : Nodes ⟨l', pins, s.entered⟩ where
  wf := hwf
  entered m hm := h.entered m ((hmem m).mp hm)
  older m hm := (h.older m hm).trans_le hfresh
  left m hm hout md hmd := by
    have hout' : m ∉ s.lru.nodes := fun hm' => hout ((hmem m).mpr hm')
    exact h.left m hm hout' md ((hheap m (h.older m hm) hout').symm.trans hmd)
  alive m hm := by
    by_cases hin : m ∈ s.lru.nodes
    · exact Or.inr (hwf.live m ((hmem m).mpr hin))
    · exact (h.alive m hm).imp (fun hdead => hdestroyed ▸ hdead) fun ⟨md, hmd⟩ =>
        ⟨md, (hheap m (h.older m hm) hin).trans hmd⟩
  gone m hm := by
    obtain ⟨hlt, hnone⟩ := h.gone m (hdestroyed ▸ hm)
    have hout : m ∉ s.lru.nodes := fun hin => by
      obtain ⟨md, hmd⟩ := h.wf.live m hin
      rw [hnone] at hmd
      cases hmd
    exact ⟨hlt.trans_le hfresh, (hheap m hlt hout).trans hnone⟩
  stationed k m hk := by
    obtain ⟨hm, hout, md, hmd, hkey⟩ := h.stationed k m (hstation ▸ hk)
    exact ⟨hm, fun hm' => hout ((hmem m).mp hm'), md, (hheap m (h.older m hm) hout).trans hmd, hkey⟩

/-- **A node moves to the front, and a new one is linked in nowhere.** -/
theorem Nodes.touch (h : Nodes s) (hn : n ∈ s.lru.nodes) (key : K) (val : V) :
    Effect s { s with lru := s.lru.touch n key val } True False := by
  have hne : ∀ m ∈ s.entered, m ≠ s.lru.fresh := fun m hm => (h.older m hm).ne
  have hold : ∀ m ≠ s.lru.fresh, (s.lru.touch n key val).heap m = s.lru.heap m :=
    fun m hm => Function.update_of_ne hm _ _
  have hmem : ∀ m, m ∈ (s.lru.touch n key val).nodes ↔ m ∈ s.lru.nodes := fun m =>
    (perm_splice hn).mem_iff
  refine ⟨h.of_same_nodes ((shuffled_touch h.wf hn key val).wf h.wf) hmem (Nat.le_succ _) rfl rfl
    (fun m hm _ => hold m hm.ne) s.pins, fun hheld hcounted => ?_, fun hleak _ => ?_⟩
  · refine iff_of_true ⟨hheld.touch (fun hfresh => hne _ hfresh rfl) hn, fun m hm md hmd => ?_⟩ trivial
    have hm := (hmem m).mp hm
    exact hcounted m hm md ((hold m (h.wf.ne_fresh hm)).symm.trans hmd)
  · -- the new node lives, and nothing leads to it
    refine iff_of_false (fun hleak' => ?_) not_false
    have hwaits : s.lru.garbageStation key = some s.lru.fresh :=
      hleak' s.lru.fresh ⟨key, val, 1, true⟩ trivial (Function.update_self _ _ _) fun hm =>
        h.wf.ne_fresh ((hmem _).mp hm) rfl
    exact hne _ (h.stationed key _ hwaits).1 rfl

/-- **A node is counted**: its count must not come round to zero. -/
theorem Nodes.counted (h : Nodes s) (hn : n ∈ s.lru.nodes) (hnd : s.lru.heap n = some nd)
    (pins : List (K × NodeId)) :
    Effect s ⟨s.lru.counted n nd, pins, s.entered⟩ (toInt32 (nd.refCnt + 1) ≠ 0) True := by
  have hmem : ∀ m, m ∈ (s.lru.counted n nd).nodes ↔ m ∈ s.lru.nodes := fun m =>
    (perm_splice hn).mem_iff
  have hself : (s.lru.counted n nd).heap n = some { nd with refCnt := toInt32 (nd.refCnt + 1) } :=
    Function.update_self _ _ _
  have hold : ∀ m ≠ n, (s.lru.counted n nd).heap m = s.lru.heap m :=
    fun m hm => Function.update_of_ne hm _ _
  have hshuffled : Shuffled s.lru (s.lru.counted n nd) :=
    shuffled_count h.wf hnd (perm_splice hn) rfl rfl rfl hold hself
  refine ⟨h.of_same_nodes (hshuffled.wf h.wf) hmem (Nat.le_refl _) rfl rfl
    (fun m _ hout => hold m fun heq => hout (heq ▸ hn)) pins, fun hheld hcounted => ?_,
    fun hleak _ => iff_of_true (hleak.counted hn) trivial⟩
  constructor
  · rintro ⟨-, hcounted'⟩
    exact hcounted' n ((hmem n).mpr hn) _ hself
  · intro hne
    refine ⟨hheld.counted hn, fun m hm md hmd => ?_⟩
    by_cases hmn : m = n
    · subst hmn
      obtain rfl := Option.some.inj (hself.symm.trans hmd)
      exact hne
    · exact hcounted m ((hmem m).mp hm) md ((hold m hmn).symm.trans hmd)

/-! ## Runs without a release -/

/-- A call other than a `release`. -/
inductive Use (K V : Type)
  | insert (key : K) (val : V)
  | erase (key : K)
  | get (key : K)
  deriving Repr

/-- The call. -/
def Use.call : Use K V → Call K V
  | insert key val => .insert key val
  | erase key => .erase key
  | get key => .get key

/-- The key of the node that leaves the cache in a call. -/
def leavingKey (l : LRU K V) : Use K V → Option K
  | .insert key _ =>
      if l.contains key = false ∧ l.cap ≤ l.nodes.length then
        -- the last node, which is the new one when there is no other
        some (((l.nodes.getLast?.bind l.heap).map LruNode.key).getD key)
      else none
  | .erase key => if l.contains key then some key else none
  | .get _ => none

/-- Nothing waits under the key of the node that leaves, and no count comes round to zero. -/
def Alone (s : Session K V) (u : Use K V) : Prop :=
  (∀ k, leavingKey s.lru u = some k → s.lru.garbageStation k = none) ∧
    ∀ key n nd, u = .get key → s.lru.index key = some n → s.lru.heap n = some nd →
      toInt32 (nd.refCnt + 1) ≠ 0

/-- A call inserts no key that is cached already. -/
def Listed (s : Session K V) (u : Use K V) : Prop :=
  ∀ key val, u = .insert key val → s.lru.contains key = false

/-- A guard that is spelled differently. -/
theorem Effect.congr {alone alone' listed listed' : Prop} (h : Effect s s₁ alone listed)
    (halone : alone' ↔ alone) (hlisted : listed' ↔ listed) : Effect s s₁ alone' listed' :=
  ⟨h.nodes, fun hheld hcounted => (h.tracked hheld hcounted).trans halone.symm,
    fun hleak ha => (h.leak hleak (halone.mp ha)).trans hlisted.symm⟩

/-- A call of which no key leaves. -/
theorem alone_of_leavingKey_none {u : Use K V} (h : leavingKey s.lru u = none)
    (hu : ∀ key, u ≠ .get key) : s.Alone u ↔ True := by
  refine iff_of_true ⟨fun k hk => ?_, fun key n nd heq => absurd heq (hu key)⟩ trivial
  rw [h] at hk
  cases hk

/-- A call of which a key leaves. -/
theorem alone_of_leavingKey_some {u : Use K V} (h : leavingKey s.lru u = some k)
    (hu : ∀ key, u ≠ .get key) : s.Alone u ↔ s.lru.garbageStation k = none := by
  refine ⟨fun halone => halone.1 k h, fun hnone => ⟨fun k' hk' => ?_, fun key n nd heq => ?_⟩⟩
  · obtain rfl := Option.some.inj (h.symm.trans hk')
    exact hnone
  · exact absurd heq (hu key)

theorem tracked_new (cap : ℕ) : Tracked (new cap : Session K V) :=
  (nodes_new cap).tracked_iff.mpr ⟨fun n nd hn => by simp [new] at hn, fun n hn => by
    simp [new, LRU.new] at hn⟩

/-- **Whether a call keeps the tracking.** -/
theorem Effect.tracked_iff (h : Nodes s) {alone listed : Prop} (he : Effect s s₁ alone listed)
    (ht : Tracked s) : Tracked s₁ ↔ alone := by
  obtain ⟨hheld, hcounted⟩ := h.tracked_iff.mp ht
  rw [he.nodes.tracked_iff]
  exact he.tracked hheld hcounted

/-- The key that leaves is that of the last node, the new one included. -/
theorem leavingKey_insert [DecidableEq K] (hwf : WF s.lru) (hk : s.lru.index key = none)
    (hcap : s.lru.cap ≤ s.lru.nodes.length)
    (hlast : (s.lru.pushFront key val).nodes.getLast? = some n)
    (hnd : (s.lru.pushFront key val).heap n = some nd) :
    leavingKey s.lru (.insert key val) = some nd.key := by
  rw [leavingKey, if_pos ⟨by simp [LRU.contains, hk], hcap⟩]
  by_cases hnil : s.lru.nodes = []
  · obtain rfl : s.lru.fresh = n := by simpa [LRU.pushFront, hnil] using hlast
    obtain rfl : (⟨key, val, 1, true⟩ : LruNode K V) = nd := by simpa [LRU.pushFront] using hnd
    simp [hnil]
  · have hlast' : s.lru.nodes.getLast? = some n := getLast?_pushFront hnil ▸ hlast
    have hheap : s.lru.heap n = some nd :=
      (Function.update_of_ne (hwf.ne_fresh (List.mem_of_getLast? hlast')) _ _).symm.trans hnd
    simp [hlast', hheap]

section Steps

variable [DecidableEq K]

/-- One call. -/
def use (s : Session K V) (u : Use K V) : Exec (Session K V × Option NodeId) := s.step u.call

theorem Nodes.insert (h : Nodes s) (key : K) (val : V) :
    ∃ s₁ r, s.use (.insert key val) = .ok (s₁, r) ∧
      Effect s s₁ (s.Alone (.insert key val)) (s.Listed (.insert key val)) := by
  cases hk : s.lru.index key with
  | some n =>
    obtain ⟨-, -, -, hn⟩ := h.wf.exists_node hk
    have hcontains : s.lru.contains key = true := by simp [LRU.contains, hk]
    refine ⟨_, none, by simp [use, Use.call, Session.step, hcontains, insert_present hk],
      (h.touch hn key val).congr (alone_of_leavingKey_none ?_ (by simp)) ?_⟩
    · rw [leavingKey, if_neg (by simp [hcontains])]
    · refine iff_of_false (fun hlisted => ?_) not_false
      have hfalse := hlisted key val rfl
      rw [hcontains] at hfalse
      cases hfalse
  | none =>
    have hcontains : s.lru.contains key = false := by simp [LRU.contains, hk]
    have hlisted : s.Listed (.insert key val) ↔ True := iff_of_true (fun key' val' heq => by
      obtain ⟨rfl, -⟩ := Use.insert.inj heq
      exact hcontains) trivial
    have hpush := h.pushFront hk val
    rcases Nat.lt_or_ge s.lru.nodes.length s.lru.cap with hcap | hcap
    · refine ⟨_, none, by simp [use, Use.call, Session.step, hcontains, insert_roomy hk hcap],
        hpush.congr (alone_of_leavingKey_none ?_ (by simp)) hlisted⟩
      rw [leavingKey, if_neg fun hfull => absurd hfull.2 (Nat.not_le.mpr hcap)]
    · obtain ⟨n, hlast⟩ : ∃ n, (s.lru.pushFront key val).nodes.getLast? = some n :=
        ⟨_, List.getLast?_eq_some_getLast (List.cons_ne_nil _ _)⟩
      have hn := List.mem_of_getLast? hlast
      obtain ⟨nd, hnd⟩ := hpush.nodes.wf.live n hn
      obtain ⟨l', hrun, hleft, hstation⟩ := phantomEraseNode_station hpush.nodes.wf hn hnd
      rw [← insert_eq_phantomEraseNode hk hcap val hlast] at hrun
      refine ⟨_, none, by simp [use, Use.call, Session.step, hcontains, hrun],
        (hpush.trans (hpush.nodes.leaves hn hnd hleft hstation)).congr
          (alone_of_leavingKey_some ?_ (by simp)) hlisted⟩
      exact leavingKey_insert h.wf hk hcap hlast hnd

theorem Nodes.erase (h : Nodes s) (key : K) :
    ∃ s₁ r, s.use (.erase key) = .ok (s₁, r) ∧
      Effect s s₁ (s.Alone (.erase key)) (s.Listed (.erase key)) := by
  have hlisted : s.Listed (.erase key) ↔ True := iff_of_true (fun _ _ heq => by cases heq) trivial
  cases hk : s.lru.index key with
  | none =>
    refine ⟨s, none, by simp [use, Use.call, Session.step, LRU.erase, hk],
      h.unchanged.congr (alone_of_leavingKey_none ?_ (by simp)) hlisted⟩
    rw [leavingKey, if_neg (by simp [LRU.contains, hk])]
  | some n =>
    obtain ⟨nd, hnd, rfl, hn⟩ := h.wf.exists_node hk
    obtain ⟨l', hrun, hleft, hstation⟩ := phantomEraseNode_station h.wf hn hnd
    refine ⟨_, none, by simp [use, Use.call, Session.step, LRU.erase, hk, hrun],
      (h.leaves hn hnd hleft hstation).congr (alone_of_leavingKey_some ?_ (by simp)) hlisted⟩
    rw [leavingKey, if_pos (by simp [LRU.contains, hk])]

theorem Nodes.get (h : Nodes s) (key : K) :
    ∃ s₁ r, s.use (.get key) = .ok (s₁, r) ∧
      Effect s s₁ (s.Alone (.get key)) (s.Listed (.get key)) := by
  have hlisted : s.Listed (.get key) ↔ True := iff_of_true (fun _ _ heq => by cases heq) trivial
  have hleaving : ∀ k, leavingKey s.lru (.get key) = some k → s.lru.garbageStation k = none :=
    fun k hk => by cases hk
  cases hk : s.lru.index key with
  | none =>
    refine ⟨s, none, by simp [use, Use.call, Session.step, LRU.get, hk],
      h.unchanged.congr (iff_of_true ⟨hleaving, fun key' n nd heq hk' => ?_⟩ trivial) hlisted⟩
    obtain rfl := Use.get.inj heq
    rw [hk] at hk'
    cases hk'
  | some n =>
    obtain ⟨nd, hnd, -, hn⟩ := h.wf.exists_node hk
    refine ⟨_, some n, by simp [use, Use.call, Session.step, get_present hk hnd]; rfl,
      (h.counted hn hnd ((key, n) :: s.pins)).congr ⟨fun halone => ?_, fun hne => ?_⟩ hlisted⟩
    · exact halone.2 key n nd rfl hk hnd
    · refine ⟨hleaving, fun key' m md heq hk' hmd => ?_⟩
      obtain rfl := Use.get.inj heq
      obtain rfl := Option.some.inj (hk.symm.trans hk')
      obtain rfl := Option.some.inj (hnd.symm.trans hmd)
      exact hne

/-- **The step lemma of the station.** -/
theorem Nodes.step (h : Nodes s) (u : Use K V) :
    ∃ s₁ r, s.use u = .ok (s₁, r) ∧ Effect s s₁ (s.Alone u) (s.Listed u) := by
  cases u with
  | insert key val => exact h.insert key val
  | erase key => exact h.erase key
  | get key => exact h.get key

theorem Nodes.of_step (h : Nodes s) {u : Use K V} {r : Option NodeId}
    (hstep : s.use u = .ok (s₁, r)) : Effect s s₁ (s.Alone u) (s.Listed u) := by
  obtain ⟨s₂, r₂, hstep₂, heffect⟩ := h.step u
  obtain ⟨rfl, -⟩ := Prod.mk.inj (Except.ok.inj (hstep.symm.trans hstep₂))
  exact heffect

/-- **What the station tracks.**  Every run of `insert`, `erase` and `get` returns.  At every point of
it the nodes that have left are tracked exactly when no node ever leaves whose key has one waiting,
and no count comes round to zero; and no node at all is leaked exactly when, besides, no key is
inserted that is cached. -/
theorem station_tracks_iff (cap : ℕ) (calls : List (Use K V)) :
    ∃ s rs, runFrom use (new cap) calls = .ok (s, rs) ∧
      ((∀ pre, pre <+: calls → ∀ s rs, runFrom use (new cap) pre = .ok (s, rs) → Tracked s) ↔
        Along use Alone (new cap) calls) ∧
      ((∀ pre, pre <+: calls → ∀ s rs, runFrom use (new cap) pre = .ok (s, rs) →
        Tracked s ∧ NoLeak s) ↔ Along use (fun s u => Alone s u ∧ Listed s u) (new cap) calls) := by
  have hnodes := nodes_new (V := V) (K := K) cap
  obtain ⟨s, rs, hrun, -⟩ := run_total use (P := fun _ _ => True) (I := Nodes)
    (fun s u h _ => by
      obtain ⟨s₁, r, hstep, heffect⟩ := h.step u
      exact ⟨s₁, r, hstep, heffect.nodes⟩)
    calls (new cap) hnodes (along_of_forall use (fun _ _ => trivial) calls _)
  refine ⟨s, rs, hrun, ?_, ?_⟩
  · refine run_always_iff use (I := Nodes) (Q := Tracked) (fun s u s₁ r h ht hstep => ?_) calls
      (new cap) s rs hnodes (tracked_new cap) hrun
    have heffect := h.of_step hstep
    exact ⟨heffect.nodes, heffect.tracked_iff h ht⟩
  · have hleak : NoLeak (new cap : Session K V) := fun n nd _ hnd => by simp [new, LRU.new] at hnd
    refine run_always_iff use (I := Nodes) (Q := fun s => Tracked s ∧ NoLeak s)
      (fun s u s₁ r h ht hstep => ?_) calls (new cap) s rs hnodes ⟨tracked_new cap, hleak⟩ hrun
    have heffect := h.of_step hstep
    refine ⟨heffect.nodes, ?_⟩
    rw [heffect.tracked_iff h ht.1]
    exact and_congr_right fun halone => heffect.leak ht.2 halone

/-- In every run the station tracks every node. -/
def StationTracks (K V : Type) [DecidableEq K] : Prop :=
  ∀ (cap : ℕ) (calls : List (Use K V)),
    ∃ s rs, runFrom use (new cap) calls = .ok (s, rs) ∧ Tracked s ∧ NoLeak s

/-- Two nodes with one key leave, the first of them pinned. -/
def twoGenerations : List (Use ℕ ℕ) :=
  [.insert 1 10, .get 1, .erase 1, .insert 1 20, .erase 1]

/-- **The second node of a key takes the first one out of the station.** -/
theorem not_stationTracks : ¬ StationTracks ℕ ℕ := by
  intro h
  obtain ⟨s, rs, hrun, htracked, -⟩ := h 2 twoGenerations
  have hend : (runFrom use (new 2) twoGenerations).map (fun r =>
      (r.1.entered, r.1.lru.nodes, (r.1.lru.heap 0).map fun nd => (nd.key, nd.refCnt),
        r.1.lru.garbageStation 1)) = .ok ([1, 0], [], some (1, 1), none) := rfl
  rw [hrun] at hend
  obtain ⟨hentered, hrest⟩ := Prod.mk.inj (Except.ok.inj hend)
  obtain ⟨hnodes, hrest⟩ := Prod.mk.inj hrest
  obtain ⟨hheap, hstation⟩ := Prod.mk.inj hrest
  obtain ⟨nd, hnd, hfields⟩ := Option.map_eq_some_iff.mp hheap
  obtain ⟨hkey, hcnt⟩ := Prod.mk.inj hfields
  have hwaits := htracked.waiting 0 (by rw [hentered]; decide) (by rw [hnodes]; decide) nd hnd
    (by rw [hcnt]; decide)
  rw [hkey, hstation] at hwaits
  cases hwaits

end Steps

end Session

end SmallKV.LRU
