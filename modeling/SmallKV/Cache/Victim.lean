import SmallKV.Cache.Lru

/-!
# Cache/Victim — what an insertion makes room for, and at whose cost

A node stays readable at its address while somebody holds a reference to it, in the cache or not.
`get` changes no value, neither of a cached key nor of a node; `insert` admits its key and evicts
the key of its victim (`insert_admission`).
-/

namespace SmallKV.LRU

variable {K V : Type} {l l' : LRU K V} {key : K} {val : V} {n : NodeId} {nd : LruNode K V}

/-- The value of the node at an address. -/
def valueAt (l : LRU K V) (n : NodeId) : Option V := (l.heap n).map LruNode.val

/-- The node that `insert` of a key evicts: the last one of a full list, if the key is not there. -/
def victim (l : LRU K V) (key : K) : Option NodeId :=
  if l.contains key = false ∧ l.cap ≤ l.nodes.length then l.nodes.getLast? else none

/-- `insert` of a key puts it into the cache: it is not there, and does not have to go at once. -/
def Admits (l : LRU K V) (key : K) : Prop :=
  l.contains key = false ∧ (l.cap ≠ 0 ∨ l.nodes ≠ [])

theorem victim_of_contains (h : l.contains key = true) : l.victim key = none := by
  simp [victim, h]

theorem contains_eq_false : l.contains key = false ↔ l.index key = none := by
  simp [contains]

/-- The victim is a cached node. -/
theorem mem_of_victim (hv : l.victim key = some n) : n ∈ l.nodes := by
  rw [victim] at hv
  split_ifs at hv
  exact List.mem_of_getLast? hv

/-- The victim's key is cached, with its value. -/
theorem cached_victim (h : WF l) (hv : l.victim key = some n) (hnd : l.heap n = some nd) :
    l.cached nd.key = some nd.val := by
  rw [cached, h.index_key (mem_of_victim hv) hnd, Option.bind_some, hnd, Option.map_some]

/-- A key that is admitted was not cached. -/
theorem Admits.cached (h : l.Admits key) : l.cached key = none := by
  rw [LRU.cached, contains_eq_false.mp h.1]
  rfl

variable [DecidableEq K]

/-- `get` changes no value. -/
theorem get_valueAt {r : Option NodeId} (hrun : l.get key = .ok (l', r)) (n : NodeId) :
    l'.valueAt n = l.valueAt n := by
  rw [get] at hrun
  cases hk : l.index key with
  | none =>
    rw [hk] at hrun
    obtain ⟨rfl, -⟩ := Prod.mk.inj (Except.ok.inj hrun)
    rfl
  | some m =>
    rw [hk] at hrun
    obtain ⟨l₁, href, hrun⟩ := bind_eq_ok.mp hrun
    obtain ⟨rfl, -⟩ := Prod.mk.inj (Except.ok.inj hrun)
    obtain ⟨nd, hnd, hl₁⟩ := bind_eq_ok.mp href
    obtain rfl := Except.ok.inj hl₁
    have hheap : l.heap m = some nd := orFault_eq_ok.mp hnd
    by_cases hn : n = m
    · simp [valueAt, hn, hheap]
    · simp [valueAt, hn, splice]

/-- What `insert` of a key does to the values: it admits the key and evicts the victim's, and the
victim itself stays readable if a reference is left. -/
structure Admission (l : LRU K V) (key : K) (val : V) (l' : LRU K V) : Prop where
  wf : WF l'
  admitted : l.Admits key → l'.cached key = some val
  evicted : ∀ n nd, l.victim key = some n → l.heap n = some nd → l'.cached nd.key = none
  kept : ∀ k, (l.Admits key → k ≠ key) →
    (∀ n nd, l.victim key = some n → l.heap n = some nd → k ≠ nd.key) → l'.cached k = l.cached k
  valueAt : ∀ n, l.heap n ≠ none → l.victim key ≠ some n → l'.valueAt n = l.valueAt n
  victim : ∀ n nd, l.victim key = some n → l.heap n = some nd →
    l'.valueAt n = if 0 < toInt32 (nd.refCnt - 1) then some nd.val else none

omit [DecidableEq K] in
/-- A live node is not the next new one. -/
theorem WF.ne_fresh_of_live (h : WF l) (hn : l.heap n ≠ none) : n ≠ l.fresh := by
  rintro rfl
  exact hn (h.fresh _ (Nat.le_refl _))

theorem valueAt_pushFront (h : WF l) (hn : l.heap n ≠ none) :
    (l.pushFront key val).valueAt n = l.valueAt n := by
  simp [valueAt, pushFront, h.ne_fresh_of_live hn]

theorem Left.valueAt (hl : Left l n nd l') :
    l'.valueAt n = if 0 < toInt32 (nd.refCnt - 1) then some nd.val else none := by
  rcases hl.outcome with ⟨hcnt, hheap, -⟩ | ⟨hcnt, -, hheap⟩
  · rw [LRU.valueAt, hheap, if_neg (Int.not_lt.mpr hcnt)]
    rfl
  · rw [LRU.valueAt, hheap, if_pos hcnt]
    rfl

omit [DecidableEq K] in
/-- An insertion that evicts no other node. -/
theorem Admission.of_victim_none (hvictim : l.victim key = none) (hwf : WF l')
    (hadmitted : l.Admits key → l'.cached key = some val)
    (hkept : ∀ k, (l.Admits key → k ≠ key) → l'.cached k = l.cached k)
    (hvalue : ∀ n, l.heap n ≠ none → l'.valueAt n = l.valueAt n) : Admission l key val l' where
  wf := hwf
  admitted := hadmitted
  evicted n nd hn := absurd (hvictim.symm.trans hn) (by simp)
  kept k hkey _ := hkept k hkey
  valueAt n hn _ := hvalue n hn
  victim n nd hn := absurd (hvictim.symm.trans hn) (by simp)

omit [DecidableEq K] in
/-- The key is there already. -/
theorem admission_touch (h : WF l) (hk : l.index key = some n) :
    Admission l key val (l.touch n key val) := by
  obtain ⟨nd, -, -, hn⟩ := h.exists_node hk
  have hs := shuffled_touch h hn key val
  have hcontains : l.contains key = true := by simp [contains, hk]
  have hadmits : ¬ l.Admits key := fun hadmits => by simp [hcontains, Admits] at hadmits
  refine .of_victim_none (victim_of_contains hcontains) (hs.wf h) (fun h => absurd h hadmits)
    (fun k _ => hs.cached h k) fun m hm => ?_
  simp [LRU.valueAt, touch, h.ne_fresh_of_live hm]

/-- There is room for the key. -/
theorem admission_roomy (h : WF l) (hk : l.index key = none) (hcap : l.nodes.length < l.cap) :
    Admission l key val (l.pushFront key val) := by
  have hvictim : l.victim key = none := by
    rw [LRU.victim, if_neg fun hfull => absurd hfull.2 (Nat.not_le.mpr hcap)]
  have hadmits : l.Admits key := ⟨contains_eq_false.mpr hk, Or.inl (Nat.ne_zero_of_lt hcap)⟩
  refine .of_victim_none hvictim (wf_pushFront h hk val) (fun _ => ?_) (fun k hkey => ?_)
    fun m hm => valueAt_pushFront h hm
  · rw [cached_pushFront h, if_pos rfl]
  · rw [cached_pushFront h, if_neg (hkey hadmits)]

section Full

variable (h : WF l) (hk : l.index key = none)
  (hlast : (l.pushFront key val).nodes.getLast? = some n)
  (hnd : (l.pushFront key val).heap n = some nd) (hleft : Left (l.pushFront key val) n nd l')

include h hk hlast hnd hleft

omit hk hlast hnd in
/-- Nothing happens to the nodes that stay. -/
theorem valueAt_of_left {m : NodeId} (hmn : m ≠ n) (hm : l.heap m ≠ none) :
    l'.valueAt m = l.valueAt m := by
  rw [LRU.valueAt, hleft.heap m hmn]
  exact valueAt_pushFront h hm

/-- A cache for nothing: the key has to go at once. -/
theorem admission_nothing (hcap : l.cap = 0) (hnodes : l.nodes = []) : Admission l key val l' := by
  have hwf := wf_pushFront h hk val
  have hn : n ∈ (l.pushFront key val).nodes := List.mem_of_getLast? hlast
  obtain rfl : l.fresh = n := by simpa [pushFront, hnodes] using hlast
  obtain rfl : (⟨key, val, 1, true⟩ : LruNode K V) = nd := by simpa [pushFront] using hnd
  have hvictim : l.victim key = none := by simp [LRU.victim, hnodes]
  have hadmits : ¬ l.Admits key := fun hadmits => hadmits.2.elim (absurd hcap) (absurd hnodes)
  refine .of_victim_none hvictim (hleft.wf hwf hn hnd) (fun h => absurd h hadmits) (fun k _ => ?_)
    fun m hm => valueAt_of_left h hleft (h.ne_fresh_of_live hm) hm
  rw [hleft.cached hwf hn hnd, cached_pushFront h]
  by_cases hkey : k = key
  · rw [if_pos hkey, hkey, (cached_eq_none h).mpr hk]
  · rw [if_neg hkey, if_neg hkey]

/-- The key takes the place of the last one. -/
theorem admission_full (hcap : l.cap ≤ l.nodes.length) (hnodes : l.nodes ≠ []) :
    Admission l key val l' := by
  have hwf := wf_pushFront h hk val
  have hn : n ∈ (l.pushFront key val).nodes := List.mem_of_getLast? hlast
  have hlast' : l.nodes.getLast? = some n := getLast?_pushFront hnodes ▸ hlast
  have hmem : n ∈ l.nodes := List.mem_of_getLast? hlast'
  have hheap : l.heap n = some nd := by
    simpa [pushFront, h.ne_fresh hmem] using hnd
  have hvictim : l.victim key = some n := by
    rw [LRU.victim, if_pos ⟨contains_eq_false.mpr hk, hcap⟩, hlast']
  have hcached : ∀ k, l'.cached k = if k = nd.key then none else
      if k = key then some val else l.cached k := fun k => by
    rw [hleft.cached hwf hn hnd, cached_pushFront h]
  have hkey : key ≠ nd.key := by
    rintro rfl
    rw [h.index_key hmem hheap] at hk
    cases hk
  refine ⟨hleft.wf hwf hn hnd, fun _ => ?_, fun m md hm hmd => ?_, fun k hk' hnd' => ?_,
    fun m hm hne => valueAt_of_left h hleft (fun heq => hne (heq ▸ hvictim)) hm,
    fun m md hm hmd => ?_⟩
  · rw [hcached, if_neg hkey, if_pos rfl]
  · obtain rfl := Option.some.inj (hvictim.symm.trans hm)
    obtain rfl := Option.some.inj (hheap.symm.trans hmd)
    rw [hcached, if_pos rfl]
  · have hadmits : l.Admits key := ⟨contains_eq_false.mpr hk, Or.inr hnodes⟩
    rw [hcached, if_neg (hnd' n nd hvictim hheap), if_neg (hk' hadmits)]
  · obtain rfl := Option.some.inj (hvictim.symm.trans hm)
    obtain rfl := Option.some.inj (hheap.symm.trans hmd)
    exact hleft.valueAt

end Full

/-- **`insert` admits its key and evicts its victim**, and changes no other value. -/
theorem insert_admission (h : WF l) (key : K) (val : V) :
    ∃ l', l.insert key val = .ok l' ∧ Admission l key val l' := by
  cases hk : l.index key with
  | some n => exact ⟨_, insert_present hk, admission_touch h hk⟩
  | none =>
    rcases Nat.lt_or_ge l.nodes.length l.cap with hcap | hcap
    · exact ⟨_, insert_roomy hk hcap val, admission_roomy h hk hcap⟩
    · obtain ⟨l', n, nd, hrun, hlast, hnd, hleft⟩ := insert_full h hk hcap val
      refine ⟨l', hrun, ?_⟩
      by_cases hnodes : l.nodes = []
      · have hzero : l.cap = 0 := Nat.le_zero.mp (by simpa [hnodes] using hcap)
        exact admission_nothing h hk hlast hnd hleft hzero hnodes
      · exact admission_full h hk hlast hnd hleft hcap hnodes

end SmallKV.LRU
