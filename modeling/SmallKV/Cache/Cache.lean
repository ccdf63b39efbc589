import SmallKV.Cache.Lru

/-!
# Cache/Cache — the sharded cache of `cache/cache.h`

A key belongs to the shard its hash says; the hash `std::hash` is a parameter.  Every shard keeps
the shape of an LRU cache (`WF`), and the operations do to the cached values what they do in the
shard of the key.
-/

namespace SmallKV

/-- `Cache::SHARDING_NUM`. -/
def shardingNum : ℕ := 5

/-- `Cache`. -/
structure Cache (K V : Type) where
  caches : Fin shardingNum → LRU K V

namespace Cache

variable {K V : Type}

/-- The constructor. -/
def new (cap : ℕ) : Cache K V := ⟨fun _ => LRU.new cap⟩

section Operations

variable (hashFn : K → ℕ)

/-- `sharding_index`. -/
def shardingIndex (key : K) : Fin shardingNum := ⟨hashFn key % shardingNum, Nat.mod_lt _ (by decide)⟩

/-- The cache with another shard for a key. -/
def withShard (c : Cache K V) (key : K) (l : LRU K V) : Cache K V :=
  ⟨Function.update c.caches (shardingIndex hashFn key) l⟩

/-- `contains`. -/
def contains (c : Cache K V) (key : K) : Bool := (c.caches (shardingIndex hashFn key)).contains key

/-- `*node`, for a node that `get` returned for a key. -/
def deref (c : Cache K V) (key : K) (node : NodeId) : Exec (LruNode K V) :=
  (c.caches (shardingIndex hashFn key)).deref node

variable [DecidableEq K]

/-- `insert`. -/
def insert (c : Cache K V) (key : K) (val : V) : Exec (Cache K V) := do
  return c.withShard hashFn key (← (c.caches (shardingIndex hashFn key)).insert key val)

/-- `erase`. -/
def erase (c : Cache K V) (key : K) : Exec (Cache K V) := do
  return c.withShard hashFn key (← (c.caches (shardingIndex hashFn key)).erase key)

/-- `get`. -/
def get (c : Cache K V) (key : K) : Exec (Cache K V × Option NodeId) := do
  let (l, node) ← (c.caches (shardingIndex hashFn key)).get key
  return (c.withShard hashFn key l, node)

/-- `release`. -/
def release (c : Cache K V) (key : K) : Exec (Cache K V) := do
  return c.withShard hashFn key (← (c.caches (shardingIndex hashFn key)).release key)

end Operations

/-! ## The cached values -/

/-- Every shard has the shape of an LRU cache. -/
def WF (c : Cache K V) : Prop := ∀ i, (c.caches i).WF

/-- The value cached under a key. -/
def cached (hashFn : K → ℕ) (c : Cache K V) (key : K) : Option V :=
  (c.caches (shardingIndex hashFn key)).cached key

theorem wf_new (cap : ℕ) : WF (new cap : Cache K V) := fun _ => LRU.wf_new cap

variable (hashFn : K → ℕ) {c : Cache K V} {key k : K} {l : LRU K V}

theorem cached_new (cap : ℕ) (key : K) : cached hashFn (new cap : Cache K V) key = none := rfl

theorem contains_iff (h : WF c) :
    c.contains hashFn key = true ↔ ∃ v, c.cached hashFn key = some v :=
  LRU.contains_iff (h _)

theorem WF.withShard (h : WF c) (hl : l.WF) : WF (c.withShard hashFn key l) := by
  intro i
  rw [Cache.withShard]
  by_cases hi : i = shardingIndex hashFn key
  · subst hi
    simpa using hl
  · simpa [hi] using h i

/-- A key of another shard is cached as before. -/
theorem cached_withShard :
    cached hashFn (c.withShard hashFn key l) k =
      if shardingIndex hashFn k = shardingIndex hashFn key then l.cached k
      else c.cached hashFn k := by
  rw [cached, withShard, cached]
  by_cases hi : shardingIndex hashFn k = shardingIndex hashFn key
  · simp [hi]
  · simp [hi]

variable [DecidableEq K]

/-- **`insert` caches the value only under a key that is not cached.** -/
theorem insert_spec (h : WF c) (key : K) (val : V) :
    ∃ c', c.insert hashFn key val = .ok c' ∧ WF c' ∧ ∀ k v, c'.cached hashFn k = some v →
      c.cached hashFn k = some v ∨ k = key ∧ v = val ∧ c.cached hashFn k = none := by
  obtain ⟨l, hrun, hwf, -, hcached⟩ := LRU.insert_spec (h (shardingIndex hashFn key)) key val
  refine ⟨_, by simp only [insert, hrun, ok_bind]; rfl, h.withShard hashFn hwf, fun k v hv => ?_⟩
  rw [cached_withShard] at hv
  by_cases hi : shardingIndex hashFn k = shardingIndex hashFn key
  · rw [if_pos hi] at hv
    rw [cached, hi]
    exact hcached k v hv
  · exact Or.inl ((if_neg hi).symm.trans hv)

/-- **`erase` drops the cached value** and no other. -/
theorem erase_spec (h : WF c) (key : K) :
    ∃ c', c.erase hashFn key = .ok c' ∧ WF c' ∧
      ∀ k, c'.cached hashFn k = if k = key then none else c.cached hashFn k := by
  obtain ⟨l, hrun, hwf, -, hcached⟩ := LRU.erase_spec (h (shardingIndex hashFn key)) key
  refine ⟨_, by simp only [erase, hrun, ok_bind]; rfl, h.withShard hashFn hwf, fun k => ?_⟩
  rw [cached_withShard]
  by_cases hi : shardingIndex hashFn k = shardingIndex hashFn key
  · rw [if_pos hi, hcached, cached, hi]
  · have hne : k ≠ key := fun heq => hi (congrArg _ heq)
    rw [if_neg hi, if_neg hne]

/-- **`get` answers for the cached values**, and keeps them. -/
theorem get_spec (h : WF c) (key : K) :
    ∃ c' r, c.get hashFn key = .ok (c', r) ∧ WF c' ∧
      (∀ k, c'.cached hashFn k = c.cached hashFn k) ∧
      ∀ v, c.cached hashFn key = some v →
        ∃ n nd, r = some n ∧ c'.deref hashFn key n = .ok nd ∧ nd.val = v := by
  have hshard := h (shardingIndex hashFn key)
  obtain ⟨l, r, hrun, hs, hval⟩ := LRU.get_spec hshard key
  refine ⟨_, r, by simp only [get, hrun, ok_bind]; rfl, h.withShard hashFn (hs.wf hshard), fun k => ?_,
    fun v hv => ?_⟩
  · rw [cached_withShard]
    by_cases hi : shardingIndex hashFn k = shardingIndex hashFn key
    · rw [if_pos hi, hs.cached hshard, cached, hi]
    · rw [if_neg hi]
  · obtain ⟨nd, hnd, rfl⟩ := Option.map_eq_some_iff.mp (hval.trans hv)
    obtain ⟨n, rfl, hn⟩ := Option.bind_eq_some_iff.mp hnd
    refine ⟨n, nd, rfl, ?_, rfl⟩
    simp [deref, withShard, LRU.deref, hn]

end Cache

end SmallKV
