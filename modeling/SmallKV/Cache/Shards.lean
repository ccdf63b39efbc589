import SmallKV.Cache.Recency
import SmallKV.Cache.Threads
import SmallKV.Foundations.Sharding
import Mathlib.Algebra.BigOperators.Group.Finset.Basic
import Mathlib.Algebra.Order.BigOperators.Group.Finset

/-!
# Cache/Shards — the sharded cache as five caches of their own

A call touches the shard of its key and no other, so every shard is an LRU cache over the calls with
its keys.  In particular the whole cache holds at most five times the capacity, and a key that was
inserted can be driven out only by keys of the same shard (`shards_of_run`).
-/

namespace SmallKV.Cache

open LRU (Access Answer Tracks Recent Inserted uses access)
open Recency

variable {K V : Type} [DecidableEq K] {hashFn : K → ℕ} {cap : ℕ}

/-- The key of a call. -/
def keyOf (a : Access K V) : K := LRU.Method.key (.access a)

/-- One call on the cache. -/
def step (hashFn : K → ℕ) (c : Cache K V) (a : Access K V) : Exec (Cache K V × Answer) :=
  c.method hashFn (.access a)

/-- The part of a history that is for a shard. -/
def shardOf (hashFn : K → ℕ) (h : List (Access K V × Answer)) (i : Fin shardingNum) :
    List (Access K V × Answer) :=
  ofObject (fun a => shardingIndex hashFn (keyOf a)) h i

/-- **A call on the cache is a call on the shard of its key.** -/
theorem onObject_eq_step (c : Cache K V) (a : Access K V) :
    onObject access (fun a => shardingIndex hashFn (keyOf a)) c.caches a =
      (fun p => (p.1.caches, p.2)) <$> c.step hashFn a := by
  rw [step, ← callOn_eq_method, callOn, LRU.code_run]
  rfl

omit [DecidableEq K] in
/-- A key that was inserted into the cache was inserted into its shard. -/
theorem inserted_shardOf {h : List (Access K V × Answer)} {key : K} (hk : Inserted h key) :
    Inserted (shardOf hashFn h (shardingIndex hashFn key)) key := by
  obtain ⟨before, val, answer, after, rfl, hafter⟩ := hk
  refine ⟨shardOf hashFn before (shardingIndex hashFn key), val, answer,
    shardOf hashFn after (shardingIndex hashFn key), ?_,
    fun e he => hafter e (List.mem_of_mem_filter he)⟩
  rw [shardOf, ofObject, List.filter_append, List.filter_cons_of_pos (by simp [keyOf, LRU.Method.key])]
  rfl

theorem tracks_new (cap : ℕ) : Tracks cap [] (LRU.new cap : LRU K V) [] := by
  refine ⟨⟨LRU.wf_new cap, rfl, LRU.lists_new cap⟩, .nil, ?_⟩
  rintro key ⟨before, val, answer, after, heq, -⟩
  simp at heq

/-- **Every run returns, and each shard then is what an LRU cache should be** after the calls with
its keys. -/
theorem run_recent (hashFn : K → ℕ) (cap : ℕ) (calls : List (Access K V)) :
    ∃ c answers, runFrom (step hashFn) (new cap : Cache K V) calls = .ok (c, answers) ∧
      ∀ i, Recent cap (shardOf hashFn (calls.zip answers) i) (c.caches i) := by
  obtain ⟨t, answers, hrun, htracks⟩ := run_objects access
    (fun a => shardingIndex hashFn (keyOf a)) (I := fun h l => ∃ ks, Tracks cap h l ks)
    (fun h l a ⟨ks, hks⟩ => hks.step a) calls (new cap : Cache K V).caches fun _ => ⟨[], tracks_new cap⟩
  rw [runFrom_map _ Cache.caches onObject_eq_step] at hrun
  obtain ⟨⟨c, answers'⟩, hcache, heq⟩ := map_eq_ok.mp hrun
  obtain ⟨rfl, rfl⟩ := Prod.mk.inj heq
  exact ⟨c, answers', hcache, fun i => (htracks i).elim fun ks hks => hks.recent⟩

/-- **The cache is five caches.**  Every run of calls on a new cache returns; each shard then is what
an LRU cache should be after the calls with its keys; all of them together hold at most five times
the capacity; and a key that was inserted, and not erased since, is in the cache unless as many
others of its shard as the capacity have been used since its last use. -/
theorem shards_of_run (hashFn : K → ℕ) (cap : ℕ) (calls : List (Access K V)) :
    ∃ c answers, runFrom (step hashFn) (new cap : Cache K V) calls = .ok (c, answers) ∧
      (∀ i, Recent cap (shardOf hashFn (calls.zip answers) i) (c.caches i)) ∧
      ∑ i, (c.caches i).nodes.length ≤ shardingNum * cap ∧
      ∀ key, Inserted (calls.zip answers) key → c.contains hashFn key = true ∨
        cap ≤ (usedSince (uses (shardOf hashFn (calls.zip answers) (shardingIndex hashFn key)))
          key).length := by
  obtain ⟨c, answers, hrun, hrecent⟩ := run_recent hashFn cap calls
  refine ⟨c, answers, hrun, hrecent, ?_, fun key hk => (hrecent _).kept key (inserted_shardOf hk)⟩
  calc ∑ i, (c.caches i).nodes.length ≤ ∑ _i : Fin shardingNum, cap :=
        Finset.sum_le_sum fun i _ => (hrecent i).bounded
    _ = shardingNum * cap := by simp

end SmallKV.Cache
