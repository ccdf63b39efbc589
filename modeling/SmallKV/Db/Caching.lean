import SmallKV.Cache.Pins
import SmallKV.Cache.Shards
import SmallKV.Db.Provenance

/-!
# Db/Caching — what the database does to its cache

A `Put` inserts, a `Delete` erases, and a `Get` asks for its key and reads what it finds; a run of the
database is a run of these accesses on its cache (`cache_of_run`).  What is known of the cache
therefore holds in the database.  A key that was put stays readable, through all tables that are
written meanwhile, until as many others of its shard as the capacity have been in use
(`get_of_recent`).  And since nothing is ever released, a cached value is freed only if no `Get`
found it (`freed_iff`), and that of a `Put` whose key is cached never is (`put_lost`).
-/

namespace SmallKV.DbImpl

open LRU (Access Answer Inserted useOf uses)
open Cache (keyOf shardOf shardingIndex)

variable {env : Env} {db db' db₁ db₂ : DbImpl} {key : StringView} {status : DBStatus}
  {ret out : Option Bytes} {c : Call} {r : Reply}

/-! ## One call -/

/-- **The inversion of `Get`**: it is refused, or it looks its key up in the cache, and reads what it
finds. -/
theorem get_cases (h : db.get env key ret = .ok (status, out, db')) :
    (ret = none ∨ key.empty = true) ∧ db' = db ∨
    (ret ≠ none ∧ key.empty = false) ∧
      (db.cache.contains env.hashFn key.cstr = false ∧ db' = db ∨
        db.cache.contains env.hashFn key.cstr = true ∧
          ∃ node, db.cache.get env.hashFn key.cstr = .ok (db'.cache, node)) := by
  cases ret with
  | none =>
    obtain ⟨-, -, rfl⟩ : _ ∧ _ ∧ db = db' := by simpa [get] using h
    exact Or.inl ⟨Or.inl rfl, rfl⟩
  | some old =>
    rw [get] at h
    split_ifs at h with hkey hcontains
    · obtain ⟨-, -, rfl⟩ : _ ∧ _ ∧ db = db' := by simpa using h
      exact Or.inl ⟨Or.inr hkey, rfl⟩
    · obtain ⟨⟨cache, node⟩, hget, h⟩ := bind_eq_ok.mp h
      obtain ⟨n, -, h⟩ := bind_eq_ok.mp h
      obtain ⟨nd, -, h⟩ := bind_eq_ok.mp h
      obtain ⟨-, -, rfl⟩ : _ ∧ _ ∧ { db with cache := cache } = db' := by simpa using h
      exact Or.inr ⟨⟨by simp, by simpa using hkey⟩, Or.inr ⟨hcontains, node, hget⟩⟩
    · obtain ⟨found, -, h⟩ := bind_eq_ok.mp h
      split_ifs at h
      · obtain ⟨v, -, h⟩ := bind_eq_ok.mp h
        obtain ⟨w, -, h⟩ := bind_eq_ok.mp h
        obtain ⟨-, -, rfl⟩ : _ ∧ _ ∧ db = db' := by simpa using h
        exact Or.inr ⟨⟨by simp, by simpa using hkey⟩, Or.inl ⟨by simpa using hcontains, rfl⟩⟩
      · exact absurd h getFromSst_ne_ok

variable (env) in
/-- The accesses of a call to the cache. -/
def accesses (db : DbImpl) : Call → List (Access Bytes Bytes)
  | .put key value _ => if key.empty || value.empty then [] else [.insert key.bytes value.bytes]
  | .delete key _ => if key.empty then [] else [.erase key.cstr]
  | .get _ none => []
  | .get key (some _) =>
      if key.empty then []
      else if db.cache.contains env.hashFn key.cstr then [.contains key.cstr, .get key.cstr]
      else [.contains key.cstr]

variable (env) in
/-- The nodes that a call finds in the cache: the shard of its key, and the node in it. -/
def found (db : DbImpl) : Call → List (Fin shardingNum × NodeId)
  | .put _ _ _ => []
  | .delete _ _ => []
  | .get _ none => []
  | .get key (some _) =>
      if key.empty then []
      else
        let i := shardingIndex env.hashFn key.cstr
        ((db.cache.caches i).index key.cstr).toList.map (i, ·)

variable (env db) in
/-- **What a call may do to the cache**: its accesses, the nodes that it finds, and the cache that it
leaves. -/
inductive CacheEffect :
    List (Access Bytes Bytes) → List (Fin shardingNum × NodeId) → Cache Bytes Bytes → Prop
  | nothing : CacheEffect [] [] db.cache
  | insert {k v : Bytes} {cache : Cache Bytes Bytes}
      (hinsert : db.cache.insert env.hashFn k v = .ok cache) : CacheEffect [.insert k v] [] cache
  | erase {k : Bytes} {cache : Cache Bytes Bytes} (herase : db.cache.erase env.hashFn k = .ok cache) :
      CacheEffect [.erase k] [] cache
  | miss {k : Bytes} (hmiss : db.cache.contains env.hashFn k = false) :
      CacheEffect [.contains k] [] db.cache
  | hit {k : Bytes} {cache : Cache Bytes Bytes} {node : Option NodeId}
      (hhit : db.cache.contains env.hashFn k = true)
      (hget : db.cache.get env.hashFn k = .ok (cache, node)) :
      CacheEffect [.contains k, .get k]
        (((db.cache.caches (shardingIndex env.hashFn k)).index k).toList.map
          (shardingIndex env.hashFn k, ·)) cache

/-- A `Get` reads what it finds in the cache. -/
theorem effect_of_get (hget : db.get env key ret = .ok (status, out, db')) :
    CacheEffect env db (accesses env db (.get key ret)) (found env db (.get key ret)) db'.cache := by
  rcases get_cases hget with ⟨hrefused, rfl⟩ | ⟨⟨hret, hkey⟩, hlooked⟩
  · have hnothing : accesses env db' (.get key ret) = [] ∧ found env db' (.get key ret) = [] := by
      rcases hrefused with rfl | hkey
      · exact ⟨rfl, rfl⟩
      · cases ret <;> simp [accesses, found, hkey]
    rw [hnothing.1, hnothing.2]
    exact .nothing
  · obtain ⟨old, rfl⟩ := Option.ne_none_iff_exists'.mp hret
    rcases hlooked with ⟨hmiss, rfl⟩ | ⟨hhit, node, hnode⟩
    · have hidx : (db'.cache.caches (shardingIndex env.hashFn key.cstr)).index key.cstr = none := by
        simpa [Cache.contains, LRU.contains] using hmiss
      simpa [accesses, found, hkey, hmiss, hidx] using CacheEffect.miss hmiss
    · simpa [accesses, found, hkey, hhit] using CacheEffect.hit hhit hnode

/-- **The inversion of a call, as far as the cache is concerned.** -/
theorem effect_of_step (hstep : db.step env c = .ok (db', r)) :
    CacheEffect env db (accesses env db c) (found env db c) db'.cache := by
  cases c with
  | put key value chance =>
    obtain ⟨⟨status, db₁⟩, hput, heq⟩ := bind_eq_ok.mp hstep
    obtain ⟨rfl, rfl⟩ := Prod.mk.inj (Except.ok.inj heq)
    rcases (put_eq_ok hput).outcome with ⟨hempty, -, hcache⟩ | ⟨⟨hkey, hvalue⟩, -, hcache⟩
    · simpa [accesses, found, StringView.empty, hempty, hcache] using CacheEffect.nothing
    · simpa [accesses, found, StringView.empty, hkey, hvalue] using CacheEffect.insert hcache
  | delete key chance =>
    obtain ⟨⟨status, db₁⟩, hdelete, heq⟩ := bind_eq_ok.mp hstep
    obtain ⟨rfl, rfl⟩ := Prod.mk.inj (Except.ok.inj heq)
    rcases delete_eq_ok hdelete with ⟨hkey, -, rfl⟩ | ⟨hkey, -, hdone⟩
    · simpa [accesses, found, StringView.empty, hkey] using CacheEffect.nothing
    · simpa [accesses, found, StringView.empty, hkey] using CacheEffect.erase hdone.cache
  | get key ret =>
    obtain ⟨⟨status, out, db₁⟩, hget, heq⟩ := bind_eq_ok.mp hstep
    obtain ⟨rfl, rfl⟩ := Prod.mk.inj (Except.ok.inj heq)
    exact effect_of_get hget

/-- **What a call does to the cache is to make its accesses.** -/
theorem cache_of_step (hstep : db.step env c = .ok (db', r)) :
    ∃ answers, runFrom (Cache.step env.hashFn) db.cache (accesses env db c) =
      .ok (db'.cache, answers) := by
  have heffect := effect_of_step hstep
  generalize accesses env db c = as, found env db c = ns, db'.cache = cache at heffect ⊢
  cases heffect with
  | nothing => exact ⟨[], rfl⟩
  | insert hinsert => exact ⟨[.done], by simp [runFrom, Cache.step, Cache.method, hinsert]⟩
  | erase herase => exact ⟨[.done], by simp [runFrom, Cache.step, Cache.method, herase]⟩
  | miss hmiss => exact ⟨[.found false], by simp [runFrom, Cache.step, Cache.method, hmiss]⟩
  | @hit k cache node hhit hget =>
    exact ⟨[.found true, .node node], by simp [runFrom, Cache.step, Cache.method, hhit, hget]⟩

/-! ## Runs -/

variable {options : Options} {wal : Bytes} {disk : Disk} {calls : List Call} {rs : List Reply}

variable (env) in
/-- The accesses of all calls of a run to the cache. -/
def accessesOf (db : DbImpl) (calls : List Call) : List (Access Bytes Bytes) :=
  traceFrom (step env) (accesses env) db calls

/-- **A run of the database is a run of its accesses on the cache.** -/
theorem cache_of_run (hrun : run env options wal disk calls = .ok (db, rs)) :
    ∃ answers, runFrom (Cache.step env.hashFn) (Cache.new options.cacheSize)
      (accessesOf env (new options wal disk) calls) = .ok (db.cache, answers) :=
  run_trace (fun hstep => cache_of_step hstep) hrun

/-- So each shard is what an LRU cache should be after the accesses with its keys. -/
theorem recent_shards (hrun : run env options wal disk calls = .ok (db, rs)) :
    ∃ answers, answers.length = (accessesOf env (new options wal disk) calls).length ∧
      ∀ i, LRU.Recent options.cacheSize (shardOf env.hashFn
        ((accessesOf env (new options wal disk) calls).zip answers) i) (db.cache.caches i) := by
  obtain ⟨answers, hcache⟩ := cache_of_run hrun
  obtain ⟨c, answers', hrun', hrecent⟩ := Cache.run_recent env.hashFn options.cacheSize
    (accessesOf env (new options wal disk) calls)
  obtain ⟨rfl, -⟩ := Prod.mk.inj (Except.ok.inj (hcache.symm.trans hrun'))
  exact ⟨answers', length_of_runFrom _ hrun', hrecent⟩

/-! ## Keys that stay readable -/

/-- The key that a call may use in the cache. -/
def Call.used : Call → Option Bytes
  | .put key _ _ => some key.bytes
  | .delete _ _ => none
  | .get key _ => some key.cstr

variable (env) in
/-- The other keys of the shard of a key that the calls may use. -/
def rivals (key : Bytes) (calls : List Call) : List Bytes :=
  ((calls.filterMap Call.used).filter fun k =>
    k ≠ key ∧ shardingIndex env.hashFn k = shardingIndex env.hashFn key).dedup

/-- An access is for the key of its call, and erases only what the call deletes. -/
theorem of_mem_accesses {a : Access Bytes Bytes} (ha : a ∈ accesses env db c) :
    (∀ k, a = .erase k → c.Deleted k) ∧
      ∀ answer k, useOf (a, answer) = some k → c.used = some k ∧ keyOf a = k := by
  cases c with
  | put key value chance =>
    obtain ⟨-, rfl⟩ : _ ∧ a = .insert key.bytes value.bytes := by simpa [accesses] using ha
    refine ⟨by simp, fun answer k hk => ?_⟩
    obtain rfl : key.bytes = k := by simpa [useOf] using hk
    exact ⟨rfl, rfl⟩
  | delete key chance =>
    obtain ⟨hkey, rfl⟩ : key.empty = false ∧ a = .erase key.cstr := by simpa [accesses] using ha
    refine ⟨fun k hk => ⟨hkey, Access.erase.inj hk⟩, fun answer k hk => by simp [useOf] at hk⟩
  | get key ret =>
    obtain rfl | rfl : a = .contains key.cstr ∨ a = .get key.cstr := by
      cases ret with
      | none => simp [accesses] at ha
      | some old =>
        rw [accesses] at ha
        split_ifs at ha
        · simp at ha
        · simpa using ha
        · exact Or.inl (by simpa using ha)
    · exact ⟨by simp, fun answer k hk => by simp [useOf] at hk⟩
    · refine ⟨by simp, fun answer k hk => ?_⟩
      obtain rfl : key.cstr = k := by
        rcases answer with _ | ⟨_ | n⟩ | b <;> simp [useOf] at hk ⊢
        exact hk
      exact ⟨rfl, rfl⟩

/-- **What was used in a shard since the last `insert` of a key** are rivals of the key. -/
theorem length_usedSince_le {k val : Bytes} {answer : Answer}
    {before after : List (Access Bytes Bytes × Answer)} {cs : List Call}
    (hafter : ∀ e ∈ after, ∃ c ∈ cs, ∃ db, e.1 ∈ accesses env db c) :
    (Recency.usedSince (uses (shardOf env.hashFn (before ++ (.insert k val, answer) :: after)
      (shardingIndex env.hashFn k))) k).length ≤ (rivals env k cs).length := by
  have huses : uses (shardOf env.hashFn (before ++ (.insert k val, answer) :: after)
      (shardingIndex env.hashFn k)) =
      uses (shardOf env.hashFn after (shardingIndex env.hashFn k)) ++
        k :: uses (shardOf env.hashFn before (shardingIndex env.hashFn k)) := by
    have hself : keyOf (.insert k val : Access Bytes Bytes) = k := rfl
    simp [uses, shardOf, ofObject, hself, useOf]
  refine (List.subperm_of_subset (List.nodup_dedup _) fun a ha => ?_).length_le
  rw [huses] at ha
  obtain ⟨hused, hne⟩ := Recency.of_mem_usedSince_append ha
  rw [uses, List.mem_reverse, List.mem_filterMap] at hused
  obtain ⟨e, he, huse⟩ := hused
  obtain ⟨he, hshard⟩ := List.mem_filter.mp he
  obtain ⟨c, hc, db, hacc⟩ := hafter e he
  obtain ⟨hcall, hkey⟩ := (of_mem_accesses hacc).2 e.2 a huse
  subst hkey
  rw [rivals, List.mem_dedup, List.mem_filter]
  exact ⟨List.mem_filterMap.mpr ⟨c, hc, hcall⟩, by simpa [hne] using hshard⟩

/-- **A key that was put stays in the cache while it has few rivals.** -/
theorem contains_of_put (hrun : run env options wal disk calls = .ok (db, rs))
    {before after : List (Call × Reply)} {value : StringView} {chance : Chance}
    (hput : calls.zip rs = before ++ (.put key value chance, .success, ret) :: after)
    (hkept : ∀ e ∈ after, ¬ e.1.Deleted key.bytes)
    (hfew : (rivals env key.bytes (after.map Prod.fst)).length < options.cacheSize) :
    db.cache.contains env.hashFn key.bytes = true := by
  obtain ⟨answers, hlength, hrecent⟩ := recent_shards hrun
  obtain ⟨s₁, s₂, hstep, htrace⟩ := exists_trace_of_zip (accesses env) hrun hput
  have hinsert : accesses env s₁ (.put key value chance) = [.insert key.bytes value.bytes] := by
    obtain ⟨⟨status, s₃⟩, hput', heq⟩ := bind_eq_ok.mp hstep
    obtain ⟨rfl, hreply⟩ := Prod.mk.inj (Except.ok.inj heq)
    obtain ⟨rfl, -⟩ := Prod.mk.inj hreply
    rcases (put_eq_ok hput').outcome with ⟨-, hstatus, -⟩ | ⟨⟨hkey, hvalue⟩, -, -⟩
    · cases hstatus
    · simp [accesses, StringView.empty, hkey, hvalue]
  rw [hinsert] at htrace
  -- the history of the accesses, cut at the `insert` of this `Put`
  have hfst := List.map_fst_zip hlength.ge
  rw [accessesOf, htrace] at hfst
  obtain ⟨h₁, h₂', hcut, -, hcons⟩ := List.map_eq_append_iff.mp hfst
  obtain ⟨⟨a, answer⟩, h₂, rfl, rfl, hrest⟩ := List.map_eq_cons_iff.mp hcons
  have hafter : ∀ e ∈ h₂, ∃ c ∈ after.map Prod.fst, ∃ db, e.1 ∈ accesses env db c := fun e he =>
    exists_of_mem_traceFrom (hrest ▸ List.mem_map_of_mem he)
  have hinserted : Inserted (h₁ ++ (.insert key.bytes value.bytes, answer) :: h₂) key.bytes := by
    refine ⟨h₁, value.bytes, answer, h₂, rfl, fun e he herase => ?_⟩
    obtain ⟨c, hc, db₁, hacc⟩ := hafter e he
    obtain ⟨e', he', rfl⟩ := List.mem_map.mp hc
    exact hkept e' he' ((of_mem_accesses hacc).1 _ herase)
  rw [accessesOf, htrace, hcut] at hrecent
  refine ((hrecent _).kept key.bytes (Cache.inserted_shardOf hinserted)).resolve_right ?_
  exact fun hcap => Nat.not_le.mpr hfew (hcap.trans (length_usedSince_le hafter))

/-- **A key that was put stays readable while it has few rivals**: after any run in which it was put
with success and not deleted since, and the calls since then use fewer other keys of its shard than
the cache has places in it, a `Get` of the key returns a value that was written under it. -/
theorem get_of_recent (hrun : run env options wal disk calls = .ok (db, rs))
    {before after : List (Call × Reply)} {value : StringView} {chance : Chance}
    (hput : calls.zip rs = before ++ (.put key value chance, .success, ret) :: after)
    (hkept : ∀ e ∈ after, ¬ e.1.Deleted key.bytes)
    (hfew : (rivals env key.bytes (after.map Prod.fst)).length < options.cacheSize)
    {asked : StringView} (hasked : asked.cstr = key.bytes) (hne : asked.empty = false) (old : Bytes) :
    ∃ v db', db.get env asked (some old) = .ok (.success, some v, db') ∧
      WrittenSince (calls.zip rs) key.bytes v := by
  have hcontains := contains_of_put hrun hput hkept hfew
  have hi := (sourced_new options wal disk).run hrun
  obtain ⟨m, hm, -⟩ := hi.table
  obtain ⟨v, hv⟩ := (Cache.contains_iff env.hashFn hi.wf).mp hcontains
  have hbytes : asked.bytes ≠ [] := by simpa [StringView.empty] using hne
  obtain ⟨db', hget, -⟩ := (get_spec env hi.wf hm hbytes old).1 v (by
    rw [buffered, hasked, hv, Option.some_or])
  exact ⟨v, db', hget, hi.cache _ v hv⟩

/-- Two keys of one shard, put over a memtable that is written to a table each time. -/
def flushed : List Call :=
  [.put (.ofBytes [107]) (.ofBytes [97]) .quiet, .put (.ofBytes [108]) (.ofBytes [98]) .quiet]

/-- The first is no longer in the memtable, and is read. -/
theorem get_of_recent_flushed :
    ∃ db rs, run Env.plain { memTableMaxSize := 1 } [] (fun _ => none) flushed = .ok (db, rs) ∧
      db.memTable.contains (.ofBytes [107]) = .ok false ∧
      ∃ v db', db.get Env.plain (.ofBytes [107]) (some []) = .ok (.success, some v, db') ∧
        WrittenSince (flushed.zip rs) [107] v := by
  obtain ⟨db, hrun, hflushed⟩ : ∃ db,
      run Env.plain { memTableMaxSize := 1 } [] (fun _ => none) flushed =
        .ok (db, [(.success, none), (.success, none)]) ∧
        db.memTable.contains (.ofBytes [107]) = .ok false := ⟨_, rfl, rfl⟩
  have hput : flushed.zip ([(.success, none), (.success, none)] : List Reply) =
      [] ++ (.put (.ofBytes [107]) (.ofBytes [97]) .quiet, .success, none) :: [_] := rfl
  exact ⟨db, _, hrun, hflushed, get_of_recent hrun hput (by simp [Call.Deleted]) (by decide) rfl rfl []⟩

/-! ## Values that are never freed -/

/-- What holds of the new shard and of the others holds of all shards. -/
theorem forall_withShard {P : Fin shardingNum → LRU Bytes Bytes → Prop} {cache : Cache Bytes Bytes}
    {k : Bytes} {l : LRU Bytes Bytes} (hself : P (shardingIndex env.hashFn k) l)
    (hothers : ∀ i, i ≠ shardingIndex env.hashFn k → P i (cache.caches i)) (i : Fin shardingNum) :
    P i ((cache.withShard env.hashFn k l).caches i) := by
  by_cases hi : i = shardingIndex env.hashFn k
  · subst hi
    simpa [Cache.withShard] using hself
  · simpa [Cache.withShard, hi] using hothers i hi

/-- **The books of the whole cache**: those of the shards, with the nodes that were found. -/
def Accounted (linked : Fin shardingNum → NodeId → Prop) (fs : List (Fin shardingNum × NodeId))
    (cache : Cache Bytes Bytes) : Prop :=
  ∀ i, LRU.Accounted (linked i) (fun n => fs.count (i, n)) (cache.caches i)

variable {linked : Fin shardingNum → NodeId → Prop} {fs fs' : List (Fin shardingNum × NodeId)}
  {cache : Cache Bytes Bytes} {k : Bytes} {l : LRU Bytes Bytes}

/-- A node that is found is counted once more. -/
theorem count_found (i j : Fin shardingNum) (node : Option NodeId) (n : NodeId) :
    (fs ++ node.toList.map (i, ·)).count (j, n) =
      fs.count (j, n) + if j = i ∧ node = some n then 1 else 0 := by
  cases node with
  | none => simp
  | some m =>
    rw [Option.toList_some, List.map_singleton, List.count_append, List.count_singleton]
    simp [eq_comm (a := i)]

/-- **`get` of the cache counts the node that it finds.** -/
theorem Accounted.get (h : Accounted linked fs cache) (hroom : fs.length + 2 < 2 ^ 31)
    {cache' : Cache Bytes Bytes} {node : Option NodeId}
    (hget : cache.get env.hashFn k = .ok (cache', node)) :
    Accounted linked (fs ++ ((cache.caches (shardingIndex env.hashFn k)).index k).toList.map
      (shardingIndex env.hashFn k, ·)) cache' := by
  obtain ⟨⟨l, node'⟩, hshard, heq⟩ := bind_eq_ok.mp hget
  obtain ⟨rfl, rfl⟩ := Prod.mk.inj (Except.ok.inj heq)
  have hcount : ∀ n, fs.count (shardingIndex env.hashFn k, n) + 2 < 2 ^ 31 := fun n =>
    (Nat.add_le_add_right List.count_le_length 2).trans_lt hroom
  have hl := (h _).get hcount hshard
  refine forall_withShard ?_ fun i hi => ?_
  · simpa only [count_found, true_and] using hl
  · simpa only [count_found, hi, false_and, if_false, Nat.add_zero] using h i

/-- **The step lemma of the books.** -/
theorem Accounted.step (h : Accounted linked fs db.cache) (hroom : fs.length + 2 < 2 ^ 31)
    (hstep : db.step env c = .ok (db', r)) :
    Accounted linked (fs ++ found env db c) db'.cache := by
  have heffect := effect_of_step hstep
  generalize accesses env db c = as, found env db c = ns, db'.cache = cache at heffect ⊢
  cases heffect with
  | nothing | miss => rwa [List.append_nil]
  | insert hinsert =>
    obtain ⟨l, hinsert, hshard⟩ := bind_eq_ok.mp hinsert
    rw [List.append_nil, ← Except.ok.inj hshard]
    exact forall_withShard ((h _).insert hinsert) fun i _ => h i
  | erase herase =>
    obtain ⟨l, herase, hshard⟩ := bind_eq_ok.mp herase
    rw [List.append_nil, ← Except.ok.inj hshard]
    exact forall_withShard ((h _).erase herase) fun i _ => h i
  | hit _ hget => exact h.get hroom hget

theorem length_found_le (env : Env) (db : DbImpl) (c : Call) : (found env db c).length ≤ 1 := by
  rcases c with ⟨key, value, chance⟩ | ⟨key, chance⟩ | ⟨key, _ | old⟩
  · exact Nat.zero_le _
  · exact Nat.zero_le _
  · exact Nat.zero_le _
  · rw [found]
    split_ifs
    · exact Nat.zero_le _
    · simp [Option.length_toList_le]

/-- **The run lemma of the books.** -/
theorem Accounted.run {cs : List Call} (h : Accounted linked fs db.cache)
    (hroom : fs.length + cs.length + 1 < 2 ^ 31)
    (hrun : runFrom (DbImpl.step env) db cs = .ok (db', rs)) :
    Accounted linked (fs ++ traceFrom (DbImpl.step env) (found env) db cs) db'.cache := by
  induction cs generalizing db fs rs with
  | nil =>
    obtain ⟨rfl, -⟩ : db = db' ∧ [] = rs := by simpa using hrun
    rwa [traceFrom, List.append_nil]
  | cons c cs ih =>
    obtain ⟨db₁, r, rs', hstep, hrest, -⟩ := (runFrom_cons _).mp hrun
    have hone := length_found_le env db c
    rw [List.length_cons] at hroom
    rw [traceFrom_cons hstep, ← List.append_assoc]
    refine ih (h.step (by omega) hstep) ?_ hrest
    rw [List.length_append]
    omega

variable {before after : List Call} {rs₁ rs₂ : List Reply} {i : Fin shardingNum} {n : NodeId}

variable (env) in
/-- The nodes that the calls of a run find in the cache. -/
def foundIn (db : DbImpl) (calls : List Call) : List (Fin shardingNum × NodeId) :=
  traceFrom (step env) (found env) db calls

theorem accounted_of_run (hbefore : run env options wal disk before = .ok (db₁, rs₁))
    (hroom : before.length + 1 < 2 ^ 31) :
    Accounted (fun _ _ => False) (foundIn env (new options wal disk) before)
      db₁.cache := by
  have hnew : Accounted (fun _ _ => False) [] (new options wal disk).cache :=
    fun _ => LRU.accounted_new options.cacheSize
  exact hnew.run (by simpa using hroom) hbefore

/-- The books go on after a run. -/
theorem accounted_append (hbefore : run env options wal disk before = .ok (db₁, rs₁))
    (hbooks : Accounted linked (foundIn env (new options wal disk) before) db₁.cache)
    (hafter : runFrom (DbImpl.step env) db₁ after = .ok (db, rs))
    (hroom : before.length + after.length + 1 < 2 ^ 31) :
    Accounted linked (foundIn env (new options wal disk) (before ++ after)) db.cache := by
  have hlength : (foundIn env (new options wal disk) before).length ≤ before.length :=
    length_traceFrom_le (length_found_le env) before _
  rw [foundIn, traceFrom_append hbefore]
  exact hbooks.run (by omega) hafter

/-- **A cached value is freed only if no `Get` found it**: a node that was in the cache after some
calls of a run is destroyed at its end exactly if it has left the cache and no call of the run found
it; and if it is not, its count is the number of the calls that did, and one for the cache. -/
theorem freed_iff (hbefore : run env options wal disk before = .ok (db₁, rs₁))
    (hafter : runFrom (DbImpl.step env) db₁ after = .ok (db, rs))
    (hroom : before.length + after.length + 1 < 2 ^ 31) (hn : n ∈ (db₁.cache.caches i).nodes) :
    (n ∈ (db.cache.caches i).destroyed ↔ n ∉ (db.cache.caches i).nodes ∧
      (i, n) ∉ foundIn env (new options wal disk) (before ++ after)) ∧
    (n ∉ (db.cache.caches i).destroyed → ∃ nd, (db.cache.caches i).heap n = some nd ∧
      nd.refCnt = (foundIn env (new options wal disk) (before ++ after)).count (i, n) +
        if n ∈ (db.cache.caches i).nodes then 1 else 0) := by
  have hbooks := accounted_append hbefore
    (fun j => (accounted_of_run hbefore (by omega) j).of_nodes) hafter hroom
  refine ⟨?_, (hbooks i).refCnt_eq hn⟩
  rw [(hbooks i).destroyed_iff hn, List.count_eq_zero]

/-- A value that is put and deleted is freed; if it was read in between, it is not. -/
theorem freed_iff_two :
    (∃ db rs, run Env.plain {} [] (fun _ => none) [.put (.ofBytes [107]) (.ofBytes [97]) .quiet,
        .delete (.ofBytes [107]) .quiet] = .ok (db, rs) ∧
      0 ∈ (db.cache.caches (shardingIndex Env.plain.hashFn [107])).destroyed) ∧
    ∃ db rs, run Env.plain {} [] (fun _ => none) [.put (.ofBytes [107]) (.ofBytes [97]) .quiet,
        .get (.ofBytes [107]) (some []), .delete (.ofBytes [107]) .quiet] = .ok (db, rs) ∧
      0 ∉ (db.cache.caches (shardingIndex Env.plain.hashFn [107])).destroyed := by
  obtain ⟨db₁, hput, hn, ⟨db₂, hdelete, hgone⟩, db₃, hread, -⟩ :
      ∃ db₁, run Env.plain {} [] (fun _ => none) [.put (.ofBytes [107]) (.ofBytes [97]) .quiet] =
          .ok (db₁, [(.success, none)]) ∧
        0 ∈ (db₁.cache.caches (shardingIndex Env.plain.hashFn [107])).nodes ∧
        (∃ db₂, runFrom (step Env.plain) db₁ [.delete (.ofBytes [107]) .quiet] =
            .ok (db₂, [(.success, none)]) ∧
          0 ∉ (db₂.cache.caches (shardingIndex Env.plain.hashFn [107])).nodes) ∧
        ∃ db₃, runFrom (step Env.plain) db₁ [.get (.ofBytes [107]) (some []),
            .delete (.ofBytes [107]) .quiet] =
          .ok (db₃, [(.success, some [97]), (.success, none)]) ∧
          0 ∉ (db₃.cache.caches (shardingIndex Env.plain.hashFn [107])).nodes :=
    ⟨_, rfl, by decide, ⟨_, rfl, by decide⟩, _, rfl, by decide⟩
  refine ⟨⟨db₂, _, (runFrom_append _).mpr ⟨db₁, _, _, hput, hdelete, rfl⟩,
    (freed_iff hput hdelete (by decide) hn).1.mpr ⟨hgone, by decide⟩⟩,
    db₃, _, (runFrom_append _).mpr ⟨db₁, _, _, hput, hread, rfl⟩, ?_⟩
  exact fun hfreed => ((freed_iff hput hread (by decide) hn).1.mp hfreed).2 (by decide)

/-! ## Nodes that are lost -/

theorem evolves_withShard (h : LRU.Evolves (cache.caches (shardingIndex env.hashFn k)) l)
    (i : Fin shardingNum) :
    LRU.Evolves (cache.caches i) ((cache.withShard env.hashFn k l).caches i) :=
  forall_withShard (P := fun i => LRU.Evolves (cache.caches i)) h (fun _ _ => .refl _) i

/-- **What a call does to the nodes of a shard.** -/
theorem evolves_of_step (hs : Shaped db) (hstep : db.step env c = .ok (db', r)) (i : Fin shardingNum) :
    LRU.Evolves (db.cache.caches i) (db'.cache.caches i) := by
  have heffect := effect_of_step hstep
  generalize accesses env db c = as, found env db c = ns, db'.cache = cache at heffect ⊢
  cases heffect with
  | nothing | miss => exact .refl _
  | insert hinsert =>
    obtain ⟨l, hinsert, hshard⟩ := bind_eq_ok.mp hinsert
    exact Except.ok.inj hshard ▸ evolves_withShard (LRU.evolves_of_insert (hs.wf _) hinsert) i
  | erase herase =>
    obtain ⟨l, herase, hshard⟩ := bind_eq_ok.mp herase
    exact Except.ok.inj hshard ▸ evolves_withShard (LRU.evolves_of_erase (hs.wf _) herase) i
  | hit _ hget =>
    obtain ⟨⟨l, node⟩, hnode, hshard⟩ := bind_eq_ok.mp hget
    obtain ⟨rfl, -⟩ := Prod.mk.inj (Except.ok.inj hshard)
    exact evolves_withShard (LRU.evolves_of_get (hs.wf _) hnode) i

/-- **What calls do to them.** -/
theorem evolves_of_run {cs : List Call} (hs : Shaped db)
    (hrun : runFrom (DbImpl.step env) db cs = .ok (db', rs)) (i : Fin shardingNum) :
    LRU.Evolves (db.cache.caches i) (db'.cache.caches i) :=
  (run_invariant (DbImpl.step env)
    (I := fun db₁ => Shaped db₁ ∧ LRU.Evolves (db.cache.caches i) (db₁.cache.caches i))
    (fun _ _ _ _ h hstep => ⟨h.1.step hstep, h.2.trans (evolves_of_step h.1 hstep i)⟩)
    cs db db' rs ⟨hs, .refl _⟩ hrun).2

/-- Nothing but made nodes is destroyed in a run. -/
theorem destroyed_lt_of_run (hrun : run env options wal disk calls = .ok (db, rs)) :
    ∀ n ∈ (db.cache.caches i).destroyed, n < (db.cache.caches i).fresh := fun _ =>
  (evolves_of_run (shaped_new options wal disk) hrun i).destroyed_lt
    (fun _ hn => absurd hn List.not_mem_nil) (fun _ hn => absurd hn List.not_mem_nil)

/-- **The value of a `Put` whose key is cached is never freed**: the node that it makes is in the
cache after no later call, and is never destroyed. -/
theorem put_lost (hbefore : run env options wal disk before = .ok (db₁, rs₁))
    (hcached : db₁.cache.contains env.hashFn key.bytes = true) {value : StringView} {chance : Chance}
    (hput : db₁.put env key value chance = .ok (.success, db₂))
    (hafter : runFrom (DbImpl.step env) db₂ after = .ok (db, rs))
    (hi : shardingIndex env.hashFn key.bytes = i) :
    (db₁.cache.caches i).fresh ∉ (db.cache.caches i).nodes ∧
      (db₁.cache.caches i).fresh ∉ (db.cache.caches i).destroyed := by
  subst hi
  have hs := shaped_of_run hbefore
  have hs₂ : Shaped db₂ := hs.step (c := .put key value chance) (r := (.success, none)) (by
    rw [DbImpl.step, hput]
    rfl)
  rcases (put_eq_ok hput).outcome with ⟨-, hstatus, -⟩ | ⟨-, -, hcache⟩
  · cases hstatus
  · obtain ⟨l, hinsert, hshard⟩ := bind_eq_ok.mp hcache
    have hl : db₂.cache.caches (shardingIndex env.hashFn key.bytes) = l := by
      simp [← Except.ok.inj hshard, Cache.withShard]
    have hlost := LRU.lost_of_insert (hs.wf _) (destroyed_lt_of_run hbefore) hcached hinsert
    have hend := (hl ▸ hlost).evolves (evolves_of_run hs₂ hafter _)
    exact ⟨hend.unlinked, hend.kept⟩

/-- A key that is put twice and deleted: the second of its nodes is still there. -/
theorem put_lost_twice :
    ∃ db rs, run Env.plain {} [] (fun _ => none) [.put (.ofBytes [107]) (.ofBytes [97]) .quiet,
        .put (.ofBytes [107]) (.ofBytes [98]) .quiet, .delete (.ofBytes [107]) .quiet] = .ok (db, rs) ∧
      1 ∉ (db.cache.caches (shardingIndex Env.plain.hashFn [107])).nodes ∧
      1 ∉ (db.cache.caches (shardingIndex Env.plain.hashFn [107])).destroyed := by
  obtain ⟨db₁, hfirst, hcached, hfresh, db₂, hsecond, db₃, hdelete⟩ :
      ∃ db₁, run Env.plain {} [] (fun _ => none) [.put (.ofBytes [107]) (.ofBytes [97]) .quiet] =
          .ok (db₁, [(.success, none)]) ∧
        db₁.cache.contains Env.plain.hashFn [107] = true ∧
        (db₁.cache.caches (shardingIndex Env.plain.hashFn [107])).fresh = 1 ∧
        ∃ db₂, db₁.put Env.plain (.ofBytes [107]) (.ofBytes [98]) .quiet = .ok (.success, db₂) ∧
        ∃ db₃, runFrom (step Env.plain) db₂ [.delete (.ofBytes [107]) .quiet] =
          .ok (db₃, [(.success, none)]) :=
    ⟨_, rfl, rfl, rfl, _, rfl, _, rfl⟩
  refine ⟨db₃, _, (runFrom_append _).mpr ⟨db₁, _, _, hfirst, (runFrom_cons _).mpr
    ⟨db₂, _, _, by simp [step, hsecond]; rfl, hdelete, rfl⟩, rfl⟩, ?_⟩
  exact hfresh ▸ put_lost hfirst hcached hsecond hdelete rfl

end SmallKV.DbImpl
