import SmallKV.Cache.Victim
import SmallKV.Db.ResultString
import SmallKV.Foundations.Interleaving

/-!
# Db/Concurrent — readers that share the cache

`Get` holds the shared lock only, so its calls `contains`, `get` and `insert` on the cache mix with
those of other readers.  The memtable does not change meanwhile, and `Seek` is taken to be a
function of the key.  A reader is disturbed when another one inserts a key: under the reader's own
key, or in the place of it.  As long as no insertion disturbs anyone, every `Get` returns what it
returns alone (`undisturbed`); and otherwise some interleaving shows the difference.
-/

namespace SmallKV.DbImpl

/-! ## One `Get` at a time -/

section Alone

variable (hashFn : Bytes → ℕ) (table : MemTable) (seek : Bytes → Option Bytes)

/-- `Get` alone, over a cache, a memtable and what `Seek` finds. -/
def getAlone (cache : Cache Bytes Bytes) (key : StringView) (ret : Option Bytes) :
    Exec (DBStatus × Option Bytes × Cache Bytes Bytes) :=
  match ret with
  | none => return (.invalidArgs, ret, cache)
  | some old =>
      if key.empty then return (.invalidArgs, ret, cache)
      else if cache.contains hashFn key.cstr then do
        let (cache, node) ← cache.get hashFn key.cstr
        let nd ← cache.deref hashFn key.cstr (← orFault .nullPointer node)
        return (.success, some nd.val, cache)
      else do
        if ← table.contains key then
          let val ← orFault .uncaught (← table.get key)
          return (.success, some val, cache)
        else
          match seek key.bytes with
          | none => return (.notFound, some old, cache)
          | some val => return (.success, some (old ++ val), ← cache.insert hashFn key.cstr val)

/-- **Alone, a `Get` is a search that finds what `seek` finds.** -/
theorem getVia_eq_getAlone {env : Env} {db : DbImpl} {key : StringView} (search : Search)
    (hsearch : search (db.disk.read db.sstPath) key.bytes = .ok (seek key.bytes))
    (ret : Option Bytes) : db.getVia env search key ret =
      (fun r => (r.1, r.2.1, { db with cache := r.2.2 })) <$>
        getAlone env.hashFn db.memTable seek db.cache key ret := by
  cases ret with
  | none => rfl
  | some old =>
    rw [getVia, getAlone]
    split_ifs with hempty hcached
    · rfl
    · cases db.cache.get env.hashFn key.cstr with
      | error e => rfl
      | ok r =>
        obtain ⟨cache, node⟩ := r
        cases node with
        | none => rfl
        | some n =>
          change (cache.deref env.hashFn key.cstr n >>= _) =
            _ <$> (cache.deref env.hashFn key.cstr n >>= _)
          cases cache.deref env.hashFn key.cstr n <;> rfl
    · cases db.memTable.contains key with
      | error e => rfl
      | ok found =>
        cases found with
        | true =>
          rw [ok_bind, ok_bind, if_pos rfl, if_pos rfl]
          cases db.memTable.get key with
          | error e => rfl
          | ok found => cases found <;> rfl
        | false =>
          change db.searchTable env search key old = _
          rw [searchTable, hsearch]
          cases seek key.bytes with
          | none => rfl
          | some val =>
            change (db.cache.insert env.hashFn key.cstr val >>= _) =
              _ <$> (db.cache.insert env.hashFn key.cstr val >>= _)
            cases db.cache.insert env.hashFn key.cstr val <;> rfl

/-- Until it turns to the table file, `Get` is what it is alone. -/
theorem get_eq_getAlone (env : Env) (db : DbImpl) (seek : Bytes → Option Bytes) (key : StringView)
    (ret : Option Bytes) (h : db.cache.contains env.hashFn key.cstr = true ∨
      db.memTable.contains key = .ok true) :
    db.get env key ret = (fun r => (r.1, r.2.1, { db with cache := r.2.2 })) <$>
      getAlone env.hashFn db.memTable seek db.cache key ret := by
  rw [get_eq_getVia, getVia_congr env h]
  exact getVia_eq_getAlone seek (fun _ k => .ok (seek k)) rfl ret

/-! ## Readers -/

/-- How far a `Get` has come: the next call on the cache, or what it returned.  A node, or null, is
held from `get` on. -/
inductive Stage
  | lookup
  | fetch
  | held (node : Option NodeId)
  | store (val : Bytes)
  | done (status : DBStatus)
  deriving DecidableEq

/-- The steps a `Get` has left, at most. -/
def Stage.left : Stage → ℕ
  | .lookup => 3
  | .fetch => 2
  | .held _ => 1
  | .store _ => 1
  | .done _ => 0

/-- A `Get`: its key, its result string, and how far it has come. -/
structure Reader where
  key : StringView
  ret : Option Bytes
  stage : Stage

/-- A `Get` before its first call on the cache. -/
def Reader.start (key : StringView) (ret : Option Bytes) : Reader :=
  ⟨key, ret, if ret = none ∨ key.empty = true then .done .invalidArgs else .lookup⟩

/-- The cache, and the readers that share it. -/
structure Readers (ι : Type) where
  cache : Cache Bytes Bytes
  readers : ι → Reader

namespace Readers

variable {ι : Type} [DecidableEq ι]

/-- The readers with another one in a place. -/
def set (s : Readers ι) (i : ι) (r : Reader) : Readers ι :=
  { s with readers := Function.update s.readers i r }

/-- The next step of a reader: one call on the cache with what follows it up to the next one, or
the copy of the value out of the node. -/
def step (s : Readers ι) (i : ι) : Exec (Readers ι × Unit) :=
  let r := s.readers i
  match r.stage with
  | .lookup =>
      if s.cache.contains hashFn r.key.cstr then return (s.set i { r with stage := .fetch }, ())
      else do
        if ← table.contains r.key then
          let val ← orFault .uncaught (← table.get r.key)
          return (s.set i { r with ret := some val, stage := .done .success }, ())
        else
          match seek r.key.bytes with
          | none => return (s.set i { r with stage := .done .notFound }, ())
          | some val => return (s.set i { r with stage := .store val }, ())
  | .fetch => do
      let (cache, node) ← s.cache.get hashFn r.key.cstr
      return ({ s with cache := cache }.set i { r with stage := .held node }, ())
  | .held node => do
      let nd ← s.cache.deref hashFn r.key.cstr (← orFault .nullPointer node)
      return (s.set i { r with ret := some nd.val, stage := .done .success }, ())
  | .store val => do
      let cache ← s.cache.insert hashFn r.key.cstr val
      return ({ s with cache := cache }.set i
        { r with ret := r.ret.map (· ++ val), stage := .done .success }, ())
  | .done _ => return (s, ())

/-- The readers of some keys, each with its result string, before their first calls. -/
def start (cache : Cache Bytes Bytes) (gets : ι → StringView × Option Bytes) : Readers ι :=
  ⟨cache, fun i => .start (gets i).1 (gets i).2⟩

/-! ## What disturbs a reader -/

/-- What a reader would find below the cache is the value `w`. -/
def Finds (r : Reader) (w : Bytes) : Prop :=
  table.get r.key = .ok (some w) ∨
    table.get r.key = .ok none ∧ ∃ v, seek r.key.bytes = some v ∧ r.ret.map (· ++ v) = some w

/-- An insertion into its shard leaves a reader alone: if it admits the reader's key, or evicts it,
before the reader looks it up, then with the value that the reader would find below anyway; it does
not evict a key found and not yet fetched; and it leaves a reference to a node that is held. -/
def LeavesAlone (l : LRU Bytes Bytes) (key val : Bytes) (r : Reader) : Prop :=
  match r.stage with
  | .lookup => (l.Admits key → r.key.cstr = key → Finds table seek r val) ∧
      ∀ n nd, l.victim key = some n → l.heap n = some nd → r.key.cstr = nd.key →
        Finds table seek r nd.val
  | .fetch => ∀ n nd, l.victim key = some n → l.heap n = some nd → r.key.cstr ≠ nd.key
  | .held node => ∀ n nd, l.victim key = some n → l.heap n = some nd → node = some n →
      0 < toInt32 (nd.refCnt - 1)
  | .store _ => True
  | .done _ => True

/-- The shard of a reader. -/
def shard (s : Readers ι) (i : ι) : Fin shardingNum :=
  Cache.shardingIndex hashFn (s.readers i).key.cstr

/-- The next step of a reader disturbs nobody: if it is an insertion, it leaves all the readers of
its shard alone. -/
def Spares (s : Readers ι) (i : ι) : Prop :=
  ∀ val, (s.readers i).stage = .store val → ∀ j, shard hashFn s j = shard hashFn s i →
    LeavesAlone table seek (s.cache.caches (shard hashFn s i)) (s.readers i).key.cstr val
      (s.readers j)

/-- No `get` has come back with null, and every `Get` that has returned did so as it does alone over
the cache there was at first. -/
def AsAlone (cache : Cache Bytes Bytes) (gets : ι → StringView × Option Bytes) (s : Readers ι) :
    Prop :=
  ∀ i, (s.readers i).stage ≠ .held none ∧
    ∀ status, (s.readers i).stage = .done status → ∃ cache',
      getAlone hashFn table seek cache (gets i).1 (gets i).2 =
        .ok (status, (s.readers i).ret, cache')

end Readers

end Alone

/-! ## Readers nobody disturbs -/

namespace Readers

variable {ι : Type} {hashFn : Bytes → ℕ} {table : MemTable} {seek : Bytes → Option Bytes}
  {m : SortedMap Bytes Bytes} {a : DBStatus × Option Bytes} {l l' : LRU Bytes Bytes} {r : Reader}

/-- What a reader gets from below the cache. -/
def below (m : SortedMap Bytes Bytes) (seek : Bytes → Option Bytes) (r : Reader) :
    DBStatus × Option Bytes :=
  (m.lookup r.key.cstr).elim
    ((seek r.key.bytes).elim (.notFound, r.ret) fun v => (.success, r.ret.map (· ++ v)))
    fun w => (.success, some w)

/-- What a reader gets that looks its key up now. -/
def answer (m : SortedMap Bytes Bytes) (seek : Bytes → Option Bytes) (l : LRU Bytes Bytes)
    (r : Reader) : DBStatus × Option Bytes :=
  (l.cached r.key.cstr).elim (below m seek r) fun w => (.success, some w)

/-- A reader that will return `a` unless it is disturbed. -/
def Bound (m : SortedMap Bytes Bytes) (seek : Bytes → Option Bytes) (a : DBStatus × Option Bytes)
    (l : LRU Bytes Bytes) (r : Reader) : Prop :=
  match r.stage with
  | .lookup => answer m seek l r = a
  | .fetch => ∃ w, l.cached r.key.cstr = some w ∧ (.success, some w) = a
  | .held node => ∃ n w, node = some n ∧ l.valueAt n = some w ∧ (.success, some w) = a
  | .store val => (.success, r.ret.map (· ++ val)) = a
  | .done status => (status, r.ret) = a

/-- A reader is bound for what its stage says. -/
theorem bound_eq {stage : Stage} (h : r.stage = stage) :
    Bound m seek a l r ↔ Bound m seek a l { r with stage := stage } := by
  rw [← h]

theorem finds_iff (hm : table.Holds m) {w : Bytes} :
    Finds table seek r w ↔ below m seek r = (.success, some w) := by
  rw [Finds, below, MemTable.get_spec r.key hm]
  cases m.lookup r.key.cstr with
  | some v => simp
  | none => cases seek r.key.bytes <;> simp

/-- A cache with the same values binds readers alike. -/
theorem bound_congr (hcached : ∀ k, l'.cached k = l.cached k)
    (hvalue : ∀ n, l'.valueAt n = l.valueAt n) : Bound m seek a l' r ↔ Bound m seek a l r := by
  obtain ⟨key, ret, stage⟩ := r
  cases stage with
  | lookup => simp only [Bound, answer, hcached, below]
  | fetch => simp only [Bound, hcached]
  | held node => simp only [Bound, hvalue]
  | store val => exact Iff.rfl
  | done status => exact Iff.rfl

section Admission

variable {key val : Bytes} (hwf : l.WF) (hl : LRU.Admission l key val l')

include hwf hl

/-- A reader before its lookup. -/
theorem answer_admission (hm : table.Holds m) :
    answer m seek l' r = answer m seek l r ↔
      (l.Admits key → r.key.cstr = key → Finds table seek r val) ∧
        ∀ n nd, l.victim key = some n → l.heap n = some nd → r.key.cstr = nd.key →
          Finds table seek r nd.val := by
  simp only [finds_iff hm]
  by_cases hnew : l.Admits key ∧ r.key.cstr = key
  · obtain ⟨hadmits, rfl⟩ := hnew
    have hbefore : answer m seek l r = below m seek r := by rw [answer, hadmits.cached]; rfl
    have hafter : answer m seek l' r = (.success, some val) := by
      rw [answer, hl.admitted hadmits]
      rfl
    rw [hbefore, hafter]
    refine ⟨fun heq => ⟨fun _ _ => heq.symm, fun n nd hv hnd hkey => ?_⟩, fun h => ?_⟩
    · have hgone := hl.evicted n nd hv hnd
      rw [← hkey, hl.admitted hadmits] at hgone
      cases hgone
    · exact (h.1 hadmits rfl).symm
  · by_cases hold : ∃ n nd, l.victim key = some n ∧ l.heap n = some nd ∧ r.key.cstr = nd.key
    · obtain ⟨n, nd, hv, hnd, hkey⟩ := hold
      have hbefore : answer m seek l r = (.success, some nd.val) := by
        rw [answer, hkey, LRU.cached_victim hwf hv hnd]
        rfl
      have hafter : answer m seek l' r = below m seek r := by
        rw [answer, hkey, hl.evicted n nd hv hnd]
        rfl
      rw [hbefore, hafter]
      refine ⟨fun heq => ⟨fun hadmits hsame => absurd ⟨hadmits, hsame⟩ hnew,
        fun n' nd' hv' hnd' _ => ?_⟩, fun h => h.2 n nd hv hnd hkey⟩
      obtain rfl := Option.some.inj (hv.symm.trans hv')
      obtain rfl := Option.some.inj (hnd.symm.trans hnd')
      exact heq
    · have hkept : l'.cached r.key.cstr = l.cached r.key.cstr :=
        hl.kept _ (fun hadmits hsame => hnew ⟨hadmits, hsame⟩)
          fun n nd hv hnd hkey => hold ⟨n, nd, hv, hnd, hkey⟩
      refine iff_of_true (by rw [answer, answer, hkept]) ⟨fun hadmits hsame => ?_, ?_⟩
      · exact absurd ⟨hadmits, hsame⟩ hnew
      · exact fun n nd hv hnd hkey => absurd ⟨n, nd, hv, hnd, hkey⟩ hold

omit hwf in
/-- A reader between its lookup and its fetch. -/
theorem fetch_admission {k w : Bytes} (hw : l.cached k = some w) :
    l'.cached k = some w ↔
      ∀ n nd, l.victim key = some n → l.heap n = some nd → k ≠ nd.key := by
  constructor
  · rintro hw' n nd hv hnd rfl
    rw [hl.evicted n nd hv hnd] at hw'
    cases hw'
  · intro h
    rw [hl.kept k (fun hadmits hsame => ?_) h, hw]
    rw [hsame, hadmits.cached] at hw
    cases hw

omit hwf in
/-- A reader that holds a node. -/
theorem held_admission {n : NodeId} {w : Bytes} (hw : l.valueAt n = some w) :
    l'.valueAt n = some w ↔ ∀ n' nd, l.victim key = some n' → l.heap n' = some nd →
      some n = some n' → 0 < toInt32 (nd.refCnt - 1) := by
  obtain ⟨nd, hnd, rfl⟩ := Option.map_eq_some_iff.mp hw
  by_cases hv : l.victim key = some n
  · rw [hl.victim n nd hv hnd]
    constructor
    · intro hlive n' nd' _ hnd' hsame
      obtain rfl := Option.some.inj hsame
      obtain rfl := Option.some.inj (hnd.symm.trans hnd')
      by_contra hcnt
      rw [if_neg hcnt] at hlive
      cases hlive
    · intro h
      rw [if_pos (h n nd hv hnd rfl)]
  · have hlive : l.heap n ≠ none := by simp [hnd]
    rw [hl.valueAt n hlive hv]
    refine iff_of_true hw fun n' nd' hv' _ hsame => ?_
    exact absurd (hsame ▸ hv') hv

/-- **An insertion disturbs exactly the readers it does not leave alone.** -/
theorem bound_admission (hm : table.Holds m) (hr : Bound m seek a l r) :
    Bound m seek a l' r ↔ LeavesAlone table seek l key val r := by
  obtain ⟨k, ret, stage⟩ := r
  cases stage with
  | lookup =>
    obtain rfl : answer m seek l _ = a := hr
    exact answer_admission hwf hl hm
  | fetch =>
    obtain ⟨w, hw, rfl⟩ := hr
    refine Iff.trans ?_ (fetch_admission hl hw)
    simp [Bound]
  | held node =>
    obtain ⟨n, w, rfl, hw, rfl⟩ := hr
    refine Iff.trans ?_ (held_admission hl hw)
    simp [Bound]
  | store val => exact iff_of_true hr trivial
  | done status => exact iff_of_true hr trivial

end Admission

/-! ## One step -/

variable [DecidableEq ι] {s s₁ : Readers ι} {i j : ι} {u : Unit}

/-- **What a step does**: it leads the reader on to what it is bound for, and changes values in its
shard only by an insertion. -/
structure Moves (hashFn : Bytes → ℕ) (m : SortedMap Bytes Bytes) (seek : Bytes → Option Bytes)
    (s : Readers ι) (i : ι) (s₁ : Readers ι) (l : LRU Bytes Bytes) (r : Reader) : Prop where
  cache : s₁.cache = s.cache.withShard hashFn (s.readers i).key.cstr l
  readers : s₁.readers = Function.update s.readers i r
  key : r.key = (s.readers i).key
  wf : l.WF
  own : ∀ a, Bound m seek a l r ↔
    Bound m seek a (s.cache.caches (shard hashFn s i)) (s.readers i)
  values : (∀ val, (s.readers i).stage ≠ .store val) ∧
      (∀ k, l.cached k = (s.cache.caches (shard hashFn s i)).cached k) ∧
      (∀ n, l.valueAt n = (s.cache.caches (shard hashFn s i)).valueAt n) ∨
    ∃ val, (s.readers i).stage = .store val ∧
      LRU.Admission (s.cache.caches (shard hashFn s i)) (s.readers i).key.cstr val l
  fewer : (s.readers i).stage.left ≠ 0 → r.stage.left < (s.readers i).stage.left

theorem withShard_self (c : Cache Bytes Bytes) (key : Bytes) :
    c.withShard hashFn key (c.caches (Cache.shardingIndex hashFn key)) = c := by
  rw [Cache.withShard, Function.update_eq_self]

/-- A step that leaves the cache alone. -/
theorem moves_reader (hwf : s.cache.WF) (hstage : ∀ val, (s.readers i).stage ≠ .store val)
    (hkey : r.key = (s.readers i).key)
    (hown : ∀ a, Bound m seek a (s.cache.caches (shard hashFn s i)) r ↔
      Bound m seek a (s.cache.caches (shard hashFn s i)) (s.readers i))
    (hfewer : (s.readers i).stage.left ≠ 0 → r.stage.left < (s.readers i).stage.left) :
    Moves hashFn m seek s i (s.set i r) (s.cache.caches (shard hashFn s i)) r where
  cache := (withShard_self s.cache _).symm
  readers := rfl
  key := hkey
  wf := hwf _
  own := hown
  values := Or.inl ⟨hstage, fun _ => rfl, fun _ => rfl⟩
  fewer := hfewer

/-- A step that looks the key up leads to a reader bound for the answer. -/
theorem moves_lookup_of (hwf : s.cache.WF) (hstage : (s.readers i).stage = .lookup)
    (hkey : r.key = (s.readers i).key) (hleft : r.stage.left < 3)
    (hown : ∀ a, Bound m seek a (s.cache.caches (shard hashFn s i)) r ↔
      answer m seek (s.cache.caches (shard hashFn s i)) (s.readers i) = a) :
    ∃ l r', Moves hashFn m seek s i (s.set i r) l r' := by
  refine ⟨_, r, moves_reader hwf (by simp [hstage]) hkey (fun a => ?_) fun _ => ?_⟩
  · exact (hown a).trans (bound_eq hstage).symm
  · rwa [hstage]

/-- A step that looks the key up. -/
theorem moves_lookup (hwf : s.cache.WF) (hm : table.Holds m)
    (hstage : (s.readers i).stage = .lookup)
    (hstep : step hashFn table seek s i = .ok (s₁, u)) : ∃ l r, Moves hashFn m seek s i s₁ l r := by
  simp only [step, hstage, MemTable.contains_spec _ hm, MemTable.get_spec _ hm, ok_bind] at hstep
  have hcontains : s.cache.contains hashFn (s.readers i).key.cstr = true ↔
    ∃ v, (s.cache.caches (shard hashFn s i)).cached (s.readers i).key.cstr = some v :=
      Cache.contains_iff hashFn hwf
  split_ifs at hstep with hfound hbuffered
  · obtain ⟨rfl, -⟩ := Prod.mk.inj (Except.ok.inj hstep)
    obtain ⟨w, hw⟩ := hcontains.mp hfound
    exact moves_lookup_of hwf hstage rfl (by simp [Stage.left])
      fun a => by simp [Bound, answer, hw]
  all_goals
    have hnone : (s.cache.caches (shard hashFn s i)).cached (s.readers i).key.cstr = none := by
      by_contra hsome
      exact hfound (hcontains.mpr (Option.ne_none_iff_exists'.mp hsome))
  · obtain ⟨w, hw⟩ := Option.isSome_iff_exists.mp hbuffered
    rw [hw] at hstep
    obtain ⟨rfl, -⟩ := Prod.mk.inj (Except.ok.inj hstep)
    exact moves_lookup_of hwf hstage rfl (by simp [Stage.left])
      fun a => by simp [Bound, answer, hnone, below, hw]
  · have hw : m.lookup (s.readers i).key.cstr = none := by simpa [SortedMap.contains] using hbuffered
    cases hv : seek (s.readers i).key.bytes with
    | none =>
      rw [hv] at hstep
      obtain ⟨rfl, -⟩ := Prod.mk.inj (Except.ok.inj hstep)
      exact moves_lookup_of hwf hstage rfl (by simp [Stage.left])
        fun a => by simp [Bound, answer, hnone, below, hw, hv]
    | some v =>
      rw [hv] at hstep
      obtain ⟨rfl, -⟩ := Prod.mk.inj (Except.ok.inj hstep)
      exact moves_lookup_of hwf hstage rfl (by simp [Stage.left])
        fun a => by simp [Bound, answer, hnone, below, hw, hv]

/-- A step that fetches the node. -/
theorem moves_fetch (hwf : s.cache.WF) (hstage : (s.readers i).stage = .fetch)
    (hstep : step hashFn table seek s i = .ok (s₁, u)) : ∃ l r, Moves hashFn m seek s i s₁ l r := by
  simp only [step, hstage] at hstep
  obtain ⟨⟨cache, node⟩, hget, hs₁⟩ := bind_eq_ok.mp hstep
  obtain ⟨rfl, -⟩ := Prod.mk.inj (Except.ok.inj hs₁)
  obtain ⟨⟨l, node'⟩, hrun, hcache⟩ := bind_eq_ok.mp hget
  obtain ⟨rfl, rfl⟩ := Prod.mk.inj (Except.ok.inj hcache)
  have hshard := hwf (shard hashFn s i)
  obtain ⟨l', node', hrun', hshuffled, hvalue⟩ := LRU.get_spec hshard (s.readers i).key.cstr
  obtain ⟨rfl, rfl⟩ := Prod.mk.inj (Except.ok.inj (hrun'.symm.trans hrun))
  refine ⟨_, { s.readers i with stage := .held node' }, rfl, rfl, rfl, hshuffled.wf hshard,
    fun a => ?_, Or.inl ⟨by simp [hstage], hshuffled.cached hshard, LRU.get_valueAt hrun⟩,
    by simp [hstage, Stage.left]⟩
  rw [bound_eq hstage]
  simp only [Bound, ← hvalue, LRU.valueAt]
  cases node' <;> simp

/-- A step that copies the value out of the node. -/
theorem moves_held (hwf : s.cache.WF) {node : Option NodeId}
    (hstage : (s.readers i).stage = .held node)
    (hstep : step hashFn table seek s i = .ok (s₁, u)) : ∃ l r, Moves hashFn m seek s i s₁ l r := by
  simp only [step, hstage] at hstep
  obtain ⟨n, hn, hstep⟩ := bind_eq_ok.mp hstep
  obtain ⟨nd, hnd, hs₁⟩ := bind_eq_ok.mp hstep
  obtain ⟨rfl, -⟩ := Prod.mk.inj (Except.ok.inj hs₁)
  obtain rfl := orFault_eq_ok.mp hn
  have hheap : (s.cache.caches (shard hashFn s i)).heap n = some nd := orFault_eq_ok.mp hnd
  refine ⟨_, _, moves_reader (r := { s.readers i with ret := some nd.val, stage := .done .success })
    hwf (by simp [hstage]) rfl (fun a => ?_) (by simp [hstage, Stage.left])⟩
  rw [bound_eq hstage]
  simp [Bound, LRU.valueAt, hheap]

/-- A step that inserts the value. -/
theorem moves_store (hwf : s.cache.WF) {val : Bytes} (hstage : (s.readers i).stage = .store val)
    (hstep : step hashFn table seek s i = .ok (s₁, u)) : ∃ l r, Moves hashFn m seek s i s₁ l r := by
  simp only [step, hstage] at hstep
  obtain ⟨cache, hinsert, hs₁⟩ := bind_eq_ok.mp hstep
  obtain ⟨rfl, -⟩ := Prod.mk.inj (Except.ok.inj hs₁)
  obtain ⟨l, hrun, hcache⟩ := bind_eq_ok.mp hinsert
  obtain rfl := Except.ok.inj hcache
  have hshard := hwf (shard hashFn s i)
  obtain ⟨l', hrun', hadmission⟩ := LRU.insert_admission hshard (s.readers i).key.cstr val
  obtain rfl := Except.ok.inj (hrun'.symm.trans hrun)
  refine ⟨_, { s.readers i with ret := (s.readers i).ret.map (· ++ val), stage := .done .success },
    rfl, rfl, rfl, hadmission.wf, fun a => ?_, Or.inr ⟨val, hstage, hadmission⟩,
    by simp [hstage, Stage.left]⟩
  rw [bound_eq hstage]
  exact Iff.rfl

/-- **Every step moves its reader.** -/
theorem moves_of_step (hwf : s.cache.WF) (hm : table.Holds m)
    (hstep : step hashFn table seek s i = .ok (s₁, u)) : ∃ l r, Moves hashFn m seek s i s₁ l r := by
  cases hstage : (s.readers i).stage with
  | lookup => exact moves_lookup hwf hm hstage hstep
  | fetch => exact moves_fetch hwf hstage hstep
  | held node => exact moves_held hwf hstage hstep
  | store val => exact moves_store hwf hstage hstep
  | done status =>
    simp only [step, hstage] at hstep
    obtain ⟨rfl, -⟩ := Prod.mk.inj (Except.ok.inj hstep)
    refine ⟨_, s.readers i, (withShard_self s.cache _).symm, (Function.update_eq_self ..).symm, rfl,
      hwf _, fun a => Iff.rfl, Or.inl ⟨by simp [hstage], fun _ => rfl, fun _ => rfl⟩, ?_⟩
    simp [hstage, Stage.left]

/-- A reader that is bound for something can take its step. -/
theorem step_returns (hwf : s.cache.WF) (hm : table.Holds m)
    (hbound : Bound m seek a (s.cache.caches (shard hashFn s i)) (s.readers i)) :
    ∃ s₁ u, step hashFn table seek s i = .ok (s₁, u) := by
  cases hstage : (s.readers i).stage with
  | lookup =>
    simp only [step, hstage, MemTable.contains_spec _ hm, MemTable.get_spec _ hm, ok_bind]
    split_ifs with hfound hbuffered
    · exact ⟨_, _, rfl⟩
    · obtain ⟨w, hw⟩ := Option.isSome_iff_exists.mp hbuffered
      rw [hw]
      exact ⟨_, _, rfl⟩
    · cases seek (s.readers i).key.bytes with
      | none => exact ⟨_, _, rfl⟩
      | some val => exact ⟨_, _, rfl⟩
  | fetch =>
    obtain ⟨l, node, hrun, -⟩ := LRU.get_spec (hwf (shard hashFn s i)) (s.readers i).key.cstr
    simp only [step, hstage]
    exact ⟨_, (), bind_eq_ok.mpr ⟨(_, node), bind_eq_ok.mpr ⟨(l, node), hrun, rfl⟩, rfl⟩⟩
  | held node =>
    obtain ⟨n, w, rfl, hw, -⟩ := (bound_eq hstage).mp hbound
    obtain ⟨nd, hnd, rfl⟩ := Option.map_eq_some_iff.mp hw
    simp only [step, hstage]
    exact ⟨_, (), bind_eq_ok.mpr ⟨n, rfl, bind_eq_ok.mpr ⟨nd, orFault_eq_ok.mpr hnd, rfl⟩⟩⟩
  | store val =>
    obtain ⟨l, hrun, -⟩ :=
      LRU.insert_admission (hwf (shard hashFn s i)) (s.readers i).key.cstr val
    simp only [step, hstage]
    exact ⟨_, (), bind_eq_ok.mpr ⟨_, bind_eq_ok.mpr ⟨l, hrun, rfl⟩, rfl⟩⟩
  | done status => exact ⟨s, (), by simp only [step, hstage]; rfl⟩

section Moves

variable (hmoves : Moves hashFn m seek s i s₁ l r)

include hmoves

theorem Moves.reader_self : s₁.readers i = r := by
  rw [hmoves.readers, Function.update_self]

theorem Moves.reader_ne (hj : j ≠ i) : s₁.readers j = s.readers j := by
  rw [hmoves.readers, Function.update_of_ne hj]

/-- No reader changes its shard. -/
theorem Moves.shard_eq (j : ι) : shard hashFn s₁ j = shard hashFn s j := by
  by_cases hj : j = i
  · rw [hj, shard, shard, hmoves.reader_self, hmoves.key]
  · rw [shard, shard, hmoves.reader_ne hj]

theorem Moves.shard_self : s₁.cache.caches (shard hashFn s i) = l := by
  rw [hmoves.cache]
  exact Function.update_self ..

theorem Moves.shard_ne (hj : shard hashFn s j ≠ shard hashFn s i) :
    s₁.cache.caches (shard hashFn s j) = s.cache.caches (shard hashFn s j) := by
  rw [hmoves.cache]
  exact Function.update_of_ne hj ..

/-- The step makes no difference to its own reader. -/
theorem Moves.bound_self :
    Bound m seek a (s₁.cache.caches (shard hashFn s₁ i)) (s₁.readers i) ↔
      Bound m seek a (s.cache.caches (shard hashFn s i)) (s.readers i) := by
  rw [hmoves.shard_eq, hmoves.shard_self, hmoves.reader_self]
  exact hmoves.own a

/-- The step makes no difference to the readers of other shards. -/
theorem Moves.bound_ne (hj : shard hashFn s j ≠ shard hashFn s i) :
    Bound m seek a (s₁.cache.caches (shard hashFn s₁ j)) (s₁.readers j) ↔
      Bound m seek a (s.cache.caches (shard hashFn s j)) (s.readers j) := by
  have hji : j ≠ i := fun heq => hj (heq ▸ rfl)
  rw [hmoves.shard_eq, hmoves.shard_ne hj, hmoves.reader_ne hji]

/-- **The step disturbs exactly the readers of its shard that it does not leave alone.** -/
theorem Moves.others (hwf : s.cache.WF) (hm : table.Holds m) {answers : ι → DBStatus × Option Bytes}
    (hbound : ∀ j, Bound m seek (answers j) (s.cache.caches (shard hashFn s j)) (s.readers j)) :
    (∀ j, j ≠ i →
      Bound m seek (answers j) (s₁.cache.caches (shard hashFn s₁ j)) (s₁.readers j)) ↔
      Spares hashFn table seek s i := by
  have hsame : ∀ j, j ≠ i → shard hashFn s j = shard hashFn s i →
      (Bound m seek (answers j) (s₁.cache.caches (shard hashFn s₁ j)) (s₁.readers j) ↔
        Bound m seek (answers j) l (s.readers j)) := fun j hj hshard => by
    rw [hmoves.shard_eq, hshard, hmoves.shard_self, hmoves.reader_ne hj]
  have hbound' : ∀ j, shard hashFn s j = shard hashFn s i →
      Bound m seek (answers j) (s.cache.caches (shard hashFn s i)) (s.readers j) :=
    fun j hshard => hshard ▸ hbound j
  rcases hmoves.values with ⟨hstage, hcached, hvalue⟩ | ⟨val, hstage, hadmission⟩
  · refine iff_of_true (fun j hj => ?_) fun val hval => absurd hval (hstage val)
    by_cases hshard : shard hashFn s j = shard hashFn s i
    · exact (hsame j hj hshard).mpr ((bound_congr hcached hvalue).mpr (hbound' j hshard))
    · exact (hmoves.bound_ne hshard).mpr (hbound j)
  · have hadmits : ∀ j, shard hashFn s j = shard hashFn s i →
        (Bound m seek (answers j) l (s.readers j) ↔ LeavesAlone table seek
          (s.cache.caches (shard hashFn s i)) (s.readers i).key.cstr val (s.readers j)) :=
      fun j hshard => bound_admission (hwf _) hadmission hm (hbound' j hshard)
    constructor
    · intro h val' hval' j hshard
      obtain rfl : val = val' := by simpa using hstage.symm.trans hval'
      by_cases hj : j = i
      · rw [hj, LeavesAlone, hstage]
        trivial
      · exact (hadmits j hshard).mp ((hsame j hj hshard).mp (h j hj))
    · intro h j hj
      by_cases hshard : shard hashFn s j = shard hashFn s i
      · exact (hsame j hj hshard).mpr ((hadmits j hshard).mpr (h val hstage j hshard))
      · exact (hmoves.bound_ne hshard).mpr (hbound j)

end Moves

/-- **The readers as processes**: each is bound for what it returns alone. -/
theorem processes (hm : table.Holds m) (cache : Cache Bytes Bytes)
    (gets : ι → StringView × Option Bytes) (answers : ι → DBStatus × Option Bytes)
    (halone : ∀ i, ∃ cache', getAlone hashFn table seek cache (gets i).1 (gets i).2 =
      .ok ((answers i).1, (answers i).2, cache')) :
    Processes (step hashFn table seek) (fun s : Readers ι => s.cache.WF)
      (AsAlone hashFn table seek cache gets)
      (fun s i => Bound m seek (answers i) (s.cache.caches (shard hashFn s i)) (s.readers i))
      (Spares hashFn table seek) (fun s i => (s.readers i).stage.left) where
  inv hwf hstep := by
    obtain ⟨l, r, hmoves⟩ := moves_of_step hwf hm hstep
    rw [hmoves.cache]
    exact Cache.WF.withShard hashFn hwf hmoves.wf
  progress hwf hbound := step_returns hwf hm hbound
  own hwf hstep := by
    obtain ⟨l, r, hmoves⟩ := moves_of_step hwf hm hstep
    exact hmoves.bound_self
  others hwf hbound hstep := by
    obtain ⟨l, r, hmoves⟩ := moves_of_step hwf hm hstep
    exact hmoves.others hwf hm hbound
  result := by
    intro s hwf hbound i
    refine ⟨fun hstage => ?_, fun status hstage => ?_⟩
    · obtain ⟨n, w, hnull, -⟩ := (bound_eq hstage).mp (hbound i)
      cases hnull
    · have hanswer : (status, (s.readers i).ret) = answers i := (bound_eq hstage).mp (hbound i)
      obtain ⟨cache', hrun⟩ := halone i
      exact ⟨cache', by rw [hrun, ← hanswer]⟩
  final := by
    intro s i hresult hleft
    obtain ⟨cache', hrun⟩ := halone i
    cases hstage : (s.readers i).stage with
    | done status =>
      obtain ⟨cache'', hrun'⟩ := (hresult i).2 status hstage
      obtain ⟨hstatus, hret, -⟩ : _ ∧ _ ∧ _ := by simpa using hrun.symm.trans hrun'
      exact (bound_eq hstage).mpr (Prod.ext hstatus.symm hret.symm)
    | _ => simp [hstage, Stage.left] at hleft
  fewer hwf hstep hleft := by
    obtain ⟨l, r, hmoves⟩ := moves_of_step hwf hm hstep
    rw [hmoves.reader_self]
    exact hmoves.fewer hleft

/-- **Alone, a `Get` returns what its reader is bound for.** -/
theorem getAlone_spec (hashFn : Bytes → ℕ) (seek : Bytes → Option Bytes)
    {cache : Cache Bytes Bytes} (hwf : cache.WF) (hm : table.Holds m) (key : StringView)
    (ret : Option Bytes) : ∃ a : DBStatus × Option Bytes,
      (∃ cache', getAlone hashFn table seek cache key ret = .ok (a.1, a.2, cache')) ∧
      Bound m seek a (cache.caches (Cache.shardingIndex hashFn key.cstr)) (.start key ret) := by
  cases ret with
  | none => exact ⟨(.invalidArgs, none), ⟨cache, rfl⟩, by simp [Reader.start, Bound]⟩
  | some old =>
    cases hempty : key.empty with
    | true =>
      exact ⟨(.invalidArgs, some old), ⟨cache, by simp [getAlone, hempty]⟩,
        by simp [Reader.start, Bound, hempty]⟩
    | false =>
      have hstart : Reader.start key (some old) = ⟨key, some old, .lookup⟩ := by
        simp [Reader.start, hempty]
      refine ⟨_, ?_, by rw [hstart]; exact rfl⟩
      have hcontains : cache.contains hashFn key.cstr = true ↔
        ∃ v, cache.cached hashFn key.cstr = some v := Cache.contains_iff hashFn hwf
      obtain ⟨cache', node, hget, -, -, hvalue⟩ := Cache.get_spec hashFn hwf key.cstr
      simp only [getAlone, hempty, MemTable.contains_spec _ hm, MemTable.get_spec _ hm, ok_bind]
      cases hw : cache.cached hashFn key.cstr with
      | some w =>
        obtain ⟨n, nd, rfl, hnd, rfl⟩ := hvalue w hw
        have hw' : (cache.caches (Cache.shardingIndex hashFn key.cstr)).cached key.cstr =
          some nd.val := hw
        exact ⟨cache', by simp [hcontains.mpr ⟨_, hw⟩, hget, hnd, answer, hw']⟩
      | none =>
        have hw' : (cache.caches (Cache.shardingIndex hashFn key.cstr)).cached key.cstr = none := hw
        have hmissing : ¬ cache.contains hashFn key.cstr = true := by simp [hcontains, hw]
        rw [SortedMap.contains]
        cases hv : m.lookup key.cstr with
        | some v => exact ⟨cache, by simp [hmissing, answer, hw', below, hv]⟩
        | none =>
          cases hseek : seek key.bytes with
          | none => exact ⟨cache, by simp [hmissing, answer, hw', below, hv, hseek]⟩
          | some v =>
            obtain ⟨cache'', hinsert, -⟩ := Cache.insert_spec hashFn hwf key.cstr v
            exact ⟨cache'', by simp [hmissing, answer, hw', below, hv, hseek, hinsert]⟩

omit [DecidableEq ι] in
/-- Only an insertion disturbs anybody. -/
theorem spares_of_stage (h : ∀ val, (s.readers i).stage ≠ .store val) :
    Spares hashFn table seek s i :=
  fun val hval => absurd hval (h val)

/-- **Readers that share the cache.**  In every interleaving of some `Get`s in which no insertion
disturbs a reader, no `get` comes back with null and every `Get` returns what it returns alone.
All interleavings go that way if and only if no insertion of any disturbs a reader. -/
theorem undisturbed {db : DbImpl} (hs : Shaped db) (hashFn : Bytes → ℕ)
    (seek : Bytes → Option Bytes) (gets : ι → StringView × Option Bytes) :
    (∀ schedule : List ι,
      Along (step hashFn db.memTable seek) (Spares hashFn db.memTable seek) (start db.cache gets)
        schedule →
      ∃ s rs, runFrom (step hashFn db.memTable seek) (start db.cache gets) schedule = .ok (s, rs) ∧
        AsAlone hashFn db.memTable seek db.cache gets s) ∧
    (Safe (step hashFn db.memTable seek) (AsAlone hashFn db.memTable seek db.cache gets)
        (start db.cache gets) ↔
      ∀ schedule : List ι, Along (step hashFn db.memTable seek) (Spares hashFn db.memTable seek)
        (start db.cache gets) schedule) := by
  obtain ⟨m, hm⟩ := hs.table
  choose answers halone hbound using fun i =>
    getAlone_spec hashFn seek hs.wf hm (gets i).1 (gets i).2
  have hp := processes hm db.cache gets answers halone
  exact ⟨fun schedule => hp.run_of_along hs.wf hbound, hp.safe_iff hs.wf hbound⟩

/-- A reader of a cached key, and one of a key that `Seek` finds, of the same length. -/
def pair : Bool → StringView × Option Bytes
  | true => (.ofBytes [107], some [])
  | false => (.ofBytes [108], some [])

/-- What `Seek` finds then. -/
def seekPair (key : Bytes) : Option Bytes := if key = [108] then some [98] else none

/-- With room for both keys the second reader inserts while the first is between its lookup and its
fetch, and both return what they return alone. -/
theorem undisturbed_pair :
    ∃ db rs, run Env.plain { cacheSize := 2 } [] (fun _ => none)
        [.put (.ofBytes [107]) (.ofBytes [97]) .quiet] = .ok (db, rs) ∧
      ∃ s rs', runFrom (step List.length db.memTable seekPair) (start db.cache pair)
          [true, false, false, true, true] = .ok (s, rs') ∧
        AsAlone List.length db.memTable seekPair db.cache pair s := by
  obtain ⟨db, rs, s₁, s₂, s₃, s₄, hrun, h₁, h₂, h₃, h₄, hg₀, hg₁, hg₂, hg₃, hg₄, hother, hroom⟩ :
      ∃ db rs s₁ s₂ s₃ s₄, run Env.plain { cacheSize := 2 } [] (fun _ => none)
          [.put (.ofBytes [107]) (.ofBytes [97]) .quiet] = .ok (db, rs) ∧
        step List.length db.memTable seekPair (start db.cache pair) true = .ok (s₁, ()) ∧
        step List.length db.memTable seekPair s₁ false = .ok (s₂, ()) ∧
        step List.length db.memTable seekPair s₂ false = .ok (s₃, ()) ∧
        step List.length db.memTable seekPair s₃ true = .ok (s₄, ()) ∧
        ((start db.cache pair).readers true).stage = .lookup ∧
        (s₁.readers false).stage = .lookup ∧ (s₂.readers false).stage = .store [98] ∧
        (s₃.readers true).stage = .fetch ∧ (s₄.readers true).stage = .held (some 0) ∧
        (s₂.readers true).stage = .fetch ∧
        (s₂.cache.caches (shard List.length s₂ false)).victim (s₂.readers false).key.cstr = none :=
    ⟨_, _, _, _, _, _, rfl, rfl, rfl, rfl, rfl, rfl, rfl, rfl, rfl, rfl, rfl, rfl⟩
  have hspares : Spares List.length db.memTable seekPair s₂ false := by
    intro val _ j _
    cases j with
    | true =>
      rw [LeavesAlone, hother]
      intro n nd hvictim
      rw [hroom] at hvictim
      cases hvictim
    | false =>
      rw [LeavesAlone, hg₂]
      trivial
  refine ⟨db, rs, hrun, (undisturbed (shaped_of_run hrun) List.length seekPair pair).1 _ ?_⟩
  rw [along_cons_of_step _ h₁, along_cons_of_step _ h₂, along_cons_of_step _ h₃,
    along_cons_of_step _ h₄]
  exact ⟨spares_of_stage (by simp [hg₀]), spares_of_stage (by simp [hg₁]), hspares,
    spares_of_stage (by simp [hg₃]), spares_of_stage (by simp [hg₄]), fun _ _ _ => trivial⟩

/-- In every state of a run, whatever `Seek` finds, readers go as they do alone. -/
def ReadersUndisturbed : Prop :=
  ∀ (ι : Type) [DecidableEq ι] (env : Env) (options : Options) (wal : Bytes) (disk : Disk)
    (calls : List Call) (db : DbImpl) (rs : List Reply) (seek : Bytes → Option Bytes)
    (gets : ι → StringView × Option Bytes),
    run env options wal disk calls = .ok (db, rs) →
    Safe (step env.hashFn db.memTable seek)
      (AsAlone env.hashFn db.memTable seek db.cache gets) (start db.cache gets)

/-- **With room for one key the second reader evicts the first one's**, which then follows null. -/
theorem not_readersUndisturbed : ¬ ReadersUndisturbed := by
  intro h
  have hruns : (do
      let (db, _) ← run Env.plain { cacheSize := 1 } [] (fun _ => none)
        [.put (.ofBytes [107]) (.ofBytes [97]) .quiet]
      let (s, _) ← runFrom (step List.length db.memTable seekPair) (start db.cache pair)
        [true, false, false, true]
      require ((s.readers true).stage = .held none) .assertion) = (.ok () : Exec Unit) := rfl
  simp only [bind_eq_ok, require_eq_ok, decide_eq_true_eq, Prod.exists] at hruns
  obtain ⟨db, rs, hrun, s, rs', hreaders, hnull⟩ := hruns
  obtain ⟨s', rs'', hreaders', halone⟩ :=
    h Bool Env.plain { cacheSize := 1 } [] _ _ db rs seekPair pair hrun [true, false, false, true]
  obtain ⟨rfl, -⟩ := Prod.mk.inj (Except.ok.inj (hreaders.symm.trans hreaders'))
  exact (halone true).1 hnull

end Readers

end SmallKV.DbImpl
