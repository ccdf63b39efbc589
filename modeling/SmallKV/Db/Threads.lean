import SmallKV.Cache.Victim
import SmallKV.Db.Reads
import SmallKV.Foundations.Completion
import SmallKV.Foundations.ReadWrite

/-!
# Db/Threads — threads that call one database

`Put` and `Delete` hold the lock of the database alone, `Get` shares it.  `putCode` and `deleteCode`
are the statements of the writes; a `Get` in progress is a `GetCall`, and `read` is its next move:
a call on the cache, the copy of a value out of a node, or a look into the memtable or the table.

Readers mix, and each moves the node it finds to the front of its list.  That changes no value and
destroys no node, so every call takes effect at one moment (`reading`): a `Get` that finds its key in
the cache does when the cache returns the node, and any other `Get` when it has its answer.
-/

namespace SmallKV.DbImpl

variable (env : Env)

/-! ## The writes, statement by statement -/

/-- The statements of a write; what they read is a condition. -/
abbrev WriteCode := Code DbImpl Bool Reply

/-- Step 4 of `Put` and `Delete`, and the return. -/
def rotateCode (full : DbImpl → Bool) (r : Reply) : WriteCode :=
  .stmt (fun db => return (db, full db)) fun isFull =>
    if isFull then
      .act (·.memTableToSST env) <|
      .act (fun db => return { db with memTable := MemTable.new }) <|
      .ret r
    else .ret r

/-- `Put`. -/
def putCode (key value : StringView) (chance : Chance) : WriteCode :=
  .act (·.addLog env key.bytes value.bytes chance.stack) <|
  .stmt (fun db => do return (db, ← db.memTable.contains key)) fun isThere =>
  .act (fun db => do
    return { db with memTable := ← (if isThere then db.memTable.update key value chance.level
      else db.memTable.add key value chance.level) }) <|
  if key.empty || value.empty then .ret (.invalidArgs, none)
  else
    .act (fun db => do
      return { db with cache := ← db.cache.insert env.hashFn key.bytes value.bytes }) <|
    rotateCode env (fun db => db.options.memTableMaxSize < toUInt64 db.memTable.getMemUsage)
      (.success, none)

/-- `Delete`. -/
def deleteCode (key : StringView) (chance : Chance) : WriteCode :=
  if key.empty then .ret (.invalidArgs, none)
  else
    .act (·.addLog env key.bytes [] chance.stack) <|
    .stmt (fun db => do return (db, ← db.memTable.contains key)) fun isThere =>
    .act (fun db => do
      return { db with memTable := ← (if isThere then db.memTable.delete key chance.level
        else db.memTable.add key (.ofBytes []) chance.level) }) <|
    .act (fun db => do return { db with cache := ← db.cache.erase env.hashFn key.cstr }) <|
    rotateCode env (fun db => db.options.memTableMaxSize ≤ toUInt64 db.memTable.getMemUsage)
      (.success, none)

theorem rotateCode_run (db : DbImpl) (full : DbImpl → Bool) (r : Reply) :
    (rotateCode env full r).run db = (·, r) <$> db.rotateIf env (full db) := by
  rw [rotateCode, Code.run, pure_eq_ok, ok_bind, rotateIf]
  cases full db with
  | false => rfl
  | true =>
    simp only [if_true, Code.act_run, rotate]
    cases db.memTableToSST env <;> rfl

/-- **Alone, the statements of `Put` do what `Put` does.** -/
theorem putCode_run (db : DbImpl) (key value : StringView) (chance : Chance) :
    (putCode env key value chance).run db = db.step env (.put key value chance) := by
  simp only [putCode, Code.act_run, Code.run, step, put, putTable]
  cases hlog : db.addLog env key.bytes value.bytes chance.stack with
  | error e => rfl
  | ok db₁ =>
    simp only [ok_bind]
    cases hcontains : db₁.memTable.contains key with
    | error e => rfl
    | ok isThere =>
      simp only [ok_bind, pure_eq_ok]
      cases htable : (if isThere then db₁.memTable.update key value chance.level
        else db₁.memTable.add key value chance.level) with
      | error e => rfl
      | ok table =>
        cases hempty : key.empty || value.empty with
        | true => simp
        | false =>
          simp only [ok_bind, Bool.false_eq_true, if_false, Code.act_run]
          cases hinsert : db₁.cache.insert env.hashFn key.bytes value.bytes with
          | error e => rfl
          | ok cache =>
            simp only [ok_bind, rotateCode_run]
            cases DbImpl.rotateIf env _ _ <;> rfl

/-- **Alone, the statements of `Delete` do what `Delete` does.** -/
theorem deleteCode_run (db : DbImpl) (key : StringView) (chance : Chance) :
    (deleteCode env key chance).run db = db.step env (.delete key chance) := by
  simp only [deleteCode, step, delete, deleteTable]
  cases hempty : key.empty with
  | true => rfl
  | false =>
    simp only [Bool.false_eq_true, if_false, Code.act_run, Code.run]
    cases hlog : db.addLog env key.bytes [] chance.stack with
    | error e => rfl
    | ok db₁ =>
      simp only [ok_bind]
      cases hcontains : db₁.memTable.contains key with
      | error e => rfl
      | ok isThere =>
        simp only [ok_bind, pure_eq_ok]
        cases htable : (if isThere then db₁.memTable.delete key chance.level
          else db₁.memTable.add key (.ofBytes []) chance.level) with
        | error e => rfl
        | ok table =>
          simp only [ok_bind]
          cases herase : db₁.cache.erase env.hashFn key.cstr with
          | error e => rfl
          | ok cache =>
            simp only [ok_bind, rotateCode_run]
            cases DbImpl.rotateIf env _ _ <;> rfl

/-! ## A `Get` in progress -/

/-- How far a `Get` has come: to the cache, to the node it found there, whose value is `val`, or
past the cache to the memtable and past that to the table. -/
inductive GetStage
  | lookup
  | fetch
  | held (node : Option NodeId) (val : Option Bytes)
  | missed
  | absent
  deriving DecidableEq

/-- A `Get` in progress. -/
structure GetCall where
  key : StringView
  ret : Option Bytes
  stage : GetStage

/-- The value that a node found for a key has. -/
def nodeValue (db : DbImpl) (key : StringView) (node : Option NodeId) : Option Bytes :=
  node.bind (db.cache.caches (Cache.shardingIndex env.hashFn key.cstr)).valueAt

/-- **The next move of a `Get`.** -/
def read (db : DbImpl) (_ : Call) (g : GetCall) : Exec (DbImpl × (GetCall ⊕ Reply)) :=
  match g.stage with
  | .lookup =>
      match g.ret with
      | none => return (db, .inr (.invalidArgs, none))
      | some _ =>
          if g.key.empty then return (db, .inr (.invalidArgs, g.ret))
          else return (db, .inl { g with
            stage := if db.cache.contains env.hashFn g.key.cstr then .fetch else .missed })
  | .fetch => do
      let (cache, node) ← db.cache.get env.hashFn g.key.cstr
      let db := { db with cache := cache }
      return (db, .inl { g with stage := .held node (db.nodeValue env g.key node) })
  | .held node _ => do
      let nd ← db.cache.deref env.hashFn g.key.cstr (← orFault .nullPointer node)
      return (db, .inr (.success, some nd.val))
  | .missed => do
      if ← db.memTable.contains g.key then
        let val ← orFault .uncaught (← db.memTable.get g.key)
        return (db, .inr (.success, some val))
      else return (db, .inl { g with stage := .absent })
  | .absent => do
      let (status, ret, db) ← db.getFromSst env g.key (g.ret.getD [])
      return (db, .inr (status, ret))

/-- The calls on a database behind its lock. -/
def body : Call → WriteCode ⊕ GetCall
  | .put key value chance => .inl (putCode env key value chance)
  | .delete key chance => .inl (deleteCode env key chance)
  | .get key ret => .inr ⟨key, ret, .lookup⟩

/-- The answer of a `Get` that has found its node is decided. -/
def GetCall.decided (g : GetCall) : Option Reply :=
  match g.stage with
  | .held _ val => val.map fun v => (.success, some v)
  | _ => none

/-- What a `Get` in progress relies on: what it has seen in the cache and in the memtable is still
so, and the node it holds still has its value. -/
def Relies (db : DbImpl) (c : Call) (g : GetCall) : Prop :=
  c = .get g.key g.ret ∧
    match g.stage with
    | .lookup => True
    | .fetch => g.ret ≠ none ∧ g.key.empty = false ∧
        db.cache.contains env.hashFn g.key.cstr = true
    | .held node val => val ≠ none ∧ db.nodeValue env g.key node = val
    | .missed => g.ret ≠ none ∧ g.key.empty = false ∧
        db.cache.contains env.hashFn g.key.cstr = false
    | .absent => g.ret ≠ none ∧ g.key.empty = false ∧
        db.cache.contains env.hashFn g.key.cstr = false ∧ db.memTable.contains g.key = .ok false

variable {env} {db db' : DbImpl} {c c' : Call} {g g' : GetCall} {out : GetCall ⊕ Reply}

/-- **A look into the cache changes no value**: what is cached and what nodes hold is as before. -/
theorem cache_get_frame (hwf : db.cache.WF) {key : StringView} {cache : Cache Bytes Bytes}
    {node : Option NodeId} (hget : db.cache.get env.hashFn key.cstr = .ok (cache, node)) :
    cache.WF ∧ (∀ k, cache.contains env.hashFn k = db.cache.contains env.hashFn k) ∧
      ∀ k n, ({ db with cache := cache }).nodeValue env k n = db.nodeValue env k n := by
  obtain ⟨cache', node', hrun, hwf', hcached, -⟩ := Cache.get_spec env.hashFn hwf key.cstr
  obtain ⟨rfl, rfl⟩ : cache' = cache ∧ node' = node := by simpa using hrun.symm.trans hget
  refine ⟨hwf', fun k => ?_, fun k n => ?_⟩
  · rw [Bool.eq_iff_iff, Cache.contains_iff env.hashFn hwf', Cache.contains_iff env.hashFn hwf]
    simp only [hcached]
  · rw [Cache.get, bind_eq_ok] at hget
    obtain ⟨⟨l, r⟩, hshard, hout⟩ := hget
    obtain ⟨rfl, rfl⟩ : db.cache.withShard env.hashFn key.cstr l = cache' ∧ r = node' := by
      simpa using hout
    cases n with
    | none => rfl
    | some n =>
      simp only [nodeValue, Option.bind_some, Cache.withShard]
      by_cases hk : Cache.shardingIndex env.hashFn k.cstr = Cache.shardingIndex env.hashFn key.cstr
      · rw [hk, Function.update_self]
        exact LRU.get_valueAt hshard n
      · rw [Function.update_of_ne hk]

/-- A cached key is found at a node with its value. -/
theorem cache_get_present (hwf : db.cache.WF) {key : StringView}
    (hcontains : db.cache.contains env.hashFn key.cstr = true) :
    ∃ cache node nd, db.cache.get env.hashFn key.cstr = .ok (cache, some node) ∧
      cache.deref env.hashFn key.cstr node = .ok nd ∧
      ({ db with cache := cache }).nodeValue env key (some node) = some nd.val := by
  obtain ⟨v, hv⟩ := (Cache.contains_iff env.hashFn hwf).mp hcontains
  obtain ⟨cache, r, hrun, -, -, hfound⟩ := Cache.get_spec env.hashFn hwf key.cstr
  obtain ⟨node, nd, rfl, hderef, -⟩ := hfound v hv
  refine ⟨cache, node, nd, hrun, hderef, ?_⟩
  rw [Cache.deref, LRU.deref, orFault_eq_ok] at hderef
  simp [nodeValue, LRU.valueAt, hderef]

/-- The move of a `Get` that turns to the cache: it changes the cache as the whole `Get` does, and
decides its answer. -/
theorem fetch_spec (hs : Shaped db) (hrelies : Relies env db c g) (hstage : g.stage = .fetch) :
    ∃ cache node v, db.cache.get env.hashFn g.key.cstr = .ok (cache, node) ∧
      read env db c g = .ok ({ db with cache := cache }, .inl { g with stage := .held node (some v) }) ∧
      db.step env c = .ok ({ db with cache := cache }, .success, some v) ∧
      ({ db with cache := cache }).nodeValue env g.key node = some v := by
  obtain ⟨rfl, hrelies⟩ := hrelies
  rw [hstage] at hrelies
  obtain ⟨hret, hkey, hcontains⟩ := hrelies
  obtain ⟨cache, node, nd, hget, hderef, hvalue⟩ := cache_get_present hs.wf hcontains
  refine ⟨cache, some node, nd.val, hget, ?_, ?_, hvalue⟩
  · simp only [read, hstage, hget, ok_bind, hvalue, pure_eq_ok]
  · obtain ⟨old, hold⟩ := Option.ne_none_iff_exists'.mp hret
    simp [step, get, hold, hkey, hcontains, hget, hderef]

/-- What a move of a `Get` does to the database: nothing, or it looks a key up in the cache. -/
def Peeks (env : Env) (db db' : DbImpl) : Prop :=
  db' = db ∨ ∃ (key : StringView) (cache : Cache Bytes Bytes) (node : Option NodeId),
    db.cache.get env.hashFn key.cstr = .ok (cache, node) ∧ db' = { db with cache := cache }

/-- The first move of a `Get`. -/
theorem lookup_spec (hrelies : Relies env db c g) (hstage : g.stage = .lookup)
    (hread : read env db c g = .ok (db', out)) :
    Decides (DbImpl.step env) c db g.decided (out.elim GetCall.decided some) db' ∧
      (∀ g', out = .inl g' → Relies env db' c g') ∧ Peeks env db db' := by
  obtain ⟨rfl, -⟩ := hrelies
  have hnone : g.decided = none := by simp [GetCall.decided, hstage]
  rw [read, hstage] at hread
  rw [hnone]
  cases hret : g.ret with
  | none =>
    rw [hret] at hread
    obtain ⟨rfl, rfl⟩ : db = db' ∧ .inr (.invalidArgs, none) = out := by simpa using hread
    exact ⟨.takes rfl, by simp, Or.inl rfl⟩
  | some old =>
    simp only [hret] at hread
    cases hkey : g.key.empty with
    | true =>
      obtain ⟨rfl, rfl⟩ : db = db' ∧ .inr (.invalidArgs, some old) = out := by simpa [hkey] using hread
      exact ⟨.takes (by simp [step, get, hkey]), by simp, Or.inl rfl⟩
    | false =>
      simp only [hkey, Bool.false_eq_true, if_false, pure_eq_ok, Except.ok.injEq,
        Prod.mk.injEq] at hread
      obtain ⟨rfl, rfl⟩ := hread
      cases hcontains : db.cache.contains env.hashFn g.key.cstr with
      | true =>
        refine ⟨.keeps none, ?_, Or.inl rfl⟩
        rintro g' ⟨⟩
        exact ⟨rfl, by simp, hkey, hcontains⟩
      | false =>
        refine ⟨.keeps none, ?_, Or.inl rfl⟩
        rintro g' ⟨⟩
        exact ⟨rfl, by simp, hkey, hcontains⟩

/-- The move of a `Get` that copies the value out of its node. -/
theorem held_spec {node : Option NodeId} {val : Option Bytes} (hrelies : Relies env db c g)
    (hstage : g.stage = .held node val) :
    ∃ v, g.decided = some (.success, some v) ∧
      read env db c g = .ok (db, .inr (.success, some v)) := by
  obtain ⟨-, hrelies⟩ := hrelies
  rw [hstage] at hrelies
  obtain ⟨hval, hvalue⟩ := hrelies
  obtain ⟨v, rfl⟩ := Option.ne_none_iff_exists'.mp hval
  obtain ⟨n, rfl, hn⟩ := Option.bind_eq_some_iff.mp hvalue
  obtain ⟨nd, hnd, rfl⟩ := Option.map_eq_some_iff.mp hn
  refine ⟨nd.val, by simp [GetCall.decided, hstage], ?_⟩
  simp [read, hstage, Cache.deref, LRU.deref, hnd]

/-- The move of a `Get` that looks into the memtable. -/
theorem missed_spec (hrelies : Relies env db c g) (hstage : g.stage = .missed)
    (hread : read env db c g = .ok (db', out)) :
    Decides (DbImpl.step env) c db g.decided (out.elim GetCall.decided some) db' ∧
      (∀ g', out = .inl g' → Relies env db' c g') ∧ Peeks env db db' := by
  obtain ⟨rfl, hrelies⟩ := hrelies
  have hnone : g.decided = none := by simp [GetCall.decided, hstage]
  rw [hstage] at hrelies
  obtain ⟨hret, hkey, hcontains⟩ := hrelies
  obtain ⟨old, hold⟩ := Option.ne_none_iff_exists'.mp hret
  rw [read, hstage, bind_eq_ok] at hread
  obtain ⟨isThere, htable, hread⟩ := hread
  rw [hnone]
  cases isThere with
  | true =>
    simp only [if_true, bind_eq_ok] at hread
    obtain ⟨o, hget, val, hval, hout⟩ := hread
    obtain ⟨rfl, rfl⟩ : db = db' ∧ .inr (.success, some val) = out := by simpa using hout
    refine ⟨.takes ?_, by simp, Or.inl rfl⟩
    simp [step, get, hold, hkey, hcontains, htable, hget, orFault_eq_ok.mp hval]
  | false =>
    obtain ⟨rfl, rfl⟩ : db = db' ∧ .inl { g with stage := .absent } = out := by simpa using hread
    refine ⟨.keeps none, ?_, Or.inl rfl⟩
    rintro g' ⟨⟩
    exact ⟨rfl, hret, hkey, hcontains, htable⟩

/-- **What a move of a `Get` does**: it decides the answer when it changes the database, it leads on
to what the next move relies on, and it changes nothing but the order inside the cache. -/
theorem read_spec (hs : Shaped db) (hrelies : Relies env db c g)
    (hread : read env db c g = .ok (db', out)) :
    Decides (DbImpl.step env) c db g.decided (out.elim GetCall.decided some) db' ∧
      (∀ g', out = .inl g' → Relies env db' c g') ∧ Peeks env db db' := by
  cases hstage : g.stage with
  | lookup => exact lookup_spec hrelies hstage hread
  | fetch =>
    obtain ⟨cache, node, v, hget, hmove, hstep, hvalue⟩ := fetch_spec hs hrelies hstage
    obtain ⟨rfl, rfl⟩ := Prod.mk.inj (Except.ok.inj (hmove.symm.trans hread))
    refine ⟨?_, ?_, Or.inr ⟨g.key, cache, node, hget, rfl⟩⟩
    · rw [show g.decided = none by simp [GetCall.decided, hstage]]
      exact .takes hstep
    · rintro g' ⟨⟩
      exact ⟨hrelies.1, by simp, hvalue⟩
  | held node val =>
    obtain ⟨v, hdecided, hmove⟩ := held_spec hrelies hstage
    obtain ⟨rfl, rfl⟩ := Prod.mk.inj (Except.ok.inj (hmove.symm.trans hread))
    exact ⟨hdecided ▸ .keeps _, by simp, Or.inl rfl⟩
  | missed => exact missed_spec hrelies hstage hread
  | absent =>
    rw [read, hstage, bind_eq_ok] at hread
    obtain ⟨r, hsst, -⟩ := hread
    exact absurd hsst getFromSst_ne_ok

/-- **A move of a `Get` leaves the others what they rely on.** -/
theorem Relies.of_peeks (hs : Shaped db) (hpeeks : Peeks env db db') (hrelies : Relies env db c g) :
    Relies env db' c g := by
  obtain rfl | ⟨key, cache, node, hget, rfl⟩ := hpeeks
  · exact hrelies
  · obtain ⟨-, hcontains, hvalue⟩ := cache_get_frame hs.wf hget
    refine ⟨hrelies.1, ?_⟩
    have hg := hrelies.2
    cases hstage : g.stage with
    | lookup => trivial
    | fetch => simpa [hstage, hcontains] using hg
    | held node val => simpa [hstage, hvalue] using hg
    | missed => simpa [hstage, hcontains] using hg
    | absent => simpa [hstage, hcontains] using hg

/-- A move of a `Get` faults only where the whole `Get` does, and before its answer is decided. -/
theorem read_fault (hs : Shaped db) (hrelies : Relies env db c g) {e : Fault}
    (hread : read env db c g = .error e) :
    g.decided = none ∧ ∃ e', db.step env c = .error e' := by
  cases hstage : g.stage with
  | lookup =>
    exfalso
    rw [read, hstage] at hread
    cases hret : g.ret <;> cases hkey : g.key.empty <;>
      simp [hret, hkey, pure, Except.pure] at hread
  | fetch =>
    obtain ⟨cache, node, v, -, hmove, -⟩ := fetch_spec hs hrelies hstage
    exact absurd (hmove.symm.trans hread) (by simp)
  | held node val =>
    obtain ⟨v, -, hmove⟩ := held_spec hrelies hstage
    exact absurd (hmove.symm.trans hread) (by simp)
  | missed =>
    exfalso
    obtain ⟨m, hm⟩ := hs.table
    rw [read, hstage, MemTable.contains_spec _ hm, ok_bind, MemTable.get_spec _ hm] at hread
    cases hlookup : m.lookup g.key.cstr with
    | none => simp [SortedMap.contains, hlookup, pure, Except.pure] at hread
    | some v => simp [SortedMap.contains, hlookup, pure, Except.pure] at hread
  | absent =>
    obtain ⟨rfl, hg⟩ := hrelies
    rw [hstage] at hg
    obtain ⟨hret, hkey, hcontains, htable⟩ := hg
    obtain ⟨old, hold⟩ := Option.ne_none_iff_exists'.mp hret
    refine ⟨by simp [GetCall.decided, hstage], ?_⟩
    cases hsst : db.getFromSst env g.key old with
    | ok r => exact absurd hsst getFromSst_ne_ok
    | error e' => exact ⟨e', by simp [step, get, hold, hkey, hcontains, htable, hsst]⟩

/-- **The readers of a database**, in the sense of the readers–writer lock. -/
theorem reading (env : Env) :
    Reading (DbImpl.step env) (body env) (read env) GetCall.decided Shaped (Relies env) where
  write {c code} hbody db := by
    cases c with
    | put key value chance =>
      obtain rfl := Sum.inl.inj hbody
      exact putCode_run env db key value chance
    | delete key chance =>
      obtain rfl := Sum.inl.inj hbody
      exact deleteCode_run env db key chance
    | get key ret => cases hbody
  inv hs hstep := hs.step hstep
  start {db c g} hs hbody := by
    cases c with
    | put key value chance => cases hbody
    | delete key chance => cases hbody
    | get key ret =>
      obtain rfl := Sum.inr.inj hbody
      exact ⟨⟨rfl, trivial⟩, rfl⟩
  own hs hrelies hread :=
    have h := read_spec hs hrelies hread
    ⟨h.1, h.2.1⟩
  others hs hrelies hread hother := hother.of_peeks hs (read_spec hs hrelies hread).2.2
  fault hs hrelies hread := read_fault hs hrelies hread

/-! ## Threads -/

section Threads

variable {ι : Type} [DecidableEq ι]

/-- **Threads with calls on one database.** -/
def threaded (env : Env) :
    Machine (Shared DbImpl ι) ι Call Reply (RwPhase DbImpl Bool Reply GetCall) :=
  readWrite (body env) (read env)

/-- Threads with their programs, over a database. -/
def threads (db : DbImpl) (programs : ι → List Call) :
    Threads (Shared DbImpl ι) ι Call Reply (RwPhase DbImpl Bool Reply GetCall) :=
  .start ⟨db, .new⟩ programs

/-- **An order of calls explains threads over a database**: made one after the other the calls give
the answers the threads got, and lead from `db₀` to `db`. -/
abbrev ExplainsThreads (env : Env) (db₀ : DbImpl) (order : List (ι × Call × Reply))
    (s : Threads (Shared DbImpl ι) ι Call Reply (RwPhase DbImpl Bool Reply GetCall))
    (db : DbImpl) : Prop :=
  Explains (DbImpl.step env) (RwPhase.decided GetCall.decided) db₀ order s db

variable {db₀ : DbImpl} {programs : ι → List Call} {past future : List ι} {us us' : List Unit}
  {s s' : Threads (Shared DbImpl ι) ι Call Reply (RwPhase DbImpl Bool Reply GetCall)}

/-- Threads over a database in shape are explained by one order of their calls. -/
theorem explains_of_shaped (hs : Shaped db₀)
    (hpast : runFrom (threaded env).step (threads db₀ programs) past = .ok (s, us))
    (hfuture : runFrom (threaded env).step s future = .ok (s', us')) :
    ∃ order more db db', ExplainsThreads env db₀ order s db ∧
      ExplainsThreads env db₀ (order ++ more) s' db' ∧
      Interleaves programs ((order ++ more).map fun p => (p.1, p.2.1)) ∧
      (s'.shared.lock.writer = none → s'.shared.object = db') := by
  obtain ⟨order, more, db, db', -, hR', hexplains, hexplains'⟩ :=
    (readWrite_simulates (reading env)).linearizable (sharing_start hs) hpast hfuture
  have hrun : runFrom (threaded env).step (threads db₀ programs) (past ++ future) =
      .ok (s', us ++ us') := (runFrom_append _).mpr ⟨s, us, us', hpast, hfuture, rfl⟩
  exact ⟨order, more, db, db', hexplains, hexplains', hexplains'.interleaves hrun, hR'.object⟩

/-- While no call is in progress nobody writes. -/
theorem writer_eq_none_of_idle (hs : Shaped db₀)
    (hrun : runFrom (threaded env).step (threads db₀ programs) past = .ok (s, us))
    (hidle : ∀ i, s.busy i = none) : s.shared.lock.writer = none := by
  obtain ⟨_, _, _, _, hsharing, -⟩ := (readWrite_simulates (reading env)).linearizable
    (sharing_start hs) hrun (runFrom_nil (threaded env).step s)
  refine Option.eq_none_iff_forall_ne_some.mpr fun i hi => ?_
  have hwrites := (hsharing.writer i).mp hi
  rw [hidle i] at hwrites
  exact not_isWriting_none hwrites

/-- **Threads that share a database.**  Every schedule of threads over a database after a run is
explained by one order of the calls: made one after the other in this order they return what they
returned to the threads, each thread's calls come in the order of its program, a longer schedule adds
calls at the end, and while nobody writes the database is the one that the order leads to. -/
theorem threads_linearizable {options : Options} {wal : Bytes} {disk : Disk} {calls : List Call}
    {rs : List Reply} (hrun : run env options wal disk calls = .ok (db₀, rs))
    (hpast : runFrom (threaded env).step (threads db₀ programs) past = .ok (s, us))
    (hfuture : runFrom (threaded env).step s future = .ok (s', us')) :
    ∃ order more db db', ExplainsThreads env db₀ order s db ∧
      ExplainsThreads env db₀ (order ++ more) s' db' ∧
      Interleaves programs ((order ++ more).map fun p => (p.1, p.2.1)) ∧
      (s'.shared.lock.writer = none → s'.shared.object = db') :=
  explains_of_shaped (shaped_of_run hrun) hpast hfuture

/-- A thread that writes a key and one that reads it. -/
def writerReader : Bool → List Call
  | true => [.put (.ofBytes [107]) (.ofBytes [97]) .quiet]
  | false => [.get (.ofBytes [107]) (some [])]

/-- The writer takes the lock first, the reader waits for it, and reads the value. -/
theorem threads_linearizable_two :
    ∃ db₀ rs, run Env.plain {} [] (fun _ => none) [] = .ok (db₀, rs) ∧
      ∃ s us, runFrom (threaded Env.plain).step (threads db₀ writerReader)
          [true, true, false, false] = .ok (s, us) ∧
      ∃ s' us', runFrom (threaded Env.plain).step s (List.replicate 6 true ++
          List.replicate 6 false) = .ok (s', us') ∧
      ∃ order more db db', ExplainsThreads Env.plain db₀ order s db ∧
        ExplainsThreads Env.plain db₀ (order ++ more) s' db' ∧
        Interleaves writerReader ((order ++ more).map fun p => (p.1, p.2.1)) ∧
        (s'.shared.lock.writer = none → s'.shared.object = db') := by
  have hturns : (fun _ => ()) <$> runFrom (threaded Env.plain).step
      (threads (new {} [] fun _ => none) writerReader)
      ([true, true, false, false] ++ (List.replicate 6 true ++ List.replicate 6 false)) = .ok () := by
    decide +kernel
  obtain ⟨⟨s', us⟩, hboth, -⟩ := map_eq_ok.mp hturns
  obtain ⟨s, us₁, us₂, hpast, hfuture, -⟩ := (runFrom_append _).mp hboth
  have hnew : run Env.plain {} [] (fun _ => none) [] = .ok (new {} [] fun _ => none, []) := rfl
  exact ⟨_, _, hnew, s, us₁, hpast, s', us₂, hfuture, threads_linearizable hnew hpast hfuture⟩

/-- **No schedule faults where no run of the calls one at a time does.** -/
theorem threads_return (hs : Shaped db₀)
    (hseq : ∀ order, Interleaves programs order →
      ∃ r, runFrom (DbImpl.step env) db₀ (order.map Prod.snd) = .ok r) (schedule : List ι) :
    ∃ s us, runFrom (threaded env).step (threads db₀ programs) schedule = .ok (s, us) :=
  (readWrite_simulates (reading env)).returns_of_sequential (sharing_start hs) hseq schedule

/-! ## No deadlock -/

/-- How many moves a `Get` may yet make. -/
def GetCall.size (g : GetCall) : ℕ :=
  match g.stage with
  | .lookup => 2
  | .fetch => 1
  | .held _ _ => 0
  | .missed => 1
  | .absent => 0

omit [DecidableEq ι] in
/-- **A `Get` comes nearer to its end with every move.** -/
theorem size_lt_of_read {db db' : DbImpl} {c : Call} {g g' : GetCall}
    (hread : read env db c g = .ok (db', .inl g')) : g'.size < g.size := by
  rw [read] at hread
  cases hstage : g.stage with
  | lookup =>
    cases hret : g.ret with
    | none => simp [hstage, hret] at hread
    | some ret =>
      cases hkey : g.key.empty with
      | true => simp [hstage, hret, hkey] at hread
      | false =>
        obtain ⟨-, rfl⟩ : db = db' ∧ _ = g' := by simpa [hstage, hret, hkey] using hread
        cases db.cache.contains env.hashFn g.key.cstr <;> simp [GetCall.size, hstage]
  | fetch =>
    simp only [hstage, bind_eq_ok, Prod.exists] at hread
    obtain ⟨cache, node, -, hout⟩ := hread
    obtain ⟨-, rfl⟩ : _ = db' ∧ _ = g' := by simpa using hout
    simp [GetCall.size, hstage]
  | held node val =>
    simp only [hstage, bind_eq_ok] at hread
    obtain ⟨n, -, nd, -, hout⟩ := hread
    simp at hout
  | missed =>
    simp only [hstage, bind_eq_ok] at hread
    obtain ⟨isThere, -, hout⟩ := hread
    cases isThere with
    | true =>
      simp only [if_true, bind_eq_ok] at hout
      obtain ⟨val, -, v, -, hout⟩ := hout
      simp at hout
    | false =>
      obtain ⟨-, rfl⟩ : _ = db' ∧ _ = g' := by simpa using hout
      simp [GetCall.size, hstage]
  | absent =>
    simp only [hstage, bind_eq_ok, Prod.exists] at hread
    obtain ⟨status, ret, db₁, -, hout⟩ := hread
    simp at hout

/-- **Threads over a database in shape come to an end** under a fair schedule, where no run of the
calls one at a time faults. -/
theorem threads_join [Finite ι] (hs : Shaped db₀)
    (hseq : ∀ order, Interleaves programs order →
      ∃ r, runFrom (DbImpl.step env) db₀ (order.map Prod.snd) = .ok r)
    {schedule : ℕ → ι} (hfair : Fair schedule) :
    ∃ n s us, runFrom (threaded env).step (threads db₀ programs) (firstMoves schedule n) = .ok (s, us) ∧
      s.Joined ∧ ∀ i, (s.returned i).map Prod.fst = programs i :=
  (readWrite_simulates (reading env)).joins (readWrite_lively size_lt_of_read) (sharing_start hs)
    (threads_return hs hseq) hfair

end Threads

end SmallKV.DbImpl
