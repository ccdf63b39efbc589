import SmallKV.Db.Reads
import SmallKV.Db.Sessions

/-!
# Db/ResultString — what `Get` leaves in the string of its caller

`Get` writes its result in three ways: a value from the cache or from the memtable is assigned, a
value from the table file is appended.  What `Parse` and `Seek` find is a parameter here, a function
of the file and the key; `get_eq_getVia` says that `Get` itself is the instance of the source.  So what
the caller's string held stays in front of a value from the table file, and the result is the value
alone exactly when there is no such value or the string was empty (`independent_iff`).
-/

namespace SmallKV.DbImpl

/-! ## Searching the table file -/

/-- What a key is searched for in, the table file, and what is found there. -/
abbrev Search := Option Bytes → Bytes → Exec (Option Bytes)

/-- `Parse` and `Seek`. -/
def parseSeek : Search := fun file key => do
  let parser ← SSTParser.openTable file
  parser.seek key

/-- A function of an existing file and the key, in the place of `Parse` and `Seek`. -/
def searchOf (find : Bytes → Bytes → Option Bytes) : Search := fun file key => do
  return find (← orFault .assertion file) key

section Via

variable (env : Env) (search : Search)

/-- The last step of `Get`, over a search of the table file. -/
def searchTable (db : DbImpl) (key : StringView) (ret : Bytes) :
    Exec (DBStatus × Option Bytes × DbImpl) := do
  match ← search (db.disk.read db.sstPath) key.bytes with
  | none => return (.notFound, some ret, db)
  | some val => do
      let cache ← db.cache.insert env.hashFn key.cstr val
      return (.success, some (ret ++ val), { db with cache := cache })

/-- `Get`, over a search of the table file. -/
def getVia (db : DbImpl) (key : StringView) (ret : Option Bytes) :
    Exec (DBStatus × Option Bytes × DbImpl) :=
  match ret with
  | none => return (.invalidArgs, ret, db)
  | some old =>
      if key.empty then return (.invalidArgs, ret, db)
      else if db.cache.contains env.hashFn key.cstr then do
        let (cache, node) ← db.cache.get env.hashFn key.cstr
        let nd ← cache.deref env.hashFn key.cstr (← orFault .nullPointer node)
        return (.success, some nd.val, { db with cache := cache })
      else do
        if ← db.memTable.contains key then
          let val ← orFault .uncaught (← db.memTable.get key)
          return (.success, some val, db)
        else db.searchTable env search key old

theorem getFromSst_eq_searchTable (db : DbImpl) (key : StringView) (ret : Bytes) :
    db.getFromSst env key ret = db.searchTable env parseSeek key ret :=
  (bind_assoc (SSTParser.openTable (db.disk.read db.sstPath)) (·.seek key.bytes) _).symm

/-- **`Get` is the search with `Parse` and `Seek`.** -/
theorem get_eq_getVia (db : DbImpl) (key : StringView) (ret : Option Bytes) :
    db.get env key ret = db.getVia env parseSeek key ret := by
  cases ret with
  | none => rfl
  | some old =>
    rw [get, getVia, getFromSst_eq_searchTable]

/-- A key that is in the cache or in the memtable is not searched for. -/
theorem getVia_congr {search search' : Search} {db : DbImpl} {key : StringView}
    (h : db.cache.contains env.hashFn key.cstr = true ∨ db.memTable.contains key = .ok true)
    (ret : Option Bytes) : db.getVia env search key ret = db.getVia env search' key ret := by
  cases ret with
  | none => rfl
  | some old =>
    rw [getVia, getVia]
    split_ifs with hempty hcached
    · rfl
    · rfl
    · rw [h.resolve_left hcached]
      rfl

/-- One call, over a search of the table file. -/
def stepVia (db : DbImpl) : Call → Exec (DbImpl × Reply)
  | .put key value chance => db.step env (.put key value chance)
  | .delete key chance => db.step env (.delete key chance)
  | .get key ret => do
      let (status, ret, db) ← db.getVia env search key ret
      return (db, status, ret)

/-- A database after a run of calls on a new one, over a search of the table file. -/
def runVia (options : Options) (wal : Bytes) (disk : Disk) (calls : List Call) :
    Exec (DbImpl × List Reply) :=
  runFrom (stepVia env search) (new options wal disk) calls

end Via

/-! ## One `Get` -/

variable {env : Env} {search : Search} {find : Bytes → Bytes → Option Bytes} {db db' : DbImpl}
  {m : SortedMap Bytes Bytes} {key : StringView} {status : DBStatus}

/-- **Only a key that is not buffered is searched for** in the table file. -/
theorem getVia_eq (hwf : db.cache.WF) (hm : db.memTable.Holds m) (hk : key.bytes ≠ []) (ret : Bytes) :
    db.getVia env search key (some ret) =
      if buffered env db m key.cstr = none then db.searchTable env search key ret
      else db.get env key (some ret) := by
  have hcontains : buffered env db m key.cstr ≠ none ↔ _ := buffered_ne_none_iff hwf hm
  by_cases hb : buffered env db m key.cstr = none
  · obtain ⟨hcached, htable⟩ := not_or.mp (hcontains.not.mp (not_not.mpr hb))
    have hempty : ¬ key.empty = true := by simpa [StringView.empty] using hk
    rw [MemTable.contains_spec key hm, Except.ok.injEq] at htable
    rw [if_pos hb, getVia, if_neg hempty, if_neg hcached, MemTable.contains_spec key hm, ok_bind,
      if_neg htable]
  · rw [if_neg hb, get_eq_getVia]
    exact getVia_congr env (hcontains.mp hb) (some ret)

theorem searchTable_eq_ok {ret : Bytes} {out : Option Bytes}
    (h : db.searchTable env search key ret = .ok (status, out, db')) :
    search (db.disk.read db.sstPath) key.bytes = .ok none ∧ status = .notFound ∧ out = some ret ∧
        db' = db ∨
      ∃ val cache, search (db.disk.read db.sstPath) key.bytes = .ok (some val) ∧
        status = .success ∧ out = some (ret ++ val) ∧
        db.cache.insert env.hashFn key.cstr val = .ok cache ∧ db' = { db with cache := cache } := by
  obtain ⟨found, hsearch, h⟩ := bind_eq_ok.mp h
  cases found with
  | none =>
    obtain ⟨rfl, rfl, rfl⟩ : _ ∧ _ ∧ db = db' := by simpa using h
    exact .inl ⟨hsearch, rfl, rfl, rfl⟩
  | some val =>
    obtain ⟨cache, hinsert, h⟩ := bind_eq_ok.mp h
    obtain ⟨rfl, rfl, rfl⟩ : _ ∧ _ ∧ { db with cache := cache } = db' := by simpa using h
    exact .inr ⟨val, cache, hsearch, rfl, rfl, hinsert, rfl⟩

/-! ## Runs -/

/-- `Get` keeps the shape, whatever is found in the table file. -/
theorem Shaped.getVia {ret out : Option Bytes} (hs : Shaped db)
    (hget : db.getVia env search key ret = .ok (status, out, db')) : Shaped db' := by
  obtain ⟨m, hm⟩ := hs.table
  cases ret with
  | none =>
    obtain ⟨-, -, rfl⟩ : _ ∧ _ ∧ db = db' := by simpa [DbImpl.getVia] using hget
    exact hs
  | some ret =>
    by_cases hk : key.bytes = []
    · have hempty : key.empty = true := by simp [StringView.empty, hk]
      obtain ⟨-, -, rfl⟩ : _ ∧ _ ∧ db = db' := by simpa [DbImpl.getVia, hempty] using hget
      exact hs
    · rw [getVia_eq hs.wf hm hk] at hget
      split_ifs at hget with hnone
      · rcases searchTable_eq_ok hget with ⟨-, -, -, rfl⟩ | ⟨val, cache, -, -, -, hinsert, rfl⟩
        · exact hs
        · obtain ⟨cache', hrun, hwf, -⟩ := Cache.insert_spec env.hashFn hs.wf key.cstr val
          obtain rfl := Except.ok.inj (hrun.symm.trans hinsert)
          exact ⟨hwf, m, hm⟩
      · obtain ⟨hlooked, -⟩ := get_eq_ok hs.wf hm hget
        exact ⟨hlooked.wf, m, hlooked.memTable ▸ hm⟩

/-- Every call keeps the shape, whatever is found in the table file. -/
theorem Shaped.stepVia {c : Call} {r : Reply} (hs : Shaped db)
    (hstep : db.stepVia env search c = .ok (db', r)) : Shaped db' := by
  cases c with
  | put key value chance => exact hs.step (c := .put key value chance) hstep
  | delete key chance => exact hs.step (c := .delete key chance) hstep
  | get key ret =>
    obtain ⟨⟨status, out, db₁⟩, hget, heq⟩ := bind_eq_ok.mp hstep
    obtain ⟨rfl, -⟩ := Prod.mk.inj (Except.ok.inj heq)
    exact hs.getVia hget

section Runs

variable {options : Options} {wal : Bytes} {disk : Disk} {calls : List Call} {rs : List Reply}

theorem shaped_of_runVia (hrun : runVia env search options wal disk calls = .ok (db, rs)) :
    Shaped db :=
  run_invariant (DbImpl.stepVia env search) (fun _ _ _ _ hs hstep => hs.stepVia hstep) calls _ db rs
    (shaped_new options wal disk) hrun

/-! ## The result string -/

variable (env search) in
/-- The value stored under a key: in the cache, or else in the memtable, or else in the table
file. -/
def stored (db : DbImpl) (key : StringView) : Exec (Option Bytes) :=
  match db.cache.cached env.hashFn key.cstr with
  | some v => return some v
  | none => do
      match ← db.memTable.get key with
      | some v => return some v
      | none => search (db.disk.read db.sstPath) key.bytes

variable (env search) in
/-- **The result of a `Get` does not depend on the string it is written to**: from either of two
contents the same status, the stored value and nothing else when it is `Success`, and the content
there was when it is `NotFound`. -/
def Independent (db : DbImpl) (key : StringView) (ret₁ ret₂ : Bytes) : Prop :=
  ∃ status out₁ out₂ db₁ db₂,
    db.getVia env search key (some ret₁) = .ok (status, some out₁, db₁) ∧
    db.getVia env search key (some ret₂) = .ok (status, some out₂, db₂) ∧
    (status = .success → db.stored env search key = .ok (some out₁) ∧ out₂ = out₁) ∧
    (status = .notFound → out₁ = ret₁ ∧ out₂ = ret₂)

theorem stored_eq (hm : db.memTable.Holds m) (key : StringView) :
    db.stored env search key = (buffered env db m key.cstr).elim
      (search (db.disk.read db.sstPath) key.bytes) fun v => .ok (some v) := by
  rw [stored, buffered, MemTable.get_spec key hm]
  cases db.cache.cached env.hashFn key.cstr with
  | some v => rfl
  | none => cases m.lookup key.cstr <;> rfl

section Read

variable (hwf : db.cache.WF) (hm : db.memTable.Holds m) (hk : key.bytes ≠ [])

include hwf hm hk

/-- A buffered value is assigned. -/
theorem independent_of_buffered (hb : buffered env db m key.cstr ≠ none) (ret₁ ret₂ : Bytes) :
    Independent env search db key ret₁ ret₂ := by
  obtain ⟨v, hv⟩ := Option.ne_none_iff_exists'.mp hb
  have hget : ∀ ret, ∃ db', db.getVia env search key (some ret) = .ok (.success, some v, db') := by
    intro ret
    obtain ⟨db', hrun, -⟩ := (get_spec env hwf hm hk ret).1 v hv
    exact ⟨db', by rw [getVia_eq hwf hm hk, if_neg hb, hrun]⟩
  obtain ⟨db₁, hrun₁⟩ := hget ret₁
  obtain ⟨db₂, hrun₂⟩ := hget ret₂
  refine ⟨_, v, v, db₁, db₂, hrun₁, hrun₂, fun _ => ⟨?_, rfl⟩, nofun⟩
  rw [stored_eq hm, hv]
  rfl

/-- A key that is not found leaves the strings. -/
theorem independent_of_not_found (hb : buffered env db m key.cstr = none)
    (hsearch : search (db.disk.read db.sstPath) key.bytes = .ok none) (ret₁ ret₂ : Bytes) :
    Independent env search db key ret₁ ret₂ := by
  have hget : ∀ ret, db.getVia env search key (some ret) = .ok (.notFound, some ret, db) := by
    intro ret
    rw [getVia_eq hwf hm hk, if_pos hb, searchTable, hsearch]
    rfl
  exact ⟨_, ret₁, ret₂, db, db, hget ret₁, hget ret₂, nofun, fun _ => ⟨rfl, rfl⟩⟩

/-- **A value from the table file is appended**: it is the result only in empty strings. -/
theorem independent_iff_of_found (hb : buffered env db m key.cstr = none) {val : Bytes}
    (hsearch : search (db.disk.read db.sstPath) key.bytes = .ok (some val)) (ret₁ ret₂ : Bytes) :
    Independent env search db key ret₁ ret₂ ↔ ret₁ = [] ∧ ret₂ = [] := by
  obtain ⟨cache, hinsert, -⟩ := Cache.insert_spec env.hashFn hwf key.cstr val
  have hget : ∀ ret, db.getVia env search key (some ret) =
      .ok (.success, some (ret ++ val), { db with cache := cache }) := by
    intro ret
    rw [getVia_eq hwf hm hk, if_pos hb, searchTable, hsearch, ok_bind]
    simp only [hinsert, ok_bind, pure_eq_ok]
  have hstored : db.stored env search key = .ok (some val) := by
    rw [stored_eq hm, hb]
    exact hsearch
  constructor
  · rintro ⟨status, out₁, out₂, db₁, db₂, hrun₁, hrun₂, hsuccess, -⟩
    rw [hget] at hrun₁ hrun₂
    obtain ⟨rfl, rfl, -⟩ : _ ∧ ret₁ ++ val = out₁ ∧ _ := by simpa using hrun₁
    obtain ⟨rfl, -⟩ : ret₂ ++ val = out₂ ∧ _ := by simpa using hrun₂
    obtain ⟨hval, hsame⟩ := hsuccess rfl
    rw [hstored, Except.ok.injEq, Option.some.injEq] at hval
    have hret₁ : ret₁ = [] := List.self_eq_append_left.mp hval
    rw [List.append_cancel_right hsame]
    exact ⟨hret₁, hret₁⟩
  · rintro ⟨rfl, rfl⟩
    exact ⟨_, val, val, _, _, hget [], hget [], fun _ => ⟨hstored, rfl⟩, nofun⟩

end Read

/-- **When the result of a `Get` does not depend on the string it is written to**: exactly when the
key is in the cache or in the memtable, or it is not found in the table file, or nothing was in the
strings. -/
theorem independent_iff
    (hrun : runVia env (searchOf find) options wal disk calls = .ok (db, rs))
    (hkey : key.bytes ≠ []) {file : Bytes} (hfile : db.disk.read db.sstPath = some file)
    (ret₁ ret₂ : Bytes) :
    Independent env (searchOf find) db key ret₁ ret₂ ↔
      db.cache.contains env.hashFn key.cstr = true ∨ db.memTable.contains key = .ok true ∨
        find file key.bytes = none ∨ ret₁ = [] ∧ ret₂ = [] := by
  obtain ⟨hwf, m, hm⟩ := shaped_of_runVia hrun
  have hsearch : searchOf find (db.disk.read db.sstPath) key.bytes = .ok (find file key.bytes) := by
    rw [hfile]
    rfl
  rw [← or_assoc, ← buffered_ne_none_iff hwf hm]
  by_cases hb : buffered env db m key.cstr = none
  · rw [or_iff_right (not_not.mpr hb)]
    cases hfind : find file key.bytes with
    | none =>
      rw [hfind] at hsearch
      exact iff_of_true (independent_of_not_found hwf hm hkey hb hsearch ret₁ ret₂) (.inl rfl)
    | some val =>
      rw [hfind] at hsearch
      rw [independent_iff_of_found hwf hm hkey hb hsearch, or_iff_right nofun]
  · exact iff_of_true (independent_of_buffered hwf hm hkey hb ret₁ ret₂) (.inl hb)

/-- A table file of one pair. -/
def tableOne : Bytes := ((SSTParser.buildTable .percent [([107], [97])]).toOption).getD []

/-- A storage with that table, at the path `Get` reads from. -/
def oneTable : Disk := Disk.write (fun _ => none) (new {} [] fun _ => none).sstPath tableOne

theorem read_oneTable :
    (new {} [] oneTable).disk.read (new {} [] oneTable).sstPath = some tableOne :=
  Disk.read_write _ _ _

/-- What that table holds. -/
def findOne (_ key : Bytes) : Option Bytes := SSTParser.answer [([107], [97])] key

/-- The value of that table, read into two strings. -/
theorem independent_iff_two :
    Independent Env.plain (searchOf findOne) (new {} [] oneTable) (.ofBytes [107]) [120] [] ↔
      (new {} [] oneTable).cache.contains Env.plain.hashFn (StringView.ofBytes [107]).cstr = true ∨
        (new {} [] oneTable).memTable.contains (.ofBytes [107]) = .ok true ∨
        findOne tableOne [107] = none ∨ ([120] : Bytes) = [] ∧ ([] : Bytes) = [] := by
  exact independent_iff (runFrom_nil _ _) (by decide) read_oneTable [120] []

/-- After every run, the result of a `Get` does not depend on the string it is written to. -/
def AlwaysIndependent : Prop :=
  ∀ (env : Env) (find : Bytes → Bytes → Option Bytes) (options : Options) (wal : Bytes) (disk : Disk)
    (calls : List Call) (db : DbImpl) (rs : List Reply) (key : StringView) (file ret₁ ret₂ : Bytes),
    runVia env (searchOf find) options wal disk calls = .ok (db, rs) → key.bytes ≠ [] →
    db.disk.read db.sstPath = some file → Independent env (searchOf find) db key ret₁ ret₂

/-- **What was in the string stands before the value**: `x` and nothing become `xa` and `a`. -/
theorem not_alwaysIndependent : ¬ AlwaysIndependent := by
  intro h
  have hsame := h Env.plain findOne {} [] oneTable [] _ [] (.ofBytes [107]) tableOne [120] []
    (runFrom_nil _ _) (by decide) read_oneTable
  have hsearch : searchOf findOne ((new {} [] oneTable).disk.read (new {} [] oneTable).sstPath) [107] =
      .ok (some [97]) := by
    rw [read_oneTable]
    rfl
  have hempty := (independent_iff_of_found (Cache.wf_new _) MemTable.holds_new (by decide) rfl hsearch
    [120] []).mp hsame
  exact absurd hempty.1 (by decide)

end Runs

end SmallKV.DbImpl
