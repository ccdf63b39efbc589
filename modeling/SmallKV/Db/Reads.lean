import SmallKV.Db.DbImpl

/-!
# Db/Reads — what `Get` returns, along runs

A value is *buffered* when the cache or the memtable holds it.  `get_spec` says that `Get` returns
the buffered value of a key, and does not return at all for a key that has none: the table file
never answers.  Along a run the buffered value of a key is the one last written to it, as long as
every view is a C string and no `Put` meets another value of its key in the cache
(`get_newest_of_kept`).
-/

namespace SmallKV.DbImpl

variable {env : Env} {db db' : DbImpl} {m : SortedMap Bytes Bytes}

/-! ## One `Get` -/

/-- The value of a key in the cache, or else in the memtable. -/
def buffered (env : Env) (db : DbImpl) (m : SortedMap Bytes Bytes) (k : Bytes) : Option Bytes :=
  (db.cache.cached env.hashFn k).or (m.lookup k)

/-- A key is buffered exactly when the cache or the memtable contains it. -/
theorem buffered_ne_none_iff (hwf : db.cache.WF) (hm : db.memTable.Holds m)
    {key : StringView} :
    buffered env db m key.cstr ≠ none ↔
      db.cache.contains env.hashFn key.cstr = true ∨ db.memTable.contains key = .ok true := by
  rw [Cache.contains_iff env.hashFn hwf, MemTable.contains_spec key hm, buffered,
    Except.ok.injEq, SortedMap.contains, Option.isSome_iff_exists, Option.ne_none_iff_isSome,
    Option.isSome_or, Bool.or_eq_true, Option.isSome_iff_exists, Option.isSome_iff_exists]

/-- What a returning `Get` may change: the order and the counts inside the cache. -/
structure Looked (env : Env) (db db' : DbImpl) : Prop where
  memTable : db'.memTable = db.memTable
  wal : db'.wal = db.wal
  wf : db'.cache.WF
  cached : ∀ k, db'.cache.cached env.hashFn k = db.cache.cached env.hashFn k

variable (env) in
/-- **`Get` returns the buffered value of its key, or does not return.** -/
theorem get_spec (hc : db.cache.WF) (hm : db.memTable.Holds m) {key : StringView}
    (hk : key.bytes ≠ []) (ret : Bytes) :
    (∀ v, buffered env db m key.cstr = some v → ∃ db',
      db.get env key (some ret) = .ok (.success, some v, db') ∧ Looked env db db') ∧
    (buffered env db m key.cstr = none → ∀ r, db.get env key (some ret) ≠ .ok r) := by
  have hempty : key.empty = false := by simpa [StringView.empty] using hk
  cases hv : db.cache.cached env.hashFn key.cstr with
  | some v =>
    have hcontains := (Cache.contains_iff env.hashFn hc).mpr ⟨v, hv⟩
    obtain ⟨cache, r, hrun, hwf, hsame, hnode⟩ := Cache.get_spec env.hashFn hc key.cstr
    obtain ⟨n, nd, rfl, hderef, rfl⟩ := hnode v hv
    refine ⟨fun w hw => ?_, fun hnone => by simp [buffered, hv] at hnone⟩
    obtain rfl : nd.val = w := by simpa [buffered, hv] using hw
    refine ⟨{ db with cache := cache }, ?_, rfl, rfl, hwf, hsame⟩
    simp [get, hempty, hcontains, hrun, hderef]
  | none =>
    have hcontains : db.cache.contains env.hashFn key.cstr = false := by
      rw [← Bool.not_eq_true, Cache.contains_iff env.hashFn hc, hv]
      simp
    have hor : buffered env db m key.cstr = m.lookup key.cstr := by simp [buffered, hv]
    rw [hor]
    have hrest : db.get env key (some ret) = (do
        if m.contains key.cstr then
          let val ← orFault .uncaught (m.lookup key.cstr)
          return (.success, some val, db)
        else db.getFromSst env key ret) := by
      simp [get, hempty, hcontains, MemTable.contains_spec key hm, MemTable.get_spec key hm]
    rw [hrest, SortedMap.contains]
    refine ⟨fun v hv => ⟨db, by simp [hv], rfl, rfl, hc, fun _ => rfl⟩, fun hnone r => ?_⟩
    simpa [hnone] using getFromSst_ne_ok

/-- **The inversion of `Get`.** -/
theorem get_eq_ok (hc : db.cache.WF) (hm : db.memTable.Holds m) {key : StringView}
    {ret out : Option Bytes} {status : DBStatus} (h : db.get env key ret = .ok (status, out, db')) :
    Looked env db db' ∧ (status = .invalidArgs ∨ status = .success) := by
  cases ret with
  | none =>
    obtain ⟨rfl, -, rfl⟩ : _ ∧ _ ∧ db = db' := by simpa [get] using h
    exact ⟨⟨rfl, rfl, hc, fun _ => rfl⟩, Or.inl rfl⟩
  | some ret =>
    by_cases hk : key.bytes = []
    · have hempty : key.empty = true := by simp [StringView.empty, hk]
      obtain ⟨rfl, -, rfl⟩ : _ ∧ _ ∧ db = db' := by simpa [get, hempty] using h
      exact ⟨⟨rfl, rfl, hc, fun _ => rfl⟩, Or.inl rfl⟩
    · obtain ⟨hfound, hmissing⟩ := get_spec env hc hm hk ret
      cases hb : buffered env db m key.cstr with
      | none => exact absurd h (hmissing hb _)
      | some v =>
        obtain ⟨db₁, hrun, hlooked⟩ := hfound v hb
        obtain ⟨rfl, -, rfl⟩ : _ ∧ _ ∧ db₁ = db' := by simpa using hrun.symm.trans h
        exact ⟨hlooked, Or.inr rfl⟩

/-! ## Reading the latest write -/

/-- No byte is NUL. -/
def NulFree (bytes : Bytes) : Prop := ∀ b ∈ bytes, b ≠ 0

instance : DecidablePred NulFree := fun _ => List.decidableBAll _ _

/-- `v` is the value last put under `k`, successfully; neither is empty or holds a NUL. -/
def Newest (h : List (Call × Reply)) (k v : Bytes) : Prop :=
  (k ≠ [] ∧ NulFree k) ∧ (v ≠ [] ∧ NulFree v) ∧ lastWrite h k = some ⟨some v, .success⟩

/-- The condition on the writes of a run: keys are C strings, and so are the values a later `Get`
may ask for; and the cache does not hold another value of a key that is put. -/
def Kept (env : Env) (db : DbImpl) : Call → Prop
  | .put key value _ => key.IsCStr ∧
      (key.bytes ≠ [] → value.bytes ≠ [] → NulFree value.bytes →
        value.IsCStr ∧ ∀ w ∈ db.cache.cached env.hashFn key.bytes, w = value.bytes)
  | .delete key _ => key.IsCStr
  | .get _ _ => True

instance (env : Env) (db : DbImpl) : DecidablePred (Kept env db)
  | .put _ _ _ => instDecidableAnd
  | .delete _ _ => inferInstanceAs (Decidable (StringView.IsCStr _))
  | .get _ _ => .isTrue trivial

/-- **The coherence invariant**: where the memtable or the cache holds a value of a key, it is the
newest one. -/
structure Coherent (env : Env) (h : List (Call × Reply)) (db : DbImpl) : Prop where
  wf : db.cache.WF
  table : ∃ m, db.memTable.Holds m ∧
    ∀ k v, Newest h k v → ∀ w, m.lookup k = some w → w = v
  cache : ∀ k v, Newest h k v → ∀ w, db.cache.cached env.hashFn k = some w → w = v

variable {h : List (Call × Reply)} {status : DBStatus}

theorem coherent_new (options : Options) (wal : Bytes) (disk : Disk) :
    Coherent env [] (new options wal disk) where
  wf := Cache.wf_new _
  table := ⟨_, MemTable.holds_new, by simp⟩
  cache _ _ _ _ hw := by simp [new, Cache.cached_new] at hw

/-! What a call does to the newest value of a key. -/

section Newest

variable {k v : Bytes} {key value : StringView} {chance : Chance} {r : Reply} {ret : Option Bytes}

theorem newest_put_self (hn : Newest (h ++ [(.put key value chance, r)]) key.bytes v) :
    v = value.bytes := by
  have hlast := hn.2.2
  rw [lastWrite_append, writeOf, if_pos rfl, Option.some_or] at hlast
  exact (Option.some.inj (congrArg Write.value (Option.some.inj hlast))).symm

theorem newest_put_ne (hne : k ≠ key.bytes)
    (hn : Newest (h ++ [(.put key value chance, r)]) k v) : Newest h k v := by
  simpa [Newest, lastWrite_append, writeOf, Ne.symm hne] using hn

theorem newest_delete (hn : Newest (h ++ [(.delete key chance, r)]) k v) :
    k ≠ key.bytes ∧ Newest h k v := by
  by_cases hk : key.bytes = k
  · have hlast := hn.2.2
    simp [lastWrite_append, writeOf, hk] at hlast
  · exact ⟨Ne.symm hk, by simpa [Newest, lastWrite_append, writeOf, hk] using hn⟩

theorem newest_get (hn : Newest (h ++ [(.get key ret, r)]) k v) : Newest h k v := by
  simpa [Newest, lastWrite_append, writeOf] using hn

end Newest

/-! What a write does to the two stores. -/

section Stores

variable {key value : StringView} {chance : Chance}

/-- A memtable that holds a map, or nothing after it was turned into a table, holds no more than
the map. -/
theorem holds_sub {t : MemTable} (ht : t.Holds m ∨ t.Holds .empty) :
    ∃ m', t.Holds m' ∧ ∀ k w, m'.lookup k = some w → m.lookup k = some w := by
  rcases ht with ht | ht
  · exact ⟨_, ht, fun _ _ hw => hw⟩
  · exact ⟨_, ht, fun _ _ hw => by cases hw⟩

/-- After a `Put` the cache holds what it held, and perhaps the value that was put. -/
theorem PutDone.cached (hwf : db.cache.WF) (hdone : PutDone env db key value chance status db') :
    db'.cache.WF ∧ ∀ k w, db'.cache.cached env.hashFn k = some w →
      db.cache.cached env.hashFn k = some w ∨ k = key.bytes ∧ w = value.bytes := by
  rcases hdone.outcome with ⟨-, -, hsame⟩ | ⟨-, -, hrun⟩
  · exact ⟨hsame ▸ hwf, fun k w hw => Or.inl (hsame ▸ hw)⟩
  · obtain ⟨cache, hrun', hwf', hcached⟩ :=
      Cache.insert_spec env.hashFn hwf key.bytes value.bytes
    obtain rfl : cache = db'.cache := Except.ok.inj (hrun'.symm.trans hrun)
    refine ⟨hwf', fun k w hw => ?_⟩
    rcases hcached k w hw with hold | ⟨rfl, rfl, -⟩
    · exact Or.inl hold
    · exact Or.inr ⟨rfl, rfl⟩

/-- After a `Delete` the cache holds what it held under the other keys. -/
theorem DeleteDone.cached (hwf : db.cache.WF) (hdone : DeleteDone env db key chance db') :
    db'.cache.WF ∧ ∀ k w, db'.cache.cached env.hashFn k = some w →
      k ≠ key.cstr ∧ db.cache.cached env.hashFn k = some w := by
  obtain ⟨cache, hrun, hwf', hcached⟩ := Cache.erase_spec env.hashFn hwf key.cstr
  obtain rfl : cache = db'.cache := Except.ok.inj (hrun.symm.trans hdone.cache)
  refine ⟨hwf', fun k w hw => ?_⟩
  rw [hcached] at hw
  by_cases hk : k = key.cstr
  · simp [hk] at hw
  · exact ⟨hk, by simpa [hk] using hw⟩

end Stores

/-! The invariant is kept by each kind of call. -/

section Step

variable {key value : StringView} {chance : Chance} {ret : Option Bytes}

theorem Coherent.put (hi : Coherent env h db) (hkept : Kept env db (.put key value chance))
    (hdone : PutDone env db key value chance status db') :
    Coherent env (h ++ [(.put key value chance, status, ret)]) db' := by
  obtain ⟨hkey, hvalue⟩ := hkept
  obtain ⟨m, hm, htable⟩ := hi.table
  obtain ⟨m', hm', hlookup⟩ := holds_sub (hdone.table m hm)
  obtain ⟨hwf, hcached⟩ := hdone.cached hi.wf
  rw [StringView.cstr_of_isCStr hkey] at hlookup
  refine ⟨hwf, ⟨m', hm', fun k v hn w hw => ?_⟩, fun k v hn w hw => ?_⟩
  · have hput := hlookup k w hw
    by_cases hk : k = key.bytes
    · subst hk
      obtain rfl := newest_put_self hn
      rw [SortedMap.lookup_put_self,
        StringView.cstr_of_isCStr (hvalue hn.1.1 hn.2.1.1 hn.2.1.2).1] at hput
      exact (Option.some.inj hput).symm
    · rw [SortedMap.lookup_put_ne _ _ hk] at hput
      exact htable k v (newest_put_ne hk hn) w hput
  · by_cases hk : k = key.bytes
    · subst hk
      obtain rfl := newest_put_self hn
      rcases hcached _ w hw with hw | ⟨-, rfl⟩
      · exact (hvalue hn.1.1 hn.2.1.1 hn.2.1.2).2 w hw
      · rfl
    · rcases hcached k w hw with hw | ⟨heq, -⟩
      · exact hi.cache k v (newest_put_ne hk hn) w hw
      · exact absurd heq hk

theorem Coherent.delete (hi : Coherent env h db) (hkey : key.IsCStr)
    (hdone : DeleteDone env db key chance db') :
    Coherent env (h ++ [(.delete key chance, status, ret)]) db' := by
  obtain ⟨m, hm, htable⟩ := hi.table
  obtain ⟨m', hm', hlookup⟩ := holds_sub (hdone.table m hm)
  obtain ⟨hwf, hcached⟩ := hdone.cached hi.wf
  rw [StringView.cstr_of_isCStr hkey] at hlookup
  refine ⟨hwf, ⟨m', hm', fun k v hn w hw => ?_⟩, fun k v hn w hw => ?_⟩
  · obtain ⟨hk, hn⟩ := newest_delete hn
    have hput := hlookup k w hw
    rw [SortedMap.lookup_put_ne _ _ hk] at hput
    exact htable k v hn w hput
  · exact hi.cache k v (newest_delete hn).2 w (hcached k w hw).2

theorem Coherent.get {r : Reply} (hi : Coherent env h db) (hlooked : Looked env db db') :
    Coherent env (h ++ [(.get key ret, r)]) db' := by
  obtain ⟨m, hm, htable⟩ := hi.table
  exact ⟨hlooked.wf, ⟨m, hlooked.memTable ▸ hm, fun k v hn => htable k v (newest_get hn)⟩,
    fun k v hn w hw => hi.cache k v (newest_get hn) w ((hlooked.cached k).symm.trans hw)⟩

/-- A `Delete` of the empty key changes nothing, and no newest value. -/
theorem Coherent.skip (hi : Coherent env h db) :
    Coherent env (h ++ [(.delete key chance, status, ret)]) db := by
  obtain ⟨m, hm, htable⟩ := hi.table
  exact ⟨hi.wf, ⟨m, hm, fun k v hn => htable k v (newest_delete hn).2⟩,
    fun k v hn => hi.cache k v (newest_delete hn).2⟩

end Step

/-- **The step lemma of coherence.** -/
theorem Coherent.step {c : Call} {r : Reply} (hi : Coherent env h db) (hkept : Kept env db c)
    (hstep : db.step env c = .ok (db', r)) : Coherent env (h ++ [(c, r)]) db' := by
  cases c with
  | put key value chance =>
    obtain ⟨⟨status, db₁⟩, hrun, heq⟩ := bind_eq_ok.mp hstep
    obtain ⟨rfl, rfl⟩ := Prod.mk.inj (Except.ok.inj heq)
    exact hi.put hkept (put_eq_ok hrun)
  | delete key chance =>
    obtain ⟨⟨status, db₁⟩, hrun, heq⟩ := bind_eq_ok.mp hstep
    obtain ⟨rfl, rfl⟩ := Prod.mk.inj (Except.ok.inj heq)
    rcases delete_eq_ok hrun with ⟨-, -, rfl⟩ | ⟨-, -, hdone⟩
    · exact hi.skip
    · exact hi.delete hkept hdone
  | get key ret =>
    obtain ⟨⟨status, out, db₁⟩, hrun, heq⟩ := bind_eq_ok.mp hstep
    obtain ⟨rfl, rfl⟩ := Prod.mk.inj (Except.ok.inj heq)
    obtain ⟨m, hm, -⟩ := hi.table
    exact hi.get (get_eq_ok hi.wf hm hrun).1

/-! ## Reading the latest write, along runs -/

section Runs

variable {options : Options} {wal : Bytes} {disk : Disk} {calls : List Call} {rs : List Reply}

theorem coherent_of_run (hkept : Along (DbImpl.step env) (Kept env) (new options wal disk) calls)
    (hrun : run env options wal disk calls = .ok (db, rs)) :
    Coherent env (calls.zip rs) db :=
  run_history (DbImpl.step env) (fun _ _ _ _ _ hi hc hs => Coherent.step hi hc hs) calls [] _ db rs
    (coherent_new options wal disk) hkept hrun

/-- **`Get` returns the latest write of a buffered key**: after a run whose writes are guarded, the
newest value of a key is returned exactly when the key is in the cache or in the memtable. -/
theorem get_newest_of_kept
    (hkept : Along (DbImpl.step env) (Kept env) (new options wal disk) calls)
    (hrun : run env options wal disk calls = .ok (db, rs)) {key : StringView} (hkey : key.IsCStr)
    {v : Bytes} (hnew : Newest (calls.zip rs) key.bytes v) (ret : Bytes) :
    (∃ db', db.get env key (some ret) = .ok (.success, some v, db')) ↔
      db.cache.contains env.hashFn key.bytes = true ∨ db.memTable.contains key = .ok true := by
  have hi := coherent_of_run hkept hrun
  obtain ⟨m, hm, htable⟩ := hi.table
  have hcstr := StringView.cstr_of_isCStr hkey
  obtain ⟨hfound, hmissing⟩ := get_spec env hi.wf hm hnew.1.1 ret
  have hbuffered : buffered env db m key.cstr ≠ none ↔ _ := buffered_ne_none_iff hi.wf hm
  rw [hcstr] at hfound hmissing hbuffered
  rw [← hbuffered]
  constructor
  · rintro ⟨db', hget⟩ hb
    exact hmissing hb _ hget
  · intro hb
    obtain ⟨w, hw⟩ := Option.ne_none_iff_exists'.mp hb
    -- whichever store answers, it holds the newest value
    obtain rfl : w = v := by
      rcases Option.or_eq_some_iff.mp hw with hc | ⟨-, hl⟩
      · exact hi.cache _ v hnew w hc
      · exact htable _ v hnew w hl
    obtain ⟨db', hget, -⟩ := hfound w hw
    exact ⟨db', hget⟩

/-- Two keys are put, and the first is deleted. -/
def erased : List Call :=
  [.put (.ofBytes [107]) (.ofBytes [97]) .quiet, .put (.ofBytes [108]) (.ofBytes [99]) .quiet,
    .delete (.ofBytes [107]) .quiet]

/-- And it is put again. -/
def restored : List Call := erased ++ [.put (.ofBytes [107]) (.ofBytes [98]) .quiet]

/-- The value of a key that is put, deleted and put again. -/
theorem get_newest_of_kept_restored :
    ∃ db rs, run Env.plain {} [] (fun _ => none) restored = .ok (db, rs) ∧
      ∃ db', db.get Env.plain (.ofBytes [107]) (some []) = .ok (.success, some [98], db') := by
  have hkept : Along (step Env.plain) (Kept Env.plain) (new {} [] fun _ => none) restored := by decide
  refine ⟨_, List.replicate 4 (.success, none), rfl, ?_⟩
  exact (get_newest_of_kept hkept rfl (by decide)
    ⟨⟨by decide, by decide⟩, ⟨by decide, by decide⟩, rfl⟩ []).mpr (Or.inl rfl)

/-- In every run, `Get` returns the value that was last put under its key, successfully. -/
def ReadsLatest : Prop :=
  ∀ (env : Env) (options : Options) (wal : Bytes) (disk : Disk) (calls : List Call) (db : DbImpl)
    (rs : List Reply) (key : StringView) (v ret : Bytes), key.IsCStr →
    run env options wal disk calls = .ok (db, rs) → Newest (calls.zip rs) key.bytes v →
    ∃ db', db.get env key (some ret) = .ok (.success, some v, db')

/-- Two values of one key, one after the other. -/
def overwrite : List Call :=
  [.put (.ofBytes [107]) (.ofBytes [97]) .quiet, .put (.ofBytes [107]) (.ofBytes [98]) .quiet]

/-- **An overwritten value is still returned**: `insert` of a cached key leaves the cache as it
was. -/
theorem not_readsLatest : ¬ ReadsLatest := by
  intro h
  obtain ⟨db, hrun⟩ : ∃ db, run Env.plain {} [] (fun _ => none) overwrite =
    .ok (db, [(.success, none), (.success, none)]) := ⟨_, rfl⟩
  obtain ⟨db', hget⟩ := h Env.plain {} [] (fun _ => none) overwrite db _ (.ofBytes [107]) [98] []
    (by decide) hrun ⟨⟨by decide, by decide⟩, ⟨by decide, by decide⟩, rfl⟩
  have hold : (run Env.plain {} [] (fun _ => none) overwrite).bind (fun r =>
      (r.1.get Env.plain (.ofBytes [107]) (some [])).map fun g => g.2.1) = .ok (some [97]) := rfl
  rw [hrun] at hold
  simp only [Except.bind] at hold
  rw [hget] at hold
  simp [Except.map] at hold

/-! ## Reading a deleted key -/

/-- The shape of every state of a run. -/
structure Shaped (db : DbImpl) : Prop where
  wf : db.cache.WF
  table : ∃ m, db.memTable.Holds m

theorem shaped_new (options : Options) (wal : Bytes) (disk : Disk) :
    Shaped (new options wal disk) where
  wf := Cache.wf_new _
  table := ⟨_, MemTable.holds_new⟩

/-- `Put` keeps the shape. -/
theorem Shaped.put {key value : StringView} {chance : Chance} (hs : Shaped db)
    (hput : db.put env key value chance = .ok (status, db')) : Shaped db' := by
  obtain ⟨m, hm⟩ := hs.table
  obtain ⟨m', hm', -⟩ := holds_sub ((put_eq_ok hput).table m hm)
  exact ⟨((put_eq_ok hput).cached hs.wf).1, m', hm'⟩

/-- `Delete` keeps the shape. -/
theorem Shaped.delete {key : StringView} {chance : Chance} (hs : Shaped db)
    (hdelete : db.delete env key chance = .ok (status, db')) : Shaped db' := by
  obtain ⟨m, hm⟩ := hs.table
  rcases delete_eq_ok hdelete with ⟨-, -, rfl⟩ | ⟨-, -, hdone⟩
  · exact hs
  · obtain ⟨m', hm', -⟩ := holds_sub (hdone.table m hm)
    exact ⟨(hdone.cached hs.wf).1, m', hm'⟩

/-- Every call keeps the shape. -/
theorem Shaped.step {c : Call} {r : Reply} (hs : Shaped db)
    (hstep : db.step env c = .ok (db', r)) : Shaped db' := by
  cases c with
  | put key value chance =>
    obtain ⟨⟨status, db₁⟩, hput, heq⟩ := bind_eq_ok.mp hstep
    obtain ⟨rfl, -⟩ := Prod.mk.inj (Except.ok.inj heq)
    exact hs.put hput
  | delete key chance =>
    obtain ⟨⟨status, db₁⟩, hdelete, heq⟩ := bind_eq_ok.mp hstep
    obtain ⟨rfl, -⟩ := Prod.mk.inj (Except.ok.inj heq)
    exact hs.delete hdelete
  | get key ret =>
    obtain ⟨⟨status, out, db₁⟩, hget, heq⟩ := bind_eq_ok.mp hstep
    obtain ⟨rfl, -⟩ := Prod.mk.inj (Except.ok.inj heq)
    obtain ⟨m, hm⟩ := hs.table
    obtain ⟨hlooked, -⟩ := get_eq_ok hs.wf hm hget
    exact ⟨hlooked.wf, m, hlooked.memTable ▸ hm⟩

/-- **Every state of a run is in shape.** -/
theorem shaped_of_run (hrun : run env options wal disk calls = .ok (db, rs)) : Shaped db :=
  run_invariant (DbImpl.step env) (fun _ _ _ _ hs hstep => hs.step hstep) calls _ db rs
    (shaped_new options wal disk) hrun

/-- **`Get` never returns `NotFound`**, after no run and for no key: a tombstone is returned as an
empty value, and a key that is nowhere makes `Parse` fault. -/
theorem get_ne_notFound (hrun : run env options wal disk calls = .ok (db, rs)) (key : StringView)
    (ret : Bytes) : ¬ ∃ out db', db.get env key (some ret) = .ok (.notFound, out, db') := by
  rintro ⟨out, db', hget⟩
  obtain ⟨hwf, m, hm⟩ := shaped_of_run hrun
  rcases (get_eq_ok hwf hm hget).2 with h | h <;> cases h

/-- A deleted key, whose tombstone has gone to a table file. -/
theorem get_ne_notFound_flushed :
    ∃ db rs, run Env.plain { memTableMaxSize := 1 } [] (fun _ => none) erased = .ok (db, rs) ∧
      db.memTable = MemTable.new ∧
      ¬ ∃ out db', db.get Env.plain (.ofBytes [107]) (some []) = .ok (.notFound, out, db') := by
  obtain ⟨db, hrun, htable⟩ : ∃ db,
      run Env.plain { memTableMaxSize := 1 } [] (fun _ => none) erased =
        .ok (db, List.replicate 3 (.success, none)) ∧ db.memTable = MemTable.new := ⟨_, rfl, rfl⟩
  exact ⟨db, _, hrun, htable, get_ne_notFound hrun (.ofBytes [107]) []⟩

/-- The last write of a key is a `Delete` that succeeded, or it has no write. -/
def Absent (h : List (Call × Reply)) (k : Bytes) : Prop :=
  lastWrite h k = none ∨ lastWrite h k = some ⟨none, .success⟩

/-- After every run, `Get` of an absent key returns `NotFound`. -/
def DeletesVisible : Prop :=
  ∀ (env : Env) (options : Options) (wal : Bytes) (disk : Disk) (calls : List Call) (db : DbImpl)
    (rs : List Reply) (key : StringView) (ret : Bytes), key.IsCStr → key.bytes ≠ [] →
    run env options wal disk calls = .ok (db, rs) → Absent (calls.zip rs) key.bytes →
    ∃ out db', db.get env key (some ret) = .ok (.notFound, out, db')

/-- A key put and deleted. -/
def putDelete : List Call :=
  [.put (.ofBytes [107]) (.ofBytes [97]) .quiet, .delete (.ofBytes [107]) .quiet]

/-- **The tombstone is returned as a value.** -/
theorem not_deletesVisible : ¬ DeletesVisible := by
  intro h
  obtain ⟨db, hrun⟩ : ∃ db, run Env.plain {} [] (fun _ => none) putDelete =
    .ok (db, [(.success, none), (.success, none)]) := ⟨_, rfl⟩
  obtain ⟨out, db', hget⟩ := h Env.plain {} [] (fun _ => none) putDelete db _ (.ofBytes [107]) []
    (by decide) (by decide) hrun (Or.inr rfl)
  have hdeleted : (run Env.plain {} [] (fun _ => none) putDelete).bind (fun r =>
      (r.1.get Env.plain (.ofBytes [107]) (some [])).map fun g => g.1) = .ok .success := rfl
  rw [hrun] at hdeleted
  simp only [Except.bind] at hdeleted
  rw [hget] at hdeleted
  simp [Except.map] at hdeleted

end Runs

end SmallKV.DbImpl
