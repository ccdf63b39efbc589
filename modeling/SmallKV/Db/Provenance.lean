import SmallKV.Db.Reads

/-!
# Db/Provenance — where the values that `Get` returns come from

`Since` the last `Delete` of its key, some call has written the value under the key: this is so for
every entry of the memtable and of the cache, whatever the calls are (`Sourced`).  So it is so for
every value that a `Get` returns (`get_sourced`): none comes from another key, from the log or the
table files of an earlier session, or from before a `Delete`.
-/

namespace SmallKV.DbImpl

/-- The call writes the value under the key: a `Put` to the memtable or to the cache, or a `Delete`
its tombstone. -/
def Call.Wrote (k v : Bytes) : Call → Prop
  | .put key value _ => key.cstr = k ∧ value.cstr = v ∨ key.bytes = k ∧ value.bytes = v
  | .delete key _ => key.empty = false ∧ key.cstr = k ∧ v = []
  | .get _ _ => False

/-- The call is a `Delete` of the key. -/
def Call.Deleted (k : Bytes) : Call → Prop
  | .delete key _ => key.empty = false ∧ key.cstr = k
  | _ => False

/-- The value was written under the key, which was not deleted since. -/
def WrittenSince (h : List (Call × Reply)) (k v : Bytes) : Prop :=
  Since (fun e => ¬ e.1.Deleted k) (fun e => e.1.Wrote k v) h

variable {env : Env} {h : List (Call × Reply)} {db db' : DbImpl} {k v : Bytes} {c : Call} {r : Reply}

theorem writtenSince_of_wrote (hc : c.Wrote k v) : WrittenSince (h ++ [(c, r)]) k v :=
  since_append.mpr (Or.inl hc)

theorem WrittenSince.append (hs : WrittenSince h k v) (hc : ¬ c.Deleted k) :
    WrittenSince (h ++ [(c, r)]) k v :=
  since_append.mpr (Or.inr ⟨hs, hc⟩)

/-- **The invariant of provenance**: all entries of the memtable and of the cache were written under
their keys, which were not deleted since. -/
structure Sourced (env : Env) (h : List (Call × Reply)) (db : DbImpl) : Prop where
  wf : db.cache.WF
  table : ∃ m, db.memTable.Holds m ∧ ∀ k v, m.lookup k = some v → WrittenSince h k v
  cache : ∀ k v, db.cache.cached env.hashFn k = some v → WrittenSince h k v

theorem sourced_new (options : Options) (wal : Bytes) (disk : Disk) :
    Sourced env [] (new options wal disk) where
  wf := Cache.wf_new _
  table := ⟨_, MemTable.holds_new, fun _ _ hv => by cases hv⟩
  cache _ _ hv := by simp [new, Cache.cached_new] at hv

/-! The invariant is kept by each kind of call. -/

section Step

variable {key value : StringView} {chance : Chance} {status : DBStatus} {ret : Option Bytes}

/-- The memtable after a write of one key: the other entries have the source they had. -/
theorem Sourced.written (hi : Sourced env h db) {w : Bytes} (hwrote : c.Wrote key.cstr w)
    (hothers : ∀ k ≠ key.cstr, ¬ c.Deleted k)
    (htable : ∀ m, db.memTable.Holds m →
      db'.memTable.Holds (m.put key.cstr w) ∨ db'.memTable.Holds .empty) :
    ∃ m, db'.memTable.Holds m ∧
      ∀ k v, m.lookup k = some v → WrittenSince (h ++ [(c, r)]) k v := by
  obtain ⟨m, hm, hsource⟩ := hi.table
  obtain ⟨m', hm', hlookup⟩ := holds_sub (htable m hm)
  refine ⟨m', hm', fun k v hv => ?_⟩
  have hput := hlookup k v hv
  by_cases hk : k = key.cstr
  · subst hk
    rw [SortedMap.lookup_put_self] at hput
    exact writtenSince_of_wrote (Option.some.inj hput ▸ hwrote)
  · rw [SortedMap.lookup_put_ne _ _ hk] at hput
    exact (hsource k v hput).append (hothers k hk)

theorem Sourced.put (hi : Sourced env h db) (hdone : PutDone env db key value chance status db') :
    Sourced env (h ++ [(.put key value chance, r)]) db' := by
  obtain ⟨hwf, hcached⟩ := hdone.cached hi.wf
  refine ⟨hwf, hi.written (Or.inl ⟨rfl, rfl⟩) (fun _ _ hd => hd) hdone.table, fun k v hv => ?_⟩
  rcases hcached k v hv with hold | ⟨rfl, rfl⟩
  · exact (hi.cache k v hold).append fun hd => hd
  · exact writtenSince_of_wrote (Or.inr ⟨rfl, rfl⟩)

theorem Sourced.delete (hi : Sourced env h db) (hkey : key.empty = false)
    (hdone : DeleteDone env db key chance db') :
    Sourced env (h ++ [(.delete key chance, r)]) db' := by
  obtain ⟨hwf, hcached⟩ := hdone.cached hi.wf
  refine ⟨hwf, hi.written ⟨hkey, rfl, rfl⟩ (fun _ hk hd => hk hd.2.symm) hdone.table,
    fun k v hv => ?_⟩
  obtain ⟨hk, hold⟩ := hcached k v hv
  exact (hi.cache k v hold).append fun hd => hk hd.2.symm

/-- A call that deletes nothing and leaves the entries alone. -/
theorem Sourced.frame (hi : Sourced env h db) (hc : ∀ k, ¬ c.Deleted k)
    (htable : db'.memTable = db.memTable) (hwf : db'.cache.WF)
    (hcached : ∀ k, db'.cache.cached env.hashFn k = db.cache.cached env.hashFn k) :
    Sourced env (h ++ [(c, r)]) db' := by
  obtain ⟨m, hm, hsource⟩ := hi.table
  exact ⟨hwf, ⟨m, htable ▸ hm, fun k v hv => (hsource k v hv).append (hc k)⟩,
    fun k v hv => (hi.cache k v (hcached k ▸ hv)).append (hc k)⟩

end Step

/-- **The step lemma of provenance.** -/
theorem Sourced.step (hi : Sourced env h db) (hstep : db.step env c = .ok (db', r)) :
    Sourced env (h ++ [(c, r)]) db' := by
  cases c with
  | put key value chance =>
    obtain ⟨⟨status, db₁⟩, hrun, heq⟩ := bind_eq_ok.mp hstep
    obtain ⟨rfl, rfl⟩ := Prod.mk.inj (Except.ok.inj heq)
    exact hi.put (put_eq_ok hrun)
  | delete key chance =>
    obtain ⟨⟨status, db₁⟩, hrun, heq⟩ := bind_eq_ok.mp hstep
    obtain ⟨rfl, rfl⟩ := Prod.mk.inj (Except.ok.inj heq)
    rcases delete_eq_ok hrun with ⟨hkey, -, rfl⟩ | ⟨hkey, -, hdone⟩
    · exact hi.frame (fun k hd => by simp [Call.Deleted, StringView.empty, hkey] at hd) rfl hi.wf
        fun _ => rfl
    · exact hi.delete (by simpa [StringView.empty] using hkey) hdone
  | get key ret =>
    obtain ⟨⟨status, out, db₁⟩, hrun, heq⟩ := bind_eq_ok.mp hstep
    obtain ⟨rfl, rfl⟩ := Prod.mk.inj (Except.ok.inj heq)
    obtain ⟨m, hm, -⟩ := hi.table
    obtain ⟨hlooked, -⟩ := get_eq_ok hi.wf hm hrun
    exact hi.frame (fun _ hd => hd) hlooked.memTable hlooked.wf hlooked.cached

/-! ## What `Get` returns -/

/-- A `Get` with success returns the value of its key in the cache, or else in the memtable. -/
theorem buffered_of_get {m : SortedMap Bytes Bytes} (hwf : db.cache.WF) (hm : db.memTable.Holds m)
    {key : StringView} {ret out : Option Bytes}
    (hstep : db.step env (.get key ret) = .ok (db', .success, out)) :
    ∃ v, out = some v ∧ buffered env db m key.cstr = some v := by
  obtain ⟨⟨status, out, db₁⟩, hrun, heq⟩ := bind_eq_ok.mp hstep
  obtain ⟨rfl, hreply⟩ := Prod.mk.inj (Except.ok.inj heq)
  obtain ⟨rfl, rfl⟩ := Prod.mk.inj hreply
  cases ret with
  | none => simp [get] at hrun
  | some ret =>
    by_cases hk : key.bytes = []
    · simp [get, StringView.empty, hk] at hrun
    · obtain ⟨hfound, hmissing⟩ := get_spec env hwf hm hk ret
      cases hb : buffered env db m key.cstr with
      | none => exact absurd hrun (hmissing hb _)
      | some v =>
        obtain ⟨db₂, hget, -⟩ := hfound v hb
        obtain ⟨rfl, -⟩ : some v = out ∧ db₂ = db₁ := by simpa using hget.symm.trans hrun
        exact ⟨v, rfl, rfl⟩

theorem Sourced.get (hi : Sourced env h db) {key : StringView} {ret out : Option Bytes}
    (hstep : db.step env (.get key ret) = .ok (db', .success, out)) :
    ∃ v, out = some v ∧ WrittenSince h key.cstr v := by
  obtain ⟨m, hm, hsource⟩ := hi.table
  obtain ⟨v, hout, hv⟩ := buffered_of_get hi.wf hm hstep
  rcases Option.or_eq_some_iff.mp hv with hc | ⟨-, hl⟩
  · exact ⟨v, hout, hi.cache _ v hc⟩
  · exact ⟨v, hout, hsource _ v hl⟩

variable {options : Options} {wal : Bytes} {disk : Disk} {calls : List Call} {rs : List Reply}

/-- **The run lemma of provenance.** -/
theorem Sourced.run (hi : Sourced env h db)
    (hrun : runFrom (DbImpl.step env) db calls = .ok (db', rs)) :
    Sourced env (h ++ calls.zip rs) db' :=
  run_history (DbImpl.step env) (fun _ _ _ _ _ hi _ hs => Sourced.step hi hs) calls h db db' rs hi
    (along_of_forall _ (P := fun _ _ => True) (fun _ _ => trivial) _ _) hrun

/-- **Every value that is read was written.**  In every run, over whatever log and table files, a
value that a `Get` returns with success was written under its key by an earlier call of the run, and
the key was not deleted between the two. -/
theorem get_sourced (hrun : run env options wal disk calls = .ok (db, rs))
    {before after : List (Call × Reply)} {key : StringView} {ret : Option Bytes}
    (hget : calls.zip rs = before ++ (.get key ret, .success, some v) :: after) :
    WrittenSince before key.cstr v := by
  obtain ⟨db₁, db₂, hbefore, hstep⟩ := exists_step_of_zip (DbImpl.step env) hrun hget
  have hi := (sourced_new options wal disk).run hbefore
  rw [List.nil_append, ← List.zip_of_prod rfl rfl] at hi
  obtain ⟨w, hw, hsource⟩ := hi.get hstep
  exact Option.some.inj hw ▸ hsource

/-- A key that is written, deleted and read. -/
def tombstoned : List Call :=
  [.put (.ofBytes [107]) (.ofBytes [97]) .quiet, .delete (.ofBytes [107]) .quiet,
    .get (.ofBytes [107]) (some [])]

/-- The empty value that is read is the tombstone. -/
theorem get_sourced_tombstone :
    WrittenSince [(.put (.ofBytes [107]) (.ofBytes [97]) .quiet, .success, none),
      (.delete (.ofBytes [107]) .quiet, .success, none)] (StringView.ofBytes [107]).cstr [] := by
  obtain ⟨db, hrun⟩ : ∃ db, run Env.plain {} [] (fun _ => none) tombstoned =
    .ok (db, [(.success, none), (.success, none), (.success, some [])]) := ⟨_, rfl⟩
  exact get_sourced hrun (rfl : tombstoned.zip _ = [_, _] ++
    [(.get (.ofBytes [107]) (some []), DBStatus.success, some [])])

end SmallKV.DbImpl
