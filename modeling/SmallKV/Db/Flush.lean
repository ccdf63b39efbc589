import SmallKV.Db.Reads

/-!
# Db/Flush — reading across a flush

`MemTableToSST` writes the memtable to a numbered file under the storage directory, and the
memtable is replaced by an empty one.  `Get` of a key that is not cached then turns to the table
file, which never answers: no flush is transparent to the keys outside the cache
(`transparent_rotate_iff`).
-/

namespace SmallKV.DbImpl

variable {env : Env} {db db₁ : DbImpl} {options : Options} {wal : Bytes} {disk : Disk}
  {calls : List Call} {rs : List Reply}

/-- `Get` of the key returns in both states, with the same status and the same value. -/
def Transparent (env : Env) (db db₁ : DbImpl) (key : StringView) (ret : Bytes) : Prop :=
  ∃ status out, (∃ db', db.get env key (some ret) = .ok (status, out, db')) ∧
    ∃ db', db₁.get env key (some ret) = .ok (status, out, db')

/-- The empty key is refused in every state. -/
theorem get_nil {key : StringView} (hkey : key.bytes = []) (ret : Bytes) :
    db.get env key (some ret) = .ok (.invalidArgs, some ret, db) := by
  have hempty : key.empty = true := by simp [StringView.empty, hkey]
  simp [get, hempty]

/-- **A flush is transparent to the cached keys only**, and to the empty one, which `Get` refuses
anyway. -/
theorem transparent_rotate_iff (hrun : run env options wal disk calls = .ok (db, rs))
    (hrotate : db.rotate env = .ok db₁) (key : StringView) (ret : Bytes) :
    Transparent env db db₁ key ret ↔
      key.bytes = [] ∨ db.cache.contains env.hashFn key.cstr = true := by
  obtain ⟨hwf, m, hm⟩ := shaped_of_run hrun
  obtain ⟨htable, -, hcache, -⟩ := rotate_eq_ok hrotate
  have hm₁ : db₁.memTable.Holds .empty := htable ▸ MemTable.holds_new
  have hwf₁ : db₁.cache.WF := hcache ▸ hwf
  rw [Cache.contains_iff env.hashFn hwf]
  by_cases hkey : key.bytes = []
  · exact iff_of_true ⟨_, _, ⟨_, get_nil hkey ret⟩, ⟨_, get_nil hkey ret⟩⟩ (Or.inl hkey)
  · obtain ⟨hfound, -⟩ := get_spec env hwf hm hkey ret
    obtain ⟨hfound₁, hmissing₁⟩ := get_spec env hwf₁ hm₁ hkey ret
    cases hv : db.cache.cached env.hashFn key.cstr with
    | some v =>
      -- the cache answers before and after
      obtain ⟨db', hget, -⟩ := hfound v (by simp [buffered, hv])
      obtain ⟨db₁', hget₁, -⟩ := hfound₁ v (by simp [buffered, hcache, hv])
      exact iff_of_true ⟨_, _, ⟨db', hget⟩, ⟨db₁', hget₁⟩⟩ (Or.inr ⟨v, rfl⟩)
    | none =>
      refine iff_of_false ?_ (by simpa using hkey)
      rintro ⟨status, out, -, db₁', hget₁⟩
      exact hmissing₁ (by simp [buffered, hcache, hv]) _ hget₁

/-- Two keys in one shard of a cache for one entry: the second evicts the first. -/
def evicted : List Call :=
  [.put (.ofBytes [107]) (.ofBytes [97]) .quiet, .put (.ofBytes [108]) (.ofBytes [98]) .quiet]

/-- The run of the two, and a flush: the first key is then looked for in a file under another path
than the one written. -/
theorem rotate_evicted :
    ∃ db db₁, run Env.plain { cacheSize := 1 } [] (fun _ => none) evicted =
      .ok (db, [(.success, none), (.success, none)]) ∧ db.rotate Env.plain = .ok db₁ ∧
      db.cache.contains Env.plain.hashFn [108] = true ∧
      db.cache.contains Env.plain.hashFn [107] = false ∧
      (db₁.get Env.plain (.ofBytes [107]) (some [])).map (fun r => r.1) = .error .assertion :=
  ⟨_, _, rfl, rfl, rfl, rfl, rfl⟩

/-- The second of the two keys is cached, so it is read as before. -/
theorem transparent_rotate_iff_two :
    ∃ db rs db₁, run Env.plain { cacheSize := 1 } [] (fun _ => none) evicted = .ok (db, rs) ∧
      db.rotate Env.plain = .ok db₁ ∧ Transparent Env.plain db db₁ (.ofBytes [108]) [] := by
  obtain ⟨db, db₁, hrun, hrotate, hcached, -⟩ := rotate_evicted
  exact ⟨db, _, db₁, hrun, hrotate,
    (transparent_rotate_iff hrun hrotate (.ofBytes [108]) []).mpr (Or.inr hcached)⟩

/-- In every state of a run, a flush is transparent to the keys that are not cached and whose
newest value is not empty. -/
def FlushTransparent : Prop :=
  ∀ (env : Env) (options : Options) (wal : Bytes) (disk : Disk) (calls : List Call)
    (db db₁ : DbImpl) (rs : List Reply) (key : StringView) (v ret : Bytes) (status : DBStatus),
    env.convertToL1SST = convertEntries env.sizing →
    run env options wal disk calls = .ok (db, rs) → db.rotate env = .ok db₁ →
    db.cache.contains env.hashFn key.cstr = false →
    lastWrite (calls.zip rs) key.bytes = some ⟨some v, status⟩ → v ≠ [] →
    Transparent env db db₁ key ret

/-- **A key that only the memtable holds is not read after the flush.** -/
theorem not_flushTransparent : ¬ FlushTransparent := by
  intro h
  obtain ⟨db, db₁, hrun, hrotate, -, hcached, hlost⟩ := rotate_evicted
  obtain ⟨status, out, -, db', hget⟩ := h Env.plain _ _ _ evicted db db₁ _ (.ofBytes [107]) [97] []
    .success rfl hrun hrotate hcached rfl (by decide)
  rw [hget] at hlost
  cases hlost

end SmallKV.DbImpl
