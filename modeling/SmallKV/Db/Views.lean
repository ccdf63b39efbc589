import SmallKV.Db.Reads
import Mathlib.Data.Set.Insert

/-!
# Db/Views — which bytes of a view the operations act on

The memtable, and the cache under `Delete` and `Get`, are given the `data()` of a view, where the
cache under `Put` is given its bytes.  The operations act on the bytes of all the views they are
given, and keep different keys apart, exactly when these are C strings (`faithfulViews_iff`).
-/

namespace SmallKV.DbImpl

/-- The memtable, and the cache under `Put`, `Delete` and `Get`, act on the bytes of the two
views. -/
structure ActsOnBytes (key value : StringView) : Prop where
  add : ∀ (t : MemTable) (m : SortedMap Bytes Bytes) (level : Level), t.Holds m →
    ∃ t', t.add key value level = .ok t' ∧ t'.Holds (m.insertNew key.bytes value.bytes)
  update : ∀ (t : MemTable) (m : SortedMap Bytes Bytes) (level : Level), t.Holds m →
    ∃ t', t.update key value level = .ok t' ∧ t'.Holds (m.put key.bytes value.bytes)
  delete : ∀ (t : MemTable) (m : SortedMap Bytes Bytes) (level : Level), t.Holds m →
    ∃ t', t.delete key level = .ok t' ∧ t'.Holds (m.put key.bytes [])
  contains : ∀ (t : MemTable) (m : SortedMap Bytes Bytes), t.Holds m →
    t.contains key = .ok (m.contains key.bytes)
  get : ∀ (t : MemTable) (m : SortedMap Bytes Bytes), t.Holds m →
    t.get key = .ok (m.lookup key.bytes)
  cachePut : ∀ (env : Env) (db db' : DbImpl) (chance : Chance),
    db.put env key value chance = .ok (.success, db') →
      db.cache.insert env.hashFn key.bytes value.bytes = .ok db'.cache
  cacheDelete : ∀ (env : Env) (db db' : DbImpl) (chance : Chance),
    db.delete env key chance = .ok (.success, db') →
      db.cache.erase env.hashFn key.bytes = .ok db'.cache
  cacheGet : ∀ (env : Env) (db : DbImpl) (m : SortedMap Bytes Bytes) (ret v : Bytes),
    db.cache.WF → db.memTable.Holds m → key.bytes ≠ [] →
      ((∃ db', db.get env key (some ret) = .ok (.success, some v, db')) ↔
        buffered env db m key.bytes = some v)

/-- A write of one key leaves the entries of the other alone, in the memtable and in the cache. -/
structure Apart (key value key' : StringView) : Prop where
  table : ∀ (t t' : MemTable) (m : SortedMap Bytes Bytes) (level : Level), t.Holds m →
    t.update key value level = .ok t' → t'.get key' = t.get key'
  cache : ∀ (env : Env) (db db' : DbImpl) (chance : Chance), db.cache.WF →
    db.delete env key chance = .ok (.success, db') →
      db'.cache.cached env.hashFn key'.bytes = db.cache.cached env.hashFn key'.bytes

/-- The operations act on the bytes of the views they are given, and keep different keys apart. -/
structure FaithfulViews (views : Set (StringView × StringView)) : Prop where
  acts : ∀ kv ∈ views, ActsOnBytes kv.1 kv.2
  apart : ∀ kv ∈ views, ∀ kv' ∈ views, kv.1.bytes ≠ kv'.1.bytes → Apart kv.1 kv.2 kv'.1

variable {key value key' : StringView}

/-- **C strings are acted on as they are.** -/
theorem actsOnBytes_of_isCStr (hkey : key.IsCStr) (hvalue : value.IsCStr) :
    ActsOnBytes key value := by
  have hk := StringView.cstr_of_isCStr hkey
  have hv := StringView.cstr_of_isCStr hvalue
  refine ⟨fun t m level h => ?_, fun t m level h => ?_, fun t m level h => ?_, fun t m h => ?_,
    fun t m h => ?_, fun env db db' chance h => ?_, fun env db db' chance h => ?_,
    fun env db m ret v hwf hm hne => ?_⟩
  · simpa only [hk, hv] using MemTable.add_spec key value level h
  · simpa only [hk, hv] using MemTable.update_spec key value level h
  · simpa only [hk] using MemTable.delete_spec key level h
  · simpa only [hk] using MemTable.contains_spec key h
  · simpa only [hk] using MemTable.get_spec key h
  · rcases (put_eq_ok h).outcome with ⟨-, hstatus, -⟩ | ⟨-, -, hinsert⟩
    · cases hstatus
    · exact hinsert
  · rcases delete_eq_ok h with ⟨-, hstatus, -⟩ | ⟨-, -, hdone⟩
    · cases hstatus
    · exact hk ▸ hdone.cache
  · obtain ⟨hfound, hmissing⟩ := get_spec env hwf hm hne ret
    rw [hk] at hfound hmissing
    constructor
    · rintro ⟨db', hget⟩
      cases hb : buffered env db m key.bytes with
      | none => exact absurd hget (hmissing hb _)
      | some w =>
        obtain ⟨db₁, hget₁, -⟩ := hfound w hb
        obtain ⟨rfl, -⟩ : w = v ∧ db₁ = db' := by simpa using hget₁.symm.trans hget
        rfl
    · intro hb
      obtain ⟨db', hget, -⟩ := hfound v hb
      exact ⟨db', hget⟩

/-- A view that is acted on as it is is a C string: `Add` into an empty memtable tells. -/
theorem isCStr_of_actsOnBytes (h : ActsOnBytes key value) : key.IsCStr ∧ value.IsCStr := by
  have hnone : ∀ k : Bytes, (SortedMap.empty : SortedMap Bytes Bytes).lookup k = none :=
    SortedMap.lookup_empty
  obtain ⟨t, ht, hholds⟩ := h.add .new .empty ⟨1, by decide⟩ MemTable.holds_new
  obtain ⟨t', ht', hholds'⟩ := MemTable.add_spec key value ⟨1, by decide⟩ MemTable.holds_new
  obtain rfl : t = t' := Except.ok.inj (ht.symm.trans ht')
  have hmaps := congrArg SortedMap.entries (hholds.unique hholds')
  rw [SortedMap.insertNew_of_lookup_none _ _ (hnone _),
    SortedMap.insertNew_of_lookup_none _ _ (hnone _)] at hmaps
  obtain ⟨hk, hv⟩ : key.bytes = key.cstr ∧ value.bytes = value.cstr := by
    simpa [SortedMap.put, SortedMap.empty] using hmaps
  exact ⟨StringView.cstr_eq_bytes_iff.mp hk.symm, StringView.cstr_eq_bytes_iff.mp hv.symm⟩

/-- **Different C strings are kept apart.** -/
theorem apart_of_isCStr (hkey : key.IsCStr) (hkey' : key'.IsCStr) (hne : key.bytes ≠ key'.bytes) :
    Apart key value key' := by
  have hk := StringView.cstr_of_isCStr hkey
  have hk' := StringView.cstr_of_isCStr hkey'
  refine ⟨fun t t' m level h hrun => ?_, fun env db db' chance hwf h => ?_⟩
  · obtain ⟨t₁, hrun₁, h₁⟩ := MemTable.update_spec key value level h
    obtain rfl : t₁ = t' := Except.ok.inj (hrun₁.symm.trans hrun)
    rw [MemTable.get_spec key' h₁, MemTable.get_spec key' h, hk, hk',
      SortedMap.lookup_put_ne _ _ hne.symm]
  · rcases delete_eq_ok h with ⟨-, hstatus, -⟩ | ⟨-, -, hdone⟩
    · cases hstatus
    · obtain ⟨cache, hrun, -, hcached⟩ := Cache.erase_spec env.hashFn hwf key.cstr
      obtain rfl : cache = db'.cache := Except.ok.inj (hrun.symm.trans hdone.cache)
      rw [hcached, hk, if_neg hne.symm]

/-- **The operations act on the bytes of their views exactly when these are C strings.** -/
theorem faithfulViews_iff (views : Set (StringView × StringView)) :
    FaithfulViews views ↔ ∀ kv ∈ views, kv.1.IsCStr ∧ kv.2.IsCStr := by
  constructor
  · exact fun h kv hkv => isCStr_of_actsOnBytes (h.acts kv hkv)
  · exact fun h => ⟨fun kv hkv => actsOnBytes_of_isCStr (h kv hkv).1 (h kv hkv).2,
      fun kv hkv kv' hkv' => apart_of_isCStr (h kv hkv).1 (h kv' hkv').1⟩

/-- The keys `a NUL b` and `a`, with their values. -/
def nulViews : Set (StringView × StringView) :=
  {(.ofBytes [97, 0, 98], .ofBytes [118]), (.ofBytes [97], .ofBytes [119])}

/-- **The two keys share an entry of the memtable.** -/
theorem not_faithfulViews_nul : ¬ FaithfulViews nulViews := by
  intro h
  have hne : (StringView.ofBytes [97, 0, 98]).bytes ≠ (StringView.ofBytes [97]).bytes := by decide
  have hapart := h.apart _ (Or.inl rfl) _ (Or.inr rfl) hne
  obtain ⟨t, hrun, hget⟩ : ∃ t, MemTable.new.update (.ofBytes [97, 0, 98]) (.ofBytes [118])
      ⟨1, by decide⟩ = .ok t ∧ t.get (.ofBytes [97]) = .ok (some [118]) := ⟨_, rfl, rfl⟩
  have hbefore : MemTable.new.get (.ofBytes [97]) = .ok none := rfl
  have hsame := hapart.table _ t _ _ MemTable.holds_new hrun
  rw [hget, hbefore] at hsame
  cases hsame

end SmallKV.DbImpl
