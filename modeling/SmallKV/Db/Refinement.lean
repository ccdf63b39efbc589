import SmallKV.Db.MemBound
import SmallKV.Db.Writes
import Mathlib.Algebra.Order.BigOperators.Group.List
import Mathlib.Tactic.Positivity

/-!
# Db/Refinement — a database as a map from keys to values

The abstract database is one map: `Put` and `Delete` write it, a deleted key has the empty value, and
`Get` looks its key up.  The concrete one answers like it as long as every call is `Proper`: a
nonempty value is replaced by another only after a `Delete`, a `Get` asks for a key that was
written, a payload can be logged, and the memtable has room.  A run of proper calls returns, with
the answers of the map (`run_refines`).
-/

namespace SmallKV.DbImpl

/-! ## The abstract database -/

/-- One call on the map. -/
def spec (m : SortedMap Bytes Bytes) : Call → SortedMap Bytes Bytes × Reply
  | .put key value _ =>
      (m.put key.cstr value.cstr, if key.empty || value.empty then .invalidArgs else .success, none)
  | .delete key _ =>
      if key.empty then (m, .invalidArgs, none) else (m.put key.cstr [], .success, none)
  | .get key ret =>
      (m, match ret with
        | none => (.invalidArgs, none)
        | some old =>
            if key.empty then (.invalidArgs, some old)
            else match m.lookup key.cstr with
              | none => (.notFound, some old)
              | some v => (.success, some v))

/-- A payload that `AddLog` can log. -/
def Loggable (key value stack : Bytes) : Prop :=
  value.length < uint32Max ∧ 0 ≤ toInt32 (payload key value stack).length

instance (key value stack : Bytes) : Decidable (Loggable key value stack) := instDecidableAnd

/-- **A call that the database answers like the map**, whose memtable has the limit `limit`. -/
def Proper (limit : ℕ) (m : SortedMap Bytes Bytes) : Call → Prop
  | .put key value chance =>
      (key.IsCStr ∧ value.IsCStr) ∧ Loggable key.bytes value.bytes chance.stack ∧
        (∀ w ∈ m.lookup key.bytes, w = [] ∨ w = value.bytes) ∧
        SkipList.usage (m.put key.bytes value.bytes) ≤ limit
  | .delete key chance => key.empty = false →
      Loggable key.bytes [] chance.stack ∧ SkipList.usage (m.put key.cstr []) < limit
  | .get key ret => ret ≠ none → key.empty = false → m.lookup key.cstr ≠ none

instance (limit : ℕ) (m : SortedMap Bytes Bytes) : DecidablePred (Proper limit m)
  | .put _ _ _ => inferInstanceAs (Decidable (_ ∧ _ ∧ _ ∧ _))
  | .delete _ _ => inferInstanceAs (Decidable (_ → _ ∧ _))
  | .get _ _ => inferInstanceAs (Decidable (_ → _ → _))

/-- **The database holds the map**: the memtable does, and the cache holds nonempty values of it. -/
structure Represents (env : Env) (limit : ℕ) (db : DbImpl) (m : SortedMap Bytes Bytes) : Prop where
  table : db.memTable.Holds m
  wf : db.cache.WF
  cached : ∀ k w, db.cache.cached env.hashFn k = some w → w ≠ [] ∧ m.lookup k = some w
  opened : db.wal.opened = true
  limit : db.options.memTableMaxSize = limit

theorem represents_new (env : Env) (options : Options) (wal : Bytes) (disk : Disk) :
    Represents env options.memTableMaxSize (new options wal disk) .empty where
  table := MemTable.holds_new
  wf := Cache.wf_new _
  cached _ _ h := by cases h
  opened := rfl
  limit := rfl

/-! ## Whole strings -/

/-- The C string of a whole string without NULs. -/
theorem cstr_ofBytes {bytes : Bytes} (h : NulFree bytes) : (StringView.ofBytes bytes).cstr = bytes :=
  StringView.cstr_of_isCStr (StringView.isCStr_ofBytes h)

theorem empty_ofBytes {bytes : Bytes} (h : bytes ≠ []) :
    (StringView.ofBytes bytes).empty = false := by
  simp [StringView.ofBytes, StringView.empty, h]

/-- **A key of less than 16 MiB can be logged**, whatever is behind the buffer: the payload ends
inside the length of the key. -/
theorem loggable_of_short {key value : Bytes} (hkey : key.length < 0x01010101)
    (hvalue : value.length < uint32Max) (stack : Bytes) : Loggable key value stack := by
  refine ⟨hvalue, ?_⟩
  have hnul : ¬ ((encodeFixed32 key.length).takeWhile (· ≠ 0)).length =
      (encodeFixed32 key.length).length := by
    intro hlen
    have hall := List.takeWhile_eq_self_iff.mp ((List.takeWhile_prefix _).eq_of_length hlen)
    refine absurd (le_of_nulFree_encodeFixed32 fun b hb => ?_) (not_le.mpr hkey)
    simpa using hall b hb
  have hshort : (payload key value stack).length ≤ 4 := by
    rw [payload, viewOfStack, encoding, List.append_assoc, List.append_assoc,
      List.takeWhile_append, if_neg hnul]
    exact (List.takeWhile_prefix _).length_le
  rw [toInt32]
  omega

/-! ## One call -/

variable {env : Env} {limit : ℕ} {db : DbImpl} {m : SortedMap Bytes Bytes}
  {key value : StringView} {chance : Chance}

theorem usage_nonneg (m : SortedMap Bytes Bytes) : 0 ≤ SkipList.usage m :=
  List.sum_nonneg fun n hn => by
    obtain ⟨e, -, rfl⟩ := List.mem_map.mp hn
    positivity

/-- As a `uint64_t` a usage is not larger. -/
theorem toUInt64_usage_le (m : SortedMap Bytes Bytes) :
    (toUInt64 (SkipList.usage m) : ℤ) ≤ SkipList.usage m := by
  have h := usage_nonneg m
  rw [toUInt64]
  omega

/-- A payload that can be logged is. -/
theorem Represents.addLog (h : Represents env limit db m) {k v stack : Bytes}
    (hlog : Loggable k v stack) : ∃ wal, db.addLog env k v stack = .ok { db with wal := wal } ∧
      wal.opened = true := by
  obtain ⟨wal, hwal, -, hopen, -⟩ := WALWriter.addLog_of_nonneg env.crc h.opened hlog.2
  exact ⟨wal, addLog_eq_ok.mpr ⟨hlog.1, _, wal, hwal, rfl⟩, hopen⟩

/-- A write over nothing, over a tombstone or over the same value leaves cached values right. -/
theorem Represents.cached_put (h : Represents env limit db m) {k v : Bytes}
    (hold : ∀ w ∈ m.lookup k, w = [] ∨ w = v) {k' w : Bytes}
    (hw : db.cache.cached env.hashFn k' = some w) : w ≠ [] ∧ (m.put k v).lookup k' = some w := by
  obtain ⟨hne, hlookup⟩ := h.cached k' w hw
  refine ⟨hne, ?_⟩
  by_cases hk : k' = k
  · subst hk
    rcases hold w hlookup with rfl | rfl
    · exact absurd rfl hne
    · exact SortedMap.lookup_put_self ..
  · rw [SortedMap.lookup_put_ne _ _ hk, hlookup]

/-- **A proper `Put` writes the map.** -/
theorem Represents.put (h : Represents env limit db m)
    (hproper : Proper limit m (.put key value chance)) :
    ∃ db', db.step env (.put key value chance) = .ok (db', (spec m (.put key value chance)).2) ∧
      Represents env limit db' (spec m (.put key value chance)).1 := by
  obtain ⟨⟨hkey, hvalue⟩, hlog, hold, husage⟩ := hproper
  obtain ⟨wal, hlogged, hopen⟩ := h.addLog hlog
  obtain ⟨t, ht, hholds⟩ := putTable_spec h.table key value chance.level
  rw [StringView.cstr_of_isCStr hkey, StringView.cstr_of_isCStr hvalue] at hholds
  simp only [spec, StringView.cstr_of_isCStr hkey, StringView.cstr_of_isCStr hvalue]
  cases hrefused : key.empty || value.empty with
  | true =>
    refine ⟨{ db with wal := wal, memTable := t }, by simp [step, DbImpl.put, hlogged, ht, hrefused],
      hholds, h.wf, fun k w hw => h.cached_put hold hw, hopen, h.limit⟩
  | false =>
    obtain ⟨cache, hinsert, hwf, hcached⟩ :=
      Cache.insert_spec env.hashFn h.wf key.bytes value.bytes
    have hfull : ¬ db.options.memTableMaxSize < toUInt64 t.getMemUsage := by
      have hle := toUInt64_usage_le (m.put key.bytes value.bytes)
      rw [MemTable.getMemUsage_of_holds hholds, h.limit]
      omega
    refine ⟨{ db with wal := wal, memTable := t, cache := cache }, ?_, hholds, hwf,
      fun k w hw => ?_, hopen, h.limit⟩
    · simp [step, DbImpl.put, hlogged, ht, hrefused, hinsert, rotateIf, hfull]
    · rcases hcached k w hw with hw | ⟨rfl, rfl, -⟩
      · exact h.cached_put hold hw
      · refine ⟨fun hnil => ?_, SortedMap.lookup_put_self ..⟩
        simp [StringView.empty, hnil] at hrefused

/-- **A proper `Delete` writes the empty value.** -/
theorem Represents.delete (h : Represents env limit db m)
    (hproper : Proper limit m (.delete key chance)) :
    ∃ db', db.step env (.delete key chance) = .ok (db', (spec m (.delete key chance)).2) ∧
      Represents env limit db' (spec m (.delete key chance)).1 := by
  cases hkey : key.empty with
  | true => exact ⟨db, by simp [step, DbImpl.delete, spec, hkey], by simpa [spec, hkey] using h⟩
  | false =>
    obtain ⟨hlog, husage⟩ := hproper hkey
    obtain ⟨wal, hlogged, hopen⟩ := h.addLog hlog
    obtain ⟨t, ht, hholds⟩ := deleteTable_spec h.table key chance.level
    obtain ⟨cache, herase, hwf, hcached⟩ := Cache.erase_spec env.hashFn h.wf key.cstr
    have hfull : ¬ db.options.memTableMaxSize ≤ toUInt64 t.getMemUsage := by
      have hle := toUInt64_usage_le (m.put key.cstr [])
      rw [MemTable.getMemUsage_of_holds hholds, h.limit]
      omega
    refine ⟨{ db with wal := wal, memTable := t, cache := cache }, ?_, ?_⟩
    · simp [step, DbImpl.delete, spec, hkey, hlogged, ht, herase, rotateIf, hfull]
    · simp only [spec, hkey, Bool.false_eq_true, if_false]
      refine ⟨hholds, hwf, fun k w hw => ?_, hopen, h.limit⟩
      rw [hcached] at hw
      by_cases hk : k = key.cstr
      · simp [hk] at hw
      · rw [if_neg hk] at hw
        rw [SortedMap.lookup_put_ne _ _ hk]
        exact h.cached k w hw

/-- **A proper `Get` looks its key up in the map.** -/
theorem Represents.get (h : Represents env limit db m) {ret : Option Bytes}
    (hproper : Proper limit m (.get key ret)) :
    ∃ db', db.step env (.get key ret) = .ok (db', (spec m (.get key ret)).2) ∧
      Represents env limit db' (spec m (.get key ret)).1 := by
  cases ret with
  | none => exact ⟨db, rfl, h⟩
  | some old =>
    cases hkey : key.empty with
    | true => exact ⟨db, by simp [step, DbImpl.get, spec, hkey], h⟩
    | false =>
      obtain ⟨v, hv⟩ := Option.ne_none_iff_exists'.mp (hproper (by simp) hkey)
      have hne : key.bytes ≠ [] := by simpa [StringView.empty] using hkey
      have hbuffered : buffered env db m key.cstr = some v := by
        rw [buffered, Option.or_eq_some_iff]
        cases hc : db.cache.cached env.hashFn key.cstr with
        | none => exact Or.inr ⟨rfl, hv⟩
        | some w => exact Or.inl ((h.cached _ w hc).2 ▸ hv)
      obtain ⟨db', hget, hlooked⟩ := (get_spec env h.wf h.table hne old).1 v hbuffered
      refine ⟨db', by simp [step, hget, spec, hkey, hv], ?_, hlooked.wf, fun k w hw => ?_, ?_, ?_⟩
      · exact hlooked.memTable ▸ h.table
      · exact h.cached k w ((hlooked.cached k).symm.trans hw)
      · exact hlooked.wal ▸ h.opened
      · rw [get_options hget, h.limit]

/-- **The step lemma of the refinement.** -/
theorem Represents.step (h : Represents env limit db m) {c : Call} (hproper : Proper limit m c) :
    ∃ db', db.step env c = .ok (db', (spec m c).2) ∧ Represents env limit db' (spec m c).1 := by
  cases c with
  | put key value chance => exact h.put hproper
  | delete key chance => exact h.delete hproper
  | get key ret => exact h.get hproper

/-! ## Runs -/

/-- A run of proper calls from a database that holds a map. -/
theorem Represents.run (h : Represents env limit db m) {calls : List Call}
    (hproper : Along (fun m c => .ok (spec m c)) (Proper limit) m calls) :
    ∃ db', runFrom (DbImpl.step env) db calls = .ok (db', (replay spec m calls).2) ∧
      Represents env limit db' (replay spec m calls).1 :=
  run_simulates_along (DbImpl.step env) spec (fun _ _ _ h hproper => h.step hproper) calls db m h
    hproper

/-- **The database refines the map**: every run of proper calls returns, with the answers that the
map gives, and leaves a database that holds the map. -/
theorem run_refines (env : Env) (options : Options) (wal : Bytes) (disk : Disk) (calls : List Call)
    (hproper : Along (fun m c => .ok (spec m c)) (Proper options.memTableMaxSize) .empty calls) :
    ∃ db, DbImpl.run env options wal disk calls = .ok (db, (replay spec .empty calls).2) ∧
      Represents env options.memTableMaxSize db (replay spec .empty calls).1 :=
  (represents_new env options wal disk).run hproper

/-- A key written twice, read, deleted, read and written with another value. -/
def properCalls : List Call :=
  [.put (.ofBytes [107]) (.ofBytes [97]) .quiet, .put (.ofBytes [107]) (.ofBytes [97]) .quiet,
    .get (.ofBytes [107]) (some []), .delete (.ofBytes [107]) .quiet, .get (.ofBytes [107]) (some []),
    .put (.ofBytes [107]) (.ofBytes [98]) .quiet, .get (.ofBytes [107]) (some [])]

/-- The reads return the value, the empty value and the other value. -/
theorem run_refines_proper :
    ∃ db, DbImpl.run Env.plain {} [] (fun _ => none) properCalls =
        .ok (db, [(.success, none), (.success, none), (.success, some [97]), (.success, none),
          (.success, some []), (.success, none), (.success, some [98])]) ∧
      Represents Env.plain (4 * 1024 * 1024) db (replay spec .empty properCalls).1 :=
  run_refines Env.plain {} [] (fun _ => none) properCalls (by decide)

end SmallKV.DbImpl
