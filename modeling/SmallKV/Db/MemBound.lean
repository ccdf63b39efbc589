import SmallKV.Db.Reads

/-!
# Db/MemBound — the memory usage of the memtable, along runs

`Put` and `Delete` turn a memtable over its limit into a table file, but a `Put` that is refused
returns before it looks at the limit, after it has written the memtable.  So the memtable stays
within its limit along a run exactly when every refused `Put` leaves it there (`bounded_iff`).
-/

namespace SmallKV

namespace MemTable

/-- What writing a value under a key adds to the memory usage. -/
def growth (t : MemTable) (key value : StringView) : ℤ :=
  match t.get key with
  | .ok (some old) => value.cstr.length - old.length
  | _ => key.cstr.length + value.cstr.length

variable {t t' : MemTable} {m : SortedMap Bytes Bytes}

theorem getMemUsage_of_holds (h : t.Holds m) : t.getMemUsage = SkipList.usage m :=
  h.choose_spec.memUsage

/-- **A write adds its growth.** -/
theorem getMemUsage_of_put (h : t.Holds m) (key value : StringView)
    (h' : t'.Holds (m.put key.cstr value.cstr)) :
    t'.getMemUsage = t.getMemUsage + t.growth key value := by
  rw [getMemUsage_of_holds h, getMemUsage_of_holds h', SkipList.usage_put, growth, get_spec key h]
  cases m.lookup key.cstr with
  | none =>
    change _ + (value.cstr.length : ℤ) + (key.cstr.length : ℤ) = _ + (_ + _)
    omega
  | some old =>
    change _ + (value.cstr.length : ℤ) + -(old.length : ℤ) = _ + (_ - _)
    omega

end MemTable

namespace DbImpl

variable {env : Env} {db db' : DbImpl} {key value : StringView} {chance : Chance}
  {status : DBStatus}

/-! ## The memtable after a write -/

/-- Step 4 leaves an empty memtable if the old one is full, and the limit as it was. -/
theorem rotateIf_memTable {full : Bool} (h : db.rotateIf env full = .ok db') :
    db'.memTable = (if full then MemTable.new else db.memTable) ∧
      db'.options.memTableMaxSize = db.options.memTableMaxSize := by
  cases full with
  | false =>
    obtain rfl := Except.ok.inj h
    exact ⟨rfl, rfl⟩
  | true =>
    obtain ⟨htable, -, -, hmax⟩ := rotate_eq_ok h
    exact ⟨htable, hmax⟩

/-- **`Put` looks at the limit only if it is not refused.** -/
theorem put_memTable (h : db.put env key value chance = .ok (status, db')) :
    ∃ t, putTable db.memTable key value chance.level = .ok t ∧
      db'.options.memTableMaxSize = db.options.memTableMaxSize ∧
      db'.memTable = if (key.bytes ≠ [] ∧ value.bytes ≠ []) ∧
        db.options.memTableMaxSize < toUInt64 t.getMemUsage then MemTable.new else t := by
  obtain ⟨db₁, hlog, h⟩ := bind_eq_ok.mp h
  obtain ⟨-, s, wal, -, rfl⟩ := addLog_eq_ok.mp hlog
  obtain ⟨t, ht, h⟩ := bind_eq_ok.mp h
  refine ⟨t, ht, ?_⟩
  by_cases hempty : (key.empty || value.empty) = true
  · rw [if_pos hempty] at h
    obtain ⟨-, rfl⟩ := Prod.mk.inj (Except.ok.inj h)
    have hrefused : ¬ (key.bytes ≠ [] ∧ value.bytes ≠ []) := by
      simpa [StringView.empty, or_iff_not_imp_left] using hempty
    exact ⟨rfl, by rw [if_neg fun hc => hrefused hc.1]⟩
  · rw [if_neg hempty] at h
    obtain ⟨cache, -, h⟩ := bind_eq_ok.mp h
    obtain ⟨db₂, hrotate, h⟩ := bind_eq_ok.mp h
    obtain ⟨-, rfl⟩ := Prod.mk.inj (Except.ok.inj h)
    obtain ⟨htable, hmax⟩ := rotateIf_memTable hrotate
    have hne : key.bytes ≠ [] ∧ value.bytes ≠ [] := by simpa [StringView.empty] using hempty
    refine ⟨hmax, ?_⟩
    rw [htable]
    simp [hne]

/-- `Delete` of a nonempty key looks at the limit. -/
theorem delete_memTable (h : db.delete env key chance = .ok (status, db')) :
    key.bytes = [] ∧ db' = db ∨
    key.bytes ≠ [] ∧ ∃ t, deleteTable db.memTable key chance.level = .ok t ∧
      db'.options.memTableMaxSize = db.options.memTableMaxSize ∧
      db'.memTable =
        if db.options.memTableMaxSize ≤ toUInt64 t.getMemUsage then MemTable.new else t := by
  rw [delete] at h
  by_cases hempty : key.empty = true
  · rw [if_pos hempty] at h
    obtain ⟨-, rfl⟩ := Prod.mk.inj (Except.ok.inj h)
    exact Or.inl ⟨by simpa [StringView.empty] using hempty, rfl⟩
  · rw [if_neg hempty] at h
    have hne : key.bytes ≠ [] := by simpa [StringView.empty] using hempty
    obtain ⟨db₁, hlog, h⟩ := bind_eq_ok.mp h
    obtain ⟨-, s, wal, -, rfl⟩ := addLog_eq_ok.mp hlog
    obtain ⟨t, ht, h⟩ := bind_eq_ok.mp h
    obtain ⟨cache, -, h⟩ := bind_eq_ok.mp h
    obtain ⟨db₂, hrotate, h⟩ := bind_eq_ok.mp h
    obtain ⟨-, rfl⟩ := Prod.mk.inj (Except.ok.inj h)
    obtain ⟨htable, hmax⟩ := rotateIf_memTable hrotate
    refine Or.inr ⟨hne, t, ht, hmax, ?_⟩
    rw [htable]
    simp

/-- `Get` leaves the options alone. -/
theorem get_options {ret out : Option Bytes} (h : db.get env key ret = .ok (status, out, db')) :
    db'.options = db.options := by
  cases ret with
  | none =>
    obtain ⟨-, -, rfl⟩ : _ ∧ _ ∧ db = db' := by simpa [get] using h
    rfl
  | some old =>
    rw [get] at h
    split at h
    · obtain ⟨-, -, rfl⟩ : _ ∧ _ ∧ db = db' := by simpa using h
      rfl
    · split at h
      · obtain ⟨⟨cache, node⟩, -, h⟩ := bind_eq_ok.mp h
        obtain ⟨n, -, h⟩ := bind_eq_ok.mp h
        obtain ⟨nd, -, h⟩ := bind_eq_ok.mp h
        obtain ⟨-, -, rfl⟩ : _ ∧ _ ∧ { db with cache := cache } = db' := by simpa using h
        rfl
      · obtain ⟨found, -, h⟩ := bind_eq_ok.mp h
        cases found with
        | true =>
          obtain ⟨val, -, h⟩ := bind_eq_ok.mp h
          obtain ⟨val', -, h⟩ := bind_eq_ok.mp h
          obtain ⟨-, -, rfl⟩ : _ ∧ _ ∧ db = db' := by simpa using h
          rfl
        | false => exact absurd h getFromSst_ne_ok

/-! ## The bound -/

/-- The memory usage if a value is written under a key. -/
def usageAfter (db : DbImpl) (key value : StringView) : ℤ :=
  db.memTable.getMemUsage + db.memTable.growth key value

/-- The condition on a call: the memtable it leaves is within its limit, or is noticed to be over
it.  A refused `Put` does not look. -/
def Roomy (db : DbImpl) : Call → Prop
  | .put key value _ => db.usageAfter key value ≤ db.options.memTableMaxSize ∨
      (key.bytes ≠ [] ∧ value.bytes ≠ []) ∧
        db.options.memTableMaxSize < toUInt64 (db.usageAfter key value)
  | .delete key _ => key.bytes = [] ∨
      db.usageAfter key (.ofBytes []) ≤ db.options.memTableMaxSize ∨
      db.options.memTableMaxSize ≤ toUInt64 (db.usageAfter key (.ofBytes []))
  | .get _ _ => True

instance (db : DbImpl) : DecidablePred (Roomy db)
  | .put _ _ _ => inferInstanceAs (Decidable (_ ∨ _))
  | .delete _ _ => inferInstanceAs (Decidable (_ ∨ _))
  | .get _ _ => .isTrue trivial

/-- The memtable is within its limit. -/
def Bounded (db : DbImpl) : Prop := db.memTable.getMemUsage ≤ db.options.memTableMaxSize

theorem bounded_new (options : Options) (wal : Bytes) (disk : Disk) :
    Bounded (new options wal disk) :=
  Int.natCast_nonneg options.memTableMaxSize

/-- A table that is exchanged for an empty one under a condition is within the limit exactly when
it was before or the condition holds. -/
theorem getMemUsage_ite_le {c : Prop} [Decidable c] {t : MemTable} {limit : ℕ} :
    (if c then MemTable.new else t).getMemUsage ≤ limit ↔ t.getMemUsage ≤ limit ∨ c := by
  by_cases hc : c
  · rw [if_pos hc]
    exact iff_of_true (Int.natCast_nonneg limit) (Or.inr hc)
  · rw [if_neg hc]
    simp [hc]

/-- **The step lemma of the bound.** -/
theorem Bounded.step {c : Call} {r : Reply} (hs : Shaped db) (hb : Bounded db)
    (hstep : db.step env c = .ok (db', r)) :
    db'.options.memTableMaxSize = db.options.memTableMaxSize ∧ (Bounded db' ↔ Roomy db c) := by
  obtain ⟨m, hm⟩ := hs.table
  cases c with
  | put key value chance =>
    obtain ⟨⟨status, db₁⟩, hput, heq⟩ := bind_eq_ok.mp hstep
    obtain ⟨rfl, -⟩ := Prod.mk.inj (Except.ok.inj heq)
    obtain ⟨t, ht, hmax, htable⟩ := put_memTable hput
    obtain ⟨t', ht', hholds⟩ := putTable_spec hm key value chance.level
    obtain rfl := Except.ok.inj (ht.symm.trans ht')
    have husage := MemTable.getMemUsage_of_put hm key value hholds
    refine ⟨hmax, ?_⟩
    rw [Bounded, htable, hmax, getMemUsage_ite_le, husage]
    rfl
  | delete key chance =>
    obtain ⟨⟨status, db₁⟩, hdelete, heq⟩ := bind_eq_ok.mp hstep
    obtain ⟨rfl, -⟩ := Prod.mk.inj (Except.ok.inj heq)
    rcases delete_memTable hdelete with ⟨hempty, rfl⟩ | ⟨hne, t, ht, hmax, htable⟩
    · exact ⟨rfl, iff_of_true hb (Or.inl hempty)⟩
    · obtain ⟨t', ht', hholds⟩ := deleteTable_spec hm key chance.level
      obtain rfl := Except.ok.inj (ht.symm.trans ht')
      have husage := MemTable.getMemUsage_of_put hm key (.ofBytes []) hholds
      refine ⟨hmax, ?_⟩
      rw [Bounded, htable, hmax, getMemUsage_ite_le, husage, Roomy, or_iff_right hne]
      rfl
  | get key ret =>
    obtain ⟨⟨status, out, db₁⟩, hget, heq⟩ := bind_eq_ok.mp hstep
    obtain ⟨rfl, -⟩ := Prod.mk.inj (Except.ok.inj heq)
    obtain ⟨hlooked, -⟩ := get_eq_ok hs.wf hm hget
    have hoptions := get_options hget
    refine ⟨congrArg Options.memTableMaxSize hoptions, iff_of_true ?_ trivial⟩
    rwa [Bounded, hlooked.memTable, hoptions]

variable {options : Options} {wal : Bytes} {disk : Disk} {calls : List Call} {rs : List Reply}

/-- **The memtable stays within its limit exactly along the runs whose every call leaves it there**,
or leaves it over the limit and looks. -/
theorem bounded_iff (hrun : run env options wal disk calls = .ok (db, rs)) :
    (∀ pre, pre <+: calls → ∀ db₁ rs₁, run env options wal disk pre = .ok (db₁, rs₁) →
      db₁.memTable.getMemUsage ≤ options.memTableMaxSize) ↔
        Along (step env) Roomy (new options wal disk) calls := by
  let I : DbImpl → Prop := fun db =>
    Shaped db ∧ db.options.memTableMaxSize = options.memTableMaxSize
  let Q : DbImpl → Prop := fun db => db.memTable.getMemUsage ≤ options.memTableMaxSize
  have hkeep : ∀ db c db₁ r, I db → Q db → db.step env c = .ok (db₁, r) →
      I db₁ ∧ (Q db₁ ↔ Roomy db c) := by
    rintro db c db₁ r ⟨hs, hlimit⟩ hQ hstep
    obtain ⟨hmax, hiff⟩ := Bounded.step hs (show Bounded db by rwa [Bounded, hlimit]) hstep
    rw [Bounded, hmax, hlimit] at hiff
    exact ⟨⟨hs.step hstep, hmax.trans hlimit⟩, hiff⟩
  exact run_always_iff (step env) hkeep calls _ db rs ⟨shaped_new options wal disk, rfl⟩
    (bounded_new options wal disk) hrun

/-- A `Put` over the limit that is not refused, and a refused one that fits. -/
def overLimit : List Call :=
  [.put (.ofBytes [107]) (.ofBytes [97, 98]) .quiet, .put (.ofBytes [107]) (.ofBytes []) .quiet]

/-- The memtable has at most the two bytes of the limit all along. -/
theorem bounded_iff_one :
    ∃ db rs, run Env.plain { memTableMaxSize := 2 } [] (fun _ => none) overLimit = .ok (db, rs) ∧
      ∀ pre, pre <+: overLimit → ∀ db₁ rs₁,
        run Env.plain { memTableMaxSize := 2 } [] (fun _ => none) pre = .ok (db₁, rs₁) →
          db₁.memTable.getMemUsage ≤ 2 := by
  obtain ⟨db, hrun⟩ : ∃ db, run Env.plain { memTableMaxSize := 2 } [] (fun _ => none) overLimit =
    .ok (db, [(.success, none), (.invalidArgs, none)]) := ⟨_, rfl⟩
  exact ⟨db, _, hrun, (bounded_iff hrun).mpr (by decide)⟩

/-- The memtable is within its limit after every run. -/
def AlwaysBounded : Prop :=
  ∀ (env : Env) (options : Options) (wal : Bytes) (disk : Disk) (calls : List Call) (db : DbImpl)
    (rs : List Reply), env.convertToL1SST = convertEntries env.sizing →
    run env options wal disk calls = .ok (db, rs) →
    db.memTable.getMemUsage ≤ options.memTableMaxSize

/-- **A refused `Put` outgrows the limit.** -/
theorem not_alwaysBounded : ¬ AlwaysBounded := by
  intro h
  obtain ⟨db, hrun, husage⟩ : ∃ db, run Env.plain { memTableMaxSize := 2 } [] (fun _ => none)
      [.put (.ofBytes [107, 101, 121]) (.ofBytes []) .quiet] = .ok (db, [(.invalidArgs, none)]) ∧
    db.memTable.getMemUsage = 3 := ⟨_, rfl, rfl⟩
  have hle := h _ _ _ _ _ db _ rfl hrun
  rw [husage] at hle
  exact absurd hle (by decide)

end DbImpl

end SmallKV
