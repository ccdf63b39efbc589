import SmallKV.Db.Reads

/-!
# Db/Writes — what a write leaves in the log, and what a refused one leaves behind

`EncodeKV` fills a buffer on the stack, and `AddLog` receives it as a `char *`: the payload ends at
the first NUL, and the lengths in front of the key and the value hold NULs unless both are at least
16 MiB long (`length_of_nulFree_encoding`).  The log of a run is faithful exactly when no buffer
holds a NUL (`wal_faithful_iff`).

`Put` looks at its arguments only after the log and the memtable are written, so a `Put` that
returns `InvalidArgs` has already changed both (`put_atomic_iff`).
-/

namespace SmallKV.DbImpl

/-! ## The layout of a payload -/

/-- The layout that `EncodeKV` documents, read back: key length, key, value length, value. -/
def decodeKV (buf : Bytes) : Exec (Bytes × Bytes) := do
  let keyLen ← decodeFixed32 buf 0
  let key ← load buf 4 keyLen
  let valueLen ← decodeFixed32 buf (4 + keyLen)
  let value ← load buf (4 + keyLen + 4) valueLen
  return (key, value)

/-- **The layout holds a key and a value exactly when their lengths fit into four bytes.** -/
theorem decodeKV_encoding_iff (key value : Bytes) :
    decodeKV (encoding key value) = .ok (key, value) ↔
      key.length < 2 ^ 32 ∧ value.length < 2 ^ 32 := by
  constructor
  · intro h
    obtain ⟨keyLen, hkeyLen, h⟩ := bind_eq_ok.mp h
    obtain ⟨k, hk, h⟩ := bind_eq_ok.mp h
    obtain ⟨valueLen, hvalueLen, h⟩ := bind_eq_ok.mp h
    obtain ⟨v, hv, h⟩ := bind_eq_ok.mp h
    obtain ⟨rfl, rfl⟩ := Prod.mk.inj (Except.ok.inj h)
    rw [length_of_load hk, length_of_load hv]
    exact ⟨lt_of_decodeFixed32 hkeyLen, lt_of_decodeFixed32 hvalueLen⟩
  · rintro ⟨hk, hv⟩
    -- the buffer, cut in front of each of the four fields
    have h₁ : encoding key value =
        [] ++ (encodeFixed32 key.length ++ (key ++ (encodeFixed32 value.length ++ value))) := by
      simp [encoding]
    have h₂ : encoding key value =
        encodeFixed32 key.length ++ (key ++ (encodeFixed32 value.length ++ value)) := h₁
    have h₃ : encoding key value =
        (encodeFixed32 key.length ++ key) ++ (encodeFixed32 value.length ++ value) := rfl
    have h₄ : encoding key value =
        (encodeFixed32 key.length ++ key ++ encodeFixed32 value.length) ++ (value ++ []) := by
      simp [encoding]
    have hkeyLen : decodeFixed32 (encoding key value) 0 = .ok key.length := by
      rw [h₁]
      exact decodeFixed32_encodeFixed32 List.length_nil hk
    have hkey : load (encoding key value) 4 key.length = .ok key := by
      rw [h₂, load_append (length_encodeFixed32 _) rfl]
    have hvalueLen : decodeFixed32 (encoding key value) (4 + key.length) = .ok value.length := by
      rw [h₃, decodeFixed32_encodeFixed32 (by simp) hv]
    have hvalue : load (encoding key value) (4 + key.length + 4) value.length = .ok value := by
      rw [h₄, load_append (by simp; omega) rfl]
    simp only [decodeKV, hkeyLen, hkey, hvalueLen, hvalue, ok_bind, pure_eq_ok]

/-! ## What `AddLog` receives of it -/

/-- **The view of a buffer is the buffer exactly when there is no NUL in it and one behind it.** -/
theorem viewOfStack_eq_iff {buf stack : Bytes} :
    viewOfStack buf stack = buf ↔ NulFree buf ∧ stack.takeWhile (· ≠ 0) = [] := by
  rw [viewOfStack]
  constructor
  · intro h
    have hfree : NulFree buf := fun b hb => by
      rw [← h] at hb
      simpa using List.mem_takeWhile_imp hb
    rw [List.takeWhile_append_of_pos (by simpa [NulFree] using hfree)] at h
    exact ⟨hfree, List.append_right_eq_self.mp h⟩
  · rintro ⟨hfree, hstack⟩
    rw [List.takeWhile_append_of_pos (by simpa [NulFree] using hfree), hstack, List.append_nil]

/-- Four little-endian digits without a zero denote a large number. -/
theorem le_of_nulFree_encodeFixed32 {n : ℕ} (h : NulFree (encodeFixed32 n)) : 0x01010101 ≤ n := by
  have hdigit : ∀ m : ℕ, UInt8.ofNat m ∈ encodeFixed32 n → m % 256 ≠ 0 := fun m hm hzero =>
    h _ hm (UInt8.toNat_inj.mp (by simpa using hzero))
  have h₀ := hdigit n (by simp [encodeFixed32])
  have h₁ := hdigit (n >>> 8) (by simp [encodeFixed32])
  have h₂ := hdigit (n >>> 16) (by simp [encodeFixed32])
  have h₃ := hdigit (n >>> 24) (by simp [encodeFixed32])
  simp only [Nat.shiftRight_eq_div_pow] at h₁ h₂ h₃
  omega

/-- A buffer without a NUL holds a key and a value of more than 16 MiB each; a `Delete` has none. -/
theorem length_of_nulFree_encoding {key value : Bytes} (h : NulFree (encoding key value)) :
    0x01010101 ≤ key.length ∧ 0x01010101 ≤ value.length := by
  refine ⟨le_of_nulFree_encodeFixed32 fun b hb => h b ?_,
    le_of_nulFree_encodeFixed32 fun b hb => h b ?_⟩ <;> simp [encoding, hb]

/-! ## The log of a run -/

/-- The write a call makes: the key and the value, which is empty for a `Delete`. -/
def Call.written : Call → Option (Bytes × Bytes)
  | .put key value _ => some (key.bytes, value.bytes)
  | .delete key _ => if key.bytes = [] then none else some (key.bytes, [])
  | .get _ _ => none

/-- The stack behind the buffer of a call. -/
def Call.stack : Call → Bytes
  | .put _ _ chance => chance.stack
  | .delete _ chance => chance.stack
  | .get _ _ => []

/-- The payload a call hands to `AddLog`. -/
def Call.handed (c : Call) : Option Bytes :=
  c.written.map fun kv => payload kv.1 kv.2 c.stack

variable {env : Env} {db db' : DbImpl} {options : Options} {wal : Bytes} {disk : Disk}
  {calls : List Call} {rs : List Reply}

/-- **A call hands at most its own payload to the log.** -/
theorem step_logged {c : Call} {r : Reply} (hs : Shaped db)
    (hstep : db.step env c = .ok (db', r)) :
    WALWriter.addLogs env.crc db.wal c.handed.toList = .ok db'.wal := by
  obtain ⟨m, hm⟩ := hs.table
  cases c with
  | put key value chance =>
    obtain ⟨⟨status, db₁⟩, hput, heq⟩ := bind_eq_ok.mp hstep
    obtain ⟨rfl, -⟩ := Prod.mk.inj (Except.ok.inj heq)
    obtain ⟨-, s, hlog⟩ := (put_eq_ok hput).logged
    simp [Call.handed, Call.written, Call.stack, WALWriter.addLogs, hlog]
  | delete key chance =>
    obtain ⟨⟨status, db₁⟩, hdelete, heq⟩ := bind_eq_ok.mp hstep
    obtain ⟨rfl, -⟩ := Prod.mk.inj (Except.ok.inj heq)
    rcases delete_eq_ok hdelete with ⟨hkey, -, rfl⟩ | ⟨hkey, -, hdone⟩
    · simp [Call.handed, Call.written, hkey, WALWriter.addLogs]
    · obtain ⟨s, hlog⟩ := hdone.logged
      simp [Call.handed, Call.written, Call.stack, hkey, WALWriter.addLogs, hlog]
  | get key ret =>
    obtain ⟨⟨status, out, db₁⟩, hget, heq⟩ := bind_eq_ok.mp hstep
    obtain ⟨rfl, -⟩ := Prod.mk.inj (Except.ok.inj heq)
    simp [Call.handed, Call.written, WALWriter.addLogs, (get_eq_ok hs.wf hm hget).1.wal]

/-- **The log invariant**: the log is what `AddLog` makes of the payloads handed to it so far. -/
structure Logged (env : Env) (wal : Bytes) (h : List (Call × Reply)) (db : DbImpl) : Prop where
  shaped : Shaped db
  log : WALWriter.addLogs env.crc (FileWriter.new wal true)
    ((h.map Prod.fst).filterMap Call.handed) = .ok db.wal

theorem Logged.step {h : List (Call × Reply)} {c : Call} {r : Reply} (hi : Logged env wal h db)
    (hstep : db.step env c = .ok (db', r)) : Logged env wal (h ++ [(c, r)]) db' where
  shaped := hi.shaped.step hstep
  log := by
    rw [List.map_append, List.filterMap_append, WALWriter.addLogs_append, hi.log, ok_bind,
      ← step_logged hi.shaped hstep]
    cases hc : c.handed <;> simp [hc]

/-- **The log of a run is what `AddLog` makes of the payloads of its calls**, in order. -/
theorem logged_of_run (hrun : run env options wal disk calls = .ok (db, rs)) :
    WALWriter.addLogs env.crc (FileWriter.new wal true) (calls.filterMap Call.handed) =
      .ok db.wal := by
  have hi := run_history (step env) (fun _ _ _ _ _ hi _ hstep => Logged.step hi hstep) calls [] _
    db rs ⟨shaped_new options wal disk, rfl⟩ (along_of_forall _ (fun _ _ => trivial) calls _) hrun
  have hcalls : (calls.zip rs).map Prod.fst = calls :=
    List.map_fst_zip (length_of_runFrom _ hrun).ge
  have hlog := hi.log
  rwa [List.nil_append, hcalls] at hlog

/-! ## Faithful logs -/

/-- Every call hands the whole encoding of its write to the log, and decoding the payloads gives the
writes back, in order. -/
structure Faithful (calls : List Call) : Prop where
  whole : ∀ c ∈ calls, c.handed = c.written.map fun kv => encoding kv.1 kv.2
  decoded : (calls.filterMap Call.handed).map decodeKV = (calls.filterMap Call.written).map .ok

/-- The buffer of a call holds no NUL but has one behind it, and key and value have lengths of four
bytes. -/
def Clean (c : Call) : Prop :=
  ∀ kv ∈ c.written, NulFree (encoding kv.1 kv.2) ∧ c.stack.takeWhile (· ≠ 0) = [] ∧
    kv.1.length < 2 ^ 32 ∧ kv.2.length < 2 ^ 32

theorem handed_eq_iff {c : Call} : (c.handed = c.written.map fun kv => encoding kv.1 kv.2) ↔
    ∀ kv ∈ c.written, NulFree (encoding kv.1 kv.2) ∧ c.stack.takeWhile (· ≠ 0) = [] := by
  rw [Call.handed]
  cases hw : c.written with
  | none => simp
  | some kv => simp [payload, viewOfStack_eq_iff]

/-- Payloads that are whole encodings decode to the writes exactly when their lengths fit. -/
theorem decoded_iff (hwhole : ∀ c ∈ calls, c.handed = c.written.map fun kv => encoding kv.1 kv.2) :
    (calls.filterMap Call.handed).map decodeKV = (calls.filterMap Call.written).map .ok ↔
      ∀ c ∈ calls, ∀ kv ∈ c.written, kv.1.length < 2 ^ 32 ∧ kv.2.length < 2 ^ 32 := by
  have hpayloads : calls.filterMap Call.handed =
      (calls.filterMap Call.written).map fun kv => encoding kv.1 kv.2 := by
    rw [List.map_filterMap]
    exact List.filterMap_congr hwhole
  rw [hpayloads, List.map_map, List.map_inj_left]
  simp only [Function.comp_apply, List.mem_filterMap]
  constructor
  · exact fun h c hc kv hkv => (decodeKV_encoding_iff kv.1 kv.2).mp (h kv ⟨c, hc, hkv⟩)
  · rintro h kv ⟨c, hc, hkv⟩
    exact (decodeKV_encoding_iff kv.1 kv.2).mpr (h c hc kv hkv)

/-- **A log is faithful exactly when every buffer is clean.** -/
theorem faithful_iff (calls : List Call) : Faithful calls ↔ ∀ c ∈ calls, Clean c := by
  constructor
  · intro h c hc kv hkv
    obtain ⟨hfree, hstack⟩ := handed_eq_iff.mp (h.whole c hc) kv hkv
    exact ⟨hfree, hstack, (decoded_iff h.whole).mp h.decoded c hc kv hkv⟩
  · intro h
    have hwhole : ∀ c ∈ calls, c.handed = c.written.map fun kv => encoding kv.1 kv.2 :=
      fun c hc => handed_eq_iff.mpr fun kv hkv => ⟨(h c hc kv hkv).1, (h c hc kv hkv).2.1⟩
    exact ⟨hwhole, (decoded_iff hwhole).mpr fun c hc kv hkv => (h c hc kv hkv).2.2⟩

/-- **The log of a run holds its writes exactly when every buffer is clean.** -/
theorem wal_faithful_iff (hrun : run env options wal disk calls = .ok (db, rs)) :
    WALWriter.addLogs env.crc (FileWriter.new wal true) (calls.filterMap Call.handed) =
        .ok db.wal ∧
      (Faithful calls ↔ ∀ c ∈ calls, Clean c) :=
  ⟨logged_of_run hrun, faithful_iff calls⟩

/-- The log after some `Put`s and a `Delete`: the lengths in their buffers hold NULs. -/
theorem wal_faithful_iff_erased :
    ∃ db rs, run Env.plain {} [] (fun _ => none) erased = .ok (db, rs) ∧
      WALWriter.addLogs Env.plain.crc (FileWriter.new [] true) (erased.filterMap Call.handed) =
        .ok db.wal ∧
      ¬ Faithful erased := by
  obtain ⟨db, hrun⟩ : ∃ db, run Env.plain {} [] (fun _ => none) erased =
    .ok (db, List.replicate 3 (.success, none)) := ⟨_, rfl⟩
  obtain ⟨hlog, hiff⟩ := wal_faithful_iff hrun
  refine ⟨db, _, hrun, hlog, fun h => ?_⟩
  obtain ⟨hfree, -⟩ := hiff.mp h _ List.mem_cons_self ([107], [97]) rfl
  exact absurd hfree (by decide)

/-- The log of every run holds its writes. -/
def LogsFaithful : Prop :=
  ∀ (env : Env) (options : Options) (wal : Bytes) (disk : Disk) (calls : List Call) (db : DbImpl)
    (rs : List Reply), run env options wal disk calls = .ok (db, rs) → Faithful calls

/-- **The payload of a short key ends inside the length of the key.** -/
theorem not_logsFaithful : ¬ LogsFaithful := by
  intro h
  obtain ⟨db, hrun⟩ : ∃ db, run Env.plain {} [] (fun _ => none)
    [.put (.ofBytes [107]) (.ofBytes [97]) .quiet] = .ok (db, [(.success, none)]) := ⟨_, rfl⟩
  have hwhole := (h _ _ _ _ _ _ _ hrun).whole _ List.mem_cons_self
  exact absurd hwhole (by decide)

/-! ## Refused writes -/

/-- A `Put` that returns `InvalidArgs` leaves the log, the memtable, the cache and the table files
as they were, and later calls answer as if it had not been made. -/
def PutAtomic (env : Env) (db : DbImpl) (key value : StringView) (chance : Chance) : Prop :=
  ∀ db', db.put env key value chance = .ok (.invalidArgs, db') →
    (db'.wal = db.wal ∧ db'.memTable = db.memTable ∧ db'.cache = db.cache ∧ db'.disk = db.disk) ∧
      ∀ calls, (runFrom (step env) db' calls).map Prod.snd =
        (runFrom (step env) db calls).map Prod.snd

/-- The log stays open. -/
theorem opened_of_addLogs {crc : Bytes → UInt32} : ∀ {logs : List Bytes} {w w' : FileWriter},
    w.opened = true → WALWriter.addLogs crc w logs = .ok w' → w'.opened = true
  | [], w, w', hopen, h => by
      obtain rfl := Except.ok.inj h
      exact hopen
  | log :: logs, w, w', hopen, h => by
      obtain ⟨⟨s, w₁⟩, hlog, h⟩ := bind_eq_ok.mp h
      by_cases hneg : toInt32 log.length < 0
      · exact absurd hlog (WALWriter.addLog_of_neg crc hopen hneg _)
      · obtain ⟨w₂, hrun, -, hopen₂, -⟩ := WALWriter.addLog_of_nonneg crc hopen (not_lt.mp hneg)
        obtain ⟨-, rfl⟩ := Prod.mk.inj (Except.ok.inj (hrun.symm.trans hlog))
        exact opened_of_addLogs hopen₂ h

/-- **A `Put` of an empty key or value that can be logged returns `InvalidArgs`**, with a longer
log. -/
theorem put_invalid (hs : Shaped db) (hopen : db.wal.opened = true) {key value : StringView}
    {chance : Chance} (hempty : key.bytes = [] ∨ value.bytes = [])
    (hvalue : value.bytes.length < uint32Max)
    (hlog : 0 ≤ toInt32 (payload key.bytes value.bytes chance.stack).length) :
    ∃ db', db.put env key value chance = .ok (.invalidArgs, db') ∧
      db.wal.stream.length < db'.wal.stream.length := by
  obtain ⟨m, hm⟩ := hs.table
  obtain ⟨wal, hwal, hstream, -⟩ := WALWriter.addLog_of_nonneg env.crc hopen hlog
  obtain ⟨t, ht, -⟩ := putTable_spec hm key value chance.level
  have hlogged : db.addLog env key.bytes value.bytes chance.stack = .ok { db with wal := wal } :=
    addLog_eq_ok.mpr ⟨hvalue, _, wal, hwal, rfl⟩
  have hrefused : (key.empty || value.empty) = true := by simpa [StringView.empty] using hempty
  refine ⟨{ db with wal := wal, memTable := t }, ?_, ?_⟩
  · simp [put, hlogged, ht, hrefused]
  · rw [hstream, List.length_append, List.length_append, WALWriter.length_header, kHeaderSize]
    omega

/-- **`Put` is atomic only where it does not return `InvalidArgs`**: on two nonempty arguments, and
on arguments that are too long to be logged at all. -/
theorem put_atomic_iff (hrun : run env options wal disk calls = .ok (db, rs))
    (key value : StringView) (chance : Chance) :
    PutAtomic env db key value chance ↔
      (key.bytes ≠ [] ∧ value.bytes ≠ []) ∨ uint32Max ≤ value.bytes.length ∨
        toInt32 (payload key.bytes value.bytes chance.stack).length < 0 := by
  have hs := shaped_of_run hrun
  have hopen : db.wal.opened = true := opened_of_addLogs rfl (logged_of_run hrun)
  constructor
  · intro h
    by_contra hcond
    simp only [not_or, not_and_or, not_le, not_lt, ne_eq, not_not] at hcond
    obtain ⟨hempty, hvalue, hlog⟩ := hcond
    obtain ⟨db', hput, hlonger⟩ := put_invalid hs hopen hempty hvalue hlog
    rw [(h db' hput).1.1] at hlonger
    exact lt_irrefl _ hlonger
  · intro hcond db' hput
    exfalso
    have hdone := put_eq_ok hput
    rcases hcond with hargs | hvalue | hlog
    · rcases hdone.outcome with ⟨hempty, -⟩ | ⟨-, hstatus, -⟩
      · exact hempty.elim hargs.1 hargs.2
      · cases hstatus
    · exact absurd hdone.logged.1 (not_lt.mpr hvalue)
    · obtain ⟨-, s, hwal⟩ := hdone.logged
      exact WALWriter.addLog_of_neg env.crc hopen hlog _ hwal

/-- After some writes: a `Put` of two nonempty arguments is atomic, a `Put` of an empty value is
not. -/
theorem put_atomic_iff_erased :
    ∃ db rs, run Env.plain {} [] (fun _ => none) erased = .ok (db, rs) ∧
      PutAtomic Env.plain db (.ofBytes [107]) (.ofBytes [97]) .quiet ∧
      ¬ PutAtomic Env.plain db (.ofBytes [107]) (.ofBytes []) .quiet := by
  obtain ⟨db, hrun⟩ : ∃ db, run Env.plain {} [] (fun _ => none) erased =
    .ok (db, List.replicate 3 (.success, none)) := ⟨_, rfl⟩
  refine ⟨db, _, hrun, ?_, ?_⟩
  · exact (put_atomic_iff hrun (.ofBytes [107]) (.ofBytes [97]) .quiet).mpr
      (Or.inl ⟨by decide, by decide⟩)
  · rw [put_atomic_iff hrun]
    decide

/-- `Put` is atomic in every state of a run. -/
def PutsAtomic : Prop :=
  ∀ (env : Env) (options : Options) (wal : Bytes) (disk : Disk) (calls : List Call) (db : DbImpl)
    (rs : List Reply) (key value : StringView) (chance : Chance),
    run env options wal disk calls = .ok (db, rs) → PutAtomic env db key value chance

/-- **A refused value is read back**: `Put` of an empty value on a new database returns
`InvalidArgs`, and `Get` then returns the empty value with `Success`. -/
theorem not_putsAtomic : ¬ PutsAtomic := by
  intro h
  have hatomic := h Env.plain {} [] (fun _ => none) [] _ _ (.ofBytes [107]) (.ofBytes []) .quiet rfl
  obtain ⟨db', hput, hget⟩ : ∃ db', (new {} [] fun _ => none).put Env.plain (.ofBytes [107])
      (.ofBytes []) .quiet = .ok (.invalidArgs, db') ∧
    (runFrom (step Env.plain) db' [.get (.ofBytes [107]) (some [])]).map Prod.snd =
      .ok [(.success, some [])] := ⟨_, rfl, rfl⟩
  have hbefore : (runFrom (step Env.plain) (new {} [] fun _ => none)
    [.get (.ofBytes [107]) (some [])]).map Prod.snd = .error .assertion := rfl
  have hsame := (hatomic db' hput).2 [.get (.ofBytes [107]) (some [])]
  rw [hget, hbefore] at hsame
  cases hsame

end SmallKV.DbImpl
