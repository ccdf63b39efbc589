import SmallKV.Cache.Cache
import SmallKV.Memtable.MemTable
import SmallKV.Sstparser.SstParser
import SmallKV.Wal.WalWriter

/-!
# Db/DbImpl — the database of `db/db_impl.cpp`

A database is a memtable, the log, a cache and the table files.  `Put` and `Delete` write the log,
then the memtable, then the cache, and turn the memtable into a table when it is full; `Get` looks
into the cache, the memtable and the table file `level_0_sst_0.sst`, in this order.

What the repository does not contain is in `Env`: the hash of `std::unordered_map`, the checksum of
the log, the floating-point sizing of the filter, and `MemTable::ConvertToL1SST`, which is declared
but has no body.  What an operation finds in the process besides its arguments is in `Chance`: the
outcome of `RandomLevel`, and the bytes that follow a buffer on the stack.
-/

namespace SmallKV

/-! ## Surroundings -/

/-- The code a database calls that is not part of the repository. -/
structure Env where
  /-- `std::hash<std::string>` -/
  hashFn : Bytes → ℕ
  /-- `absl::ComputeCrc32c` -/
  crc : Bytes → UInt32
  sizing : BloomSizing
  /-- `MemTable::ConvertToL1SST` -/
  convertToL1SST : MemTable → Bytes → SSTableBuilder → Exec SSTableBuilder

/-- What `ConvertToL1SST` is for: every entry of the memtable goes to `add`, in the order of the
iterator, and `finish_sst` ends the table. -/
def convertEntries (sizing : BloomSizing) (t : MemTable) (_ : Bytes) (b : SSTableBuilder) :
    Exec SSTableBuilder := do
  let pairs ← t.orderedTable.traverse
  let b ← b.addAll pairs
  let (_, b) ← b.finishSst sizing
  return b

/-- Surroundings to run a database in. -/
def Env.plain : Env where
  hashFn := List.length
  crc _ := 0
  sizing := .percent
  convertToL1SST := convertEntries .percent

/-- What a write finds by chance: the outcome of `RandomLevel`, and the stack behind its buffer. -/
structure Chance where
  level : Level
  stack : Bytes
  deriving Repr

/-- A write that finds nothing unusual: a node of one level, and a NUL behind its buffer. -/
def Chance.quiet : Chance := ⟨⟨1, by decide⟩, []⟩

/-- `Options`, with its defaults.  The log is a file of its own, so `WAL_DIR` is not needed. -/
structure Options where
  storageDir : Bytes := ascii "./output/db_storage"
  memTableMaxSize : ℕ := 4 * 1024 * 1024
  cacheSize : ℕ := 4096
  lisstNum : ℕ := 0

/-- The table files, by their paths. -/
abbrev Disk := Bytes → Option Bytes

namespace Disk

/-- Repeated slashes in a path count as one. -/
def normalise : Bytes → Bytes
  | [] => []
  | b :: path => if b = 47 ∧ path.head? = some 47 then normalise path else b :: normalise path

/-- The contents of the file at a path. -/
def read (disk : Disk) (path : Bytes) : Option Bytes := disk (normalise path)

/-- Set the contents of the file at a path. -/
def write (disk : Disk) (path contents : Bytes) : Disk :=
  Function.update disk (normalise path) (some contents)

end Disk

/-! ## The database -/

/-- `DBImpl`. -/
structure DbImpl where
  memTable : MemTable
  wal : FileWriter
  cache : Cache Bytes Bytes
  options : Options
  disk : Disk

/-- `UINT32_MAX`. -/
def uint32Max : ℕ := 0xffffffff

/-- What `EncodeKV` fills its buffer with. -/
def encoding (key value : Bytes) : Bytes :=
  encodeFixed32 key.length ++ key ++ (encodeFixed32 value.length ++ value)

/-- `EncodeKV`. -/
def encodeKV (key value : Bytes) : Exec Bytes := do
  require (value.length < uint32Max) .assertion
  return encoding key value

/-- The `std::string_view` that a `char *` into the stack converts to: it ends before the first
NUL, in the buffer or behind it. -/
def viewOfStack (buf stack : Bytes) : Bytes := (buf ++ stack).takeWhile (· ≠ 0)

namespace DbImpl

/-- The constructor, over an existing log and existing table files. -/
def new (options : Options) (wal : Bytes) (disk : Disk) : DbImpl where
  memTable := MemTable.new
  wal := FileWriter.new wal true
  cache := Cache.new options.cacheSize
  options := options
  disk := disk

variable (env : Env)

/-- The path `MemTableToSST` writes to. -/
def sstFilepath (db : DbImpl) : Bytes :=
  db.options.storageDir ++ ascii "/" ++ buildSSTPath 0 db.options.lisstNum

/-- The path `Get` reads from. -/
def sstPath (db : DbImpl) : Bytes := db.options.storageDir ++ ascii "level_0_sst_0.sst"

/-- `MemTableToSST`. -/
def memTableToSST (db : DbImpl) : Exec DbImpl := do
  let file := (db.disk.read db.sstFilepath).getD []
  let builder ← SSTableBuilder.new env.sizing (toInt32 db.memTable.getSize) (FileWriter.new file true)
  let builder ← env.convertToL1SST db.memTable db.sstFilepath builder
  -- the destructor of the writer
  let w ← builder.fileWriter.sync
  return { db with
    disk := db.disk.write db.sstFilepath w.file
    options := { db.options with lisstNum := toUInt32 (db.options.lisstNum + 1) } }

/-- `MemTableToSST`, and a new memtable. -/
def rotate (db : DbImpl) : Exec DbImpl := do
  return { ← db.memTableToSST env with memTable := MemTable.new }

/-- Step 4 of `Put` and `Delete`: a memtable over its limit is turned into a table. -/
def rotateIf (db : DbImpl) (full : Bool) : Exec DbImpl :=
  if full then db.rotate env else return db

/-- `wal_writer->AddLog(buf)`, after `EncodeKV` into `buf`. -/
def addLog (db : DbImpl) (key value : Bytes) (stack : Bytes) : Exec DbImpl := do
  let buf ← encodeKV key value
  let (_, wal) ← WALWriter.addLog env.crc db.wal (viewOfStack buf stack)
  return { db with wal := wal }

/-- Step 2 of `Put`. -/
def putTable (t : MemTable) (key value : StringView) (level : Level) : Exec MemTable := do
  if ← t.contains key then t.update key value level else t.add key value level

/-- `Put`. -/
def put (db : DbImpl) (key value : StringView) (chance : Chance) : Exec (DBStatus × DbImpl) := do
  let db ← db.addLog env key.bytes value.bytes chance.stack
  let table ← putTable db.memTable key value chance.level
  let db := { db with memTable := table }
  if key.empty || value.empty then return (.invalidArgs, db)
  let db := { db with cache := ← db.cache.insert env.hashFn key.bytes value.bytes }
  let full := db.options.memTableMaxSize < toUInt64 db.memTable.getMemUsage
  return (.success, ← db.rotateIf env full)

/-- Step 2 of `Delete`: a key that is not there gets a tombstone. -/
def deleteTable (t : MemTable) (key : StringView) (level : Level) : Exec MemTable := do
  if ← t.contains key then t.delete key level else t.add key (.ofBytes []) level

/-- `Delete`. -/
def delete (db : DbImpl) (key : StringView) (chance : Chance) : Exec (DBStatus × DbImpl) := do
  if key.empty then return (.invalidArgs, db)
  let db ← db.addLog env key.bytes [] chance.stack
  let table ← deleteTable db.memTable key chance.level
  let db := { db with memTable := table }
  let db := { db with cache := ← db.cache.erase env.hashFn key.cstr }
  let full := db.options.memTableMaxSize ≤ toUInt64 db.memTable.getMemUsage
  return (.success, ← db.rotateIf env full)

/-- The last step of `Get`: the table file.  `ret` is the result string. -/
def getFromSst (db : DbImpl) (key : StringView) (ret : Bytes) :
    Exec (DBStatus × Option Bytes × DbImpl) := do
  let parser ← SSTParser.openTable (db.disk.read db.sstPath)
  match ← parser.seek key.bytes with
  | none => return (.notFound, some ret, db)
  | some val => do
      let cache ← db.cache.insert env.hashFn key.cstr val
      return (.success, some (ret ++ val), { db with cache := cache })

/-- `Get`: the status, and the result string afterwards; a null pointer is `none`. -/
def get (db : DbImpl) (key : StringView) (ret : Option Bytes) :
    Exec (DBStatus × Option Bytes × DbImpl) :=
  match ret with
  | none => return (.invalidArgs, ret, db)
  | some old =>
      if key.empty then return (.invalidArgs, ret, db)
      else if db.cache.contains env.hashFn key.cstr then do
        let (cache, node) ← db.cache.get env.hashFn key.cstr
        let nd ← cache.deref env.hashFn key.cstr (← orFault .nullPointer node)
        return (.success, some nd.val, { db with cache := cache })
      else do
        if ← db.memTable.contains key then
          let val ← orFault .uncaught (← db.memTable.get key)
          return (.success, some val, db)
        else db.getFromSst env key old

/-! ## Runs -/

/-- The calls on a database. -/
inductive Call
  | put (key value : StringView) (chance : Chance)
  | delete (key : StringView) (chance : Chance)
  | get (key : StringView) (ret : Option Bytes)

/-- What a call returns: the status, and the result string after a `Get`. -/
abbrev Reply := DBStatus × Option Bytes

/-- One call. -/
def step (db : DbImpl) : Call → Exec (DbImpl × Reply)
  | .put key value chance => do
      let (status, db) ← db.put env key value chance
      return (db, status, none)
  | .delete key chance => do
      let (status, db) ← db.delete env key chance
      return (db, status, none)
  | .get key ret => do
      let (status, ret, db) ← db.get env key ret
      return (db, status, ret)

/-- A database after a run of calls on a new one, with what they returned. -/
def run (options : Options) (wal : Bytes) (disk : Disk) (calls : List Call) :
    Exec (DbImpl × List Reply) :=
  runFrom (step env) (new options wal disk) calls

/-! ## Histories -/

/-- A write of a key: the value, none for a `Delete`, and the status it returned. -/
structure Write where
  value : Option Bytes
  status : DBStatus
  deriving DecidableEq, Repr

/-- The write of a key that a call made. -/
def writeOf (k : Bytes) : Call × Reply → Option Write
  | (.put key value _, reply) => if key.bytes = k then some ⟨some value.bytes, reply.1⟩ else none
  | (.delete key _, reply) => if key.bytes = k then some ⟨none, reply.1⟩ else none
  | (.get _ _, _) => none

/-- The most recent write of a key. -/
def lastWrite (h : List (Call × Reply)) (k : Bytes) : Option Write :=
  (h.filterMap (writeOf k)).getLast?

theorem lastWrite_append (h : List (Call × Reply)) (e : Call × Reply) (k : Bytes) :
    lastWrite (h ++ [e]) k = (writeOf k e).or (lastWrite h k) := by
  rw [lastWrite, lastWrite, List.filterMap_append]
  cases he : writeOf k e <;> simp [he]

/-! ## One call at a time -/

/-- The payload that a write hands to `AddLog`. -/
def payload (key value stack : Bytes) : Bytes := viewOfStack (encoding key value) stack

variable {env} {db db' : DbImpl} {key value : StringView} {chance : Chance} {status : DBStatus}
  {m : SortedMap Bytes Bytes}

/-- A write goes to the log first: `AddLog` has returned the writer of the database afterwards. -/
theorem addLog_eq_ok {k v stack : Bytes} : db.addLog env k v stack = .ok db' ↔
    v.length < uint32Max ∧ ∃ s wal, WALWriter.addLog env.crc db.wal (payload k v stack) =
      .ok (s, wal) ∧ db' = { db with wal := wal } := by
  rw [addLog, encodeKV]
  by_cases hv : v.length < uint32Max
  · simp only [hv, decide_true, require_true, ok_bind, pure_eq_ok, bind_eq_ok, Prod.exists,
      Except.ok.injEq, true_and]
    refine exists_congr fun s => exists_congr fun wal => ?_
    rw [payload, eq_comm (a := db')]
  · simp [hv]

/-- Turning the memtable into a table leaves an empty memtable, and the log, the cache and the limit
as they were. -/
theorem rotate_eq_ok (h : db.rotate env = .ok db') :
    db'.memTable = MemTable.new ∧ db'.wal = db.wal ∧ db'.cache = db.cache ∧
      db'.options.memTableMaxSize = db.options.memTableMaxSize := by
  obtain ⟨db₁, h₁, h⟩ := bind_eq_ok.mp h
  obtain ⟨builder, -, h₁⟩ := bind_eq_ok.mp h₁
  obtain ⟨builder', -, h₁⟩ := bind_eq_ok.mp h₁
  obtain ⟨w, -, h₁⟩ := bind_eq_ok.mp h₁
  obtain rfl := Except.ok.inj h₁
  obtain rfl := Except.ok.inj h
  exact ⟨rfl, rfl, rfl, rfl⟩

/-- Step 4 leaves the log and the cache as they were, and the memtable too or an empty one. -/
theorem rotateIf_eq_ok {full : Bool} (h : db.rotateIf env full = .ok db') :
    (db'.memTable = db.memTable ∨ db'.memTable = MemTable.new) ∧ db'.wal = db.wal ∧
      db'.cache = db.cache := by
  cases full with
  | false =>
    obtain rfl := Except.ok.inj h
    exact ⟨Or.inl rfl, rfl, rfl⟩
  | true =>
    obtain ⟨htable, hwal, hcache, -⟩ := rotate_eq_ok h
    exact ⟨Or.inr htable, hwal, hcache⟩

/-- The memtable after `Put`: the key has the new value. -/
theorem putTable_spec {t : MemTable} (h : t.Holds m) (key value : StringView) (level : Level) :
    ∃ t', putTable t key value level = .ok t' ∧ t'.Holds (m.put key.cstr value.cstr) := by
  rw [putTable, MemTable.contains_spec key h, ok_bind]
  by_cases hc : m.contains key.cstr = true
  · obtain ⟨t', hrun, ht⟩ := MemTable.update_spec key value level h
    exact ⟨t', by rw [if_pos hc, hrun], ht⟩
  · obtain ⟨t', hrun, ht⟩ := MemTable.add_spec key value level h
    rw [SortedMap.insertNew, if_neg hc] at ht
    exact ⟨t', by rw [if_neg hc, hrun], ht⟩

/-- The memtable after `Delete`: the key has the tombstone. -/
theorem deleteTable_spec {t : MemTable} (h : t.Holds m) (key : StringView) (level : Level) :
    ∃ t', deleteTable t key level = .ok t' ∧ t'.Holds (m.put key.cstr []) := by
  rw [deleteTable, MemTable.contains_spec key h, ok_bind]
  by_cases hc : m.contains key.cstr = true
  · obtain ⟨t', hrun, ht⟩ := MemTable.delete_spec key level h
    exact ⟨t', by rw [if_pos hc, hrun], ht⟩
  · obtain ⟨t', hrun, ht⟩ := MemTable.add_spec key (.ofBytes []) level h
    rw [SortedMap.insertNew, if_neg hc] at ht
    exact ⟨t', by rw [if_neg hc, hrun], ht⟩

/-- What a returning `Put` has done. -/
structure PutDone (env : Env) (db : DbImpl) (key value : StringView) (chance : Chance)
    (status : DBStatus) (db' : DbImpl) : Prop where
  logged : value.bytes.length < uint32Max ∧ ∃ s, WALWriter.addLog env.crc db.wal
    (payload key.bytes value.bytes chance.stack) = .ok (s, db'.wal)
  table : ∀ m, db.memTable.Holds m →
    db'.memTable.Holds (m.put key.cstr value.cstr) ∨ db'.memTable.Holds .empty
  outcome :
    (key.bytes = [] ∨ value.bytes = []) ∧ status = .invalidArgs ∧ db'.cache = db.cache ∨
    (key.bytes ≠ [] ∧ value.bytes ≠ []) ∧ status = .success ∧
      db.cache.insert env.hashFn key.bytes value.bytes = .ok db'.cache

/-- **The inversion of `Put`.** -/
theorem put_eq_ok (h : db.put env key value chance = .ok (status, db')) :
    PutDone env db key value chance status db' := by
  obtain ⟨db₁, hlog, h⟩ := bind_eq_ok.mp h
  obtain ⟨hfits, s, wal, hwal, rfl⟩ := addLog_eq_ok.mp hlog
  obtain ⟨t, ht, h⟩ := bind_eq_ok.mp h
  have htable : ∀ m, db.memTable.Holds m → t.Holds (m.put key.cstr value.cstr) := fun m hm => by
    obtain ⟨t', hrun, ht'⟩ := putTable_spec hm key value chance.level
    obtain rfl : t' = t := Except.ok.inj (hrun.symm.trans ht)
    exact ht'
  by_cases hempty : (key.empty || value.empty) = true
  · rw [if_pos hempty] at h
    obtain ⟨rfl, rfl⟩ := Prod.mk.inj (Except.ok.inj h)
    refine ⟨⟨hfits, s, hwal⟩, fun m hm => Or.inl (htable m hm), Or.inl ⟨?_, rfl, rfl⟩⟩
    simpa [StringView.empty] using hempty
  · rw [if_neg hempty] at h
    obtain ⟨cache, hcache, h⟩ := bind_eq_ok.mp h
    have hne : key.bytes ≠ [] ∧ value.bytes ≠ [] := by simpa [StringView.empty] using hempty
    obtain ⟨db₂, hrotate, h⟩ := bind_eq_ok.mp h
    obtain ⟨rfl, rfl⟩ := Prod.mk.inj (Except.ok.inj h)
    obtain ⟨htab, hw, hc⟩ := rotateIf_eq_ok hrotate
    refine ⟨⟨hfits, s, hw ▸ hwal⟩, fun m hm => ?_, Or.inr ⟨hne, rfl, hc ▸ hcache⟩⟩
    rcases htab with htab | htab
    · exact Or.inl (htab ▸ htable m hm)
    · exact Or.inr (htab ▸ MemTable.holds_new)

/-- What a returning `Delete` of a nonempty key has done. -/
structure DeleteDone (env : Env) (db : DbImpl) (key : StringView) (chance : Chance)
    (db' : DbImpl) : Prop where
  logged : ∃ s, WALWriter.addLog env.crc db.wal (payload key.bytes [] chance.stack) =
    .ok (s, db'.wal)
  table : ∀ m, db.memTable.Holds m →
    db'.memTable.Holds (m.put key.cstr []) ∨ db'.memTable.Holds .empty
  cache : db.cache.erase env.hashFn key.cstr = .ok db'.cache

/-- **The inversion of `Delete`.** -/
theorem delete_eq_ok (h : db.delete env key chance = .ok (status, db')) :
    key.bytes = [] ∧ status = .invalidArgs ∧ db' = db ∨
    key.bytes ≠ [] ∧ status = .success ∧ DeleteDone env db key chance db' := by
  rw [delete] at h
  by_cases hempty : key.empty = true
  · rw [if_pos hempty] at h
    obtain ⟨rfl, rfl⟩ := Prod.mk.inj (Except.ok.inj h)
    exact Or.inl ⟨by simpa [StringView.empty] using hempty, rfl, rfl⟩
  · rw [if_neg hempty] at h
    have hne : key.bytes ≠ [] := by simpa [StringView.empty] using hempty
    obtain ⟨db₁, hlog, h⟩ := bind_eq_ok.mp h
    obtain ⟨-, s, wal, hwal, rfl⟩ := addLog_eq_ok.mp hlog
    obtain ⟨t, ht, h⟩ := bind_eq_ok.mp h
    have htable : ∀ m, db.memTable.Holds m → t.Holds (m.put key.cstr []) := fun m hm => by
      obtain ⟨t', hrun, ht'⟩ := deleteTable_spec hm key chance.level
      obtain rfl : t' = t := Except.ok.inj (hrun.symm.trans ht)
      exact ht'
    obtain ⟨cache, hcache, h⟩ := bind_eq_ok.mp h
    obtain ⟨db₂, hrotate, h⟩ := bind_eq_ok.mp h
    obtain ⟨rfl, rfl⟩ := Prod.mk.inj (Except.ok.inj h)
    obtain ⟨htab, hw, hc⟩ := rotateIf_eq_ok hrotate
    refine Or.inr ⟨hne, rfl, ⟨s, hw ▸ hwal⟩, fun m hm => ?_, hc ▸ hcache⟩
    rcases htab with htab | htab
    · exact Or.inl (htab ▸ htable m hm)
    · exact Or.inr (htab ▸ MemTable.holds_new)

/-- **The table file never answers.** -/
theorem getFromSst_ne_ok {ret : Bytes} {r : DBStatus × Option Bytes × DbImpl} :
    db.getFromSst env key ret ≠ .ok r := by
  intro h
  obtain ⟨parser, hopen, -⟩ := bind_eq_ok.mp h
  exact SSTParser.openTable_ne_ok _ parser hopen

end DbImpl

end SmallKV
