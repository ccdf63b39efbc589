import SmallKV.Db.DbImpl
import SmallKV.Table.Layout

/-!
# Db/Sessions — table files across restarts

`MemTableToSST` opens the table file in append mode, under a number that starts from `LISST_NUM` of
the options in every session.  So a table lands behind whatever the file holds already
(`memTableToSST_eq`), and the table files of a run stay what they were built as exactly while every
flush finds nothing at its path (`intact_iff`).
-/

namespace SmallKV

namespace Disk

theorem read_write (disk : Disk) (path contents : Bytes) :
    (disk.write path contents).read path = some contents :=
  Function.update_self ..

theorem read_write_of_ne {disk : Disk} {path path' contents : Bytes}
    (h : normalise path' ≠ normalise path) :
    (disk.write path contents).read path' = disk.read path' :=
  Function.update_of_ne h ..

theorem read_congr {disk : Disk} {path path' : Bytes} (h : normalise path' = normalise path) :
    disk.read path' = disk.read path :=
  congrArg disk h

end Disk

/-! ## The table of a memtable -/

/-- The table built from a memtable, in a file of its own. -/
def tableOf (sizing : BloomSizing) (t : MemTable) : Exec Bytes := do
  let b ← SSTableBuilder.new sizing (toInt32 t.getSize) (.new [] true)
  let b ← convertEntries sizing t [] b
  let w ← b.fileWriter.sync
  return w.file

theorem convertEntries_prepend (sizing : BloomSizing) (old : Bytes) (t : MemTable) (path : Bytes)
    (b : SSTableBuilder) : convertEntries sizing t path (b.prepend old) =
      SSTableBuilder.prepend old <$> convertEntries sizing t [] b := by
  rw [convertEntries, convertEntries]
  cases t.orderedTable.traverse with
  | error e => rfl
  | ok pairs =>
    rw [ok_bind, ok_bind, SSTableBuilder.addAll_prepend]
    refine bind_map_comm fun b₁ => ?_
    rw [SSTableBuilder.finishSst_prepend]
    exact bind_map_comm fun _ => rfl

/-- No table is empty. -/
theorem tableOf_ne_nil {sizing : BloomSizing} {t : MemTable} {table : Bytes}
    (h : tableOf sizing t = .ok table) : table ≠ [] := by
  obtain ⟨b₀, hnew, h⟩ := bind_eq_ok.mp h
  obtain ⟨b', hconvert, h⟩ := bind_eq_ok.mp h
  obtain ⟨w, hsync, h⟩ := bind_eq_ok.mp h
  obtain rfl := Except.ok.inj h
  obtain ⟨pairs, -, hconvert⟩ := bind_eq_ok.mp hconvert
  obtain ⟨b, hadd, hconvert⟩ := bind_eq_ok.mp hconvert
  obtain ⟨⟨status, b''⟩, hfinish, hb''⟩ := bind_eq_ok.mp hconvert
  obtain rfl := Except.ok.inj hb''
  have hfile := file_ne_nil_of_finishSst hnew hadd hfinish
  rw [FileWriter.flush_eq_ok hsync, FileWriter.stream]
  exact List.append_ne_nil_of_left_ne_nil hfile _

namespace DbImpl

variable {env : Env} {db db' : DbImpl}

/-- **`MemTableToSST` appends the table of the memtable to the file at its path.** -/
theorem memTableToSST_eq (henv : env.convertToL1SST = convertEntries env.sizing) (db : DbImpl) :
    db.memTableToSST env = (do
      let table ← tableOf env.sizing db.memTable
      return { db with
        disk := db.disk.write db.sstFilepath ((db.disk.read db.sstFilepath).getD [] ++ table)
        options := { db.options with lisstNum := toUInt32 (db.options.lisstNum + 1) } }) := by
  rw [memTableToSST, henv]
  generalize (db.disk.read db.sstFilepath).getD [] = old
  rw [FileWriter.new_append, SSTableBuilder.new_prepend, tableOf]
  cases SSTableBuilder.new env.sizing (toInt32 db.memTable.getSize) (.new [] true) with
  | error e => rfl
  | ok b₀ =>
    simp only [map_ok, ok_bind, convertEntries_prepend]
    cases convertEntries env.sizing db.memTable [] b₀ with
    | error e => rfl
    | ok b =>
      have hsync : (b.prepend old).fileWriter.sync = FileWriter.prepend old <$> b.fileWriter.sync :=
        FileWriter.flush_prepend old b.fileWriter
      simp only [map_ok, ok_bind, hsync]
      cases b.fileWriter.sync <;> rfl

/-! ## Calls up to their flush -/

/-- A call up to step 4: the database, and whether step 4 finds the memtable over its limit. -/
def beforeFlush (env : Env) (db : DbImpl) : Call → Exec (DbImpl × Bool)
  | .put key value chance => do
      let db ← db.addLog env key.bytes value.bytes chance.stack
      let table ← putTable db.memTable key value chance.level
      let db := { db with memTable := table }
      if key.empty || value.empty then return (db, false)
      let db := { db with cache := ← db.cache.insert env.hashFn key.bytes value.bytes }
      return (db, db.options.memTableMaxSize < toUInt64 db.memTable.getMemUsage)
  | .delete key chance => do
      if key.empty then return (db, false)
      let db ← db.addLog env key.bytes [] chance.stack
      let table ← deleteTable db.memTable key chance.level
      let db := { db with memTable := table }
      let db := { db with cache := ← db.cache.erase env.hashFn key.cstr }
      return (db, db.options.memTableMaxSize ≤ toUInt64 db.memTable.getMemUsage)
  | .get key ret => do
      let (_, _, db) ← db.get env key ret
      return (db, false)

/-- **A call is what comes before step 4, and step 4.** -/
theorem step_eq_ok {c : Call} {reply : Reply} (h : db.step env c = .ok (db', reply)) :
    ∃ db₁ full, db.beforeFlush env c = .ok (db₁, full) ∧ db₁.rotateIf env full = .ok db' := by
  cases c with
  | put key value chance =>
    obtain ⟨⟨status, db₂⟩, hput, h⟩ := bind_eq_ok.mp h
    obtain ⟨rfl, -⟩ := Prod.mk.inj (Except.ok.inj h)
    obtain ⟨db₁, hlog, hput⟩ := bind_eq_ok.mp hput
    obtain ⟨t, ht, hput⟩ := bind_eq_ok.mp hput
    rw [beforeFlush, hlog, ok_bind, ht, ok_bind]
    split_ifs at hput ⊢ with hempty
    · obtain ⟨-, rfl⟩ := Prod.mk.inj (Except.ok.inj hput)
      exact ⟨_, _, rfl, rfl⟩
    · obtain ⟨cache, hcache, hput⟩ := bind_eq_ok.mp hput
      obtain ⟨db₃, hrotate, hput⟩ := bind_eq_ok.mp hput
      obtain ⟨-, rfl⟩ := Prod.mk.inj (Except.ok.inj hput)
      exact ⟨_, _, bind_eq_ok.mpr ⟨cache, hcache, rfl⟩, hrotate⟩
  | delete key chance =>
    obtain ⟨⟨status, db₂⟩, hdelete, h⟩ := bind_eq_ok.mp h
    obtain ⟨rfl, -⟩ := Prod.mk.inj (Except.ok.inj h)
    rw [delete] at hdelete
    rw [beforeFlush]
    split_ifs at hdelete ⊢ with hempty
    · obtain ⟨-, rfl⟩ := Prod.mk.inj (Except.ok.inj hdelete)
      exact ⟨_, _, rfl, rfl⟩
    · obtain ⟨db₁, hlog, hdelete⟩ := bind_eq_ok.mp hdelete
      obtain ⟨t, ht, hdelete⟩ := bind_eq_ok.mp hdelete
      obtain ⟨cache, hcache, hdelete⟩ := bind_eq_ok.mp hdelete
      obtain ⟨db₃, hrotate, hdelete⟩ := bind_eq_ok.mp hdelete
      obtain ⟨-, rfl⟩ := Prod.mk.inj (Except.ok.inj hdelete)
      rw [hlog, ok_bind, ht, ok_bind]
      exact ⟨_, _, bind_eq_ok.mpr ⟨cache, hcache, rfl⟩, hrotate⟩
  | get key ret =>
    obtain ⟨⟨status, out, db₂⟩, hget, h⟩ := bind_eq_ok.mp h
    obtain ⟨rfl, -⟩ := Prod.mk.inj (Except.ok.inj h)
    rw [beforeFlush, hget]
    exact ⟨_, _, rfl, rfl⟩

/-- `Get` leaves the files and the options alone. -/
theorem get_files {key : StringView} {ret out : Option Bytes} {status : DBStatus}
    (h : db.get env key ret = .ok (status, out, db')) :
    db'.disk = db.disk ∧ db'.options = db.options := by
  cases ret with
  | none =>
    obtain ⟨-, -, rfl⟩ := Except.ok.inj h
    exact ⟨rfl, rfl⟩
  | some old =>
    rw [get] at h
    split_ifs at h with hempty hcached
    · obtain ⟨-, -, rfl⟩ := Except.ok.inj h
      exact ⟨rfl, rfl⟩
    · obtain ⟨⟨cache, node⟩, -, h⟩ := bind_eq_ok.mp h
      obtain ⟨n, -, h⟩ := bind_eq_ok.mp h
      obtain ⟨nd, -, h⟩ := bind_eq_ok.mp h
      obtain ⟨-, -, rfl⟩ := Except.ok.inj h
      exact ⟨rfl, rfl⟩
    · obtain ⟨found, -, h⟩ := bind_eq_ok.mp h
      cases found with
      | true =>
        obtain ⟨v, -, h⟩ := bind_eq_ok.mp h
        obtain ⟨val, -, h⟩ := bind_eq_ok.mp h
        obtain ⟨-, -, rfl⟩ := Except.ok.inj h
        exact ⟨rfl, rfl⟩
      | false => exact absurd h getFromSst_ne_ok

/-- Nothing before step 4 touches the table files or the options. -/
theorem beforeFlush_files {c : Call} {db₁ : DbImpl} {full : Bool}
    (h : db.beforeFlush env c = .ok (db₁, full)) :
    db₁.disk = db.disk ∧ db₁.options = db.options := by
  cases c with
  | put key value chance =>
    obtain ⟨db₂, hlog, h⟩ := bind_eq_ok.mp h
    obtain ⟨-, s, wal, -, rfl⟩ := addLog_eq_ok.mp hlog
    obtain ⟨t, -, h⟩ := bind_eq_ok.mp h
    split_ifs at h with hempty
    · obtain ⟨rfl, -⟩ := Prod.mk.inj (Except.ok.inj h)
      exact ⟨rfl, rfl⟩
    · obtain ⟨cache, -, h⟩ := bind_eq_ok.mp h
      obtain ⟨rfl, -⟩ := Prod.mk.inj (Except.ok.inj h)
      exact ⟨rfl, rfl⟩
  | delete key chance =>
    rw [beforeFlush] at h
    split_ifs at h with hempty
    · obtain ⟨rfl, -⟩ := Prod.mk.inj (Except.ok.inj h)
      exact ⟨rfl, rfl⟩
    · obtain ⟨db₂, hlog, h⟩ := bind_eq_ok.mp h
      obtain ⟨-, s, wal, -, rfl⟩ := addLog_eq_ok.mp hlog
      obtain ⟨t, -, h⟩ := bind_eq_ok.mp h
      obtain ⟨cache, -, h⟩ := bind_eq_ok.mp h
      obtain ⟨rfl, -⟩ := Prod.mk.inj (Except.ok.inj h)
      exact ⟨rfl, rfl⟩
  | get key ret =>
    obtain ⟨⟨status, out, db₂⟩, hget, h⟩ := bind_eq_ok.mp h
    obtain ⟨rfl, -⟩ := Prod.mk.inj (Except.ok.inj h)
    exact get_files hget

/-- What step 4 does to the table files, when the memtable is over its limit. -/
theorem rotate_disk (henv : env.convertToL1SST = convertEntries env.sizing)
    (h : db.rotate env = .ok db') : ∃ table, tableOf env.sizing db.memTable = .ok table ∧
      db'.disk =
        db.disk.write db.sstFilepath ((db.disk.read db.sstFilepath).getD [] ++ table) := by
  obtain ⟨db₁, hflush, h⟩ := bind_eq_ok.mp h
  obtain rfl := Except.ok.inj h
  rw [memTableToSST_eq henv] at hflush
  obtain ⟨table, htable, hflush⟩ := bind_eq_ok.mp hflush
  obtain rfl := Except.ok.inj hflush
  exact ⟨table, htable, rfl⟩

/-! ## Sessions -/

/-- A database over its storage directory, and what it was flushed so far, in this session and the
ones before: the memtables, each with the path its table was written to. -/
structure Store where
  db : DbImpl
  written : List (MemTable × Bytes)

/-- What happens to a store: a call, or the end of a session and the start of the next. -/
inductive Event
  | restart
  | call (c : Call)

namespace Store

/-- One event.  A restart destroys the database, which writes out its log, and makes a new one. -/
def step (env : Env) (options : Options) (s : Store) : Event → Exec (Store × Option Reply)
  | .restart => do
      let wal ← s.db.wal.sync
      return ({ s with db := .new options wal.file s.db.disk }, none)
  | .call c => do
      let (db, reply) ← s.db.step env c
      let (db₁, full) ← s.db.beforeFlush env c
      let flushed := if full then [(db₁.memTable, db₁.sstFilepath)] else []
      return (⟨db, s.written ++ flushed⟩, some reply)

/-- The first session starts over an existing log and existing table files. -/
def new (options : Options) (wal : Bytes) (disk : Disk) : Store := ⟨.new options wal disk, []⟩

/-- Every table file written so far is the table built from its memtable. -/
def Intact (sizing : BloomSizing) (s : Store) : Prop :=
  ∀ f ∈ s.written, ∃ table, tableOf sizing f.1 = .ok table ∧ s.db.disk.read f.2 = some table

/-- A flush finds no file at its path, or an empty one. -/
def FindsNothing (env : Env) (s : Store) : Event → Prop
  | .restart => True
  | .call c => (∃ db₁, s.db.beforeFlush env c = .ok (db₁, true)) →
      (s.db.disk.read s.db.sstFilepath).getD [] = []

variable {options : Options} {s s₁ : Store}

/-- **A flush keeps the tables intact exactly when it finds nothing at its path**: the tables
written before are elsewhere then, since no table is empty. -/
theorem intact_flush_iff (henv : env.convertToL1SST = convertEntries env.sizing) {db₁ : DbImpl}
    (hs : s.Intact env.sizing) (hdisk : db₁.disk = s.db.disk)
    (hrotate : db₁.rotate env = .ok db) :
    (⟨db, s.written ++ [(db₁.memTable, db₁.sstFilepath)]⟩ : Store).Intact env.sizing ↔
      (s.db.disk.read db₁.sstFilepath).getD [] = [] := by
  obtain ⟨table, htable, hafter⟩ := rotate_disk henv hrotate
  rw [hdisk] at hafter
  constructor
  · intro hintact
    obtain ⟨table', htable', hread⟩ := hintact (db₁.memTable, db₁.sstFilepath) (by simp)
    obtain rfl := Except.ok.inj (htable.symm.trans htable')
    rw [hafter, Disk.read_write] at hread
    exact List.append_left_eq_self.mp (Option.some.inj hread)
  · intro hempty f hf
    rw [hempty, List.nil_append] at hafter
    rcases List.mem_append.mp hf with hf | hf
    · obtain ⟨table', htable', hread⟩ := hs f hf
      refine ⟨table', htable', ?_⟩
      rw [hafter, Disk.read_write_of_ne, hread]
      intro hsame
      rw [← Disk.read_congr hsame, hread] at hempty
      exact tableOf_ne_nil htable' hempty
    · obtain rfl := List.mem_singleton.mp hf
      exact ⟨table, htable, by rw [hafter, Disk.read_write]⟩

/-- **One event keeps the tables intact exactly when a flush finds nothing at its path.** -/
theorem intact_step_iff (henv : env.convertToL1SST = convertEntries env.sizing) {e : Event}
    {reply : Option Reply} (hs : s.Intact env.sizing)
    (hstep : s.step env options e = .ok (s₁, reply)) :
    s₁.Intact env.sizing ↔ s.FindsNothing env e := by
  cases e with
  | restart =>
    obtain ⟨wal, -, hs₁⟩ := bind_eq_ok.mp hstep
    obtain ⟨rfl, -⟩ := Prod.mk.inj (Except.ok.inj hs₁)
    exact iff_of_true hs trivial
  | call c =>
    obtain ⟨⟨db, reply'⟩, hcall, hstep⟩ := bind_eq_ok.mp hstep
    obtain ⟨⟨db₁, full⟩, hbefore, hs₁⟩ := bind_eq_ok.mp hstep
    obtain ⟨rfl, -⟩ := Prod.mk.inj (Except.ok.inj hs₁)
    obtain ⟨db₁', full', hbefore', hrotate⟩ := step_eq_ok hcall
    obtain ⟨rfl, rfl⟩ := Prod.mk.inj (Except.ok.inj (hbefore.symm.trans hbefore'))
    obtain ⟨hdisk, hoptions⟩ := beforeFlush_files hbefore
    cases full with
    | false =>
      obtain rfl := Except.ok.inj hrotate
      refine iff_of_true (fun f hf => ?_) ?_
      · rw [hdisk]
        exact hs f (by simpa using hf)
      · rintro ⟨db₂, hbefore₂⟩
        cases hbefore.symm.trans hbefore₂
    | true =>
      have hpath : db₁.sstFilepath = s.db.sstFilepath := by
        rw [sstFilepath, sstFilepath, hoptions]
      have hiff := intact_flush_iff henv hs hdisk hrotate
      rw [hpath] at hiff
      refine Iff.trans ?_ (hiff.trans ⟨fun hempty _ => hempty, fun h => h ⟨db₁, hbefore⟩⟩)
      rw [← hpath]
      exact Iff.rfl

/-- **Table files across restarts.**  Over any sessions, every table file holds exactly the table of
its memtable, from when it is written, if and only if each flush finds nothing at its path. -/
theorem intact_iff (henv : env.convertToL1SST = convertEntries env.sizing) {wal : Bytes}
    {disk : Disk} {events : List Event} {replies : List (Option Reply)}
    (hrun : runFrom (step env options) (new options wal disk) events = .ok (s, replies)) :
    (∀ pre, pre <+: events → ∀ s₁ rs, runFrom (step env options) (new options wal disk) pre =
      .ok (s₁, rs) → s₁.Intact env.sizing) ↔
      Along (step env options) (FindsNothing env) (new options wal disk) events :=
  run_always_iff (step env options) (I := fun _ => True)
    (fun _ _ _ _ _ hs hstep => ⟨trivial, intact_step_iff henv hs hstep⟩) events _ _ _ trivial
    (fun _ hf => absurd hf List.not_mem_nil) hrun

/-- A memtable over its limit from the first pair on. -/
def small : Options := { memTableMaxSize := 1 }

/-- A call that then flushes. -/
def flushing : Event := .call (.put (.ofBytes [107]) (.ofBytes [118]) .quiet)

/-- Two flushes in one session go to two files. -/
theorem intact_iff_two :
    ∃ s replies, runFrom (step Env.plain small) (new small [] fun _ => none) [flushing, flushing] =
      .ok (s, replies) ∧ s.written.length = 2 ∧ s.Intact .percent := by
  have hruns : (do
      let (s₁, _) ← step Env.plain small (new small [] fun _ => none) flushing
      let (s, _) ← runFrom (step Env.plain small) (new small [] fun _ => none) [flushing, flushing]
      require ((s₁.db.disk.read s₁.db.sstFilepath).getD [] = []) .assertion
      require (s.written.length = 2) .assertion) = (.ok () : Exec Unit) := rfl
  simp only [bind_eq_ok, require_eq_ok, decide_eq_true_eq, Prod.exists] at hruns
  obtain ⟨s₁, r₁, hstep, s, replies, hrun, -, hnothing, hwritten⟩ := hruns
  have halong : Along (step Env.plain small) (FindsNothing Env.plain) (new small [] fun _ => none)
      [flushing, flushing] := by
    refine ⟨fun _ => rfl, fun s₂ r₂ hstep₂ => ⟨fun _ => ?_, fun _ _ _ => trivial⟩⟩
    obtain ⟨rfl, -⟩ := Prod.mk.inj (Except.ok.inj (hstep.symm.trans hstep₂))
    exact hnothing
  exact ⟨s, replies, hrun, hwritten, (intact_iff rfl hrun).mpr halong _ List.prefix_rfl s _ hrun⟩

/-- In every state of every run of sessions, all table files are intact. -/
def FilesSurvive : Prop :=
  ∀ (env : Env) (options : Options) (wal : Bytes) (disk : Disk) (events : List Event) (s : Store)
    (replies : List (Option Reply)), env.convertToL1SST = convertEntries env.sizing →
    runFrom (step env options) (new options wal disk) events = .ok (s, replies) →
    s.Intact env.sizing

/-- **The flush of a second session lands behind the table of the first.** -/
theorem not_filesSurvive : ¬ FilesSurvive := by
  intro h
  have hrun : (do
      let (s, _) ← runFrom (step Env.plain small) (new small [] fun _ => none)
        [flushing, .restart, flushing]
      let f ← orFault .outOfBounds s.written.head?
      let table ← tableOf .percent f.1
      require (s.db.disk.read f.2 ≠ some table) .assertion) = (.ok () : Exec Unit) := rfl
  simp only [bind_eq_ok, orFault_eq_ok, require_eq_ok, decide_eq_true_eq, Prod.exists] at hrun
  obtain ⟨s, replies, hrun, t, path, hf, table, htable, hread⟩ := hrun
  obtain ⟨table', htable', hread'⟩ := h Env.plain small _ _ _ s replies rfl hrun (t, path)
    (List.mem_of_mem_head? hf)
  obtain rfl := Except.ok.inj (htable.symm.trans htable')
  exact hread hread'

end Store

end DbImpl

end SmallKV
