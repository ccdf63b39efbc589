import SmallKV.Db.Sessions
import SmallKV.Db.Threads
import SmallKV.Db.Writes
import SmallKV.Wal.WalReader

/-!
# Db/LogHistory — the log over sessions and under threads

Every write hands one payload to `AddLog`, which appends one record to the log file and leaves
nothing in the buffer.  So the log is never lost or overwritten: over any number of sessions it holds
the payloads of all writes, in order, and a reader gets exactly these back, unless one of them is
longer than what one `pread` transfers (`Store.log_read_back`).  When threads share the database the
records are those of the writes in the order in which they take effect, one for each
(`threads_logged`).
-/

namespace SmallKV

/-- `AddLog` leaves the writer open, and nothing in its buffer. -/
theorem WALWriter.synced_of_addLogs {crc : Bytes → UInt32} : ∀ {logs : List Bytes}
    {w w' : FileWriter}, w.opened = true → w.buffer = [] → addLogs crc w logs = .ok w' →
      w'.opened = true ∧ w'.buffer = []
  | [], w, w', hopen, hbuffer, h => by
      obtain rfl : w = w' := Except.ok.inj h
      exact ⟨hopen, hbuffer⟩
  | log :: logs, w, w', hopen, hbuffer, h => by
      have hlog := (addLogs_eq_ok crc hopen hbuffer h).1 log List.mem_cons_self
      obtain ⟨w₁, hfirst, -, hopen₁, hbuffer₁⟩ := addLog_of_nonneg crc hopen hlog
      rw [addLogs, hfirst, ok_bind] at h
      exact synced_of_addLogs hopen₁ hbuffer₁ h

namespace DbImpl

/-! ## Sessions -/

namespace Store

/-- The payload that an event hands to `AddLog`. -/
def handed : Event → Option Bytes
  | .restart => none
  | .call c => c.handed

variable {env : Env} {options : Options} {wal : Bytes} {disk : Disk} {s s₁ : Store}
  {h : List (Event × Option Reply)} {e : Event} {reply : Option Reply}

/-- **The log invariant over sessions**: all that was handed to `AddLog` is in the file, behind what
was there at first. -/
structure Recorded (env : Env) (wal : Bytes) (h : List (Event × Option Reply)) (s : Store) :
    Prop where
  shaped : Shaped s.db
  synced : s.db.wal.opened = true ∧ s.db.wal.buffer = []
  file : s.db.wal.file =
    wal ++ ((h.map Prod.fst).filterMap handed).flatMap (WALWriter.frame env.crc)

theorem recorded_new (env : Env) (options : Options) (wal : Bytes) (disk : Disk) :
    Recorded env wal [] (new options wal disk) where
  shaped := shaped_new options wal disk
  synced := ⟨rfl, rfl⟩
  file := by simp [new, DbImpl.new, FileWriter.new]

/-- The destructor writes out a log that is in the file already. -/
theorem sync_of_synced {w : FileWriter} (h : w.opened = true ∧ w.buffer = []) : w.sync = .ok w := by
  simp [FileWriter.sync, FileWriter.flush, h.2, pure_eq_ok]

/-- The database after a call appends the frame of what the call hands on. -/
theorem Recorded.call {c : Call} (hi : Recorded env wal h s) {db : DbImpl} {r : Reply}
    (hstep : s.db.step env c = .ok (db, r)) (written : List (MemTable × Bytes)) :
    Recorded env wal (h ++ [(.call c, some r)]) ⟨db, written⟩ := by
  have hlog := step_logged hi.shaped hstep
  obtain ⟨hopen, hbuffer⟩ := hi.synced
  refine ⟨hi.shaped.step hstep, WALWriter.synced_of_addLogs hopen hbuffer hlog, ?_⟩
  rw [(WALWriter.addLogs_eq_ok env.crc hopen hbuffer hlog).2, hi.file, List.append_assoc]
  cases hc : c.handed <;> simp [handed, hc]

/-- **The step lemma of the log over sessions.** -/
theorem Recorded.step (hi : Recorded env wal h s)
    (hstep : s.step env options e = .ok (s₁, reply)) :
    Recorded env wal (h ++ [(e, reply)]) s₁ := by
  cases e with
  | restart =>
    rw [Store.step, sync_of_synced hi.synced, ok_bind] at hstep
    obtain ⟨rfl, rfl⟩ := Prod.mk.inj (Except.ok.inj hstep)
    refine ⟨shaped_new options _ _, ⟨rfl, rfl⟩, ?_⟩
    rw [List.map_append, List.filterMap_append]
    exact hi.file.trans (by simp [handed])
  | call c =>
    obtain ⟨⟨db, r⟩, hcall, hstep⟩ := bind_eq_ok.mp hstep
    obtain ⟨⟨db₁, full⟩, -, hstep⟩ := bind_eq_ok.mp hstep
    obtain ⟨rfl, rfl⟩ := Prod.mk.inj (Except.ok.inj hstep)
    exact hi.call hcall _

theorem recorded_of_run {events : List Event} {replies : List (Option Reply)}
    (hrun : runFrom (step env options) (new options wal disk) events = .ok (s, replies)) :
    Recorded env wal (events.zip replies) s :=
  run_history (step env options) (fun _ _ _ _ _ hi _ hs => Recorded.step hi hs) events [] _ s replies
    (recorded_new env options wal disk)
    (along_of_forall _ (P := fun _ _ => True) (fun _ _ => trivial) _ _) hrun

/-- **The log of all sessions is read back.**  Let sessions with any calls follow each other over an
empty log, and let them hand on payloads that one `pread` transfers, whose records fit into `2 ^ 31`
bytes.  Then the reader returns the payloads of all writes of all sessions, in order, and fails after
the last. -/
theorem log_read_back {events : List Event} {replies : List (Option Reply)}
    (hrun : runFrom (step env options) (new options [] disk) events = .ok (s, replies))
    (hsmall : ∀ p ∈ events.filterMap handed, p.length ≤ FileReader.maxRwCount)
    (hfit : s.db.wal.file.length < 2 ^ 31) (log : Bytes) :
    ∃ log' r, WALReader.readLogs env.crc (events.filterMap handed).length
        (WALReader.openAt FileReader.maxRwCount s.db.wal.file 0) log =
          ((events.filterMap handed).map (.success, ·), log', r) ∧
      r.readLog env.crc log' = (.execFailed, log', r) := by
  have hfile := (recorded_of_run hrun).file
  rw [List.map_fst_zip (Nat.le_of_eq (length_of_runFrom _ hrun).symm), List.nil_append] at hfile
  -- no payload is so long that its record would be short of a part of it
  have hrecords : (events.filterMap handed).flatMap (WALWriter.frame env.crc) =
      (events.filterMap handed).flatMap (WALWriter.record env.crc) := by
    refine List.flatMap_congr fun p hp => ?_
    have hlt : p.length < 2 ^ 31 := (hsmall p hp).trans_lt (by decide)
    rw [WALWriter.frame, WALWriter.kept_of_lt hlt, WALWriter.record]
  rw [hfile, hrecords] at hfit ⊢
  have hheader : kHeaderSize ≤ FileReader.maxRwCount := by decide
  obtain ⟨log', hreads⟩ := WALReader.readLogs_whole env.crc hheader (events.filterMap handed) [] []
    log hsmall (by simpa using hfit)
  simp only [List.nil_append, List.append_nil, List.length_nil] at hreads
  have hend := @WALReader.readLog_short env.crc FileReader.maxRwCount log'
    ((events.filterMap handed).flatMap (WALWriter.record env.crc)) [] (by simpa using hfit)
    (Nat.zero_lt_succ 7)
  exact ⟨log', _, hreads, by simpa using hend⟩

/-- A write in each of two sessions. -/
def twoSessions : List Event :=
  [.call (.put (.ofBytes [107]) (.ofBytes [97]) .quiet), .restart,
    .call (.delete (.ofBytes [107]) .quiet)]

/-- Both payloads are read back: each ends inside the length of the key. -/
theorem log_read_back_two :
    ∃ s replies, runFrom (step Env.plain {}) (new {} [] fun _ => none) twoSessions =
        .ok (s, replies) ∧
      ∃ log' r, WALReader.readLogs Env.plain.crc 2
          (WALReader.openAt FileReader.maxRwCount s.db.wal.file 0) [] =
            ([(.success, [1]), (.success, [1])], log', r) ∧
        r.readLog Env.plain.crc log' = (.execFailed, log', r) := by
  have hrun : ∃ s replies, runFrom (step Env.plain {}) (new {} [] fun _ => none) twoSessions =
      .ok (s, replies) ∧ s.db.wal.file.length < 2 ^ 31 := ⟨_, _, rfl, by decide⟩
  obtain ⟨s, replies, hrun, hfit⟩ := hrun
  exact ⟨s, replies, hrun, log_read_back hrun (by decide) hfit []⟩

end Store

/-! ## Threads -/

section Threads

variable {ι : Type} [DecidableEq ι] {env : Env} {options : Options} {wal : Bytes} {disk : Disk}
  {programs : ι → List Call} {schedule : List ι} {us : List Unit}
  {s : Threads (Shared DbImpl ι) ι Call Reply (RwPhase DbImpl Bool Reply GetCall)}

/-- **No record is lost, repeated or torn between threads.**  Whenever nobody writes, the log file is
what was there at first and one record for each write that took effect, in one order that interleaves
the programs; and to a thread that has run its program belong all of its writes. -/
theorem threads_logged (hrun : runFrom (threaded env).step
      (threads (new options wal disk) programs) schedule = .ok (s, us))
    (hwriter : s.shared.lock.writer = none) :
    ∃ order : List (ι × Call), Interleaves programs order ∧
      (∀ i, s.busy i = none → s.todo i = [] → ofThread order i = programs i) ∧
      s.shared.object.wal.file = wal ++
        ((order.map Prod.snd).filterMap Call.handed).flatMap (WALWriter.frame env.crc) := by
  obtain ⟨order, more, -, db', -, hexplains, hinterleaves, hobject⟩ :=
    explains_of_shaped (shaped_new options wal disk) hrun
      (runFrom_nil (threaded env).step s)
  refine ⟨(order ++ more).map fun p => (p.1, p.2.1), hinterleaves,
    fun i hbusy htodo => hexplains.complete hrun hbusy htodo, ?_⟩
  have hlog := logged_of_run hexplains.run
  rw [hobject hwriter, (WALWriter.addLogs_eq_ok env.crc rfl rfl hlog).2, List.map_map]
  rfl

/-- Two threads that put one key each. -/
def twoWriters : Bool → List Call
  | true => [.put (.ofBytes [107]) (.ofBytes [97]) .quiet]
  | false => [.put (.ofBytes [108]) (.ofBytes [98]) .quiet]

/-- The log after the first of them has finished. -/
theorem threads_logged_two : ∃ s us, runFrom (threaded Env.plain).step
      (threads (new {} [] fun _ => none) twoWriters) (List.replicate 9 true) = .ok (s, us) ∧
    ∃ order : List (Bool × Call), Interleaves twoWriters order ∧
      (∀ i, s.busy i = none → s.todo i = [] → ofThread order i = twoWriters i) ∧
      s.shared.object.wal.file = [] ++
        ((order.map Prod.snd).filterMap Call.handed).flatMap (WALWriter.frame Env.plain.crc) := by
  have hturns : (fun p => p.1.shared.lock.writer) <$> runFrom (threaded Env.plain).step
      (threads (new {} [] fun _ => none) twoWriters) (List.replicate 9 true) = .ok none := by
    decide +kernel
  obtain ⟨⟨s, us⟩, hrun, hwriter⟩ := map_eq_ok.mp hturns
  exact ⟨s, us, hrun, threads_logged hrun hwriter⟩

end Threads

end DbImpl

end SmallKV
