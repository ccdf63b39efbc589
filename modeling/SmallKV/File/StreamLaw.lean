import SmallKV.File.FileWriter

/-!
# File/StreamLaw — the writer over whole runs

Any `append`, `flush` and `sync` calls on a writer return, and its stream is what the file held at
first, followed by everything appended (`stream_of_run`).  `flush`, `sync` and `close` then leave
all of it in the file.
-/

namespace SmallKV.FileWriter

/-- The calls on a writer; `append` is handed as many bytes as it is to copy, at least. -/
inductive Call
  | append (data : Bytes) (len : ℕ) (flush : Bool) (enough : len ≤ data.length)
  | flush
  | sync

/-- One call. -/
def step (w : FileWriter) : Call → Exec (FileWriter × Unit)
  | .append data len flush _ => do
      let (_, w) ← w.append data len flush
      return (w, ())
  | .flush => do return (← w.flush, ())
  | .sync => do return (← w.sync, ())

/-- The bytes a call appends. -/
def Call.appended : Call → Bytes
  | .append data len _ _ => data.take len
  | .flush => []
  | .sync => []

variable {w : FileWriter}

/-- **Every call on an open writer returns, and extends the stream by what it appends.** -/
theorem step_spec (hopen : w.opened = true) (c : Call) :
    ∃ w', w.step c = .ok (w', ()) ∧ w'.stream = w.stream ++ c.appended ∧ w'.opened = true := by
  cases c with
  | append data len flush enough =>
    obtain ⟨w', hrun, hstream, hopened⟩ := append_spec hopen enough flush
    exact ⟨w', by simp [step, hrun], hstream, hopened⟩
  | flush =>
    obtain ⟨w', hrun, hstream, hopened, -⟩ := sync_spec hopen
    have hflush : w.flush = .ok w' := hrun
    exact ⟨w', by simp [step, hflush], by simp [hstream, Call.appended], hopened⟩
  | sync =>
    obtain ⟨w', hrun, hstream, hopened, -⟩ := sync_spec hopen
    exact ⟨w', by simp [step, hrun], by simp [hstream, Call.appended], hopened⟩

/-- The writer holds nothing back: the buffer is empty, and the file holds these bytes. -/
def Persisted (w : FileWriter) (bytes : Bytes) : Prop := w.buffer = [] ∧ w.file = bytes

/-- **`flush`, `sync` and `close` empty the buffer into the file.** -/
theorem persisted_of_stream (hopen : w.opened = true) :
    (∃ w', w.flush = .ok w' ∧ w'.Persisted w.stream) ∧
      (∃ w', w.sync = .ok w' ∧ w'.Persisted w.stream) ∧
      ∃ w', w.close = .ok w' ∧ w'.Persisted w.stream := by
  obtain ⟨w', hsync, hstream, -, hbuffer⟩ := sync_spec hopen
  have hflush : w.flush = .ok w' := hsync
  have hpersisted : w'.Persisted w.stream := ⟨hbuffer, by rw [← hstream, stream_eq_file hbuffer]⟩
  refine ⟨⟨w', hflush, hpersisted⟩, ⟨w', hsync, hpersisted⟩, { w' with opened := false }, ?_,
    hpersisted⟩
  rw [close, hflush]
  rfl

/-- **The stream law.**  Any calls on a file opened for appending return: no copy leaves the buffer
and no loop runs on.  The file and the buffer then hold what the file held at first, followed by all
the data appended, in order; and `flush`, `sync` and `close` leave all of it in the file. -/
theorem stream_of_run (file : Bytes) (calls : List Call) :
    ∃ w rs, runFrom step (new file true) calls = .ok (w, rs) ∧
      w.stream = file ++ calls.flatMap Call.appended ∧ w.buffer.length ≤ bufferSize ∧
      (∃ w', w.flush = .ok w' ∧ w'.Persisted (file ++ calls.flatMap Call.appended)) ∧
      (∃ w', w.sync = .ok w' ∧ w'.Persisted (file ++ calls.flatMap Call.appended)) ∧
      ∃ w', w.close = .ok w' ∧ w'.Persisted (file ++ calls.flatMap Call.appended) := by
  obtain ⟨w, rs, hrun, hopened, hstream⟩ := run_total_history step
    (I := fun h w => w.opened = true ∧ w.stream = file ++ (h.map Prod.fst).flatMap Call.appended)
    (fun h w c ⟨hopen, hstream⟩ => by
      obtain ⟨w', hstep, hstream', hopen'⟩ := step_spec hopen c
      exact ⟨w', (), hstep, hopen', by simp [hstream', hstream]⟩)
    calls [] (new file true) ⟨rfl, by simp [new, stream]⟩
  have hcalls : ([] ++ calls.zip rs).map Prod.fst = calls :=
    List.map_fst_zip (length_of_runFrom step hrun).ge
  rw [hcalls] at hstream
  exact ⟨w, rs, hrun, hstream, w.fits, hstream ▸ persisted_of_stream hopened⟩

end SmallKV.FileWriter
