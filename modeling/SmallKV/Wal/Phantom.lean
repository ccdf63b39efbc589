import SmallKV.Wal.Scan

/-!
# Wal/Phantom — calls of `ReadLog` that go on after an error

After a torn record the reader stands behind its header, and the next call takes the bytes of the
payload for a header.  `Meets` tells the records that calls meet from there on.  On a log cut
anywhere the calls return nothing but payloads, in order, exactly when the part that is left of the
torn payload holds no record, or by accident (`noPhantom_iff`).
-/

namespace SmallKV.WALReader

open FileReader (unlimited)

variable (crc : Bytes → UInt32)

/-! ## Sessions -/

/-- One call, into a string that holds `log`. -/
def call (r : WALReader) (log : Bytes) : WALReader × (DBStatus × Bytes) :=
  ((r.readLog crc log).2.2, (r.readLog crc log).1, (r.readLog crc log).2.1)

/-- What an answer returns, if it is a success. -/
def returned (answer : DBStatus × Bytes) : Option Bytes :=
  if answer.1 = .success then some answer.2 else none

/-- What some calls return, each into a string of its own. -/
def readings (r : WALReader) (logs : List Bytes) : List Bytes :=
  (replay (call crc) r logs).2.filterMap returned

theorem readings_cons (r : WALReader) (log : Bytes) (logs : List Bytes) :
    readings crc r (log :: logs) =
      (returned (call crc r log).2).toList ++ readings crc (call crc r log).1 logs := by
  rw [readings, readings, replay, List.filterMap_cons]
  cases returned (call crc r log).2 <;> rfl

/-- The records that calls meet in some bytes, one after the other; no header with the huge length
among them matches any string. -/
inductive Meets : Bytes → List Bytes → Prop
  | stop {bytes : Bytes} (hscan : scan crc bytes = .stop) : Meets bytes []
  | found {bytes payload rest : Bytes} {payloads : List Bytes}
      (hscan : scan crc bytes = .found payload rest) (hrest : Meets rest payloads) :
      Meets bytes (payload :: payloads)
  | skip {bytes rest : Bytes} {payloads : List Bytes} (hscan : scan crc bytes = .skip rest)
      (hrest : Meets rest payloads) : Meets bytes payloads
  | huge {bytes rest : Bytes} {checksum : ℕ} {payloads : List Bytes}
      (hscan : scan crc bytes = .huge checksum rest)
      (hnever : ∀ log, (crc (resize log hugeLength)).toNat ≠ checksum)
      (hrest : Meets rest payloads) : Meets bytes payloads

variable {crc} {r : WALReader} {file bytes rest payload : Bytes} {payloads : List Bytes}

/-! What the first of some calls returns, and where the others go on. -/

theorem readings_of_stop (hfit : file.length < 2 ^ 31) (hr : r.StandsAt file bytes)
    (hscan : scan crc bytes = .stop) : ∀ logs, readings crc r logs = []
  | [] => rfl
  | log :: logs => by
      have hanswer := readLog_scan crc hfit hr log
      rw [hscan] at hanswer
      obtain ⟨hfailed, hsame⟩ := hanswer
      rw [readings_cons, call, hfailed, hsame, readings_of_stop hfit hr hscan logs]
      rfl

theorem readings_of_found (hfit : file.length < 2 ^ 31) (hr : r.StandsAt file bytes)
    (hscan : scan crc bytes = .found payload rest) (log : Bytes) : ∃ r', r'.StandsAt file rest ∧
      ∀ logs, readings crc r (log :: logs) = payload :: readings crc r' logs := by
  have hanswer := readLog_scan crc hfit hr log
  rw [hscan] at hanswer
  obtain ⟨r', hrun, hr'⟩ := hanswer
  refine ⟨r', hr', fun logs => ?_⟩
  rw [readings_cons, call, hrun]
  rfl

theorem readings_of_skip (hfit : file.length < 2 ^ 31) (hr : r.StandsAt file bytes)
    (hscan : scan crc bytes = .skip rest) (log : Bytes) : ∃ r', r'.StandsAt file rest ∧
      ∀ logs, readings crc r (log :: logs) = readings crc r' logs := by
  have hanswer := readLog_scan crc hfit hr log
  rw [hscan] at hanswer
  obtain ⟨log', r', hrun, hr'⟩ := hanswer
  refine ⟨r', hr', fun logs => ?_⟩
  rw [readings_cons, call, hrun]
  rfl

theorem readings_of_huge {checksum : ℕ} (hfit : file.length < 2 ^ 31) (hr : r.StandsAt file bytes)
    (hscan : scan crc bytes = .huge checksum rest) (log : Bytes) : ∃ r', r'.StandsAt file rest ∧
      ∀ logs, readings crc r (log :: logs) =
        if (crc (resize log hugeLength)).toNat = checksum then
          resize log hugeLength :: readings crc r' logs
        else readings crc r' logs := by
  have hanswer := readLog_scan crc hfit hr log
  rw [hscan] at hanswer
  obtain ⟨r', hrun, hr'⟩ := hanswer
  refine ⟨r', hr', fun logs => ?_⟩
  rw [readings_cons, call, hrun]
  split_ifs <;> rfl

/-- **The calls return the records that they meet**, as many as they get to. -/
theorem Meets.readings_prefix (h : Meets crc bytes payloads) (hfit : file.length < 2 ^ 31) :
    ∀ (logs : List Bytes) {r : WALReader}, r.StandsAt file bytes →
      readings crc r logs <+: payloads := by
  induction h with
  | stop hscan =>
    intro logs r hr
    exact readings_of_stop hfit hr hscan logs ▸ List.nil_prefix
  | found hscan hrest ih =>
    rintro (_ | ⟨log, logs⟩) r hr
    · exact List.nil_prefix
    · obtain ⟨r', hr', hreadings⟩ := readings_of_found hfit hr hscan log
      rw [hreadings]
      exact List.cons_prefix_cons.mpr ⟨rfl, ih logs hr'⟩
  | skip hscan hrest ih =>
    rintro (_ | ⟨log, logs⟩) r hr
    · exact List.nil_prefix
    · obtain ⟨r', hr', hreadings⟩ := readings_of_skip hfit hr hscan log
      rw [hreadings]
      exact ih logs hr'
  | huge hscan hnever hrest ih =>
    rintro (_ | ⟨log, logs⟩) r hr
    · exact List.nil_prefix
    · obtain ⟨r', hr', hreadings⟩ := readings_of_huge hfit hr hscan log
      rw [hreadings, if_neg (hnever log)]
      exact ih logs hr'

/-- **Enough calls return all the records that they meet.** -/
theorem Meets.exists_readings (h : Meets crc bytes payloads) (hfit : file.length < 2 ^ 31) :
    ∀ {r : WALReader}, r.StandsAt file bytes → ∃ logs, readings crc r logs = payloads := by
  induction h with
  | stop hscan => exact fun _ => ⟨[], rfl⟩
  | found hscan hrest ih =>
    intro r hr
    obtain ⟨r', hr', hreadings⟩ := readings_of_found hfit hr hscan []
    obtain ⟨logs, hlogs⟩ := ih hr'
    exact ⟨[] :: logs, by rw [hreadings, hlogs]⟩
  | skip hscan hrest ih =>
    intro r hr
    obtain ⟨r', hr', hreadings⟩ := readings_of_skip hfit hr hscan []
    obtain ⟨logs, hlogs⟩ := ih hr'
    exact ⟨[] :: logs, by rw [hreadings, hlogs]⟩
  | huge hscan hnever hrest ih =>
    intro r hr
    obtain ⟨r', hr', hreadings⟩ := readings_of_huge hfit hr hscan []
    obtain ⟨logs, hlogs⟩ := ih hr'
    exact ⟨[] :: logs, by rw [hreadings, if_neg (hnever []), hlogs]⟩

/-- What a call leaves is shorter. -/
def Scan.Shorter (bytes : Bytes) : Scan → Prop
  | .stop => True
  | .found _ rest => rest.length < bytes.length
  | .skip rest => rest.length < bytes.length
  | .huge _ rest => rest.length < bytes.length

theorem scan_shorter (crc : Bytes → UInt32) (bytes : Bytes) :
    (scan crc bytes).Shorter bytes := by
  have hdrop : ∀ n, 0 < n → kHeaderSize ≤ bytes.length → (bytes.drop n).length < bytes.length := by
    intro n hn hheader
    rw [List.length_drop]
    simp only [kHeaderSize] at hheader
    omega
  have hpos : 0 < kHeaderSize := by decide
  simp only [scan]
  split_ifs with hshort hhuge hlen hcrc
  · trivial
  · exact hdrop _ (by decide) (by omega)
  · exact hdrop _ hpos (by omega)
  · exact hdrop _ (by omega) (by omega)
  · exact hdrop _ (by omega) (by omega)

/-- **Either the calls meet certain records, or some of them return a string of the huge length.** -/
theorem exists_meets_or (hfit : file.length < 2 ^ 31) : ∀ (n : ℕ) (bytes : Bytes),
    bytes.length ≤ n → (∃ payloads, Meets crc bytes payloads) ∨
      ∀ r : WALReader, r.StandsAt file bytes →
        ∃ logs, ∃ log ∈ readings crc r logs, log.length = hugeLength := by
  intro n
  induction n with
  | zero =>
    intro bytes hn
    have hshort : bytes.length < kHeaderSize := Nat.lt_of_le_of_lt hn (by decide)
    exact Or.inl ⟨[], .stop (if_pos hshort)⟩
  | succ n ih =>
    intro bytes hn
    have hshorter := scan_shorter crc bytes
    cases hscan : scan crc bytes with
    | stop => exact Or.inl ⟨[], .stop hscan⟩
    | found payload rest =>
      rw [hscan] at hshorter
      rcases ih rest (Nat.le_of_lt_succ (Nat.lt_of_lt_of_le hshorter hn)) with ⟨qs, h⟩ | h
      · exact Or.inl ⟨_, .found hscan h⟩
      · refine Or.inr fun r hr => ?_
        obtain ⟨r', hr', hreadings⟩ := readings_of_found hfit hr hscan []
        obtain ⟨logs, log, hlog, hlen⟩ := h r' hr'
        exact ⟨[] :: logs, log, by rw [hreadings]; exact List.mem_cons_of_mem _ hlog, hlen⟩
    | skip rest =>
      rw [hscan] at hshorter
      rcases ih rest (Nat.le_of_lt_succ (Nat.lt_of_lt_of_le hshorter hn)) with ⟨qs, h⟩ | h
      · exact Or.inl ⟨_, .skip hscan h⟩
      · refine Or.inr fun r hr => ?_
        obtain ⟨r', hr', hreadings⟩ := readings_of_skip hfit hr hscan []
        obtain ⟨logs, log, hlog, hlen⟩ := h r' hr'
        exact ⟨[] :: logs, log, by rwa [hreadings], hlen⟩
    | huge checksum rest =>
      rw [hscan] at hshorter
      by_cases hnever : ∀ log, (crc (resize log hugeLength)).toNat ≠ checksum
      · rcases ih rest (Nat.le_of_lt_succ (Nat.lt_of_lt_of_le hshorter hn)) with ⟨qs, h⟩ | h
        · exact Or.inl ⟨_, .huge hscan hnever h⟩
        · refine Or.inr fun r hr => ?_
          obtain ⟨r', hr', hreadings⟩ := readings_of_huge hfit hr hscan []
          obtain ⟨logs, log, hlog, hlen⟩ := h r' hr'
          exact ⟨[] :: logs, log, by rwa [hreadings, if_neg (hnever [])], hlen⟩
      · refine Or.inr fun r hr => ?_
        obtain ⟨log, hlog⟩ := not_forall.mp hnever
        obtain ⟨r', hr', hreadings⟩ := readings_of_huge hfit hr hscan log
        refine ⟨[log], resize log hugeLength, ?_, length_resize log hugeLength⟩
        rw [hreadings, if_pos (not_not.mp hlog)]
        exact List.mem_cons_self

theorem meets_of_stop (hscan : scan crc bytes = .stop) : Meets crc bytes payloads ↔ payloads = [] := by
  refine ⟨fun h => ?_, fun h => h ▸ .stop hscan⟩
  cases h with
  | stop => rfl
  | found hscan' => cases hscan.symm.trans hscan'
  | skip hscan' => cases hscan.symm.trans hscan'
  | huge hscan' => cases hscan.symm.trans hscan'

theorem meets_of_found (hscan : scan crc bytes = .found payload rest) :
    Meets crc bytes payloads ↔ ∃ others, payloads = payload :: others ∧ Meets crc rest others := by
  refine ⟨fun h => ?_, fun ⟨others, hothers, h⟩ => hothers ▸ .found hscan h⟩
  cases h with
  | stop hscan' => cases hscan.symm.trans hscan'
  | found hscan' hrest =>
    obtain ⟨rfl, rfl⟩ := Scan.found.inj (hscan.symm.trans hscan')
    exact ⟨_, rfl, hrest⟩
  | skip hscan' => cases hscan.symm.trans hscan'
  | huge hscan' => cases hscan.symm.trans hscan'

theorem meets_of_skip (hscan : scan crc bytes = .skip rest) :
    Meets crc bytes payloads ↔ Meets crc rest payloads := by
  refine ⟨fun h => ?_, fun h => .skip hscan h⟩
  cases h with
  | stop hscan' => cases hscan.symm.trans hscan'
  | found hscan' => cases hscan.symm.trans hscan'
  | skip hscan' hrest =>
    obtain rfl := Scan.skip.inj (hscan.symm.trans hscan')
    exact hrest
  | huge hscan' => cases hscan.symm.trans hscan'

/-! ## A log that was cut -/

open WALWriter (frame kept)

/-- A frame is met as a record if its payload was written whole, or has the checksum of what was. -/
theorem scan_frame {p : Bytes} (hp : 0 ≤ toInt32 p.length) (rest : Bytes) :
    scan crc (frame crc p ++ rest) =
      if crc (kept p) = crc p then .found (kept p) rest else .skip rest := by
  obtain ⟨hlen, hlt⟩ := WALWriter.length_kept hp
  obtain ⟨hchecksum, hlength⟩ := fields_header crc p (kept p ++ rest)
  have hheader := WALWriter.length_header crc p
  have htotal : (frame crc p ++ rest).length = kHeaderSize + (kept p).length + rest.length := by
    rw [frame, List.length_append, List.length_append, hheader]
  rw [frame, List.append_assoc] at htotal ⊢
  simp only [scan, hchecksum, hlength, ← hlen]
  rw [if_neg (by omega), if_neg (by rw [hugeLength]; omega), if_neg (by omega),
    List.drop_left' hheader, List.take_left, ← List.drop_drop, List.drop_left' hheader,
    List.drop_left]
  simp only [UInt32.toNat_inj]

/-- A torn frame with its header is skipped up to its payload. -/
theorem scan_torn {p tail : Bytes} (hp : 0 ≤ toInt32 p.length) (htail : tail <+: frame crc p)
    (hlt : tail.length < (frame crc p).length) (hheader : kHeaderSize ≤ tail.length) :
    scan crc tail = .skip (tail.drop kHeaderSize) := by
  have hlength := WALWriter.length_header crc p
  obtain ⟨rest, rfl⟩ : WALWriter.header crc p <+: tail :=
    List.prefix_of_prefix_length_le (List.prefix_append _ _) htail (hlength.trans_le hheader)
  obtain ⟨hlen, hkept⟩ := WALWriter.length_kept hp
  obtain ⟨-, hfield⟩ := fields_header crc p rest
  rw [frame, List.length_append, List.length_append] at hlt
  simp only [scan, hfield, ← hlen]
  rw [List.length_append, if_neg (by omega), if_neg (by rw [hugeLength]; omega), if_pos (by omega)]

/-- What is returned of payloads whose frames are there. -/
def readBack (crc : Bytes → UInt32) (payloads : List Bytes) : List Bytes :=
  (payloads.filter fun p => crc (kept p) = crc p).map kept

/-- Payloads of less than `2 ^ 31` bytes are returned as they are. -/
theorem readBack_of_lt (h : ∀ p ∈ payloads, p.length < 2 ^ 31) :
    readBack crc payloads = payloads := by
  have hkept : ∀ p ∈ payloads, kept p = p := fun p hp => WALWriter.kept_of_lt (h p hp)
  rw [readBack, List.filter_eq_self.mpr fun p hp => by simp [hkept p hp],
    List.map_congr_left hkept, List.map_id']

/-- **Calls meet the frames one after the other.** -/
theorem meets_frames : ∀ {ps : List Bytes} {tail : Bytes} {payloads : List Bytes},
    (∀ p ∈ ps, 0 ≤ toInt32 p.length) → (Meets crc (ps.flatMap (frame crc) ++ tail) payloads ↔
      ∃ others, payloads = readBack crc ps ++ others ∧ Meets crc tail others)
  | [], tail, payloads, _ => by simp [readBack]
  | p :: ps, tail, payloads, hps => by
      have hscan : scan crc (frame crc p ++ (ps.flatMap (frame crc) ++ tail)) = _ :=
        scan_frame (hps p List.mem_cons_self) _
      have ih : ∀ {payloads : List Bytes}, Meets crc (ps.flatMap (frame crc) ++ tail) payloads ↔
          ∃ others, payloads = readBack crc ps ++ others ∧ Meets crc tail others :=
        meets_frames fun q hq => hps q (List.mem_cons_of_mem p hq)
      rw [List.flatMap_cons, List.append_assoc]
      by_cases hcrc : crc (kept p) = crc p
      · rw [if_pos hcrc] at hscan
        have hback : readBack crc (p :: ps) = kept p :: readBack crc ps := by
          simp [readBack, hcrc]
        rw [meets_of_found hscan, hback]
        constructor
        · rintro ⟨others, rfl, hothers⟩
          obtain ⟨rest, rfl, hrest⟩ := ih.mp hothers
          exact ⟨rest, rfl, hrest⟩
        · rintro ⟨rest, rfl, hrest⟩
          exact ⟨_, rfl, ih.mpr ⟨rest, rfl, hrest⟩⟩
      · rw [if_neg hcrc] at hscan
        have hback : readBack crc (p :: ps) = readBack crc ps := by simp [readBack, hcrc]
        rw [meets_of_skip hscan, hback, ih]

/-- **Calls meet in a torn frame what they meet behind its header.** -/
theorem meets_torn {ps : List Bytes} {tail : Bytes} (hps : ∀ p ∈ ps, 0 ≤ toInt32 p.length)
    (htorn : tail = [] ∨ ∃ p ∈ ps, tail <+: frame crc p ∧ tail.length < (frame crc p).length) :
    Meets crc tail payloads ↔ Meets crc (tail.drop kHeaderSize) payloads := by
  by_cases hshort : tail.length < kHeaderSize
  · have hnil : tail.drop kHeaderSize = [] := List.drop_of_length_le hshort.le
    rw [meets_of_stop (if_pos hshort), hnil, meets_of_stop (if_pos (by decide))]
  · rcases htorn with rfl | ⟨p, hp, hprefix, hlt⟩
    · exact absurd (by decide) hshort
    · exact meets_of_skip (scan_torn (hps p hp) hprefix hlt (Nat.le_of_not_lt hshort))

/-- Calls on a file return nothing but the payloads, in order and each at most once. -/
def NoPhantom (crc : Bytes → UInt32) (payloads : List Bytes) (file : Bytes) : Prop :=
  ∀ logs, (readings crc (openAt unlimited file 0) logs).Sublist payloads

/-- **Calls return nothing but payloads exactly when they meet nothing else.** -/
theorem noPhantom_iff_meets (hfit : file.length < 2 ^ 31)
    (hpayloads : ∀ p ∈ payloads, p.length ≠ hugeLength) :
    NoPhantom crc payloads file ↔ ∃ met, Meets crc file met ∧ met.Sublist payloads := by
  have hstart : (openAt unlimited file 0).StandsAt file file := ⟨[], rfl, rfl⟩
  constructor
  · intro h
    have hmeets : (∃ met, Meets crc file met) ∨ _ := exists_meets_or hfit file.length file le_rfl
    rcases hmeets with ⟨met, hmet⟩ | hhuge
    · obtain ⟨logs, hlogs⟩ := hmet.exists_readings hfit hstart
      exact ⟨met, hmet, hlogs ▸ h logs⟩
    · obtain ⟨logs, log, hlog, hlen⟩ := hhuge _ hstart
      exact absurd hlen (hpayloads log ((h logs).subset hlog))
  · rintro ⟨met, hmet, hsub⟩ logs
    exact (hmet.readings_prefix hfit logs hstart).sublist.trans hsub

/-- **No phantom records.**  Let `AddLog` write payloads to an empty file, and cut the file after
any `n < 2 ^ 31` bytes.  Then any calls of `ReadLog`, also after an error, return nothing but the
payloads, in order and each at most once, exactly when what they read back of the whole frames,
followed by the records they meet behind the header of the torn one, is part of the payloads. -/
theorem noPhantom_iff {w : FileWriter} {n : ℕ}
    (hrun : WALWriter.addLogs crc (FileWriter.new [] true) payloads = .ok w) (hn : n < 2 ^ 31) :
    NoPhantom crc payloads (w.file.take n) ↔
      ∃ met, Meets crc ((cut (frame crc) payloads n).2.drop kHeaderSize) met ∧
        (readBack crc (cut (frame crc) payloads n).1 ++ met).Sublist payloads := by
  obtain ⟨hnonneg, hfile⟩ := WALWriter.addLogs_eq_ok crc rfl rfl hrun
  have hbytes : w.file = payloads.flatMap (frame crc) := hfile
  have hwhole : ∀ p ∈ (cut (frame crc) payloads n).1, 0 ≤ toInt32 p.length := fun p hp =>
    hnonneg p ((cut_isPrefix (frame crc) payloads n).subset hp)
  have hhuge : ∀ p ∈ payloads, p.length ≠ hugeLength := fun p hp hlen => by
    have hp' := hnonneg p hp
    rw [hlen, toInt32, hugeLength] at hp'
    omega
  have hfit : (w.file.take n).length < 2 ^ 31 := (List.length_take_le n _).trans_lt hn
  rw [noPhantom_iff_meets hfit hhuge, hbytes, take_flatMap_eq_cut]
  constructor
  · rintro ⟨met, hmet, hsub⟩
    obtain ⟨others, rfl, hothers⟩ := (meets_frames hwhole).mp hmet
    exact ⟨others, (meets_torn hnonneg (cut_torn (frame crc) payloads n)).mp hothers, hsub⟩
  · rintro ⟨others, hothers, hsub⟩
    have htail := (meets_torn hnonneg (cut_torn (frame crc) payloads n)).mpr hothers
    exact ⟨_, (meets_frames hwhole).mpr ⟨others, rfl, htail⟩, hsub⟩

/-- A cut inside the header of the second record. -/
theorem noPhantom_iff_two :
    ∃ w, WALWriter.addLogs (fun _ => 0) (FileWriter.new [] true) [[1, 2], [3]] = .ok w ∧
      NoPhantom (fun _ => 0) [[1, 2], [3]] (w.file.take 15) := by
  obtain ⟨w, hrun, -⟩ := WALWriter.addLogs_spec (fun _ => 0)
    (show (FileWriter.new [] true).opened = true from rfl) rfl
    (show ∀ log ∈ ([[1, 2], [3]] : List Bytes), log.length < 2 ^ 31 by decide)
  exact ⟨w, hrun, (noPhantom_iff hrun (by decide)).mpr ⟨[], .stop rfl, by decide⟩⟩

/-- Calls return nothing but payloads, in order and each at most once, wherever a log is cut. -/
def NoPhantoms : Prop :=
  ∀ (crc : Bytes → UInt32) (payloads : List Bytes) (w : FileWriter) (n : ℕ),
    WALWriter.addLogs crc (FileWriter.new [] true) payloads = .ok w → n ≤ w.file.length →
    n < 2 ^ 31 → NoPhantom crc payloads (w.file.take n)

/-- **A record inside a torn payload is returned**, after the error. -/
theorem not_noPhantoms : ¬ NoPhantoms := by
  intro h
  let payload : Bytes := WALWriter.record (fun _ => 0) [7] ++ [0]
  have hfits : ∀ log ∈ [payload], log.length < 2 ^ 31 := by
    intro log hlog
    rw [List.mem_singleton.mp hlog, show payload.length = 10 from rfl]
    norm_num
  obtain ⟨w, hrun, hfile, -⟩ := WALWriter.addLogs_spec (fun _ => 0)
    (show (FileWriter.new [] true).opened = true from rfl) rfl hfits
  have hbytes : w.file = WALWriter.record (fun _ => 0) payload := by
    rw [hfile]
    simp [FileWriter.new]
  have hlen : 17 ≤ w.file.length := by
    rw [hbytes]
    decide
  have hsub := h (fun _ => 0) [payload] w 17 hrun hlen (by decide) [[], []]
  have hreadings : readings (fun _ => 0)
    (openAt unlimited ((WALWriter.record (fun _ => 0) payload).take 17) 0) [[], []] = [[7]] := by
      decide +kernel
  rw [hbytes, hreadings] at hsub
  exact absurd hsub (by decide)

end SmallKV.WALReader
