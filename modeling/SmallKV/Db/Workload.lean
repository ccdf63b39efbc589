import SmallKV.Db.Programs
import SmallKV.Utils.Decimal

/-!
# Db/Workload — the threads of `main.cpp`

Ten threads put fifty thousand keys, each thread a range of them, and after they have joined ten
threads get them.  No key is put with two values and all of them fit into the memtable, so in every
order that the threads take the calls are proper, and the database answers like a map
(`Db/Programs`).  Hence, whatever the schedules of the two phases are, every `Put` succeeds, and
every `Get` succeeds with the value that was put (`main_succeeds`); and if no thread is kept from
moving, both phases come to an end (`main_ends`).
-/

namespace SmallKV

/-! ## Short numbers -/

/-- A number below `10 ^ (d + 1)` has at most `d + 1` digits. -/
theorem length_toDecimal_le : ∀ {d n : ℕ}, n < 10 ^ (d + 1) → (toDecimal n).length ≤ d + 1
  | 0, n, h => by
      rw [toDecimal, List.length_map, Nat.toDigits_of_lt_base (by simpa using h)]
      simp
  | d + 1, n, h => by
      rcases Nat.lt_or_ge n 10 with hn | hn
      · rw [toDecimal, List.length_map, Nat.toDigits_of_lt_base hn]
        simp
      · have hrest := length_toDecimal_le (d := d) (n := n / 10) (by
          rw [Nat.div_lt_iff_lt_mul (by decide)]
          exact h.trans_eq (by ring))
        rw [toDecimal, List.length_map] at hrest ⊢
        rw [Nat.toDigits_of_base_le (by decide) hn, List.length_append]
        simpa using hrest

theorem nulFree_toDecimal (n : ℕ) : DbImpl.NulFree (toDecimal n) := by
  rintro b hb rfl
  exact absurd (isDigit_of_mem_toDecimal hb) (by decide)

/-! ## The program -/

namespace Main

open DbImpl

/-- The number of keys. -/
def N : ℕ := 50000

/-- `num_threads`. -/
def numThreads : ℕ := 10

/-- The first key of a thread. -/
def start (t : Fin numThreads) : ℕ := N / numThreads * t

/-- The end of the keys of a thread. -/
def stop (t : Fin numThreads) : ℕ :=
  if t.val = numThreads - 1 then N else N / numThreads * (t + 1)

/-- The keys of a thread. -/
def range (t : Fin numThreads) : List ℕ := List.range' (start t) (stop t - start t)

def key (i : ℕ) : Bytes := ascii "key" ++ toDecimal i

def value (i : ℕ) : Bytes := ascii "value" ++ toDecimal i

/-- The thread that puts its keys, as long as all its calls succeed. -/
def putter (chance : ℕ → Chance) (t : Fin numThreads) : List Call :=
  (range t).map fun i => .put (.ofBytes (key i)) (.ofBytes (value i)) (chance i)

/-- The thread that gets its keys. -/
def getter (t : Fin numThreads) : List Call :=
  (range t).map fun i => .get (.ofBytes (key i)) (some [])

/-- The value for a key. -/
def valueOf (k : Bytes) : Bytes := ascii "value" ++ k.drop 3

theorem valueOf_key (i : ℕ) : valueOf (key i) = value i := rfl

theorem length_range (t : Fin numThreads) : stop t - start t = 5000 := by
  revert t
  decide

theorem lt_of_mem_range {t : Fin numThreads} {i : ℕ} (h : i ∈ range t) : i < N := by
  obtain ⟨j, hj, rfl⟩ := List.mem_range'.mp h
  rw [length_range] at hj
  have ht := t.isLt
  simp only [start, N, numThreads] at ht ⊢
  omega

theorem nulFree_ascii_key : NulFree (ascii "key") := by decide

theorem nulFree_ascii_value : NulFree (ascii "value") := by decide

theorem key_ok (i : ℕ) : key i ≠ [] ∧ NulFree (key i) := by
  refine ⟨by simp [key, ascii], fun b hb => ?_⟩
  exact (List.mem_append.mp hb).elim (nulFree_ascii_key b) (nulFree_toDecimal i b)

theorem value_ok (i : ℕ) : value i ≠ [] ∧ NulFree (value i) := by
  refine ⟨by simp [value, ascii], fun b hb => ?_⟩
  exact (List.mem_append.mp hb).elim (nulFree_ascii_value b) (nulFree_toDecimal i b)

theorem length_key_le {i : ℕ} (h : i < N) : (key i).length ≤ 8 := by
  have hdigits := length_toDecimal_le (d := 4) (n := i) (h.trans (by decide))
  rw [key, List.length_append]
  exact Nat.add_le_add (by decide : (ascii "key").length ≤ 3) hdigits

theorem length_value_le {i : ℕ} (h : i < N) : (value i).length ≤ 10 := by
  have hdigits := length_toDecimal_le (d := 4) (n := i) (h.trans (by decide))
  rw [value, List.length_append]
  exact Nat.add_le_add (by decide : (ascii "value").length ≤ 5) hdigits

variable {chance : ℕ → Chance} {t : Fin numThreads} {c : Call}

theorem writes_of_mem (hc : c ∈ putter chance t) : Writes valueOf c := by
  obtain ⟨i, hi, rfl⟩ := List.mem_map.mp hc
  have hlt := lt_of_mem_range hi
  have hkey := length_key_le hlt
  have hvalue := length_value_le hlt
  refine .put (key_ok i) (value_ok i) (loggable_of_short ?_ ?_ _)
  · omega
  · exact lt_of_le_of_lt hvalue (by decide)

theorem size_le_of_mem (hc : c ∈ putter chance t) : c.size ≤ 18 := by
  obtain ⟨i, hi, rfl⟩ := List.mem_map.mp hc
  exact Nat.add_le_add (length_key_le (lt_of_mem_range hi)) (length_value_le (lt_of_mem_range hi))

/-- **All the keys fit into the memtable.** -/
theorem sum_size_le (chance : ℕ → Chance) :
    ∑ t, ((putter chance t).map Call.size).sum ≤ ({} : Options).memTableMaxSize := by
  have hthread : ∀ t, ((putter chance t).map Call.size).sum ≤ 5000 * 18 := by
    intro t
    refine (List.sum_le_card_nsmul _ 18 fun n hn => ?_).trans_eq ?_
    · obtain ⟨c, hc, rfl⟩ := List.mem_map.mp hn
      exact size_le_of_mem hc
    · simp [putter, range, length_range]
  refine (Finset.sum_le_card_nsmul _ _ _ fun t _ => hthread t).trans ?_
  rw [Finset.card_univ, Fintype.card_fin]
  decide

/-- The first phase: ten threads put their keys. -/
def puts (wal : Bytes) (disk : Disk) (chance : ℕ → Chance) :
    Threads (Shared DbImpl (Fin numThreads)) (Fin numThreads) Call Reply
      (RwPhase DbImpl Bool Reply GetCall) :=
  threads (new {} wal disk) (putter chance)

/-- The second phase, over the database that the first has left: ten threads get them. -/
def gets (s : Threads (Shared DbImpl (Fin numThreads)) (Fin numThreads) Call Reply
    (RwPhase DbImpl Bool Reply GetCall)) :
    Threads (Shared DbImpl (Fin numThreads)) (Fin numThreads) Call Reply
      (RwPhase DbImpl Bool Reply GetCall) :=
  threads s.shared.object getter

/-- A database with all the keys, and the values of the program. -/
def Filled (env : Env) (db : DbImpl) : Prop :=
  ∃ m, Represents env ({} : Options).memTableMaxSize db m ∧ ValuesOf valueOf m ∧
    ∀ t, ∀ i ∈ range t, m.lookup (key i) ≠ none

section Orders

variable {env : Env} {wal : Bytes} {disk : Disk} {order : List (Fin numThreads × Call)}

/-- The calls of the first phase are proper in every order, return what they should, and lead to a
map with all the keys. -/
theorem puts_proper (horder : Interleaves (putter chance) order) :
    Along (fun m c => .ok (spec m c)) (Proper ({} : Options).memTableMaxSize) .empty
        (order.map Prod.snd) ∧
      (replay spec .empty (order.map Prod.snd)).2 = (order.map Prod.snd).map (expected valueOf) ∧
      ValuesOf valueOf (replay spec .empty (order.map Prod.snd)).1 ∧
      ∀ k, (∃ value chance, .put (.ofBytes k) value chance ∈ order.map Prod.snd) →
        (replay spec .empty (order.map Prod.snd)).1.lookup k ≠ none := by
  have hwrites : ∀ c ∈ order.map Prod.snd, Writes valueOf c := fun c hc => by
    obtain ⟨t, ht⟩ := horder.mem hc
    exact writes_of_mem ht
  obtain ⟨halong, hreplies, hvalues, hkeys⟩ := replay_writes (fun k w h => by cases h) hwrites
    (fits_of_interleaves horder (sum_size_le chance))
  exact ⟨halong, hreplies, hvalues, fun k hk => hkeys k (Or.inl hk)⟩

/-- The calls of the second are, over a map with all the keys, and leave it alone. -/
theorem gets_proper {m : SortedMap Bytes Bytes} (hvalues : ValuesOf valueOf m)
    (hkeys : ∀ t, ∀ i ∈ range t, m.lookup (key i) ≠ none) (horder : Interleaves getter order) :
    Along (fun m c => .ok (spec m c)) (Proper ({} : Options).memTableMaxSize) m
        (order.map Prod.snd) ∧
      replay spec m (order.map Prod.snd) = (m, (order.map Prod.snd).map (expected valueOf)) := by
  refine replay_reads hvalues fun c hc => ?_
  obtain ⟨t, ht⟩ := horder.mem hc
  obtain ⟨i, hi, rfl⟩ := List.mem_map.mp ht
  exact .get (key_ok i) (hkeys t i hi)

end Orders

section Phases

variable (env : Env) (wal : Bytes) (disk : Disk) (chance : ℕ → Chance)

/-- **The first phase**: no `Put` fails, and when the threads have joined all the keys are there. -/
theorem puts_succeed (schedule : List (Fin numThreads)) :
    ∃ s us, runFrom (threaded env).step (puts wal disk chance) schedule = .ok (s, us) ∧
      (∀ t, ∀ e ∈ s.returned t, e.2 = (.success, none)) ∧
      (s.Joined → Filled env s.shared.object) := by
  obtain ⟨s, us, hrun, hreplies, hjoined⟩ := threads_expected (f := valueOf)
    (represents_new env {} wal disk) (fun _ horder => (puts_proper horder).1)
    (fun _ horder => (puts_proper horder).2.1) schedule
  refine ⟨s, us, hrun, fun t e he => ?_, fun hjoin => ?_⟩
  · obtain ⟨i, -, hi⟩ := List.mem_map.mp (mem_of_returned hrun he)
    rw [hreplies t e he, ← hi]
    rfl
  · obtain ⟨order, horder, hown, hrep⟩ := hjoined hjoin
    obtain ⟨-, -, hvalues, hkeys⟩ := puts_proper horder
    refine ⟨_, hrep, hvalues, fun t i hi => hkeys (key i) ⟨.ofBytes (value i), chance i, ?_⟩⟩
    have hmem : Call.put (.ofBytes (key i)) (.ofBytes (value i)) (chance i) ∈ ofThread order t :=
      hown t ▸ List.mem_map_of_mem hi
    obtain ⟨p, hp, hcall⟩ := List.mem_map.mp hmem
    exact hcall ▸ List.mem_map_of_mem (List.mem_filter.mp hp).1

/-- The first phase joins under a fair schedule. -/
theorem puts_join {schedule : ℕ → Fin numThreads} (hfair : Fair schedule) :
    ∃ n s us, runFrom (threaded env).step (puts wal disk chance) (firstMoves schedule n) =
      .ok (s, us) ∧ s.Joined :=
  threads_proper_join (represents_new env {} wal disk)
    (fun _ horder => (puts_proper horder).1) hfair

variable {env} {s : Threads (Shared DbImpl (Fin numThreads)) (Fin numThreads) Call Reply
  (RwPhase DbImpl Bool Reply GetCall)}

/-- **The second phase**: every `Get` finds its value, and when the threads have joined there have
been `N` of them. -/
theorem gets_succeed (hs : Filled env s.shared.object) (schedule : List (Fin numThreads)) :
    ∃ s' us, runFrom (threaded env).step (gets s) schedule = .ok (s', us) ∧
      (∀ t, ∀ e ∈ s'.returned t, ∃ i < N,
        e = (.get (.ofBytes (key i)) (some []), .success, some (value i))) ∧
      (s'.Joined → ∑ t, (s'.returned t).length = N) := by
  obtain ⟨m, hrep, hvalues, hkeys⟩ := hs
  obtain ⟨s', us, hrun, hreplies, -⟩ := threads_expected (f := valueOf) hrep
    (fun _ horder => (gets_proper hvalues hkeys horder).1)
    (fun _ horder => by rw [(gets_proper hvalues hkeys horder).2]) schedule
  refine ⟨s', us, hrun, fun t e he => ?_, fun hjoin => ?_⟩
  · obtain ⟨i, hi, hcall⟩ := List.mem_map.mp (mem_of_returned hrun he)
    refine ⟨i, lt_of_mem_range hi, Prod.ext hcall.symm ?_⟩
    rw [hreplies t e he, ← hcall, ← valueOf_key]
    rfl
  · have hlength : ∀ t, (s'.returned t).length = 5000 := fun t => by
      have hcalls := congrArg List.length (returned_of_done hrun (hjoin t).1 (hjoin t).2)
      simpa [getter, range, length_range] using hcalls
    rw [Finset.sum_congr rfl fun t _ => hlength t, Finset.sum_const, Finset.card_univ,
      Fintype.card_fin]
    rfl

/-- The second phase joins under a fair schedule. -/
theorem gets_join (hs : Filled env s.shared.object) {schedule : ℕ → Fin numThreads}
    (hfair : Fair schedule) :
    ∃ n s' us, runFrom (threaded env).step (gets s) (firstMoves schedule n) = .ok (s', us) ∧
      s'.Joined := by
  obtain ⟨m, hrep, hvalues, hkeys⟩ := hs
  exact threads_proper_join hrep (fun _ horder => (gets_proper hvalues hkeys horder).1) hfair

end Phases

/-- **The program succeeds.**  Whatever the schedules of its two phases are, no `Put` of the ten
threads fails; and when they have joined every `Get` succeeds with the value that was put, so that
`success_count` is `N` in the end. -/
theorem main_succeeds (env : Env) (wal : Bytes) (disk : Disk) (chance : ℕ → Chance)
    (schedule : List (Fin numThreads)) :
    ∃ s us, runFrom (threaded env).step (puts wal disk chance) schedule = .ok (s, us) ∧
      (∀ t, ∀ e ∈ s.returned t, e.2 = (.success, none)) ∧
      (s.Joined → ∀ schedule', ∃ s' us',
        runFrom (threaded env).step (gets s) schedule' = .ok (s', us') ∧
        (∀ t, ∀ e ∈ s'.returned t, ∃ i < N,
          e = (.get (.ofBytes (key i)) (some []), .success, some (value i))) ∧
        (s'.Joined → ∑ t, (s'.returned t).length = N)) := by
  obtain ⟨s, us, hrun, hreplies, hfilled⟩ := puts_succeed env wal disk chance schedule
  exact ⟨s, us, hrun, hreplies, fun hjoin => gets_succeed (hfilled hjoin)⟩

/-- **The program ends.**  Under schedules that let every thread move again and again no thread waits
for the lock forever: the ten threads of the first phase join, those of the second do, and then there
have been `N` calls of `Get` that succeeded. -/
theorem main_ends (env : Env) (wal : Bytes) (disk : Disk) (chance : ℕ → Chance)
    {schedule schedule' : ℕ → Fin numThreads} (hfair : Fair schedule) (hfair' : Fair schedule') :
    ∃ n s us n' s' us',
      runFrom (threaded env).step (puts wal disk chance) (firstMoves schedule n) =
        .ok (s, us) ∧ s.Joined ∧
      runFrom (threaded env).step (gets s) (firstMoves schedule' n') = .ok (s', us') ∧ s'.Joined ∧
      (∀ t, ∀ e ∈ s'.returned t, e.2.1 = .success) ∧ ∑ t, (s'.returned t).length = N := by
  obtain ⟨n, s, us, hrun, hjoined⟩ := puts_join env wal disk chance hfair
  obtain ⟨s₁, us₁, hrun₁, -, hfilled⟩ := puts_succeed env wal disk chance (firstMoves schedule n)
  obtain ⟨rfl, -⟩ := Prod.mk.inj (Except.ok.inj (hrun.symm.trans hrun₁))
  obtain ⟨n', s', us', hrun', hjoined'⟩ := gets_join (hfilled hjoined) hfair'
  obtain ⟨s₂, us₂, hrun₂, hreplies, hcount⟩ :=
    gets_succeed (hfilled hjoined) (firstMoves schedule' n')
  obtain ⟨rfl, -⟩ := Prod.mk.inj (Except.ok.inj (hrun'.symm.trans hrun₂))
  refine ⟨n, s, us, n', s', us', hrun, hjoined, hrun', hjoined', fun t e he => ?_, hcount hjoined'⟩
  obtain ⟨i, -, rfl⟩ := hreplies t e he
  rfl

/-- The threads take turns. -/
def turns (k : ℕ) : Fin numThreads := ⟨k % numThreads, Nat.mod_lt k (by decide)⟩

/-- The program ends when the threads take turns. -/
theorem main_ends_turns : ∃ n s us n' s' us',
    runFrom (threaded Env.plain).step (puts [] (fun _ => none) fun _ => .quiet)
      (firstMoves turns n) = .ok (s, us) ∧ s.Joined ∧
    runFrom (threaded Env.plain).step (gets s) (firstMoves turns n') = .ok (s', us') ∧ s'.Joined ∧
    (∀ t, ∀ e ∈ s'.returned t, e.2.1 = .success) ∧ ∑ t, (s'.returned t).length = N := by
  have hfair : Fair turns := fun t n =>
    ⟨numThreads * n + t, by simp only [numThreads]; omega, by simp [turns, Nat.mod_eq_of_lt]⟩
  exact main_ends Env.plain [] (fun _ => none) (fun _ => .quiet) hfair hfair

end Main

end SmallKV
