import SmallKV.Db.Refinement
import SmallKV.Db.Threads

/-!
# Db/Programs — threads whose calls are proper in every order

Programs whose calls are proper in every order that interleaves them do, on a database, what they
do on a map: the threads are explained by an order in which the map gives their answers
(`threads_refine`), and under a fair schedule all of them come to an end.  So it is with programs
that put no key with two values and fit into the memtable (`replay_writes`), and with programs that
get the keys that are there (`replay_reads`).
-/

namespace SmallKV.DbImpl

/-! ## Calls with one value for each key -/

/-- A `Put` of a key with the value that `f` has for it. -/
inductive Writes (f : Bytes → Bytes) : Call → Prop
  | put {key : Bytes} {chance : Chance} (hkey : key ≠ [] ∧ NulFree key)
      (hvalue : f key ≠ [] ∧ NulFree (f key)) (hlog : Loggable key (f key) chance.stack) :
      Writes f (.put (.ofBytes key) (.ofBytes (f key)) chance)

/-- A `Get` of a key of the map. -/
inductive Reads (m : SortedMap Bytes Bytes) : Call → Prop
  | get {key : Bytes} (hkey : key ≠ [] ∧ NulFree key) (hpresent : m.lookup key ≠ none) :
      Reads m (.get (.ofBytes key) (some []))

/-- What such a call should return. -/
def expected (f : Bytes → Bytes) : Call → Reply
  | .get key _ => (.success, some (f key.bytes))
  | _ => (.success, none)

/-- What a call adds to the memory usage, at most. -/
def Call.size : Call → ℕ
  | .put key value _ => key.bytes.length + value.bytes.length
  | _ => 0

/-- All values of a map are those of `f`. -/
def ValuesOf (f : Bytes → Bytes) (m : SortedMap Bytes Bytes) : Prop :=
  ∀ k w, m.lookup k = some w → w = f k

variable {f : Bytes → Bytes} {m : SortedMap Bytes Bytes} {c : Call} {limit : ℕ}

theorem ValuesOf.put (h : ValuesOf f m) (k : Bytes) : ValuesOf f (m.put k (f k)) := by
  intro k' v hv
  by_cases hk : k' = k
  · subst hk
    rw [SortedMap.lookup_put_self] at hv
    exact (Option.some.inj hv).symm
  · rw [SortedMap.lookup_put_ne _ _ hk] at hv
    exact h k' v hv

/-- **A write that fits is proper**: it succeeds, and the map has its key and the value. -/
theorem spec_writes (hc : Writes f c) (hm : ValuesOf f m)
    (hroom : SkipList.usage m + c.size ≤ limit) :
    ∃ k, (∃ value chance, c = .put (.ofBytes k) value chance) ∧ Proper limit m c ∧
      spec m c = (m.put k (f k), expected f c) ∧
      SkipList.usage (m.put k (f k)) ≤ SkipList.usage m + c.size := by
  cases hc with
  | @put key chance hkey hvalue hlog =>
    have husage : SkipList.usage (m.put key (f key)) ≤
        SkipList.usage m + Call.size (.put (.ofBytes key) (.ofBytes (f key)) chance) := by
      rw [SkipList.usage_put, Call.size]
      cases m.lookup key <;> simp [HasSize.size, StringView.ofBytes] <;> omega
    refine ⟨key, ⟨_, _, rfl⟩, ?_, ?_, husage⟩
    · exact ⟨⟨StringView.isCStr_ofBytes hkey.2, StringView.isCStr_ofBytes hvalue.2⟩, hlog,
        fun old hold => Or.inr (hm _ _ hold), husage.trans hroom⟩
    · simp only [spec, cstr_ofBytes hkey.2, cstr_ofBytes hvalue.2, empty_ofBytes hkey.1,
        empty_ofBytes hvalue.1]
      rfl

/-- **A read is proper**: it returns the value, and leaves the map alone. -/
theorem spec_reads (hc : Reads m c) (hm : ValuesOf f m) :
    Proper limit m c ∧ spec m c = (m, expected f c) := by
  cases hc with
  | @get key hkey hpresent =>
    obtain ⟨v, hv⟩ := Option.ne_none_iff_exists'.mp hpresent
    constructor
    · intro _ _
      rwa [cstr_ofBytes hkey.2]
    · simp only [spec, cstr_ofBytes hkey.2, empty_ofBytes hkey.1, hv, hm key v hv]
      rfl

/-- **Writes that fit are proper in any order**, and leave a map with their keys. -/
theorem replay_writes : ∀ {cs : List Call} {m : SortedMap Bytes Bytes}, ValuesOf f m →
    (∀ c ∈ cs, Writes f c) → SkipList.usage m + (cs.map Call.size).sum ≤ limit →
    Along (fun m c => .ok (spec m c)) (Proper limit) m cs ∧
      (replay spec m cs).2 = cs.map (expected f) ∧ ValuesOf f (replay spec m cs).1 ∧
      ∀ k, ((∃ value chance, .put (.ofBytes k) value chance ∈ cs) ∨ m.lookup k ≠ none) →
        (replay spec m cs).1.lookup k ≠ none
  | [], m, hm, _, _ => ⟨trivial, rfl, hm, fun k hk => hk.resolve_left (by simp)⟩
  | c :: cs, m, hm, hcs, hroom => by
      rw [List.map_cons, List.sum_cons, Nat.cast_add] at hroom
      have hsum : (0 : ℤ) ≤ ((cs.map Call.size).sum : ℕ) := Int.natCast_nonneg _
      obtain ⟨k₀, ⟨value₀, chance₀, hput⟩, hproper, hspec, husage⟩ :=
        spec_writes (hcs c List.mem_cons_self) hm (show _ ≤ (limit : ℤ) by omega)
      obtain ⟨halong, hreplies, hvalues, hkeys⟩ := replay_writes (hm.put k₀)
        (fun c' hc' => hcs c' (List.mem_cons_of_mem c hc')) (show _ ≤ (limit : ℤ) by omega)
      have hreplay : replay spec m (c :: cs) = ((replay spec (m.put k₀ (f k₀)) cs).1,
          expected f c :: (replay spec (m.put k₀ (f k₀)) cs).2) := by
        simp only [replay, hspec]
      rw [hreplay]
      refine ⟨⟨hproper, fun m₁ r hstep => ?_⟩, by rw [hreplies, List.map_cons], hvalues,
        fun k hk => hkeys k ?_⟩
      · obtain ⟨rfl, -⟩ := Prod.mk.inj (hspec.symm.trans (Except.ok.inj hstep))
        exact halong
      · by_cases hkk : k = k₀
        · subst hkk
          exact Or.inr (by simp [SortedMap.lookup_put_self])
        · rw [SortedMap.lookup_put_ne _ _ hkk]
          refine hk.imp_left ?_
          rintro ⟨value, chance, hmem⟩
          rcases List.mem_cons.mp hmem with heq | hmem
          · rw [hput] at heq
            simp only [StringView.ofBytes, Call.put.injEq, StringView.mk.injEq] at heq
            exact absurd heq.1.1 hkk
          · exact ⟨value, chance, hmem⟩

/-- **Reads are proper in any order**, and leave the map alone. -/
theorem replay_reads (hm : ValuesOf f m) : ∀ {cs : List Call}, (∀ c ∈ cs, Reads m c) →
    Along (fun m c => .ok (spec m c)) (Proper limit) m cs ∧
      replay spec m cs = (m, cs.map (expected f))
  | [], _ => ⟨trivial, rfl⟩
  | c :: cs, hcs => by
      obtain ⟨hproper, hspec⟩ := spec_reads (hcs c List.mem_cons_self) hm
      obtain ⟨halong, hreplay⟩ := replay_reads hm fun c' hc' => hcs c' (List.mem_cons_of_mem c hc')
      refine ⟨⟨hproper, fun m₁ r hstep => ?_⟩, by simp only [replay, hspec, hreplay, List.map_cons]⟩
      obtain ⟨rfl, -⟩ := Prod.mk.inj (hspec.symm.trans (Except.ok.inj hstep))
      exact halong

/-- What fits when all threads write fits in every order. -/
theorem fits_of_interleaves {ι : Type} [DecidableEq ι] [Fintype ι] {programs : ι → List Call}
    {order : List (ι × Call)} (horder : Interleaves programs order)
    (hsum : ∑ i, ((programs i).map Call.size).sum ≤ limit) :
    SkipList.usage (.empty : SortedMap Bytes Bytes) + ((order.map Prod.snd).map Call.size).sum ≤
      limit := by
  have hle := (horder.sum_le Call.size).trans hsum
  rw [List.map_map]
  simpa [SkipList.usage, SortedMap.empty, Function.comp_def] using (Nat.cast_le (α := ℤ)).mpr hle

/-! ## Threads with such calls -/

section Threads

variable {ι : Type} [DecidableEq ι] {env : Env} {db₀ : DbImpl} {programs : ι → List Call}
  {s : Threads (Shared DbImpl ι) ι Call Reply (RwPhase DbImpl Bool Reply GetCall)}

/-- Calls that are proper in every order that interleaves the programs. -/
def ProperPrograms (limit : ℕ) (m : SortedMap Bytes Bytes) (programs : ι → List Call) : Prop :=
  ∀ order, Interleaves programs order →
    Along (fun m c => .ok (spec m c)) (Proper limit) m (order.map Prod.snd)

/-- No order of such calls faults. -/
theorem Represents.returns (h : Represents env limit db₀ m) (hproper : ProperPrograms limit m programs)
    (order : List (ι × Call)) (horder : Interleaves programs order) :
    ∃ r, runFrom (DbImpl.step env) db₀ (order.map Prod.snd) = .ok r := by
  obtain ⟨db, hrun, -⟩ := h.run (hproper order horder)
  exact ⟨_, hrun⟩

/-- **Such threads do on a database what they do on a map.**  Every schedule returns, and one order
of the calls explains the threads both by the database and by the map, which the database holds
while nobody writes. -/
theorem threads_represent (h : Represents env limit db₀ m)
    (hproper : ProperPrograms limit m programs) (schedule : List ι) :
    ∃ s us order m', runFrom (threaded env).step (threads db₀ programs) schedule = .ok (s, us) ∧
      Explains (fun m c => .ok (spec m c)) (RwPhase.decided GetCall.decided) m order s m' ∧
      Interleaves programs (order.map fun p => (p.1, p.2.1)) ∧
      (s.shared.lock.writer = none → Represents env limit s.shared.object m') := by
  have hs : Shaped db₀ := ⟨h.wf, m, h.table⟩
  obtain ⟨s, us, hrun⟩ := threads_return hs (h.returns hproper) schedule
  obtain ⟨order, more, db, db', -, hexplains, hinter, hobject⟩ :=
    explains_of_shaped hs hrun (runFrom_nil (threaded env).step s)
  have halong := hproper _ hinter
  rw [List.map_map] at halong
  obtain ⟨db₁, hrun₁, hrep⟩ := h.run halong
  obtain ⟨rfl, hanswers⟩ := Prod.mk.inj (Except.ok.inj (hrun₁.symm.trans hexplains.run))
  refine ⟨s, us, order ++ more, _, hrun, ⟨?_, hexplains.own⟩, hinter,
    fun hwriter => hobject hwriter ▸ hrep⟩
  exact (runFrom_spec spec _ m).trans (congrArg _ (Prod.ext rfl hanswers))

/-- **Threads refine a map.**  Over a new database, whatever the schedule is, threads whose calls are
proper in every order get the answers that a map gives when it is called in one order that
interleaves their programs; and while nobody writes the database holds this map. -/
theorem threads_refine (env : Env) (options : Options) (wal : Bytes) (disk : Disk)
    (hproper : ProperPrograms options.memTableMaxSize .empty programs) (schedule : List ι) :
    ∃ s us order m',
      runFrom (threaded env).step (threads (new options wal disk) programs) schedule =
        .ok (s, us) ∧
      Explains (fun m c => .ok (spec m c)) (RwPhase.decided GetCall.decided) .empty order s m' ∧
      Interleaves programs (order.map fun p => (p.1, p.2.1)) ∧
      (s.shared.lock.writer = none →
        Represents env options.memTableMaxSize s.shared.object m') :=
  threads_represent (represents_new env options wal disk) hproper schedule

/-- Two threads that put the same key. -/
def twoPuts (_ : Bool) : List Call := [.put (.ofBytes [107]) (.ofBytes [97]) .quiet]

/-- Their calls are proper. -/
theorem properPrograms_twoPuts : ProperPrograms ({} : Options).memTableMaxSize .empty twoPuts := by
  intro order horder
  have hputs : ∀ c ∈ order.map Prod.snd, Writes (fun _ => [97]) c := fun c hc => by
    obtain ⟨i, hi⟩ := horder.mem hc
    obtain rfl := List.mem_singleton.mp hi
    exact .put (by decide) (by decide) (loggable_of_short (by decide) (by decide) _)
  exact (replay_writes (fun k w h => by cases h) hputs (fits_of_interleaves horder (by decide))).1

/-- One of them has put the key, and the other is about to. -/
theorem threads_refine_two : ∃ s us order m',
    runFrom (threaded Env.plain).step (threads (new {} [] fun _ => none) twoPuts)
      (List.replicate 9 true ++ [false, false]) = .ok (s, us) ∧
    Explains (fun m c => .ok (spec m c)) (RwPhase.decided GetCall.decided) .empty order s m' ∧
    Interleaves twoPuts (order.map fun p => (p.1, p.2.1)) ∧
    (s.shared.lock.writer = none →
      Represents Env.plain ({} : Options).memTableMaxSize s.shared.object m') :=
  threads_refine Env.plain {} [] (fun _ => none) properPrograms_twoPuts _

/-- Every call that returned has returned what it should. -/
def AsExpected (f : Bytes → Bytes)
    (s : Threads (Shared DbImpl ι) ι Call Reply (RwPhase DbImpl Bool Reply GetCall)) : Prop :=
  ∀ i, ∀ e ∈ s.returned i, e.2 = expected f e.1

/-- **Threads whose calls are expected to return the same in every order do so**, and when they have
joined the database holds a map that all their calls lead to in one of the orders. -/
theorem threads_expected (h : Represents env limit db₀ m)
    (hproper : ProperPrograms limit m programs)
    (hreplies : ∀ order, Interleaves programs order →
      (replay spec m (order.map Prod.snd)).2 = (order.map Prod.snd).map (expected f))
    (schedule : List ι) :
    ∃ s us, runFrom (threaded env).step (threads db₀ programs) schedule = .ok (s, us) ∧
      AsExpected f s ∧ (s.Joined → ∃ order, Interleaves programs order ∧
        (∀ i, ofThread order i = programs i) ∧
        Represents env limit s.shared.object (replay spec m (order.map Prod.snd)).1) := by
  obtain ⟨s, us, order, m', hrun, hexplains, hinter, hrep⟩ := threads_represent h hproper schedule
  have hcalls : (order.map fun p => (p.1, p.2.1)).map Prod.snd = order.map (·.2.1) := by
    rw [List.map_map]
    rfl
  have hexpected := hreplies _ hinter
  obtain ⟨rfl, hanswers⟩ := Prod.mk.inj
    (Except.ok.inj ((runFrom_spec spec _ m).symm.trans hexplains.run))
  rw [hcalls, hanswers, List.map_map] at hexpected
  refine ⟨s, us, hrun, fun i e he => ?_, fun hjoined => ?_⟩
  · exact List.map_inj_left.mp hexpected (i, e) (hexplains.mem_of_returned he)
  · refine ⟨_, hinter, fun i => hexplains.complete hrun (hjoined i).1 (hjoined i).2, ?_⟩
    rw [hcalls]
    exact hrep (writer_eq_none_of_idle ⟨h.wf, m, h.table⟩ hrun fun i => (hjoined i).1)

/-- Such threads come to an end under a fair schedule. -/
theorem threads_proper_join [Finite ι] (h : Represents env limit db₀ m)
    (hproper : ProperPrograms limit m programs) {schedule : ℕ → ι} (hfair : Fair schedule) :
    ∃ n s us, runFrom (threaded env).step (threads db₀ programs) (firstMoves schedule n) =
      .ok (s, us) ∧ s.Joined := by
  obtain ⟨n, s, us, hrun, hjoined, -⟩ :=
    threads_join ⟨h.wf, m, h.table⟩ (h.returns hproper) hfair
  exact ⟨n, s, us, hrun, hjoined⟩

/-- **Threads that share a database do not deadlock.**  After any run, if no order of the calls of
some threads faults when they are made one at a time, then under every schedule that lets each thread
move again and again all threads make all their calls. -/
theorem threads_complete [Fintype ι] {options : Options} {wal : Bytes} {disk : Disk}
    {calls : List Call} {rs : List Reply} (hrun : run env options wal disk calls = .ok (db₀, rs))
    (hseq : ∀ order, Interleaves programs order →
      ∃ r, runFrom (DbImpl.step env) db₀ (order.map Prod.snd) = .ok r)
    {schedule : ℕ → ι} (hfair : Fair schedule) :
    ∃ n s us, runFrom (threaded env).step (threads db₀ programs) (firstMoves schedule n) =
      .ok (s, us) ∧ s.Joined ∧ ∀ i, (s.returned i).map Prod.fst = programs i :=
  threads_join (shaped_of_run hrun) hseq hfair

/-- Two threads that take turns put the key, one after the other. -/
theorem threads_complete_two :
    ∃ n s us, runFrom (threaded Env.plain).step (threads (new {} [] fun _ => none) twoPuts)
      (firstMoves (fun k => k % 2 == 0) n) = .ok (s, us) ∧ s.Joined ∧
      ∀ i, (s.returned i).map Prod.fst = twoPuts i := by
  have hnew : run Env.plain {} [] (fun _ => none) [] = .ok (new {} [] fun _ => none, []) := rfl
  refine threads_complete hnew ((represents_new _ {} _ _).returns properPrograms_twoPuts)
    fun i n => ?_
  cases i with
  | true => exact ⟨2 * n, by omega, by simp⟩
  | false => exact ⟨2 * n + 1, by omega, by simp [Nat.add_mod]⟩

end Threads

end SmallKV.DbImpl
