import SmallKV.Cache.Cache
import SmallKV.Cache.Recency
import SmallKV.Foundations.Completion
import SmallKV.Utils.Lock

/-!
# Cache/Threads — threads that call the sharded cache

Every method of `LRU` begins with a `ScopedLock` on the lock of the cache; `Cache` has five caches
with a `MutexLock` each.  `code` is the body of a method statement by statement, so that the
statements of several threads mix, and `code_run` says that alone they do what the method does.

With the mutexes the calls of any threads take effect one at a time, in one order for all shards
(`Cache.calls_linearizable`), and all of them return (`Cache.calls_complete`).  With the default
lock of `LRU`, which is none, they do not take effect one at a time (`not_linearizable_nullLock`).
-/

namespace SmallKV.LRU

variable {K V : Type} [DecidableEq K]

/-! ## The methods, statement by statement -/

/-- The methods of a cache. -/
inductive Method (K V : Type)
  | access (a : Access K V)
  | release (key : K)

/-- The key of a method call. -/
def Method.key : Method K V → K
  | .access (.insert key _) => key
  | .access (.erase key) => key
  | .access (.get key) => key
  | .access (.contains key) => key
  | .release key => key

/-- A method call alone. -/
def method (l : LRU K V) : Method K V → Exec (LRU K V × Answer)
  | .access a => l.access a
  | .release key => do return (← l.release key, .done)

/-- The body of a method: what a statement reads is a node or null. -/
abbrev Body (K V : Type) := Code (LRU K V) (Option NodeId) Answer

/-- The body of `unref`. -/
def unrefCode (n : NodeId) (next : Body K V) : Body K V :=
  .act (fun l => do
    let nd ← l.deref n
    return { l with
      heap := Function.update l.heap n (some { nd with refCnt := toInt32 (nd.refCnt - 1) }) }) <|
  .stmt (fun l => do
    let nd ← l.deref n
    return (l, if nd.refCnt ≤ 0 then some n else none)) fun
  | none => next
  | some n =>
      .act (fun l => return { l with destroyed := l.destroyed ++ [n] }) <|
      .act (fun l => do
        let nd ← l.deref n
        return { l with garbageStation := Function.update l.garbageStation nd.key none }) <|
      .act (fun l => return { l with heap := Function.update l.heap n none }) next

/-- The body of `phantom_erase_node`. -/
def phantomEraseCode (n : NodeId) (next : Body K V) : Body K V :=
  .act (fun l => do
    let nd ← l.deref n
    return { l with heap := Function.update l.heap n (some { nd with inCache := false }) }) <|
  .act (fun l => do
    let nd ← l.deref n
    let pos ← orFault .nullPointer (l.index nd.key)
    return { l with nodes := l.nodes.erase pos }) <|
  .act (fun l => do
    let nd ← l.deref n
    return { l with index := Function.update l.index nd.key none }) <|
  .act (fun l => do
    let nd ← l.deref n
    return { l with garbageStation := Function.update l.garbageStation nd.key (some n) }) <|
  unrefCode n next

/-- `index.find(key)`. -/
def find (key : K) (next : Option NodeId → Body K V) : Body K V :=
  .stmt (fun l => return (l, l.index key)) next

/-- `nodes.splice(nodes.begin(), nodes, index[key])`. -/
def spliceCode (key : K) : Body K V → Body K V :=
  .act fun l => do
    let pos ← orFault .nullPointer (l.index key)
    return l.splice pos

/-- `index[key] = nodes.begin()`. -/
def indexFront (key : K) : Body K V → Body K V :=
  .act fun l => return { l with index := Function.update l.index key l.nodes.head? }

/-- **The bodies of the methods.** -/
def code : Method K V → Body K V
  | .access (.insert key val) =>
      .stmt (fun l => return ({ l with
        heap := Function.update l.heap l.fresh (some ⟨key, val, 1, true⟩)
        fresh := l.fresh + 1 }, some l.fresh)) fun
      -- `new` does not return null
      | none => .ret .done
      | some newNode => find key fun
          | none =>
              .act (fun l => return { l with nodes := newNode :: l.nodes }) <|
              indexFront key <|
              .stmt (fun l =>
                if l.cap < l.nodes.length then do
                  let oldNode ← orFault .nullPointer l.nodes.getLast?
                  return (l, some oldNode)
                else return (l, none)) fun
              | none => .ret .done
              | some oldNode => phantomEraseCode oldNode (.ret .done)
          | some _ => spliceCode key (indexFront key (.ret .done))
  | .access (.erase key) => find key fun
      | none => .ret .done
      | some pos => phantomEraseCode pos (.ret .done)
  | .access (.get key) => find key fun
      | none => .ret (.node none)
      | some pos => spliceCode key (indexFront key (.act (·.ref pos) (.ret (.node (some pos)))))
  | .access (.contains key) => find key fun pos => .ret (.found pos.isSome)
  | .release key =>
      .stmt (fun l => do
        let pos ← orFault .nullPointer (l.index key)
        return (l, some pos)) fun
      | none => .ret .done
      | some pos => unrefCode pos (.ret .done)

/-! ## The bodies run alone -/

section Run

variable {l : LRU K V} {n : NodeId} {next : Body K V}

theorem unrefCode_run : (unrefCode n next).run l = (do let l ← l.unref n; next.run l) := by
  rw [unrefCode, Code.act_run, unref]
  cases hnd : l.heap n with
  | none => simp [deref, hnd]
  | some nd =>
    by_cases hcount : toInt32 (nd.refCnt - 1) ≤ 0
    · simp [deref, hnd, Code.run, hcount]
    · simp [deref, hnd, Code.run, hcount]

theorem phantomEraseCode_run :
    (phantomEraseCode n next).run l = (do let l ← l.phantomEraseNode n; next.run l) := by
  simp only [phantomEraseCode, Code.act_run, unrefCode_run, phantomEraseNode]
  cases hnd : l.heap n with
  | none => simp [deref, hnd]
  | some nd =>
    cases hpos : l.index nd.key with
    | none => simp [deref, hnd, hpos]
    | some pos => simp [deref, hnd, hpos]

omit [DecidableEq K] in
theorem find_run {key : K} {next : Option NodeId → Body K V} :
    (find key next).run l = (next (l.index key)).run l := rfl

end Run

/-- **Alone, the statements of a method do what the method does.** -/
theorem code_run (l : LRU K V) (m : Method K V) : (code m).run l = l.method m := by
  match m with
  | .access (.insert key val) =>
    simp only [code, method, access, insert]
    cases hidx : l.index key with
    | none =>
      by_cases hfull : l.cap < l.nodes.length + 1
      · cases hlast : (l.fresh :: l.nodes).getLast? with
        | none => simp at hlast
        | some oldNode =>
          simp [Code.run, find_run, hidx, indexFront, hfull, hlast, phantomEraseCode_run]
      · simp [Code.run, find_run, hidx, indexFront, hfull]
    | some pos => simp [Code.run, find_run, hidx, indexFront, spliceCode, splice]
  | .access (.erase key) =>
    simp only [code, method, access, erase, find_run]
    cases hidx : l.index key with
    | none => rfl
    | some pos => simp [phantomEraseCode_run]
  | .access (.get key) =>
    simp only [code, method, access, get, find_run]
    cases hidx : l.index key with
    | none => rfl
    | some pos => simp [spliceCode, indexFront, hidx, splice]
  | .access (.contains key) => rfl
  | .release key =>
    simp only [code, method, release]
    cases hidx : l.index key with
    | none => simp [Code.run, hidx]
    | some pos => simp [Code.run, hidx, unrefCode_run]

end SmallKV.LRU

namespace SmallKV.Cache

open LRU

variable {K V : Type} [DecidableEq K] {ι : Type} [DecidableEq ι]

/-! ## The sharded cache -/

section Methods

variable (hashFn : K → ℕ)

/-- A method call alone. -/
def method (c : Cache K V) : Method K V → Exec (Cache K V × Answer)
  | .access (.insert key val) => do return (← c.insert hashFn key val, .done)
  | .access (.erase key) => do return (← c.erase hashFn key, .done)
  | .access (.get key) => do
      let (c, node) ← c.get hashFn key
      return (c, .node node)
  | .access (.contains key) => return (c, .found (c.contains hashFn key))
  | .release key => do return (← c.release hashFn key, .done)

/-- **The calls of some threads on the shards**, each shard with a lock of the type `T`. -/
def calls {L : Type} (T : LockType L ι) : Machine (Guarded (Fin shardingNum) (LRU K V) L) ι
    (Method K V) Answer (Phase ScopedLock (LRU K V) (Option NodeId) Answer) :=
  guarded code (fun m => shardingIndex hashFn m.key) (ScopedLock.guard T)

/-- Threads with their programs, over a new cache. -/
def threads (cap : ℕ) {L : Type} (l : L) (programs : ι → List (Method K V)) :
    Threads (Guarded (Fin shardingNum) (LRU K V) L) ι (Method K V) Answer
      (Phase ScopedLock (LRU K V) (Option NodeId) Answer) :=
  .start ⟨(new cap : Cache K V).caches, fun _ => l⟩ programs

variable {hashFn}

/-- **A method of the cache is the method of the shard of its key.** -/
theorem callOn_eq_method (c : Cache K V) (m : Method K V) :
    callOn code (fun m => shardingIndex hashFn m.key) c.caches m =
      (fun p => (p.1.caches, p.2)) <$> c.method hashFn m := by
  rw [callOn, code_run]
  rcases m with (⟨key, val⟩ | key | key | key) | key
  · simp only [LRU.method, access, method, insert, Method.key]
    cases (c.caches (shardingIndex hashFn key)).insert key val <;> rfl
  · simp only [LRU.method, access, method, erase, Method.key]
    cases (c.caches (shardingIndex hashFn key)).erase key <;> rfl
  · simp only [LRU.method, access, method, get, Method.key]
    cases (c.caches (shardingIndex hashFn key)).get key <;> rfl
  · simp [LRU.method, access, method, contains, Method.key]
  · simp only [LRU.method, method, release, Method.key]
    cases (c.caches (shardingIndex hashFn key)).release key <;> rfl

/-- The calls that are no `release` return, and keep the shape of the shards. -/
theorem method_returns {c : Cache K V} (h : c.WF) (a : Access K V) :
    ∃ c' r, c.method hashFn (.access a) = .ok (c', r) ∧ c'.WF := by
  cases a with
  | insert key val =>
    obtain ⟨c', hrun, hwf, -⟩ := insert_spec hashFn h key val
    exact ⟨c', .done, by simp [method, hrun], hwf⟩
  | erase key =>
    obtain ⟨c', hrun, hwf, -⟩ := erase_spec hashFn h key
    exact ⟨c', .done, by simp [method, hrun], hwf⟩
  | get key =>
    obtain ⟨c', node, hrun, hwf, -⟩ := get_spec hashFn h key
    exact ⟨c', .node node, by simp [method, hrun], hwf⟩
  | contains key => exact ⟨c, _, rfl, h⟩

/-- So do runs of them. -/
theorem run_returns {c : Cache K V} (h : c.WF) (ms : List (Method K V))
    (hms : ∀ m ∈ ms, ∃ a, m = .access a) :
    ∃ c' rs, runFrom (fun (c : Cache K V) m => c.method hashFn m) c ms = .ok (c', rs) ∧ c'.WF :=
  run_total _ (P := fun _ m => ∃ a, m = .access a) (fun _ _ hwf ⟨a, hm⟩ => hm ▸ method_returns hwf a)
    ms c h (along_of_forall_mem _ _ _ fun m hm _ => hms m hm)

end Methods

/-- **The calls on the shards simulate calls on the cache**, for any lock that excludes. -/
theorem calls_simulate (hashFn : K → ℕ) {L : Type} {T : LockType L ι}
    {Owner : L → Option ι → Prop} (hT : T.Excludes Owner) :
    ∃ R, Simulates (calls hashFn T) (fun (c : Cache K V) m => c.method hashFn m) Phase.decided R ∧
      (∀ c l, Owner l none → R ⟨c.caches, fun _ => l⟩ (fun _ => none) c) ∧
      ∀ s c, R s (fun _ => none) c → s.objects = c.caches := by
  refine ⟨_, (guarded_simulates code _ (ScopedLock.guard_excludes hT)).pullback Cache.caches
    callOn_eq_method, fun c l hl => ?_, ?_⟩
  · exact locked_start fun _ => ⟨hl, by simp⟩
  · rintro s c ⟨holder, h⟩
    refine funext fun o => h.free o ?_
    cases ho : holder o with
    | none => rfl
    | some p =>
      obtain ⟨c', rest, hbusy, -⟩ := h.held ho
      cases hbusy

/-- **Every schedule is explained by one order of the calls**, whatever the programs are: the cache
gives the threads' answers when they call it one after the other in this order, each thread's calls
come in the order of its program, a longer schedule adds calls at the end, and when no call is in
progress the shards are those of that cache. -/
def Linearizable (hashFn : K → ℕ) {L : Type} (T : LockType L ι) (l : L) : Prop :=
  ∀ (cap : ℕ) (programs : ι → List (Method K V)) (past future : List ι)
    (s s' : Threads (Guarded (Fin shardingNum) (LRU K V) L) ι (Method K V) Answer
      (Phase ScopedLock (LRU K V) (Option NodeId) Answer)) (us us' : List Unit),
    runFrom (calls hashFn T).step (threads cap l programs) past = .ok (s, us) →
    runFrom (calls hashFn T).step s future = .ok (s', us') →
    ∃ order more c c',
      Explains (fun (c : Cache K V) m => c.method hashFn m) Phase.decided (new cap) order s c ∧
      Explains (fun (c : Cache K V) m => c.method hashFn m) Phase.decided (new cap)
        (order ++ more) s' c' ∧
      Interleaves programs ((order ++ more).map fun p => (p.1, p.2.1)) ∧
      ((∀ i, s'.busy i = none) → s'.shared.objects = c'.caches)

/-- Calls under a lock that excludes take effect one at a time. -/
theorem linearizable_of_excludes (hashFn : K → ℕ) {L : Type} {T : LockType L ι}
    {Owner : L → Option ι → Prop} (hT : T.Excludes Owner) {l : L} (hl : Owner l none) :
    Linearizable (V := V) hashFn T l := by
  intro cap programs past future s s' us us' hpast hfuture
  obtain ⟨R, hsim, hstart, hidle⟩ := calls_simulate (V := V) hashFn hT
  obtain ⟨order, added, c, c', -, hR', hexplains, hexplains'⟩ :=
    hsim.linearizable (hstart (new cap) l hl) hpast hfuture
  have hrun : runFrom (calls hashFn T).step (threads cap l programs) (past ++ future) =
      .ok (s', us ++ us') := (runFrom_append _).mpr ⟨s, us, us', hpast, hfuture, rfl⟩
  exact ⟨order, added, c, c', hexplains, hexplains', hexplains'.interleaves hrun, fun hbusy =>
    hidle s'.shared c' (funext hbusy ▸ hR')⟩

/-- **Threads that share the cache.**  With a mutex or a spin lock in every shard, the calls of any
threads take effect one at a time, in one order for the whole cache. -/
theorem calls_linearizable (hashFn : K → ℕ) :
    Linearizable (V := V) hashFn (mutexLock : LockType (MutexLock ι) ι) .new ∧
      Linearizable (V := V) hashFn (spinLock : LockType SpinLock ι) .new :=
  ⟨linearizable_of_excludes hashFn mutexLock_excludes rfl,
    linearizable_of_excludes hashFn spinLock_excludes rfl⟩

/-- **Threads come to an end**: every schedule returns, and under a fair schedule all of them make
all the calls of their programs. -/
def Completes (hashFn : K → ℕ) {L : Type} (T : LockType L ι) (l : L) (cap : ℕ)
    (programs : ι → List (Method K V)) : Prop :=
  (∀ schedule : List ι, ∃ s us,
    runFrom (calls hashFn T).step (threads cap l programs) schedule = .ok (s, us)) ∧
  ∀ schedule : ℕ → ι, Fair schedule → ∃ n s us,
    runFrom (calls hashFn T).step (threads cap l programs) (firstMoves schedule n) = .ok (s, us) ∧
      s.Joined ∧ ∀ i, (s.returned i).map Prod.fst = programs i

/-- Threads that release nothing come to an end under any lock that excludes. -/
theorem completes_of_excludes [Finite ι] (hashFn : K → ℕ) {L : Type} {T : LockType L ι}
    {Owner : L → Option ι → Prop} (hT : T.Excludes Owner) {l : L} (hl : Owner l none) (cap : ℕ)
    {programs : ι → List (Method K V)} (hprograms : ∀ i, ∀ m ∈ programs i, ∃ a, m = .access a) :
    Completes hashFn T l cap programs := by
  have hreturns : ∀ schedule : List ι, ∃ s us,
      runFrom (calls hashFn T).step (threads cap l programs) schedule = .ok (s, us) := by
    obtain ⟨R, hsim, hstart, -⟩ := calls_simulate (V := V) hashFn hT
    refine hsim.returns_of_sequential (hstart (new cap) l hl) fun order horder => ?_
    obtain ⟨c, rs, hrun, -⟩ := run_returns (wf_new cap) (order.map Prod.snd) fun m hm => by
      obtain ⟨i, hi⟩ := horder.mem hm
      exact hprograms i m hi
    exact ⟨(c, rs), hrun⟩
  have hex := ScopedLock.guard_excludes hT
  exact ⟨hreturns, fun schedule hfair => (guarded_simulates code _ hex).joins (guarded_lively hex)
    (locked_start fun _ => ⟨hl, by simp⟩) hreturns hfair⟩

/-- **Threads that release nothing come to an end.**  With a mutex or a spin lock in every shard, no
schedule of threads whose calls are no `release` goes wrong or deadlocks: under a fair one all of
them make all their calls. -/
theorem calls_complete [Fintype ι] (hashFn : K → ℕ) (cap : ℕ) (programs : ι → List (Method K V))
    (hprograms : ∀ i, ∀ m ∈ programs i, ∃ a, m = .access a) :
    Completes hashFn mutexLock MutexLock.new cap programs ∧
      Completes hashFn spinLock SpinLock.new cap programs :=
  ⟨completes_of_excludes hashFn mutexLock_excludes rfl cap hprograms,
    completes_of_excludes hashFn spinLock_excludes rfl cap hprograms⟩

/-- Two threads that insert the same key. -/
def twoInserts : Bool → List (Method ℕ ℕ)
  | true => [.access (.insert 0 1)]
  | false => [.access (.insert 0 2)]

/-- The threads of two inserts come to an end. -/
theorem calls_complete_two :
    Completes (id : ℕ → ℕ) mutexLock MutexLock.new 4 twoInserts ∧
      Completes (id : ℕ → ℕ) spinLock SpinLock.new 4 twoInserts :=
  calls_complete id 4 twoInserts (by
    intro i m hm
    cases i <;> exact ⟨_, List.mem_singleton.mp hm⟩)

/-- **Without a lock the statements of two inserts mix**: both find the key absent, and the shard
has two nodes for it, which no order of the two calls leads to. -/
theorem not_linearizable_nullLock :
    ¬ Linearizable (V := ℕ) (id : ℕ → ℕ) (nullLock : LockType Unit Bool) () := by
  intro h
  have hturns : (fun p =>
      ((p.1.shared.objects ⟨0, by decide⟩).nodes,
        [0, 1].map fun n => ((p.1.shared.objects ⟨0, by decide⟩).heap n).map LruNode.key,
        (p.1.busy true).isNone && (p.1.busy false).isNone)) <$>
      runFrom (calls (id : ℕ → ℕ) nullLock).step (threads 4 () twoInserts)
        (List.replicate 8 [true, false]).flatten =
      .ok ([1, 0], [some 0, some 0], true) := by
    decide +kernel
  obtain ⟨⟨s, us⟩, hrun, hs⟩ := map_eq_ok.mp hturns
  simp only [List.map_cons, List.map_nil, Prod.mk.injEq, List.cons.injEq, and_true,
    Bool.and_eq_true, Option.isNone_iff_eq_none, Option.map_eq_some_iff] at hs
  obtain ⟨hnodes, ⟨⟨nd₀, hnd₀, hkey₀⟩, nd₁, hnd₁, hkey₁⟩, htrue, hfalse⟩ := hs
  have hbusy : ∀ i, s.busy i = none := Bool.forall_bool.mpr ⟨hfalse, htrue⟩
  obtain ⟨order, more, c, c', -, hexplains, hinter, hidle⟩ := h 4 twoInserts _ [] s s us [] hrun rfl
  have haccess : ∀ m ∈ (order ++ more).map (·.2.1), ∃ a, m = .access a := by
    intro m hm
    obtain ⟨i, hi⟩ := hinter.mem (by simpa using hm)
    cases i <;> exact ⟨_, List.mem_singleton.mp hi⟩
  obtain ⟨c₁, rs, hrun₁, hwf⟩ := run_returns (wf_new 4) _ haccess
  obtain ⟨rfl, -⟩ := Prod.mk.inj (Except.ok.inj (hrun₁.symm.trans hexplains.run))
  have hshard := hwf ⟨0, by decide⟩
  rw [← hidle hbusy] at hshard
  have h₀ := (hshard.indexed 0 0).mpr ⟨by simp [hnodes], nd₀, hnd₀, hkey₀⟩
  have h₁ := (hshard.indexed 0 1).mpr ⟨by simp [hnodes], nd₁, hnd₁, hkey₁⟩
  exact absurd (h₀.symm.trans h₁) (by simp)

end SmallKV.Cache
