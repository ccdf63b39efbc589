import SmallKV.Cache.Recency
import SmallKV.Cache.Victim

/-!
# Cache/Values — which value an LRU cache has for a key

`insert` of a key that is cached already moves its node to the front, as for an update, but drops the
new value.  So the values follow the last insertions, at every point of a run, exactly when every
insertion of a cached key brings the value that is there (`valued_iff`).
-/

namespace SmallKV.LRU

variable {K V : Type} [DecidableEq K]

/-- `get` of the key returns a node with that value. -/
def Gets (l : LRU K V) (key : K) (val : V) : Prop :=
  ∃ l' n nd, l.get key = .ok (l', some n) ∧ l'.heap n = some nd ∧ nd.val = val

variable {l l' : LRU K V} {key k : K} {val v : V}

/-- What `get` returns is the cached value. -/
theorem gets_iff (h : WF l) : l.Gets key val ↔ l.cached key = some val := by
  obtain ⟨l', r, hrun, -, hval⟩ := get_spec h key
  rw [← hval]
  constructor
  · rintro ⟨l₁, n, nd, hget, hnd, rfl⟩
    obtain ⟨rfl, rfl⟩ := Prod.mk.inj (Except.ok.inj (hrun.symm.trans hget))
    simp [hnd]
  · intro hr
    obtain ⟨nd, hbind, hnd⟩ := Option.map_eq_some_iff.mp hr
    obtain ⟨n, rfl, hheap⟩ := Option.bind_eq_some_iff.mp hbind
    exact ⟨l', n, nd, hrun, hheap, hnd⟩

/-! ## The last insertion of a key -/

/-- The value that a call inserts under a key. -/
def insertedValue (key : K) : Access K V × Answer → Option V
  | (.insert k v, _) => if k = key then some v else none
  | _ => none

/-- The value of the most recent insertion of a key. -/
def lastInserted (h : List (Access K V × Answer)) (key : K) : Option V :=
  (h.filterMap (insertedValue key)).getLast?

variable {h : List (Access K V × Answer)} {e : Access K V × Answer}

theorem lastInserted_append (h : List (Access K V × Answer)) (e : Access K V × Answer) (key : K) :
    lastInserted (h ++ [e]) key = (insertedValue key e).or (lastInserted h key) := by
  rw [lastInserted, lastInserted, List.filterMap_append]
  cases hv : insertedValue key e <;> simp [hv]

/-! ## Values that follow the insertions -/

/-- **The values follow the insertions**: right after an insertion of a key `get` returns its value,
and for every key that is there the value of its most recent insertion. -/
structure Valued (h : List (Access K V × Answer)) (l : LRU K V) : Prop where
  inserted : ∀ before key val answer, h = before ++ [(.insert key val, answer)] → l.Gets key val
  present : ∀ key, l.contains key = true → ∃ val, lastInserted h key = some val ∧ l.Gets key val

/-- An insertion of a cached key brings the value that is there. -/
def Steady (l : LRU K V) : Access K V → Prop
  | .insert key val => ∀ v, l.cached key = some v → v = val
  | _ => True

theorem valued_new (cap : ℕ) : Valued [] (new cap : LRU K V) where
  inserted before key val answer heq := by simp at heq
  present key hkey := by simp [new, contains] at hkey

/-- The values of a cache in its shape, told from the cached values. -/
theorem Valued.lastInserted_eq (hv : Valued h l) (hwf : WF l) (hk : l.cached k = some v) :
    lastInserted h k = some v := by
  obtain ⟨w, hlast, hgets⟩ := hv.present k ((contains_iff hwf).mpr ⟨v, hk⟩)
  rw [gets_iff hwf, hk] at hgets
  rw [hlast, Option.some.inj hgets]

/-- A call that inserts nothing and caches nothing new keeps the values. -/
theorem Valued.unchanged (hv : Valued h l) (hwf : WF l) (hwf' : WF l')
    (he : ∀ key val, e.1 ≠ .insert key val)
    (hcached : ∀ k v, l'.cached k = some v → l.cached k = some v) : Valued (h ++ [e]) l' := by
  have hnone : ∀ key, insertedValue key e = none := by
    intro key
    obtain ⟨c, r⟩ := e
    cases c with
    | insert k v => exact absurd rfl (he k v)
    | erase | get | contains => rfl
  refine ⟨fun before key val answer heq => ?_, fun k hk => ?_⟩
  · obtain ⟨-, hlast⟩ := List.append_inj' heq rfl
    exact absurd (congrArg Prod.fst (List.cons.inj hlast).1) (he key val)
  · obtain ⟨v, hv'⟩ := (contains_iff hwf').mp hk
    refine ⟨v, ?_, (gets_iff hwf').mpr hv'⟩
    rw [lastInserted_append, hnone, Option.none_or]
    exact hv.lastInserted_eq hwf (hcached k v hv')

omit [DecidableEq K] in
/-- A key that is cached keeps its value. -/
theorem Admission.cached_self (ha : Admission l key val l') (hwf : WF l)
    (hv : l.cached key = some v) : l'.cached key = some v := by
  have hcontains := (contains_iff hwf).mpr ⟨v, hv⟩
  rw [ha.kept key (fun hadmits => absurd hadmits.1 (by simp [hcontains]))
    (fun n nd hn => absurd (victim_of_contains hcontains) (by simp [hn])), hv]

omit [DecidableEq K] in
/-- After a steady insertion the key has its value, in a cache with room for a key. -/
theorem Admission.cached_of_steady (ha : Admission l key val l') (hwf : WF l) (hcap : l.cap ≠ 0)
    (hsteady : l.Steady (.insert key val)) : l'.cached key = some val := by
  cases hcached : l.cached key with
  | none =>
    have hnone := (cached_eq_none hwf).mp hcached
    exact ha.admitted ⟨contains_eq_false.mpr hnone, Or.inl hcap⟩
  | some v =>
    have hsame : v = val := hsteady v hcached
    rw [ha.cached_self hwf hcached, hsame]

/-- **An insertion keeps the values exactly when it is steady**, in a cache with room for a key. -/
theorem Valued.insert_iff {answer : Answer} (hv : Valued h l) (hwf : WF l) (hcap : l.cap ≠ 0)
    (ha : Admission l key val l')
    (hnew : ∀ k v, l'.cached k = some v → l.cached k = some v ∨ k = key ∧ v = val ∧ l.cached k = none) :
    Valued (h ++ [(.insert key val, answer)]) l' ↔ l.Steady (.insert key val) := by
  constructor
  · intro hv' v hcached
    have hgets := hv'.inserted h key val answer rfl
    rw [gets_iff ha.wf, ha.cached_self hwf hcached] at hgets
    exact Option.some.inj hgets
  · intro hsteady
    have hval := ha.cached_of_steady hwf hcap hsteady
    refine ⟨fun before k v a heq => ?_, fun k hk => ?_⟩
    · obtain ⟨-, hlast⟩ := List.append_inj' heq rfl
      obtain ⟨rfl, rfl⟩ := Access.insert.inj (congrArg Prod.fst (List.cons.inj hlast).1)
      exact (gets_iff ha.wf).mpr hval
    · obtain ⟨v, hcached⟩ := (contains_iff ha.wf).mp hk
      refine ⟨v, ?_, (gets_iff ha.wf).mpr hcached⟩
      rw [lastInserted_append, insertedValue]
      by_cases hkeys : key = k
      · rw [← hkeys, hval] at hcached
        rw [if_pos hkeys, Option.some_or, hcached]
      · rw [if_neg hkeys, Option.none_or]
        rcases hnew k v hcached with hold | ⟨heq, -⟩
        · exact hv.lastInserted_eq hwf hold
        · exact absurd heq.symm hkeys

/-- **The step lemma of the values.** -/
theorem Valued.step_iff {c : Access K V} {r : Answer} (hv : Valued h l) (hwf : WF l)
    (hcap : l.cap ≠ 0) (hstep : access l c = .ok (l', r)) :
    (WF l' ∧ l'.cap = l.cap) ∧ (Valued (h ++ [(c, r)]) l' ↔ l.Steady c) := by
  cases c with
  | insert key val =>
    obtain ⟨l₁, hrun, ha⟩ := insert_admission hwf key val
    obtain ⟨l₂, hrun₂, -, hcap₂, hnew⟩ := insert_spec hwf key val
    obtain rfl := Except.ok.inj (hrun.symm.trans hrun₂)
    rw [access, hrun, ok_bind] at hstep
    obtain ⟨rfl, rfl⟩ := Prod.mk.inj (Except.ok.inj hstep)
    exact ⟨⟨ha.wf, hcap₂⟩, hv.insert_iff hwf hcap ha hnew⟩
  | erase key =>
    obtain ⟨l₁, hrun, hwf₁, hcap₁, hcached⟩ := erase_spec hwf key
    rw [access, hrun, ok_bind] at hstep
    obtain ⟨rfl, rfl⟩ := Prod.mk.inj (Except.ok.inj hstep)
    refine ⟨⟨hwf₁, hcap₁⟩, iff_of_true (hv.unchanged hwf hwf₁ (by simp) fun k v hk => ?_) trivial⟩
    rw [hcached] at hk
    exact (Option.ite_none_left_eq_some.mp hk).2
  | get key =>
    obtain ⟨l₁, node, hrun, hs, -⟩ := get_spec hwf key
    rw [access, hrun, ok_bind] at hstep
    obtain ⟨rfl, rfl⟩ := Prod.mk.inj (Except.ok.inj hstep)
    refine ⟨⟨hs.wf hwf, hs.cap⟩, iff_of_true (hv.unchanged hwf (hs.wf hwf) (by simp) fun k v hk => ?_)
      trivial⟩
    rwa [hs.cached hwf] at hk
  | contains key =>
    obtain ⟨rfl, rfl⟩ := Prod.mk.inj (Except.ok.inj hstep)
    exact ⟨⟨hwf, rfl⟩, iff_of_true (hv.unchanged hwf hwf (by simp) fun _ _ hk => hk) trivial⟩

/-- **When the values follow the insertions**: every run returns, and at every point of it `get`
returns what was inserted last exactly when no insertion brings a new value for a cached key. -/
theorem valued_iff {cap : ℕ} (hcap : 1 ≤ cap) (calls : List (Access K V)) :
    ∃ l answers, runFrom access (new cap) calls = .ok (l, answers) ∧
      ((∀ pre, pre <+: calls → ∀ l answers, runFrom access (new cap) pre = .ok (l, answers) →
        Valued (pre.zip answers) l) ↔ Along access Steady (new cap) calls) := by
  obtain ⟨l, answers, hrun, -⟩ := recent_of_run cap calls
  refine ⟨l, answers, hrun, ?_⟩
  exact run_history_iff access (I := fun _ l => WF l ∧ l.cap = cap) (Q := Valued)
    (fun h l c l' r hI hv hstep => by
      have hcap' : l.cap ≠ 0 := by omega
      obtain ⟨⟨hwf, hcapacity⟩, hiff⟩ := hv.step_iff hI.1 hcap' hstep
      exact ⟨⟨hwf, hcapacity.trans hI.2⟩, hiff⟩)
    calls [] (new cap) l answers ⟨wf_new cap, rfl⟩ (valued_new cap) hrun

/-- A cache of one key. -/
theorem valued_iff_two :
    ∃ l answers, runFrom access (new 1) [.insert 1 10, .insert 2 20] = .ok (l, answers) ∧
      ((∀ pre, pre <+: ([.insert 1 10, .insert 2 20] : List (Access ℕ ℕ)) →
        ∀ l answers, runFrom access (new 1) pre = .ok (l, answers) →
          Valued (pre.zip answers) l) ↔ Along access Steady (new 1) [.insert 1 10, .insert 2 20]) :=
  valued_iff (le_refl 1) _

/-- In every run the values follow the insertions. -/
def ValuesFollow (K V : Type) [DecidableEq K] : Prop :=
  ∀ (cap : ℕ) (calls : List (Access K V)), 1 ≤ cap →
    ∃ l answers, runFrom access (new cap) calls = .ok (l, answers) ∧ Valued (calls.zip answers) l

/-- **A second insertion does not change the value.** -/
theorem not_valuesFollow : ¬ ValuesFollow ℕ ℕ := by
  intro h
  obtain ⟨l, answers, hrun, hv⟩ := h 1 [.insert 1 10, .insert 1 20] (le_refl 1)
  have hend : (do
      let (l, _) ← runFrom access (new 1) ([.insert 1 10, .insert 1 20] : List (Access ℕ ℕ))
      let (l, n) ← l.get 1
      return (n.bind l.heap).map LruNode.val) = .ok (some 10) := rfl
  obtain ⟨a, b, rfl⟩ := List.length_eq_two.mp (length_of_runFrom access hrun)
  obtain ⟨l', n, nd, hget, hnd, hval⟩ := hv.inserted [(.insert 1 10, a)] 1 20 b rfl
  simp only [hrun, ok_bind, hget, pure_eq_ok, Option.bind_some, hnd, Option.map_some, hval] at hend
  exact absurd hend (by decide)

end SmallKV.LRU
