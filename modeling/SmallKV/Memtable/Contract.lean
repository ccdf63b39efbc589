import SmallKV.Memtable.MemTable

/-!
# Memtable/Contract — what `memtable.h` promises of `Add`, `Update` and `Delete`

After a call its key has its value, present before or not, and every other key has what it had
(`Meets`).  `Update` and `Delete` make room for the value before they insert it; `Add` leaves that to
`SkipList::Insert`, which drops the value of a present key.  So the promise is kept in every
reachable table except by an `Add` of a key that has another value (`meets_iff`).
-/

namespace SmallKV.MemTable

/-! ## Calls -/

/-- A call that writes to the table, with the level `RandomLevel` returns for it. -/
inductive Call
  | add (key value : StringView) (level : Level)
  | update (key value : StringView) (level : Level)
  | delete (key : StringView) (level : Level)

namespace Call

/-- The key written. -/
def key : Call → StringView
  | add key _ _ | update key _ _ | delete key _ => key

/-- The value written: the empty one by a `Delete`. -/
def value : Call → StringView
  | add _ value _ | update _ value _ => value
  | delete _ _ => .ofBytes []

/-- The strings of the call are NUL-free and NUL-terminated. -/
def IsCStr (c : Call) : Prop := c.key.IsCStr ∧ c.value.IsCStr

instance (c : Call) : Decidable c.IsCStr := inferInstanceAs (Decidable (_ ∧ _))

end Call

/-- Make one call. -/
def call (t : MemTable) : Call → Exec (MemTable × Unit)
  | .add key value level => do return (← t.add key value level, ())
  | .update key value level => do return (← t.update key value level, ())
  | .delete key level => do return (← t.delete key level, ())

/-- What a call makes of the map of the table. -/
def applyCall (m : SortedMap Bytes Bytes) : Call → SortedMap Bytes Bytes
  | .add key value _ => m.insertNew key.bytes value.bytes
  | .update key value _ => m.put key.bytes value.bytes
  | .delete key _ => m.put key.bytes []

variable {t : MemTable} {m : SortedMap Bytes Bytes} {c : Call}

/-- **A call returns, and does to the map what it does.** -/
theorem call_spec (h : t.Holds m) (hc : c.IsCStr) :
    ∃ t', t.call c = .ok (t', ()) ∧ t'.Holds (applyCall m c) := by
  cases c with
  | add key value level =>
    obtain ⟨t', hrun, ht⟩ := add_spec key value level h
    rw [StringView.cstr_of_isCStr (v := key) hc.1, StringView.cstr_of_isCStr (v := value) hc.2] at ht
    exact ⟨t', by simp [call, hrun], ht⟩
  | update key value level =>
    obtain ⟨t', hrun, ht⟩ := update_spec key value level h
    rw [StringView.cstr_of_isCStr (v := key) hc.1, StringView.cstr_of_isCStr (v := value) hc.2] at ht
    exact ⟨t', by simp [call, hrun], ht⟩
  | delete key level =>
    obtain ⟨t', hrun, ht⟩ := delete_spec key level h
    rw [StringView.cstr_of_isCStr (v := key) hc.1] at ht
    exact ⟨t', by simp [call, hrun], ht⟩

/-- **Every reachable table holds a map.** -/
theorem run_holds : ∀ (calls : List Call) (t : MemTable) (m : SortedMap Bytes Bytes),
    t.Holds m → (∀ c ∈ calls, c.IsCStr) →
      ∃ t' rs, runFrom call t calls = .ok (t', rs) ∧ t'.Holds (calls.foldl applyCall m)
  | [], t, m, h, _ => ⟨t, [], rfl, h⟩
  | c :: calls, t, m, h, hcalls => by
      obtain ⟨t₁, hrun₁, h₁⟩ := call_spec h (hcalls c List.mem_cons_self)
      obtain ⟨t', rs, hrun, h'⟩ := run_holds calls t₁ _ h₁ fun c' hc' =>
        hcalls c' (List.mem_cons_of_mem c hc')
      exact ⟨t', () :: rs, (runFrom_cons call).mpr ⟨t₁, (), rs, hrun₁, hrun, rfl⟩, h'⟩

/-! ## The contract -/

/-- **The promise of a call**: it returns, its key has its value afterwards, and every other key has
what it had. -/
def Meets (t : MemTable) (c : Call) : Prop :=
  ∃ t', t.call c = .ok (t', ()) ∧ t'.get c.key = .ok (some c.value.bytes) ∧
    ∀ key : StringView, key.IsCStr → key.bytes ≠ c.key.bytes → t'.get key = t.get key

/-- An `Add` meets no other value of its key. -/
def Room (t : MemTable) : Call → Prop
  | .add key value _ => t.get key = .ok none ∨ t.get key = .ok (some value.bytes)
  | _ => True

/-- What a call does to the other keys: nothing. -/
theorem lookup_applyCall_ne (c : Call) {k : Bytes} (hne : k ≠ c.key.bytes) :
    (applyCall m c).lookup k = m.lookup k := by
  cases c with
  | add key value level =>
    rw [applyCall, SortedMap.insertNew]
    split_ifs
    · rfl
    · exact m.lookup_put_ne _ hne
  | update key value level => exact m.lookup_put_ne _ hne
  | delete key level => exact m.lookup_put_ne _ hne

/-- What a call does to its own key: an `Add` keeps a value that is there. -/
theorem lookup_applyCall_self (h : t.Holds m) (hc : c.IsCStr) :
    (applyCall m c).lookup c.key.bytes = some c.value.bytes ↔ Room t c := by
  cases c with
  | add key value level =>
    rw [applyCall, Room, get_spec key h, StringView.cstr_of_isCStr (v := key) hc.1,
      Except.ok.injEq, Except.ok.injEq]
    cases hlookup : m.lookup key.bytes with
    | none => simp [SortedMap.insertNew_of_lookup_none _ _ hlookup, Call.key, Call.value]
    | some v => simp [SortedMap.insertNew_of_lookup_some _ _ hlookup, hlookup, Call.key, Call.value]
  | update key value level => exact iff_of_true (m.lookup_put_self _ _) trivial
  | delete key level => exact iff_of_true (m.lookup_put_self _ _) trivial

theorem meets_iff_room (h : t.Holds m) (hc : c.IsCStr) : Meets t c ↔ Room t c := by
  obtain ⟨t', hrun, ht⟩ := call_spec h hc
  have hself : t'.get c.key = .ok ((applyCall m c).lookup c.key.bytes) := by
    rw [get_spec c.key ht, StringView.cstr_of_isCStr hc.1]
  rw [← lookup_applyCall_self h hc]
  constructor
  · rintro ⟨t'', hrun', hget, -⟩
    obtain ⟨rfl, -⟩ := Prod.mk.inj (Except.ok.inj (hrun.symm.trans hrun'))
    exact Except.ok.inj (hself.symm.trans hget)
  · intro hlookup
    refine ⟨t', hrun, by rw [hself, hlookup], fun key hkey hne => ?_⟩
    rw [get_spec key ht, get_spec key h, StringView.cstr_of_isCStr hkey, lookup_applyCall_ne c hne]

/-- **The contract of the table**: any run of calls returns, and from the table it leaves a call keeps
its promise exactly when it is no `Add` of a key that has another value. -/
theorem meets_iff (calls : List Call) (hcalls : ∀ c ∈ calls, c.IsCStr) :
    ∃ t rs, runFrom call new calls = .ok (t, rs) ∧
      ∀ c : Call, c.IsCStr → (Meets t c ↔ Room t c) := by
  obtain ⟨t, rs, hrun, h⟩ := run_holds calls new .empty holds_new hcalls
  exact ⟨t, rs, hrun, fun c hc => meets_iff_room h hc⟩

theorem meets_iff_three :
    ∃ t rs, runFrom call new [.add (.ofBytes [107]) (.ofBytes [97]) ⟨1, by decide⟩,
        .update (.ofBytes [108]) (.ofBytes [98]) ⟨2, by decide⟩,
        .delete (.ofBytes [109]) ⟨1, by decide⟩] = .ok (t, rs) ∧
      ∀ c : Call, c.IsCStr → (Meets t c ↔ Room t c) :=
  meets_iff _ (by decide)

/-- Every call to every reachable table keeps its promise. -/
def AlwaysMeets : Prop :=
  ∀ (calls : List Call) (t : MemTable) (rs : List Unit) (c : Call), (∀ c ∈ calls, c.IsCStr) →
    c.IsCStr → runFrom call new calls = .ok (t, rs) → Meets t c

/-- **A second `Add` of a key changes nothing.** -/
theorem not_alwaysMeets : ¬ AlwaysMeets := by
  intro h
  have hrun : (do
      let (t, _) ← new.call (.add (.ofBytes [107]) (.ofBytes [97]) ⟨1, by decide⟩)
      let (t, _) ← t.call (.add (.ofBytes [107]) (.ofBytes [98]) ⟨1, by decide⟩)
      t.get (.ofBytes [107])) = .ok (some [97]) := rfl
  obtain ⟨⟨t, _⟩, hadd, hrun⟩ := bind_eq_ok.mp hrun
  obtain ⟨⟨t', _⟩, hadd', hget⟩ := bind_eq_ok.mp hrun
  obtain ⟨t'', hadd'', hget', -⟩ := h [.add (.ofBytes [107]) (.ofBytes [97]) ⟨1, by decide⟩] t [()]
    (.add (.ofBytes [107]) (.ofBytes [98]) ⟨1, by decide⟩) (by decide) (by decide)
    ((runFrom_cons call).mpr ⟨t, (), [], hadd, rfl, rfl⟩)
  obtain ⟨rfl, -⟩ := Prod.mk.inj (Except.ok.inj (hadd'.symm.trans hadd''))
  have hvalue := hget.symm.trans hget'
  exact absurd hvalue (by decide)

end SmallKV.MemTable
