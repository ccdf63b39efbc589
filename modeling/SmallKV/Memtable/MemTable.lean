import SmallKV.Memtable.SkipListRefinement
import SmallKV.Utils.StringView

/-!
# Memtable/MemTable — the memtable of `memtable/memtable.cpp`

A skip list of strings, reached through the `data()` of the views it is given.  `Holds t m` says
that the table represents the sorted map `m`; the three kinds of `Insert` are `insertNew` and `put`
of that map at the C strings of the key and the value.
-/

namespace SmallKV

/-- `OpType`. -/
inductive OpType
  | kDeletion
  | kAdd
  | kUpdate
  deriving DecidableEq, Repr

/-- `MemTable`. -/
structure MemTable where
  orderedTable : SkipList Bytes Bytes

namespace MemTable

/-- The constructor. -/
def new : MemTable := ⟨SkipList.new⟩

/-- `Contains`. -/
def contains (t : MemTable) (key : StringView) : Exec Bool := t.orderedTable.contains key.cstr

/-- `Get`. -/
def get (t : MemTable) (key : StringView) : Exec (Option Bytes) := t.orderedTable.get key.cstr

/-- `Insert`, where `RandomLevel` returns `level`. -/
def insert (t : MemTable) (opType : OpType) (key value : StringView) (level : Level) :
    Exec MemTable :=
  match opType with
  | .kAdd => do
      return ⟨← t.orderedTable.insert key.cstr value.cstr level⟩
  | .kUpdate => do
      let table ← t.orderedTable.delete key.cstr
      return ⟨← table.insert key.cstr value.cstr level⟩
  | .kDeletion => do
      let table ← (if ← t.orderedTable.contains key.cstr then t.orderedTable.delete key.cstr
        else return t.orderedTable)
      -- the empty value is the tombstone
      return ⟨← table.insert key.cstr [] level⟩

/-- `Add`. -/
def add (t : MemTable) (key value : StringView) (level : Level) : Exec MemTable :=
  t.insert .kAdd key value level

/-- `Update`. -/
def update (t : MemTable) (key value : StringView) (level : Level) : Exec MemTable :=
  t.insert .kUpdate key value level

/-- `Delete`. -/
def delete (t : MemTable) (key : StringView) (level : Level) : Exec MemTable :=
  t.insert .kDeletion key (.ofBytes []) level

/-- `GetMemUsage`. -/
def getMemUsage (t : MemTable) : ℤ := t.orderedTable.getMemUsage

/-- `GetSize`. -/
def getSize (t : MemTable) : ℤ := t.orderedTable.getSize

/-! ## The map a table holds -/

/-- **The table holds the map `m`.** -/
def Holds (t : MemTable) (m : SortedMap Bytes Bytes) : Prop :=
  ∃ ns, SkipList.Rep t.orderedTable ns m

theorem holds_new : Holds new .empty := ⟨[], SkipList.rep_new⟩

variable {t : MemTable} {m : SortedMap Bytes Bytes} (key value : StringView) (level : Level)

/-- **A table holds one map.** -/
theorem Holds.unique {m' : SortedMap Bytes Bytes} (h : Holds t m) (h' : Holds t m') : m = m' :=
  SortedMap.ext (Except.ok.inj
    ((SkipList.traverse_spec h.choose_spec).symm.trans (SkipList.traverse_spec h'.choose_spec)))

theorem contains_spec (h : Holds t m) : t.contains key = .ok (m.contains key.cstr) :=
  SkipList.contains_spec h.choose_spec key.cstr

theorem get_spec (h : Holds t m) : t.get key = .ok (m.lookup key.cstr) :=
  SkipList.get_spec h.choose_spec key.cstr

/-- **`Add` leaves a present key alone.** -/
theorem add_spec (h : Holds t m) :
    ∃ t', t.add key value level = .ok t' ∧ Holds t' (m.insertNew key.cstr value.cstr) := by
  obtain ⟨ns, hrep⟩ := h
  obtain ⟨s, ns', hrun, hrep'⟩ := SkipList.insert_spec hrep key.cstr value.cstr level
  exact ⟨⟨s⟩, by simp [add, insert, hrun], ns', hrep'⟩

/-- **`Update` replaces the value.** -/
theorem update_spec (h : Holds t m) :
    ∃ t', t.update key value level = .ok t' ∧ Holds t' (m.put key.cstr value.cstr) := by
  obtain ⟨ns, hrep⟩ := h
  obtain ⟨s, ns', hrun, hrep'⟩ := SkipList.delete_spec hrep key.cstr
  obtain ⟨s₂, ns₂, hrun₂, hrep₂⟩ := SkipList.insert_spec hrep' key.cstr value.cstr level
  rw [SortedMap.insertNew_of_lookup_none _ _ (SortedMap.lookup_erase_self _ _),
    SortedMap.erase_put] at hrep₂
  exact ⟨⟨s₂⟩, by simp [update, insert, hrun, hrun₂], ns₂, hrep₂⟩

/-- **`Delete` replaces the value by the tombstone.** -/
theorem delete_spec (h : Holds t m) :
    ∃ t', t.delete key level = .ok t' ∧ Holds t' (m.put key.cstr []) := by
  obtain ⟨ns, hrep⟩ := h
  have herased : ∃ s ns', (if m.contains key.cstr then t.orderedTable.delete key.cstr
      else .ok t.orderedTable) = .ok s ∧ SkipList.Rep s ns' (m.erase key.cstr) := by
    by_cases hc : m.contains key.cstr = true
    · obtain ⟨s, ns', hrun, hrep'⟩ := SkipList.delete_spec hrep key.cstr
      exact ⟨s, ns', by rw [if_pos hc, hrun], hrep'⟩
    · obtain ⟨a, b, hs, hm⟩ := m.exists_split key.cstr
      have hnone : m.lookup key.cstr = none := by
        simpa [SortedMap.contains] using hc
      rcases hm with hm | ⟨v, hm⟩
      · refine ⟨t.orderedTable, ns, by rw [if_neg hc], ?_⟩
        rwa [SortedMap.erase_of_split hs hm]
      · rw [SortedMap.lookup_of_split_cons hs hm] at hnone
        cases hnone
  obtain ⟨s, ns', hrun, hrep'⟩ := herased
  obtain ⟨s₂, ns₂, hrun₂, hrep₂⟩ := SkipList.insert_spec hrep' key.cstr [] level
  rw [SortedMap.insertNew_of_lookup_none _ _ (SortedMap.lookup_erase_self _ _),
    SortedMap.erase_put] at hrep₂
  refine ⟨⟨s₂⟩, ?_, ns₂, hrep₂⟩
  simp only [delete, insert, SkipList.contains_spec hrep, ok_bind, pure_eq_ok, hrun, hrun₂]

end MemTable

end SmallKV
