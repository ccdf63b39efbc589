import SmallKV.Db.DbImpl
import SmallKV.Utils.Decimal
import Mathlib.Data.List.Nodup

/-!
# Db/TableWrites — the memtable under the writes of the database

`Put` and `Delete` look a key up before they choose between `Add`, `Update` and `Delete`.  Under
this discipline the memtable is the map of what was last written (`holds_of_writes`), and shows it
to its readers; only `GetSize`, which squeezes a 64-bit count into an `int`, gives up at `2 ^ 31`
keys (`shows_iff`).
-/

namespace SmallKV.MemTable

/-! ## Writes -/

/-- A write of the database to its memtable. -/
inductive TableWrite
  | put (key value : StringView) (level : Level)
  | delete (key : StringView) (level : Level)

namespace TableWrite

/-- The key and the value written; a delete writes the empty string. -/
def pair : TableWrite → Bytes × Bytes
  | put key value _ => (key.bytes, value.bytes)
  | delete key _ => (key.bytes, [])

/-- The strings of the write are NUL-free and NUL-terminated. -/
def IsCStr : TableWrite → Prop
  | put key value _ => key.IsCStr ∧ value.IsCStr
  | delete key _ => key.IsCStr

instance : DecidablePred IsCStr
  | put _ _ _ => inferInstanceAs (Decidable (_ ∧ _))
  | delete _ _ => inferInstanceAs (Decidable (StringView.IsCStr _))

end TableWrite

/-- Step 2 of `Put` and of `Delete`. -/
def write (t : MemTable) : TableWrite → Exec (MemTable × Unit)
  | .put key value level => do return (← DbImpl.putTable t key value level, ())
  | .delete key level => do return (← DbImpl.deleteTable t key level, ())

variable {t : MemTable} {m : SortedMap Bytes Bytes}

/-- **A write puts its pair into the map.** -/
theorem write_spec (h : t.Holds m) {w : TableWrite} (hw : w.IsCStr) :
    ∃ t', t.write w = .ok (t', ()) ∧ t'.Holds (m.put w.pair.1 w.pair.2) := by
  cases w with
  | put key value level =>
    obtain ⟨t', hrun, ht⟩ := DbImpl.putTable_spec h key value level
    rw [StringView.cstr_of_isCStr hw.1, StringView.cstr_of_isCStr hw.2] at ht
    exact ⟨t', by simp [write, hrun], ht⟩
  | delete key level =>
    obtain ⟨t', hrun, ht⟩ := DbImpl.deleteTable_spec h key level
    rw [StringView.cstr_of_isCStr hw] at ht
    exact ⟨t', by simp [write, hrun], ht⟩

/-- **Any writes return, and leave their map.** -/
theorem holds_of_writes : ∀ (writes : List TableWrite) (t : MemTable) (m : SortedMap Bytes Bytes),
    t.Holds m → (∀ w ∈ writes, w.IsCStr) →
      ∃ t' rs, runFrom write t writes = .ok (t', rs) ∧
        t'.Holds (m.puts (writes.map TableWrite.pair))
  | [], t, m, h, _ => ⟨t, [], rfl, h⟩
  | w :: writes, t, m, h, hw => by
      obtain ⟨t₁, hrun₁, h₁⟩ := write_spec h (hw w List.mem_cons_self)
      obtain ⟨t', rs, hrun, h'⟩ := holds_of_writes writes t₁ _ h₁ fun w' hw' =>
        hw w' (List.mem_cons_of_mem w hw')
      exact ⟨t', () :: rs, (runFrom_cons write).mpr ⟨t₁, (), rs, hrun₁, hrun, rfl⟩, h'⟩

/-! ## What readers see -/

/-- The table shows its readers the map of the pairs `ws`: of each key the value last written. -/
structure Agrees (t : MemTable) (ws : List (Bytes × Bytes)) : Prop where
  get : ∀ key : StringView, key.IsCStr → t.get key = .ok (SortedMap.lastWritten ws key.bytes)
  contains : ∀ key : StringView, key.IsCStr →
    t.contains key = .ok (SortedMap.lastWritten ws key.bytes).isSome
  iterate : ∃ es, t.orderedTable.traverse = .ok es ∧ (es.map Prod.fst).Pairwise (· < ·) ∧
    (∀ k v, (k, v) ∈ es ↔ SortedMap.lastWritten ws k = some v) ∧
    t.getMemUsage = (es.map fun e => (e.1.length + e.2.length : ℤ)).sum
  size : t.getSize = (ws.map Prod.fst).dedup.length

/-- **A table of writes shows everything but perhaps its size.** -/
theorem agrees_iff_of_holds {ws : List (Bytes × Bytes)}
    (h : t.Holds ((SortedMap.empty : SortedMap Bytes Bytes).puts ws)) :
    Agrees t ws ↔ (ws.map Prod.fst).dedup.length < 2 ^ 31 := by
  have hshows := SkipList.Rep.shows h.choose_spec
  have hsize : t.getSize = toInt32 (ws.map Prod.fst).dedup.length := by
    rw [← SortedMap.length_entries_puts (List.nodup_dedup _) fun _ => List.mem_dedup,
      ← hshows.size]
    rfl
  constructor
  · intro hagrees
    have heq := hsize.symm.trans hagrees.size
    rw [toInt32] at heq
    omega
  · intro hlt
    refine ⟨fun key hkey => ?_, fun key hkey => ?_, ?_, hsize.trans (toInt32_of_lt hlt)⟩
    · rw [get_spec key h, StringView.cstr_of_isCStr hkey, SortedMap.lookup_puts]
    · rw [contains_spec key h, StringView.cstr_of_isCStr hkey, SortedMap.contains,
        SortedMap.lookup_puts]
    · refine ⟨_, hshows.traverse, hshows.ascending, fun k v => ?_, hshows.memUsage⟩
      rw [SortedMap.mem_entries_iff, SortedMap.lookup_puts]

/-- **The memtable under the writes of the database** returns, and shows its readers the map of what
was last written exactly while there are fewer than `2 ^ 31` keys. -/
theorem agrees_of_writes_iff (writes : List TableWrite) (hw : ∀ w ∈ writes, w.IsCStr) :
    ∃ t rs, runFrom write new writes = .ok (t, rs) ∧
      (Agrees t (writes.map TableWrite.pair) ↔
        ((writes.map TableWrite.pair).map Prod.fst).dedup.length < 2 ^ 31) := by
  obtain ⟨t, rs, hrun, h⟩ := holds_of_writes writes new .empty holds_new hw
  exact ⟨t, rs, hrun, agrees_iff_of_holds h⟩

/-- A key put twice, and one deleted. -/
theorem agrees_of_writes_iff_three :
    ∃ t rs, runFrom write new [.put (.ofBytes [107]) (.ofBytes [97]) ⟨1, by decide⟩,
        .put (.ofBytes [107]) (.ofBytes [98]) ⟨2, by decide⟩,
        .delete (.ofBytes [108]) ⟨1, by decide⟩] = .ok (t, rs) ∧
      (Agrees t [([107], [97]), ([107], [98]), ([108], [])] ↔
        ([[107], [107], [108]] : List Bytes).dedup.length < 2 ^ 31) :=
  agrees_of_writes_iff _ (by decide)

/-- Every run of writes shows its readers the map of what was last written. -/
def TablesAgree : Prop :=
  ∀ writes : List TableWrite, (∀ w ∈ writes, w.IsCStr) →
    ∃ t rs, runFrom write new writes = .ok (t, rs) ∧ Agrees t (writes.map TableWrite.pair)

/-- Writes of the decimal numerals below `n`. -/
def numerals (n : ℕ) : List TableWrite :=
  (List.range n).map fun i => .put (.ofBytes (toDecimal i)) (.ofBytes []) Chance.quiet.level

/-- **After `2 ^ 31` keys the size is negative.** -/
theorem not_tablesAgree : ¬ TablesAgree := by
  intro h
  have hw : ∀ w ∈ numerals (2 ^ 31), w.IsCStr := fun w hmem => by
    obtain ⟨i, -, rfl⟩ := List.mem_map.mp hmem
    refine ⟨StringView.isCStr_ofBytes fun b hb => ?_, StringView.isCStr_ofBytes (by simp)⟩
    rintro rfl
    exact absurd (isDigit_of_mem_toDecimal hb) (by decide)
  have hkeys : ((numerals (2 ^ 31)).map TableWrite.pair).map Prod.fst =
      (List.range (2 ^ 31)).map toDecimal := by
    simp only [numerals, List.map_map]
    rfl
  obtain ⟨t, rs, hrun, hagrees⟩ := h _ hw
  obtain ⟨t', rs', hrun', hholds⟩ := holds_of_writes _ new .empty holds_new hw
  obtain ⟨rfl, -⟩ := Prod.mk.inj (Except.ok.inj (hrun.symm.trans hrun'))
  have hlt := (agrees_iff_of_holds hholds).mp hagrees
  rw [hkeys, (List.nodup_range.map toDecimal_injective).dedup, List.length_map,
    List.length_range] at hlt
  exact lt_irrefl _ hlt

end SmallKV.MemTable
