import Mathlib.Order.Lattice
import Mathlib.Data.List.Basic
import Mathlib.Data.List.Pairwise
import Mathlib.Data.List.Dedup
import Mathlib.Data.List.Induction

/-!
# Foundations/SortedMap — finite maps as ascending lists of entries

A `SortedMap K V` is a list of entries whose keys strictly ascend, so that every finite map has one
spelling.  Its operations are `lookup`, `insertNew` (which leaves a present key alone) and `erase`.
A store that keeps its keys in order is compared with this map at a key `k` through `exists_split`:
the entries below `k`, the entry at `k` if there is one, and the entries above `k`.
-/

namespace SmallKV

/-- A finite map: entries in strictly ascending key order. -/
structure SortedMap (K V : Type) [LinearOrder K] where
  entries : List (K × V)
  sorted : entries.Pairwise fun e e' => e.1 < e'.1

namespace SortedMap

variable {K V : Type} [LinearOrder K]

@[ext] theorem ext {m m' : SortedMap K V} (h : m.entries = m'.entries) : m = m' := by
  obtain ⟨l, hl⟩ := m
  obtain ⟨l', hl'⟩ := m'
  obtain rfl : l = l' := h
  rfl

/-- The map without entries. -/
def empty : SortedMap K V := ⟨[], List.Pairwise.nil⟩

/-- The value stored under a key. -/
def lookup (m : SortedMap K V) (k : K) : Option V :=
  (m.entries.find? fun e => decide (e.1 = k)).map Prod.snd

/-- Does the map hold the key? -/
def contains (m : SortedMap K V) (k : K) : Bool := (m.lookup k).isSome

/-- Remove the entry at a key, if there is one. -/
def erase (m : SortedMap K V) (k : K) : SortedMap K V :=
  ⟨m.entries.filter fun e => decide (e.1 ≠ k), m.sorted.filter _⟩

/-- The entries below `k`, a new entry at `k`, and the entries above `k`. -/
def put (m : SortedMap K V) (k : K) (v : V) : SortedMap K V where
  entries := (m.entries.filter fun e => decide (e.1 < k)) ++
    (k, v) :: m.entries.filter fun e => decide (k < e.1)
  sorted := by
    refine List.pairwise_append.mpr ⟨m.sorted.filter _, ?_, ?_⟩
    · refine List.pairwise_cons.mpr ⟨fun e he => ?_, m.sorted.filter _⟩
      simpa using (List.mem_filter.mp he).2
    · intro e he e' he'
      have hlow : e.1 < k := by simpa using (List.mem_filter.mp he).2
      rcases List.mem_cons.mp he' with rfl | hmem
      · exact hlow
      · exact hlow.trans (by simpa using (List.mem_filter.mp hmem).2)

/-- Add an entry at a key that the map does not hold; a present key changes nothing. -/
def insertNew (m : SortedMap K V) (k : K) (v : V) : SortedMap K V :=
  if m.contains k then m else m.put k v

/-! ## The split of a map at a key -/

/-- The entries of a split map all lie on their own side of the key. -/
structure Split (k : K) (a b : List (K × V)) : Prop where
  below : ∀ e ∈ a, e.1 < k
  above : ∀ e ∈ b, k < e.1

/-- **A map splits at every key**: the entries below it, the entry at it if any, those above it. -/
theorem exists_split (m : SortedMap K V) (k : K) :
    ∃ a b, Split k a b ∧ (m.entries = a ++ b ∨ ∃ v, m.entries = a ++ (k, v) :: b) := by
  obtain ⟨l, hl⟩ := m
  induction l with
  | nil => exact ⟨[], [], ⟨by simp, by simp⟩, Or.inl rfl⟩
  | cons e l ih =>
    obtain ⟨hhead, htail⟩ := List.pairwise_cons.mp hl
    rcases lt_trichotomy e.1 k with hlt | heq | hgt
    · obtain ⟨a, b, hs, h⟩ := ih htail
      have hs' : Split k (e :: a) b :=
        ⟨fun x hx => (List.mem_cons.mp hx).elim (fun h => h ▸ hlt) (hs.below x), hs.above⟩
      refine ⟨e :: a, b, hs', ?_⟩
      rcases h with h | ⟨v, h⟩
      · exact Or.inl (congrArg (e :: ·) h)
      · exact Or.inr ⟨v, congrArg (e :: ·) h⟩
    · exact ⟨[], l, ⟨by simp, fun x hx => heq ▸ hhead x hx⟩, Or.inr ⟨e.2, by simp [← heq]⟩⟩
    · have habove : ∀ x ∈ e :: l, k < x.1 := fun x hx =>
        (List.mem_cons.mp hx).elim (fun h => h ▸ hgt) fun h => hgt.trans (hhead x h)
      exact ⟨[], e :: l, ⟨by simp, habove⟩, Or.inl rfl⟩

section AtSplit

variable {m : SortedMap K V} {k : K} {v : V} {a b : List (K × V)}

private theorem find_eq_none {l : List (K × V)} (h : ∀ e ∈ l, e.1 ≠ k) :
    (l.find? fun e => decide (e.1 = k)) = none :=
  List.find?_eq_none.mpr fun e he => by simpa using h e he

/-- A key with no entry between the two halves is absent. -/
theorem lookup_of_split (hs : Split k a b) (h : m.entries = a ++ b) : m.lookup k = none := by
  rw [lookup, h, List.find?_append, find_eq_none fun e he => (hs.below e he).ne,
    find_eq_none fun e he => (hs.above e he).ne']
  rfl

/-- The entry between the two halves is the one found. -/
theorem lookup_of_split_cons (hs : Split k a b) (h : m.entries = a ++ (k, v) :: b) :
    m.lookup k = some v := by
  rw [lookup, h, List.find?_append, find_eq_none fun e he => (hs.below e he).ne]
  simp

theorem entries_put_of_split (hs : Split k a b)
    (h : m.entries = a ++ b ∨ ∃ w, m.entries = a ++ (k, w) :: b) :
    (m.put k v).entries = a ++ (k, v) :: b := by
  have ha : (a.filter fun e => decide (e.1 < k)) = a :=
    List.filter_eq_self.mpr fun e he => by simpa using hs.below e he
  have ha' : (a.filter fun e => decide (k < e.1)) = [] :=
    List.filter_eq_nil_iff.mpr fun e he => by simpa using (hs.below e he).le
  have hb : (b.filter fun e => decide (k < e.1)) = b :=
    List.filter_eq_self.mpr fun e he => by simpa using hs.above e he
  have hb' : (b.filter fun e => decide (e.1 < k)) = [] :=
    List.filter_eq_nil_iff.mpr fun e he => by simpa using (hs.above e he).le
  rcases h with h | ⟨w, h⟩ <;> simp [put, h, ha, ha', hb, hb']

theorem entries_erase_of_split (hs : Split k a b)
    (h : m.entries = a ++ b ∨ ∃ w, m.entries = a ++ (k, w) :: b) :
    (m.erase k).entries = a ++ b := by
  have ha : (a.filter fun e => decide (e.1 ≠ k)) = a :=
    List.filter_eq_self.mpr fun e he => by simpa using (hs.below e he).ne
  have hb : (b.filter fun e => decide (e.1 ≠ k)) = b :=
    List.filter_eq_self.mpr fun e he => by simpa using (hs.above e he).ne'
  change (m.entries.filter fun e => decide (e.1 ≠ k)) = a ++ b
  rcases h with h | ⟨w, h⟩
  · rw [h, List.filter_append, ha, hb]
  · rw [h, List.filter_append, List.filter_cons_of_neg (by simp), ha, hb]

/-- **Erasing a key the map does not hold changes nothing.** -/
theorem erase_of_split (hs : Split k a b) (h : m.entries = a ++ b) : m.erase k = m :=
  ext ((entries_erase_of_split hs (Or.inl h)).trans h.symm)

end AtSplit

/-! ## Lookups after an update -/

variable (m : SortedMap K V) (k k' : K) (v : V)

@[simp] theorem lookup_empty : (empty : SortedMap K V).lookup k = none := rfl

@[simp] theorem lookup_put_self : (m.put k v).lookup k = some v := by
  obtain ⟨a, b, hs, h⟩ := m.exists_split k
  exact lookup_of_split_cons hs (entries_put_of_split hs h)

@[simp] theorem lookup_erase_self : (m.erase k).lookup k = none := by
  obtain ⟨a, b, hs, h⟩ := m.exists_split k
  exact lookup_of_split hs (entries_erase_of_split hs h)

variable {k k'}

/-- An entry at `k` is skipped by a search for another key. -/
private theorem lookup_skip {a b : List (K × V)} (hne : k' ≠ k) :
    ((a ++ (k, v) :: b).find? fun e => decide (e.1 = k')) =
      (a ++ b).find? fun e => decide (e.1 = k') := by
  rw [List.find?_append, List.find?_append, List.find?_cons_of_neg (by simpa using hne.symm)]

theorem lookup_put_ne (hne : k' ≠ k) : (m.put k v).lookup k' = m.lookup k' := by
  obtain ⟨a, b, hs, h⟩ := m.exists_split k
  rw [lookup, lookup, entries_put_of_split hs h, lookup_skip v hne]
  rcases h with h | ⟨w, h⟩
  · rw [h]
  · rw [h, lookup_skip w hne]

/-- An update in two steps, erase and add, is an update in one. -/
theorem erase_put : (m.erase k).put k v = m.put k v := by
  obtain ⟨a, b, hs, h⟩ := m.exists_split k
  have herase : (m.erase k).entries = a ++ b := entries_erase_of_split hs h
  exact ext ((entries_put_of_split hs (Or.inl herase)).trans (entries_put_of_split hs h).symm)

theorem insertNew_of_lookup_none (h : m.lookup k = none) : m.insertNew k v = m.put k v := by
  simp [insertNew, contains, h]

theorem insertNew_of_lookup_some {w : V} (h : m.lookup k = some w) : m.insertNew k v = m := by
  simp [insertNew, contains, h]

/-- **The entries are the stored pairs.** -/
theorem mem_entries_iff : (k, v) ∈ m.entries ↔ m.lookup k = some v := by
  obtain ⟨a, b, hs, h | ⟨w, h⟩⟩ := m.exists_split k
  · rw [lookup_of_split hs h, h, List.mem_append]
    refine iff_of_false (fun hmem => ?_) (by simp)
    rcases hmem with hmem | hmem
    · exact lt_irrefl k (hs.below _ hmem)
    · exact lt_irrefl k (hs.above _ hmem)
  · rw [lookup_of_split_cons hs h, h, List.mem_append, List.mem_cons, Option.some_inj]
    constructor
    · rintro (hmem | heq | hmem)
      · exact absurd (hs.below _ hmem) (lt_irrefl k)
      · exact (Prod.mk.inj heq).2.symm
      · exact absurd (hs.above _ hmem) (lt_irrefl k)
    · rintro rfl
      exact Or.inr (Or.inl rfl)

theorem nodup_keys (m : SortedMap K V) : (m.entries.map Prod.fst).Nodup :=
  (List.pairwise_map.mpr m.sorted).imp ne_of_lt

/-! ## Maps of writes -/

/-- The map after some writes. -/
def puts (m : SortedMap K V) (ws : List (K × V)) : SortedMap K V :=
  ws.foldl (fun m w => m.put w.1 w.2) m

/-- The value last written under a key. -/
def lastWritten (ws : List (K × V)) (k : K) : Option V :=
  (ws.filter fun w => decide (w.1 = k)).getLast?.map Prod.snd

theorem lastWritten_append (ws : List (K × V)) (w : K × V) (k : K) :
    lastWritten (ws ++ [w]) k = if w.1 = k then some w.2 else lastWritten ws k := by
  by_cases hk : w.1 = k <;> simp [lastWritten, hk]

/-- **A map of writes holds what was written last.** -/
theorem lookup_puts (ws : List (K × V)) (k : K) :
    ((empty : SortedMap K V).puts ws).lookup k = lastWritten ws k := by
  induction ws using List.reverseRecOn with
  | nil => rfl
  | append_singleton ws w ih =>
    rw [lastWritten_append, puts, List.foldl_append, List.foldl_cons, List.foldl_nil, ← puts]
    by_cases hk : w.1 = k
    · rw [if_pos hk, ← hk, lookup_put_self]
    · rw [if_neg hk, lookup_put_ne _ _ (Ne.symm hk), ih]

/-- The keys of a map of writes are the keys that were written. -/
theorem mem_keys_puts (ws : List (K × V)) (k : K) :
    k ∈ ((empty : SortedMap K V).puts ws).entries.map Prod.fst ↔ k ∈ ws.map Prod.fst := by
  have hlast : (∃ v, lastWritten ws k = some v) ↔ k ∈ ws.map Prod.fst := by
    rw [← Option.isSome_iff_exists, lastWritten, Option.isSome_map, List.getLast?_isSome]
    simp [List.filter_eq_nil_iff]
  rw [← hlast]
  simp [mem_entries_iff, lookup_puts]

/-- **A map of writes has one entry for each key that was written.** -/
theorem length_entries_puts {ws : List (K × V)} {keys : List K} (hnodup : keys.Nodup)
    (hkeys : ∀ k, k ∈ keys ↔ k ∈ ws.map Prod.fst) :
    ((empty : SortedMap K V).puts ws).entries.length = keys.length := by
  rw [← List.length_map Prod.fst]
  exact ((List.perm_ext_iff_of_nodup (nodup_keys _) hnodup).mpr fun k => by
    rw [mem_keys_puts, hkeys]).length_eq

end SortedMap

end SmallKV
