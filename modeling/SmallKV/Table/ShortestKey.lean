import SmallKV.Table.Index

/-!
# Table/ShortestKey — which separators are above the keys of their block

`add` has put the new key into the block when it asks for a separator between the last key and the
new one, so the separator is above the keys of the block only when it is above the new key: when
that extends the last key by a byte below a blank (`lt_shortestKey_iff`).  `finish_sst` increases
the last byte of the last key, which is above it unless that byte is `0xFF` (`lt_bump_iff`).  Of any
two keys, the separator is between them unless the second key is such an extension or the byte that
is increased is `0xFF` (`findShortestKey_between_iff`).
-/

namespace SmallKV.SSTableBuilder

/-! ## Keys that begin alike -/

theorem append_lt_append_iff (c : Bytes) {x y : Bytes} : c ++ x < c ++ y ↔ x < y := by
  induction c with
  | nil => rfl
  | cons a c ih =>
    rw [List.cons_append, List.cons_append, List.cons_lt_cons_iff, ih]
    simp

theorem exists_of_lt : ∀ {key1 key2 : Bytes}, key1 < key2 →
    (∃ t, t ≠ [] ∧ key2 = key1 ++ t) ∨ ∃ c a b rest1 rest2,
      key1 = c ++ a :: rest1 ∧ key2 = c ++ b :: rest2 ∧ a < b
  | _, [], h => absurd h (List.not_lt_nil _)
  | [], b :: key2, _ => Or.inl ⟨b :: key2, List.cons_ne_nil b key2, rfl⟩
  | a :: key1, b :: key2, h => by
      rcases List.cons_lt_cons_iff.mp h with hab | ⟨rfl, hrest⟩
      · exact Or.inr ⟨[], a, b, key1, key2, rfl, rfl, hab⟩
      · rcases exists_of_lt hrest with ⟨t, ht, rfl⟩ | ⟨c, x, y, rest1, rest2, rfl, rfl, hxy⟩
        · exact Or.inl ⟨t, ht, rfl⟩
        · exact Or.inr ⟨a :: c, x, y, rest1, rest2, rfl, rfl, hxy⟩

theorem countEqual_append (c x y : Bytes) :
    countEqual (c ++ x) (c ++ y) = c.length + countEqual x y := by
  induction c with
  | nil => simp
  | cons a c ih =>
    rw [List.cons_append, List.cons_append, countEqual, if_pos rfl, ih, List.length_cons]
    omega

theorem countEqual_extension (key1 t : Bytes) : countEqual key1 (key1 ++ t) = key1.length := by
  have hnil : countEqual [] t = 0 := by cases t <;> rfl
  have hcount := countEqual_append key1 [] t
  rwa [List.append_nil, hnil] at hcount

theorem countEqual_of_lt {c rest1 rest2 : Bytes} {a b : UInt8} (hab : a < b) :
    countEqual (c ++ a :: rest1) (c ++ b :: rest2) = c.length + countEqual rest1 rest2 := by
  rw [countEqual_append, countEqual, if_neg hab.ne, Nat.add_zero]

theorem bump_append (c : Bytes) {x : Bytes} (hx : x ≠ []) : bump (c ++ x) = c ++ bump x := by
  obtain ⟨init, last, rfl⟩ := (List.eq_nil_or_concat x).resolve_left hx
  rw [List.concat_eq_append, bump, bump, ← List.append_assoc, List.dropLast_concat,
    List.dropLast_concat, List.getLast?_concat, List.getLast?_concat, List.append_assoc]

theorem lt_succ_iff (x : UInt8) : x < x + 1 ↔ x ≠ 255 := by
  rw [UInt8.lt_iff_toNat_lt, UInt8.toNat_add, ne_eq, ← UInt8.toNat_inj]
  have hx := x.toNat_lt
  show x.toNat < (x.toNat + 1) % 2 ^ 8 ↔ ¬ x.toNat = 255
  omega

theorem succ_le_of_lt {x y : UInt8} (h : x < y) : x + 1 ≤ y := by
  rw [UInt8.lt_iff_toNat_lt] at h
  rw [UInt8.le_iff_toNat_le, UInt8.toNat_add]
  have hy := y.toNat_lt
  show (x.toNat + 1) % 2 ^ 8 ≤ y.toNat
  omega

/-- **An increased key is greater, unless its last byte is `0xFF`.** -/
theorem lt_bump_iff {key : Bytes} (hne : key ≠ []) : key < bump key ↔ key.getLast? ≠ some 255 := by
  obtain ⟨init, last, rfl⟩ := (List.eq_nil_or_concat key).resolve_left hne
  have hbump : bump [last] = [last + 1] := rfl
  rw [List.concat_eq_append, bump_append init (List.cons_ne_nil last []), append_lt_append_iff,
    List.getLast?_concat, ne_eq, Option.some_inj, ← ne_eq, ← lt_succ_iff, hbump,
    List.cons_lt_cons_iff]
  simp

/-! ## The separator of two keys -/

/-- A key extends another one by a byte below a blank, and maybe more bytes. -/
def ExtendsBelow (key1 key2 : Bytes) : Prop :=
  ∃ byte rest, byte < 0x20 ∧ key2 = key1 ++ byte :: rest

theorem shortestKey_append (key1 t : Bytes) : shortestKey key1 (key1 ++ t) = key1 ++ ascii " " := by
  rw [shortestKey, countEqual_extension, if_pos rfl]

/-- **Where two keys differ, their separator is not above the second one.** -/
theorem shortestKey_le {c rest1 rest2 : Bytes} {a b : UInt8} (hab : a < b) :
    shortestKey (c ++ a :: rest1) (c ++ b :: rest2) ≤ c ++ b :: rest2 := by
  have hle := (countEqual_le rest1 rest2).1
  have htake : (c ++ a :: rest1).take (c.length + countEqual rest1 rest2 + 1) =
      c ++ a :: rest1.take (countEqual rest1 rest2) := by
    rw [Nat.add_assoc, List.take_length_add_append, List.take_succ_cons]
  rw [shortestKey, countEqual_of_lt hab, if_neg (by simp; omega), htake,
    bump_append c (List.cons_ne_nil a _), ← not_lt, append_lt_append_iff, not_lt]
  rcases List.eq_nil_or_concat (rest1.take (countEqual rest1 rest2)) with hnil | ⟨init, last, hlast⟩
  · -- one byte more than the keys have in common: it is increased
    rw [hnil]
    have hbump : bump [a] = [a + 1] := rfl
    rw [hbump, ← not_lt, List.cons_lt_cons_iff, not_or]
    exact ⟨not_lt.mpr (succ_le_of_lt hab), fun h => absurd h.2 (by simp)⟩
  · -- the increased byte stands behind the one where the keys differ
    rw [hlast]
    have hbump : bump (a :: init.concat last) = a :: bump (init.concat last) :=
      bump_append [a] (by simp)
    rw [hbump]
    exact (List.cons_lt_cons_iff.mpr (Or.inl hab)).le

/-- **A separator is above the second key exactly when that extends the first by a byte below a
blank.** -/
theorem lt_shortestKey_iff {key1 key2 : Bytes} (hlt : key1 < key2) :
    key2 < shortestKey key1 key2 ↔ ExtendsBelow key1 key2 := by
  have hblank : ascii " " = [0x20] := rfl
  rcases exists_of_lt hlt with ⟨t, ht, rfl⟩ | ⟨c, a, b, rest1, rest2, rfl, rfl, hab⟩
  · rw [shortestKey_append, append_lt_append_iff, hblank]
    obtain ⟨byte, rest, rfl⟩ := List.exists_cons_of_ne_nil ht
    rw [List.cons_lt_cons_iff]
    constructor
    · rintro (hbyte | ⟨-, hrest⟩)
      · exact ⟨byte, rest, hbyte, rfl⟩
      · exact absurd hrest (List.not_lt_nil _)
    · rintro ⟨byte', rest', hbyte, heq⟩
      obtain ⟨rfl, -⟩ := List.cons.inj (List.append_cancel_left heq)
      exact Or.inl hbyte
  · refine iff_of_false (not_lt.mpr (shortestKey_le hab)) ?_
    rintro ⟨byte, rest, -, heq⟩
    rw [List.append_assoc] at heq
    obtain ⟨rfl, -⟩ := List.cons.inj (List.append_cancel_left heq)
    exact lt_irrefl _ hab

/-! ## Separators between two keys -/

/-- How many positions there are at which two keys have the same byte. -/
def agreements (key1 key2 : Bytes) : ℕ := (key1.zip key2).countP fun p => p.1 = p.2

theorem countEqual_eq_agreements : ∀ key1 key2 : Bytes, countEqual key1 key2 = agreements key1 key2
  | [], _ => by simp [countEqual, agreements]
  | _ :: _, [] => by simp [countEqual, agreements]
  | a :: key1, b :: key2 => by
      rw [countEqual, countEqual_eq_agreements key1 key2, agreements, agreements, List.zip_cons_cons,
        List.countP_cons]
      simp

/-- A key is below its own beginning, increased, unless the increased byte is `0xFF`. -/
theorem lt_bump_take_iff {key : Bytes} {n : ℕ} (hn : n < key.length) :
    key < bump (key.take (n + 1)) ↔ key[n]? ≠ some 255 := by
  have hsplit : key = key.take n ++ key[n] :: key.drop (n + 1) := by
    rw [List.getElem_cons_drop, List.take_append_drop]
  have hbump : bump (key.take (n + 1)) = key.take n ++ [key[n] + 1] := by
    rw [List.take_succ_eq_append_getElem hn, bump_append _ (List.cons_ne_nil _ _)]
    rfl
  rw [hbump]
  nth_rewrite 1 [hsplit]
  rw [append_lt_append_iff, List.cons_lt_cons_iff, lt_succ_iff, List.getElem?_eq_getElem hn]
  simp

theorem lt_append_self (key : Bytes) {t : Bytes} (ht : t ≠ []) : key < key ++ t := by
  obtain ⟨b, t, rfl⟩ := List.exists_cons_of_ne_nil ht
  have h := (append_lt_append_iff key (x := []) (y := b :: t)).mpr (List.nil_lt_cons b t)
  rwa [List.append_nil] at h

/-- **A separator is above the first key exactly when the byte it increases is not `0xFF`.** -/
theorem lt_shortestKey_left_iff {key1 key2 : Bytes} (hlt : key1 < key2) :
    key1 < shortestKey key1 key2 ↔ key1[agreements key1 key2]? ≠ some 255 := by
  rw [← countEqual_eq_agreements]
  rcases exists_of_lt hlt with ⟨t, -, rfl⟩ | ⟨c, a, b, rest1, rest2, rfl, rfl, hab⟩
  · have hnone : key1[key1.length]? = none := List.getElem?_eq_none le_rfl
    rw [shortestKey_append, countEqual_extension, hnone]
    exact iff_of_true (lt_append_self key1 (by decide)) (by simp)
  · have hcount : countEqual (c ++ a :: rest1) (c ++ b :: rest2) = _ := countEqual_of_lt hab
    have hle := (countEqual_le rest1 rest2).1
    have hlen : (c ++ a :: rest1).length = c.length + (rest1.length + 1) := by simp
    rw [shortestKey, if_neg (by omega)]
    exact lt_bump_take_iff (by omega)

/-- `find_shortest_key` returns a key above the first one and not above the second one. -/
def FindsBetween (key1 key2 : Bytes) : Prop :=
  ∃ r, findShortestKey key1 key2 = .ok r ∧ key1 < r ∧ r ≤ key2

/-- **When the separator is between the keys**: unless the second key extends the first by a byte
below a blank, or the byte to be increased is `0xFF`. -/
theorem findShortestKey_between_iff {key1 key2 : Bytes} (hne : key1 ≠ []) (hlt : key1 < key2) :
    FindsBetween key1 key2 ↔
      ¬ ExtendsBelow key1 key2 ∧ key1[agreements key1 key2]? ≠ some 255 := by
  have hne2 : key2 ≠ [] := fun h => List.not_lt_nil _ (h ▸ hlt)
  have hfind := findShortestKey_eq_ok.mpr ⟨hne, hne2, hlt, rfl⟩
  rw [← lt_shortestKey_iff hlt, ← lt_shortestKey_left_iff hlt, not_lt, and_comm]
  constructor
  · rintro ⟨r, hr, habove, hbelow⟩
    obtain rfl := Except.ok.inj (hr.symm.trans hfind)
    exact ⟨habove, hbelow⟩
  · rintro ⟨habove, hbelow⟩
    exact ⟨_, hfind, habove, hbelow⟩

theorem findShortestKey_between_iff_two : FindsBetween [97, 98, 99, 100] [97, 98, 101, 99, 100] ↔
    ¬ ExtendsBelow [97, 98, 99, 100] [97, 98, 101, 99, 100] ∧
      ([97, 98, 99, 100] : Bytes)[agreements [97, 98, 99, 100] [97, 98, 101, 99, 100]]? ≠ some 255 :=
  findShortestKey_between_iff (by decide) (by decide)

/-- Any two keys are separated. -/
def AlwaysFindsBetween : Prop :=
  ∀ key1 key2 : Bytes, key1 ≠ [] → key2 ≠ [] → key1 < key2 → FindsBetween key1 key2

/-- **The separator of `a` and `a\x01` is above both.** -/
theorem not_alwaysFindsBetween : ¬ AlwaysFindsBetween := by
  intro h
  obtain ⟨r, hr, -, hle⟩ := h [97] [97, 1] (by decide) (by decide) (by decide)
  obtain rfl : [97, 32] = r := Except.ok.inj hr
  exact absurd hle (by decide)

end SmallKV.SSTableBuilder
