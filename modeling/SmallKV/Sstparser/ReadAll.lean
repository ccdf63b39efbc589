import SmallKV.Sstparser.SstParser

/-!
# Sstparser/ReadAll — what is left of a file that is read by lines

`ReadAll` reads a table with `getline` and appends the lines, without what ended them.  So
`sst_content` is the file without its newlines (`readLines_eq`): it is the file exactly when the file
has none (`readVerbatim_iff`), and else every byte behind a newline has moved to the front
(`getElem?_readAll`), which the offsets that the builder wrote do not know.
-/

namespace SmallKV.SSTParser

/-- The newline, which ends a line. -/
def newline : UInt8 := 10

/-- `getline(is, temp)`: the next line, and the stream behind the newline that ended it; at the end of
the stream there is no line. -/
def getline : Bytes → Option (Bytes × Bytes)
  | [] => none
  | b :: is =>
      some ((b :: is).takeWhile (· ≠ newline), ((b :: is).dropWhile (· ≠ newline)).tail)

/-- The loop of `ReadAll`: the contents and the stream after it. -/
def readLines : ℕ → Bytes → Bytes → Exec (Bytes × Bytes)
  | 0, _, _ => .error .diverged
  | fuel + 1, is, sstContent =>
      match getline is with
      | none => .ok (sstContent, is)
      | some (temp, is) => readLines fuel is (sstContent ++ temp)

/-! ## The lines of a stream -/

/-- A filter keeps what is before the first element it drops, and goes on behind that. -/
theorem filter_eq_takeWhile_append {α : Type} (p : α → Bool) (l : List α) :
    l.filter p = l.takeWhile p ++ (l.dropWhile p).tail.filter p := by
  induction l with
  | nil => rfl
  | cons a l ih =>
    by_cases ha : p a = true
    · rw [List.filter_cons_of_pos ha, List.takeWhile_cons_of_pos ha, List.dropWhile_cons_of_pos ha,
        List.cons_append, ih]
    · rw [List.filter_cons_of_neg ha, List.takeWhile_cons_of_neg ha, List.dropWhile_cons_of_neg ha,
        List.nil_append, List.tail_cons]

/-- **One round takes a line**, and the newline with it. -/
theorem getline_spec {is is' temp : Bytes} (h : getline is = some (temp, is')) :
    is.filter (· ≠ newline) = temp ++ is'.filter (· ≠ newline) ∧ is'.length < is.length := by
  cases is with
  | nil => cases h
  | cons b is =>
    obtain ⟨rfl, rfl⟩ := Prod.mk.inj (Option.some.inj h)
    refine ⟨filter_eq_takeWhile_append _ _, ?_⟩
    have hdrop := (List.dropWhile_sublist (l := b :: is) (· ≠ newline)).length_le
    rw [List.length_tail]
    simp only [List.length_cons] at hdrop ⊢
    omega

/-- **The loop returns the stream without its newlines** behind what was there, and exhausts it. -/
theorem readLines_eq {fuel : ℕ} {is sstContent : Bytes} (hfuel : is.length < fuel) :
    readLines fuel is sstContent = .ok (sstContent ++ is.filter (· ≠ newline), []) := by
  induction fuel generalizing is sstContent with
  | zero => exact absurd hfuel (Nat.not_lt_zero _)
  | succ fuel ih =>
    rw [readLines]
    cases hline : getline is with
    | none =>
      cases is with
      | nil => simp
      | cons b is => cases hline
    | some r =>
      obtain ⟨temp, is'⟩ := r
      obtain ⟨hfilter, hlt⟩ := getline_spec hline
      simp only
      rw [ih (by omega), hfilter, List.append_assoc]

/-- **`readAll` is the loop.** -/
theorem readLines_readAll (s : SSTParser) {fuel : ℕ} (hfuel : s.is.length < fuel) :
    readLines fuel s.is s.sstContent = .ok (s.readAll.sstContent, s.readAll.is) :=
  readLines_eq hfuel

/-! ## Offsets into the file and into the contents -/

/-- The bytes of a part of the file that stay. -/
theorem length_filter_newline (bs : Bytes) :
    (bs.filter (· ≠ newline)).length = bs.length - bs.count newline := by
  have hsplit := bs.length_eq_countP_add_countP (· == newline)
  rw [← List.countP_eq_length_filter, hsplit, List.count, Nat.add_sub_cancel_left]
  refine List.countP_congr fun b _ => ?_
  simp

/-- **Where a byte of the file is afterwards**: moved to the front by the newlines before it. -/
theorem getElem?_readAll {file : Bytes} {s : SSTParser} (hnew : new (some file) = .ok s) {off : ℕ}
    {b : UInt8} (hb : file[off]? = some b) (hne : b ≠ newline) :
    s.readAll.sstContent[off - (file.take off).count newline]? = some b := by
  obtain rfl := Except.ok.inj hnew
  obtain ⟨hoff, rfl⟩ := List.getElem?_eq_some_iff.mp hb
  have hlen := length_filter_newline (file.take off)
  rw [List.length_take_of_le hoff.le] at hlen
  have hsplit : file = file.take off ++ file[off] :: file.drop (off + 1) := by
    rw [← List.drop_eq_getElem_cons hoff, List.take_append_drop]
  have hfilter : (file.take off ++ file[off] :: file.drop (off + 1)).filter (· ≠ newline) =
      (file.take off).filter (· ≠ newline) ++
        file[off] :: (file.drop (off + 1)).filter (· ≠ newline) := by
    rw [List.filter_append, List.filter_cons_of_pos (by simpa using hne)]
  rw [← hsplit] at hfilter
  change (file.filter (· ≠ newline))[_]? = _
  rw [hfilter, ← hlen, List.getElem?_append_right le_rfl, Nat.sub_self, List.getElem?_cons_zero]

/-- The contents read from a file are the file, and every offset denotes the same byte in both. -/
def ReadVerbatim (file : Bytes) : Prop :=
  ∃ s, new (some file) = .ok s ∧ s.readAll.sstContent = file ∧
    ∀ off : ℕ, s.readAll.sstContent[off]? = file[off]?

/-- What is read from a file is read verbatim when it is all of the file. -/
theorem readVerbatim_iff_filter (file : Bytes) :
    ReadVerbatim file ↔ file.filter (· ≠ newline) = file := by
  constructor
  · rintro ⟨s, hnew, hcontent, -⟩
    obtain rfl := Except.ok.inj hnew
    exact hcontent
  · intro h
    exact ⟨{ is := file }, rfl, h, fun off => congrArg (·[off]?) h⟩

/-- **A file is read verbatim exactly when it holds no newline.** -/
theorem readVerbatim_iff (file : Bytes) : ReadVerbatim file ↔ newline ∉ file := by
  rw [readVerbatim_iff_filter, List.filter_eq_self]
  constructor
  · intro h hmem
    simpa using h newline hmem
  · intro h b hb
    exact decide_eq_true fun heq => h (heq ▸ hb)

/-- Every table of the builder is read verbatim. -/
def TablesReadVerbatim : Prop :=
  ∀ (sizing : BloomSizing) (pairs : List (Bytes × Bytes)) (file : Bytes),
    buildTable sizing pairs = .ok file → ReadVerbatim file

/-- **A value that is a newline is lost.** -/
theorem not_tablesReadVerbatim : ¬ TablesReadVerbatim := by
  intro h
  have hrun : (fun file => decide (file.filter (· ≠ newline) = file)) <$>
      buildTable .percent [([107], [10])] = .ok false := rfl
  obtain ⟨file, hbuild, hne⟩ := map_eq_ok.mp hrun
  exact of_decide_eq_false hne ((readVerbatim_iff_filter file).mp (h _ _ file hbuild))

end SmallKV.SSTParser
