import SmallKV.Server.LsmServer

/-!
# Server/RespSound — which requests `parseRESP` reads as they are meant

An array on the wire is a `RespArray`: its numerals say how many elements there are and how long
each one is.  `parseRESP` goes from element to element by the next newline, not by the length, so
what it reads of a text is told by `Reads`.  On an array that is what was written exactly when no
element but the last holds a newline, or when the text behind a newline happens to read like the
elements that are left (`reads_bulks_iff`).  From this follow the requests that survive the round
trip (`parseRESP_encodeCommand_iff`) and those that are executed only if they are well formed
(`sound_iff`).
-/

namespace SmallKV

/-! ## Arrays -/

/-- A bulk string on the wire. -/
structure BulkString where
  arg : Bytes
  numeral : Bytes
  sized : IsNumeral numeral arg.length

/-- `$`, the length, and the bytes. -/
def BulkString.bytes (b : BulkString) : Bytes := 36 :: (b.numeral ++ (crlf ++ (b.arg ++ crlf)))

/-- The bulk string of an argument, as commands have it. -/
def BulkString.ofArg (arg : Bytes) : BulkString :=
  ⟨arg, toDecimal arg.length, isNumeral_toDecimal arg.length⟩

theorem BulkString.bytes_ofArg (arg : Bytes) : (ofArg arg).bytes = encodeBulk arg := by
  simp [bytes, ofArg, encodeBulk, encodeLine]

/-- An array on the wire. -/
structure RespArray where
  bulks : List BulkString
  numeral : Bytes
  counted : IsNumeral numeral bulks.length

namespace RespArray

/-- The bytes of the elements, one after the other. -/
def bodyOf (bulks : List BulkString) : Bytes := bulks.flatMap BulkString.bytes

/-- `*`, the number of elements, and the elements. -/
def bytes (a : RespArray) : Bytes := 42 :: (a.numeral ++ (crlf ++ bodyOf a.bulks))

/-- What the array is about. -/
def args (a : RespArray) : List Bytes := a.bulks.map BulkString.arg

/-- The array of a command. -/
def ofArgs (args : List Bytes) : RespArray where
  bulks := args.map BulkString.ofArg
  numeral := toDecimal args.length
  counted := by simpa using isNumeral_toDecimal args.length

theorem args_ofArgs (args : List Bytes) : (ofArgs args).args = args := by
  simp only [RespArray.args, ofArgs, List.map_map]
  exact List.map_id args

theorem bytes_ofArgs (args : List Bytes) : (ofArgs args).bytes = encodeCommand args := by
  simp only [bytes, ofArgs, bodyOf, encodeCommand, encodeLine, List.flatMap_map,
    BulkString.bytes_ofArg]
  simp

end RespArray

/-! ## Lines -/

/-- The text behind its first newline. -/
def nextLine (text : Bytes) : Option Bytes := (text.dropWhile (· ≠ 10)).tail?

theorem nextLine_append {line : Bytes} (hline : 10 ∉ line) (rest : Bytes) :
    nextLine (line ++ 10 :: rest) = some rest := by
  have hall : ∀ b ∈ line, decide (b ≠ 10) = true := fun b hb => by
    simpa using fun h : b = 10 => hline (h ▸ hb)
  rw [nextLine, List.dropWhile_append_of_pos hall, List.dropWhile_cons_of_neg (by simp)]
  rfl

/-- **A newline further on is not overrun.** -/
theorem exists_nextLine (front rest : Bytes) :
    ∃ back, nextLine (front ++ 10 :: rest) = some (back ++ rest) := by
  by_cases hfront : 10 ∈ front
  · obtain ⟨line, back, rfl, hline⟩ := List.eq_append_cons_of_mem hfront
    refine ⟨back ++ [10], ?_⟩
    simpa using nextLine_append hline (back ++ 10 :: rest)
  · exact ⟨[], nextLine_append hfront rest⟩

/-- Behind an argument the next line is the text that follows it, or starts in the argument. -/
theorem exists_nextLine_iff (arg rest : Bytes) (P : Bytes → Prop) :
    (∃ next, nextLine (arg ++ (crlf ++ rest)) = some next ∧ P next) ↔
      10 ∉ arg ∧ P rest ∨
        ∃ line more, arg = line ++ 10 :: more ∧ 10 ∉ line ∧ P (more ++ (crlf ++ rest)) := by
  by_cases hmem : 10 ∈ arg
  · have hnext : ∀ line more, arg = line ++ 10 :: more → 10 ∉ line →
        nextLine (arg ++ (crlf ++ rest)) = some (more ++ (crlf ++ rest)) := by
      intro line more harg hline
      rw [harg]
      simpa using nextLine_append hline (more ++ (crlf ++ rest))
    constructor
    · rintro ⟨next, hsome, hP⟩
      obtain ⟨line, more, harg, hline⟩ := List.eq_append_cons_of_mem hmem
      obtain rfl := Option.some.inj ((hnext line more harg hline).symm.trans hsome)
      exact Or.inr ⟨line, more, harg, hline, hP⟩
    · rintro (⟨hone, -⟩ | ⟨line, more, harg, hline, hP⟩)
      · exact absurd hmem hone
      · exact ⟨_, hnext line more harg hline, hP⟩
  · have hnext : nextLine (arg ++ (crlf ++ rest)) = some rest := by
      have hline : 10 ∉ arg ++ [13] := by simpa using hmem
      simpa [crlf] using nextLine_append hline rest
    constructor
    · rintro ⟨next, hsome, hP⟩
      obtain rfl := Option.some.inj (hnext.symm.trans hsome)
      exact Or.inl ⟨hmem, hP⟩
    · rintro (⟨-, hP⟩ | ⟨line, more, harg, -⟩)
      · exact ⟨_, hnext, hP⟩
      · exact absurd (by simp [harg]) hmem

theorem afterNewline_le (request : Bytes) (pos : ℕ) :
    afterNewline request pos ≤ request.length := by
  rw [afterNewline]
  split
  · rename_i i hi
    have hlt := (List.findIdx?_eq_some_iff_getElem.mp hi).1
    rw [List.length_drop] at hlt
    omega
  · exact Nat.zero_le _

/-- Without a newline the position wraps around. -/
theorem afterNewline_of_none {request : Bytes} {pos : ℕ} (h : nextLine (request.drop pos) = none) :
    afterNewline request pos = 0 := by
  have hnone : 10 ∉ request.drop pos := by
    intro hmem
    obtain ⟨line, rest, htext, hline⟩ := List.eq_append_cons_of_mem hmem
    rw [htext, nextLine_append hline] at h
    cases h
  have hfind : (request.drop pos).findIdx? (· = 10) = none :=
    List.findIdx?_eq_none_iff.mpr fun b hb => by simpa using fun h : b = 10 => hnone (h ▸ hb)
  rw [afterNewline, hfind]

/-- The next line is behind the first newline. -/
theorem exists_of_nextLine {text more : Bytes} (h : nextLine text = some more) :
    ∃ line, text = line ++ 10 :: more ∧ 10 ∉ line := by
  have hmem : 10 ∈ text := by
    by_contra hnone
    have hall : ∀ b ∈ text, decide (b ≠ 10) = true := fun b hb => by
      simpa using fun h : b = 10 => hnone (h ▸ hb)
    rw [nextLine, List.dropWhile_eq_nil_iff.mpr hall] at h
    cases h
  obtain ⟨line, rest, htext, hline⟩ := List.eq_append_cons_of_mem hmem
  obtain rfl : rest = more := by simpa [htext, nextLine_append hline] using h
  exact ⟨line, htext, hline⟩

/-- `find` and `substr` together go to the next line. -/
theorem drop_afterNewline {request more : Bytes} {pos : ℕ}
    (h : nextLine (request.drop pos) = some more) :
    request.drop (afterNewline request pos) = more := by
  obtain ⟨line, htext, hline⟩ := exists_of_nextLine h
  have hfind := findIdx?_newline hline more
  rw [← htext] at hfind
  rw [afterNewline, hfind]
  change request.drop (pos + line.length + 1) = more
  rw [Nat.add_assoc, ← List.drop_drop, htext]
  simp

/-- A newline that is found is not skipped back. -/
theorem lt_afterNewline {request more : Bytes} {pos : ℕ}
    (h : nextLine (request.drop pos) = some more) : pos < afterNewline request pos := by
  obtain ⟨line, htext, hline⟩ := exists_of_nextLine h
  have hfind := findIdx?_newline hline more
  rw [← htext] at hfind
  rw [afterNewline, hfind]
  show pos < pos + line.length + 1
  omega

/-! ## Reading -/

/-- **A text reads like the elements `args`**: each time a mark, a length that is an `int` and as a
`size_t` the length of the element, the next line, which begins with the element, and then the line
after the next newline. -/
def Reads : Bytes → List Bytes → Prop
  | _, [] => True
  | text, arg :: args => text.head? = some 36 ∧
      (∃ len, stoi text.tail = some len ∧ toUInt64 len = arg.length) ∧
      ∃ more next, nextLine text = some (arg ++ more) ∧ nextLine (arg ++ more) = some next ∧
        Reads next args

/-- The loop only adds arguments. -/
theorem prefix_parseElements (request : Bytes) : ∀ (n pos : ℕ) (acc : List Bytes),
    acc <+: parseElements request n pos acc
  | 0, _, acc => List.prefix_rfl
  | n + 1, pos, acc => by
      rw [parseElements]
      split
      · exact List.prefix_rfl
      · split
        · exact List.prefix_rfl
        · simp only
          split
          · exact List.prefix_rfl
          · exact (List.prefix_append acc _).trans (prefix_parseElements request n _ _)

/-- The two newlines that follow an element: the one behind its length and the one behind its
bytes, or newlines before them. -/
theorem BulkString.exists_nextLine (b : BulkString) (front rest : Bytes) :
    ∃ back back', nextLine (front ++ (b.bytes ++ rest)) =
        some (back ++ (b.arg ++ (crlf ++ rest))) ∧
      nextLine (back ++ (b.arg ++ (crlf ++ rest))) = some (back' ++ rest) := by
  obtain ⟨back, hback⟩ := SmallKV.exists_nextLine (front ++ 36 :: (b.numeral ++ [13]))
    (b.arg ++ (crlf ++ rest))
  obtain ⟨back', hback'⟩ := SmallKV.exists_nextLine (back ++ (b.arg ++ [13])) rest
  refine ⟨back, back', ?_, ?_⟩
  · simpa [bytes, crlf] using hback
  · simpa [crlf] using hback'

/-- The loop ends where no element starts, or its length is no `int`. -/
theorem parseElements_stop {request : Bytes} {pos : ℕ}
    (h : (request.drop pos).head? = some 36 → stoi (request.drop pos).tail = none) (n : ℕ)
    (acc : List Bytes) : parseElements request (n + 1) pos acc = acc := by
  rw [List.head?_drop, List.tail_drop] at h
  by_cases hmark : request[pos]? = some 36
  · simp [parseElements, h hmark]
  · simp [parseElements, hmark]

/-- One round of the loop. -/
theorem parseElements_succ {request : Bytes} {pos : ℕ} {len : ℤ}
    (hmark : (request.drop pos).head? = some 36)
    (hlen : stoi (request.drop pos).tail = some len) (n : ℕ) (acc : List Bytes) :
    parseElements request (n + 1) pos acc =
      parseElements request n (afterNewline request (afterNewline request pos))
        (acc ++ [(request.drop (afterNewline request pos)).take (toUInt64 len)]) := by
  rw [List.head?_drop] at hmark
  rw [List.tail_drop] at hlen
  have hsubstr : substr request (afterNewline request pos) len =
      some ((request.drop (afterNewline request pos)).take (toUInt64 len)) :=
    if_neg (not_lt.mpr (afterNewline_le request pos))
  simp [parseElements, hmark, hlen, hsubstr]

/-- An element once read stays the one that was read. -/
theorem eq_of_parseElements {request : Bytes} {n pos : ℕ} {acc args : List Bytes} {arg arg' : Bytes}
    (h : parseElements request n pos (acc ++ [arg]) = acc ++ arg' :: args) : arg = arg' := by
  have hpre := prefix_parseElements request n pos (acc ++ [arg])
  rw [h] at hpre
  simpa using (List.prefix_append_right_inj acc).mp hpre

/-- **`parseRESP` reads the elements of an array exactly when the text reads like them**, wherever
the loop stands in front of them. -/
theorem parseElements_eq_iff (request rest : Bytes) : ∀ (bulks : List BulkString) (front : Bytes)
    (pos : ℕ) (acc : List Bytes),
    request.drop pos = front ++ (RespArray.bodyOf bulks ++ rest) →
      (parseElements request bulks.length pos acc = acc ++ bulks.map BulkString.arg ↔
        Reads (request.drop pos) (bulks.map BulkString.arg))
  | [], front, pos, acc, _ => by simp [parseElements, Reads]
  | b :: bulks, front, pos, acc, htext => by
      have htext' : request.drop pos = front ++ (b.bytes ++ (RespArray.bodyOf bulks ++ rest)) := by
        simpa [RespArray.bodyOf] using htext
      obtain ⟨back, back', hline, hline'⟩ :=
        b.exists_nextLine front (RespArray.bodyOf bulks ++ rest)
      have hlong : b.arg.length <
          (back ++ (b.arg ++ (crlf ++ (RespArray.bodyOf bulks ++ rest)))).length := by
        simp [crlf]
        omega
      rw [← htext'] at hline
      -- what the loop has in front of it at the bytes of the element, and when it goes on
      generalize back ++ (b.arg ++ (crlf ++ (RespArray.bodyOf bulks ++ rest))) = bytes at *
      have hnext := drop_afterNewline (drop_afterNewline hline ▸ hline')
      have hloop := parseElements_eq_iff request rest bulks back' _ (acc ++ [b.arg]) hnext
      rw [hnext] at hloop
      have hshort : acc ≠ acc ++ (b :: bulks).map BulkString.arg := by simp
      rw [List.length_cons]
      by_cases hhead : (request.drop pos).head? = some 36
      · cases hstoi : stoi (request.drop pos).tail with
        | none =>
          rw [parseElements_stop fun _ => hstoi]
          refine iff_of_false hshort ?_
          rintro ⟨-, ⟨len, hlen, -⟩, -⟩
          rw [hstoi] at hlen
          cases hlen
        | some len =>
          rw [parseElements_succ hhead hstoi, drop_afterNewline hline]
          constructor
          · intro h
            have harg : bytes.take (toUInt64 len) = b.arg := eq_of_parseElements h
            have hsize : toUInt64 len = b.arg.length := by
              have hmin := congrArg List.length harg
              rw [List.length_take] at hmin
              omega
            have hsplit : b.arg ++ bytes.drop (toUInt64 len) = bytes := by
              rw [← harg, List.take_append_drop]
            rw [harg] at h
            refine ⟨hhead, ⟨len, hstoi, hsize⟩, _, _, by rw [hline, hsplit], by rw [hsplit, hline'],
              hloop.mp (by simpa using h)⟩
          · rintro ⟨-, ⟨len', hlen', hsize⟩, more, next, hmore, hnext', hreads⟩
            obtain rfl : len = len' := Option.some.inj (hstoi.symm.trans hlen')
            obtain rfl : bytes = b.arg ++ more := Option.some.inj (hline.symm.trans hmore)
            obtain rfl : _ = next := Option.some.inj (hline'.symm.trans hnext')
            have hread := hloop.mpr hreads
            rw [hsize, List.take_left]
            simpa using hread
      · rw [parseElements_stop fun h => absurd h hhead]
        exact iff_of_false hshort fun h => hhead h.1

/-- A text that begins with an element reads like it if the length is an `int`, and goes on behind
the first newline of the element. -/
theorem reads_cons_iff (b : BulkString) (args : List Bytes) (rest : Bytes) :
    Reads (b.bytes ++ rest) (b.arg :: args) ↔ b.arg.length < 2 ^ 31 ∧
      ∃ next, nextLine (b.arg ++ (crlf ++ rest)) = some next ∧ Reads next args := by
  have hline : nextLine (b.bytes ++ rest) = some (b.arg ++ (crlf ++ rest)) := by
    have hnumeral : 10 ∉ 36 :: (b.numeral ++ [13]) := by
      have hdigits : 10 ∉ b.numeral := fun h => absurd (b.sized.digits 10 h) (by decide)
      simpa using hdigits
    simpa [BulkString.bytes, crlf] using nextLine_append hnumeral (b.arg ++ (crlf ++ rest))
  have hstoi : stoi (b.bytes ++ rest).tail =
      if b.arg.length < 2 ^ 31 then some (b.arg.length : ℤ) else none := by
    simpa [BulkString.bytes, crlf] using stoi_numeral b.sized (by decide : isDigit 13 = false)
      (10 :: (b.arg ++ (crlf ++ rest)))
  have hhead : (b.bytes ++ rest).head? = some 36 := rfl
  rw [Reads, hhead, hstoi, hline]
  constructor
  · rintro ⟨-, ⟨len, hlen, -⟩, more, next, hmore, hnext, hreads⟩
    refine ⟨?_, next, Option.some.inj hmore ▸ hnext, hreads⟩
    by_contra hlong
    rw [if_neg hlong] at hlen
    cases hlen
  · rintro ⟨hshort, next, hnext, hreads⟩
    exact ⟨rfl, ⟨_, if_pos hshort, toUInt64_of_lt (by omega)⟩, _, next, rfl, hnext, hreads⟩

/-- The lengths are `int`s, and no element but the last holds a newline. -/
structure Clean (args : List Bytes) : Prop where
  short : ∀ arg ∈ args, arg.length < 2 ^ 31
  oneLine : ∀ arg ∈ args.dropLast, 10 ∉ arg

/-- An element that is not the last one holds a newline, and the text behind it reads like the
elements that are left. -/
def Accidental (bulks : List BulkString) (rest : Bytes) : Prop :=
  ∃ before b after line more, bulks = before ++ b :: after ∧ after ≠ [] ∧
    (∀ b' ∈ before, b'.arg.length < 2 ^ 31 ∧ 10 ∉ b'.arg) ∧
    b.arg.length < 2 ^ 31 ∧ b.arg = line ++ 10 :: more ∧ 10 ∉ line ∧
    Reads (more ++ (crlf ++ (RespArray.bodyOf after ++ rest))) (after.map BulkString.arg)

theorem clean_cons_iff {arg : Bytes} {args : List Bytes} (hargs : args ≠ []) :
    Clean (arg :: args) ↔ (arg.length < 2 ^ 31 ∧ 10 ∉ arg) ∧ Clean args := by
  obtain ⟨arg', args', rfl⟩ := List.exists_cons_of_ne_nil hargs
  constructor
  · rintro ⟨hshort, hone⟩
    rw [List.dropLast_cons_cons] at hone
    obtain ⟨harg, hshort'⟩ := List.forall_mem_cons.mp hshort
    obtain ⟨harg', hone'⟩ := List.forall_mem_cons.mp hone
    exact ⟨⟨harg, harg'⟩, hshort', hone'⟩
  · rintro ⟨⟨harg, harg'⟩, hshort, hone⟩
    refine ⟨List.forall_mem_cons.mpr ⟨harg, hshort⟩, ?_⟩
    rw [List.dropLast_cons_cons]
    exact List.forall_mem_cons.mpr ⟨harg', hone⟩

/-- An accident happens at the first element that holds a newline, or behind it. -/
theorem accidental_cons_iff {b : BulkString} {bulks : List BulkString} {rest : Bytes} :
    Accidental (b :: bulks) rest ↔
      b.arg.length < 2 ^ 31 ∧ (10 ∉ b.arg ∧ Accidental bulks rest ∨ bulks ≠ [] ∧
        ∃ line more, b.arg = line ++ 10 :: more ∧ 10 ∉ line ∧
          Reads (more ++ (crlf ++ (RespArray.bodyOf bulks ++ rest)))
            (bulks.map BulkString.arg)) := by
  constructor
  · rintro ⟨before, b', after, line, more, hbulks, hafter, hbefore, hshort, harg, hline, hreads⟩
    rcases List.cons_eq_append_iff.mp hbulks with ⟨rfl, hcons⟩ | ⟨before', rfl, rfl⟩
    · obtain ⟨rfl, rfl⟩ := List.cons.inj hcons
      exact ⟨hshort, Or.inr ⟨hafter, line, more, harg, hline, hreads⟩⟩
    · obtain ⟨⟨hb, hone⟩, hbefore'⟩ := List.forall_mem_cons.mp hbefore
      exact ⟨hb, Or.inl ⟨hone, before', b', after, line, more, rfl, hafter, hbefore', hshort, harg,
        hline, hreads⟩⟩
  · rintro ⟨hb, ⟨hone, before, b', after, line, more, rfl, hafter, hbefore, hrest⟩ |
      ⟨hafter, line, more, harg, hline, hreads⟩⟩
    · exact ⟨b :: before, b', after, line, more, rfl, hafter,
        List.forall_mem_cons.mpr ⟨⟨hb, hone⟩, hbefore⟩, hrest⟩
    · exact ⟨[], b, bulks, line, more, rfl, hafter, by simp, hb, harg, hline, hreads⟩

/-- **The bytes of an array read like the array exactly when it is clean, or by accident.** -/
theorem reads_bulks_iff (rest : Bytes) : ∀ bulks : List BulkString,
    Reads (RespArray.bodyOf bulks ++ rest) (bulks.map BulkString.arg) ↔
      Clean (bulks.map BulkString.arg) ∨ Accidental bulks rest
  | [] => iff_of_true trivial (Or.inl ⟨by simp, by simp⟩)
  | [b] => by
      have hbody : RespArray.bodyOf [b] ++ rest = b.bytes ++ rest := by simp [RespArray.bodyOf]
      obtain ⟨back, hnext⟩ := exists_nextLine (b.arg ++ [13]) rest
      have hnext' : nextLine (b.arg ++ (crlf ++ rest)) = some (back ++ rest) := by
        simpa [crlf] using hnext
      have hclean : Clean [b.arg] ↔ b.arg.length < 2 ^ 31 :=
        ⟨fun h => h.short _ List.mem_cons_self, fun h => ⟨by simpa using h, by simp⟩⟩
      have hacc : ¬ Accidental [] rest := by
        rintro ⟨before, b', after, line, more, hnil, -⟩
        simp at hnil
      rw [hbody, List.map_cons, List.map_nil, reads_cons_iff, hclean, accidental_cons_iff]
      simp [hnext', Reads, hacc]
  | b :: b' :: bulks => by
      have hne : b' :: bulks ≠ [] := List.cons_ne_nil b' bulks
      have hbody : RespArray.bodyOf (b :: b' :: bulks) ++ rest =
          b.bytes ++ (RespArray.bodyOf (b' :: bulks) ++ rest) := by
        simp [RespArray.bodyOf]
      rw [hbody, List.map_cons, reads_cons_iff, accidental_cons_iff,
        clean_cons_iff (by simp), and_assoc, ← and_or_left]
      refine and_congr_right fun hshort => ?_
      rw [exists_nextLine_iff, reads_bulks_iff rest (b' :: bulks), and_or_left, or_assoc]
      simp only [ne_eq, hne, not_false_eq_true, true_and]

/-- An accident needs a mark right behind the newline. -/
theorem exists_mark_of_accidental {bulks : List BulkString} {rest : Bytes}
    (h : Accidental bulks rest) :
    ∃ arg ∈ (bulks.map BulkString.arg).dropLast, ∃ line more, arg = line ++ 10 :: 36 :: more := by
  obtain ⟨before, b, after, line, more, rfl, hafter, -, -, harg, -, hreads⟩ := h
  obtain ⟨b', after', rfl⟩ := List.exists_cons_of_ne_nil hafter
  have hmark := hreads.1
  refine ⟨b.arg, by simp, line, more.tail, ?_⟩
  cases more with
  | nil => exact absurd (Option.some.inj hmark : (13 : UInt8) = 36) (by decide)
  | cons d more =>
    obtain rfl : d = 36 := Option.some.inj hmark
    exact harg

/-! ## Requests -/

/-- The number of an array is read if it is an `int`, and the loop starts behind its line. -/
theorem parseRESP_bytes (a : RespArray) (rest : Bytes) :
    parseRESP (a.bytes ++ rest) = if a.bulks.length < 2 ^ 31 then
      parseElements (a.bytes ++ rest) a.bulks.length (afterNewline (a.bytes ++ rest) 0) []
    else [] := by
  have hstoi : stoi ((a.bytes ++ rest).drop 1) =
      if a.bulks.length < 2 ^ 31 then some (a.bulks.length : ℤ) else none := by
    simpa [RespArray.bytes, crlf] using stoi_numeral a.counted (by decide : isDigit 13 = false)
      (10 :: (RespArray.bodyOf a.bulks ++ rest))
  have hhead : (a.bytes ++ rest).head? = some 42 := rfl
  rw [parseRESP, hhead, if_neg (by simp), hstoi]
  by_cases hshort : a.bulks.length < 2 ^ 31
  · rw [if_pos hshort, if_pos hshort]
    rfl
  · rw [if_neg hshort, if_neg hshort]

/-- **`parseRESP` reads an array exactly when the array is not too long and is clean, or by
accident.** -/
theorem parseRESP_bytes_iff (a : RespArray) (rest : Bytes) :
    parseRESP (a.bytes ++ rest) = a.args ↔
      a.bulks.length < 2 ^ 31 ∧ (Clean a.args ∨ Accidental a.bulks rest) := by
  rw [parseRESP_bytes]
  by_cases hshort : a.bulks.length < 2 ^ 31
  · have hnumeral : 10 ∉ 42 :: (a.numeral ++ [13]) := by
      have hdigits : 10 ∉ a.numeral := fun h => absurd (a.counted.digits 10 h) (by decide)
      simpa using hdigits
    have hline : nextLine ((a.bytes ++ rest).drop 0) = some (RespArray.bodyOf a.bulks ++ rest) := by
      simpa [RespArray.bytes, crlf] using
        nextLine_append hnumeral (RespArray.bodyOf a.bulks ++ rest)
    have htext := drop_afterNewline hline
    have hloop := parseElements_eq_iff (a.bytes ++ rest) rest a.bulks [] _ [] htext
    rw [htext, List.nil_append, reads_bulks_iff] at hloop
    rw [if_pos hshort, and_iff_right hshort]
    exact hloop
  · rw [if_neg hshort]
    refine iff_of_false (fun hnil => hshort ?_) fun h => hshort h.1
    have hlen := congrArg List.length hnil
    rw [RespArray.args, List.length_map, List.length_nil] at hlen
    omega

/-! ## The round trip -/

/-- **The encoding of a command is read back exactly when the command is not too long and is clean,
or by accident.** -/
theorem parseRESP_encodeCommand_iff (args : List Bytes) :
    parseRESP (encodeCommand args) = args ↔ args.length < 2 ^ 31 ∧
      (Clean args ∨ Accidental (args.map BulkString.ofArg) []) := by
  have h := parseRESP_bytes_iff (.ofArgs args) []
  rw [List.append_nil, RespArray.bytes_ofArgs, RespArray.args_ofArgs] at h
  simpa [RespArray.ofArgs] using h

/-- Every command is read back. -/
def RoundTripsResp : Prop := ∀ args : List Bytes, parseRESP (encodeCommand args) = args

/-- **A newline in a value ends the command.** -/
theorem not_roundTripsResp : ¬ RoundTripsResp := by
  intro h
  have hread := h [ascii "SET", [97, 10, 98], [99]]
  have hparse : parseRESP (encodeCommand [ascii "SET", [97, 10, 98], [99]]) =
    [ascii "SET", [97, 10, 98]] := rfl
  rw [hparse] at hread
  exact absurd hread (by decide)

/-! ## Soundness -/

/-- The reply to what is no command. -/
def protocolError : Bytes := ascii "-ERR Protocol error\r\n"

/-- The arguments that are read are those of an array the request starts with; and without such an
array nothing is executed. -/
structure Sound (request : Bytes) : Prop where
  array : parseRESP request ≠ [] → ∃ (a : RespArray) (rest : Bytes),
    request = a.bytes ++ rest ∧ a.args = parseRESP request
  refused : (¬ ∃ (a : RespArray) (rest : Bytes), a.bulks ≠ [] ∧ request = a.bytes ++ rest) →
    ∀ (env : Env) (s : LSMServer), s.handleRequest env request = .ok (s, protocolError)

/-- The number of elements is not positive or no `int`, or no element follows its line, or the
length of the first element is no `int`. -/
def Rejected (request : Bytes) : Prop :=
  ∀ n, stoi request.tail = some n → 0 < n → ∀ text, nextLine request = some text →
    text.head? = some 36 → stoi text.tail = none

/-- **`parseRESP` reads nothing exactly from the rejected requests.** -/
theorem parseRESP_eq_nil_iff {request : Bytes} (hstar : request.head? = some 42) :
    parseRESP request = [] ↔ Rejected request := by
  rw [parseRESP, hstar, if_neg (by simp), List.drop_one]
  cases hstoi : stoi request.tail with
  | none => exact iff_of_true rfl fun n hn => by simp [hstoi] at hn
  | some n =>
    dsimp only
    by_cases hpos : 0 < n
    · obtain ⟨m, hm⟩ := Nat.exists_eq_succ_of_ne_zero (by omega : n.toNat ≠ 0)
      rw [hm]
      cases hline : nextLine request with
      | none =>
        have hwrap : afterNewline request 0 = 0 := afterNewline_of_none hline
        have hhead : (request.drop (afterNewline request 0)).head? ≠ some 36 := by
          rw [hwrap, List.drop_zero, hstar]
          decide
        rw [parseElements_stop fun h => absurd h hhead]
        exact iff_of_true rfl fun n _ _ text htext => by simp [hline] at htext
      | some text =>
        have htext : request.drop (afterNewline request 0) = text := drop_afterNewline hline
        have hrejected : Rejected request ↔ (text.head? = some 36 → stoi text.tail = none) := by
          refine ⟨fun h => h n hstoi hpos text hline, fun h n' _ _ text' htext' => ?_⟩
          rwa [← Option.some.inj (hline.symm.trans htext')]
        rw [hrejected]
        by_cases hstop : text.head? = some 36 → stoi text.tail = none
        · rw [parseElements_stop (htext.symm ▸ hstop)]
          exact iff_of_true rfl hstop
        · obtain ⟨hmark, hsome⟩ := Classical.not_imp.mp hstop
          obtain ⟨len, hlen⟩ := Option.ne_none_iff_exists'.mp hsome
          rw [parseElements_succ (htext.symm ▸ hmark) (htext.symm ▸ hlen)]
          refine iff_of_false (fun hnil => ?_) hstop
          have hpre := prefix_parseElements request m
            (afterNewline request (afterNewline request (afterNewline request 0)))
            ([] ++ [(request.drop (afterNewline request (afterNewline request 0))).take
              (toUInt64 len)])
          rw [hnil] at hpre
          exact absurd (List.prefix_nil.mp hpre) (by simp)
    · have hzero : n.toNat = 0 := by omega
      rw [hzero]
      refine iff_of_true rfl fun n' hn' hpos' => ?_
      rw [Option.some.inj (hstoi.symm.trans hn')] at hpos
      exact absurd hpos' hpos

/-- **A request is parsed soundly exactly when it is rejected, or starts with an array that is not
too long and is clean, or that is read back by accident.** -/
theorem sound_iff {request : Bytes} (hstar : request.head? = some 42) :
    Sound request ↔ Rejected request ∨ ∃ (a : RespArray) (rest : Bytes),
      request = a.bytes ++ rest ∧ a.bulks ≠ [] ∧ a.bulks.length < 2 ^ 31 ∧
        (Clean a.args ∨ Accidental a.bulks rest) := by
  have hnil : ∀ a : RespArray, a.args = [] ↔ a.bulks = [] := fun a => List.map_eq_nil_iff
  constructor
  · intro h
    by_cases hparse : parseRESP request = []
    · exact Or.inl ((parseRESP_eq_nil_iff hstar).mp hparse)
    · obtain ⟨a, rest, rfl, hargs⟩ := h.array hparse
      have hne : a.bulks ≠ [] := fun hbulks => hparse (hargs ▸ (hnil a).mpr hbulks)
      exact Or.inr ⟨a, rest, rfl, hne, (parseRESP_bytes_iff a rest).mp hargs.symm⟩
  · rintro (hrejected | ⟨a, rest, rfl, hne, hread⟩)
    · have hparse := (parseRESP_eq_nil_iff hstar).mpr hrejected
      refine ⟨fun h => absurd hparse h, fun _ env s => ?_⟩
      have hempty : request.isEmpty = false := by
        cases request with
        | nil => cases hstar
        | cons b request => rfl
      have hping : request ≠ ascii "PING\r\n" := by
        rintro rfl
        exact absurd (Option.some.inj hstar : (80 : UInt8) = 42) (by decide)
      rw [LSMServer.handleRequest, hempty, if_neg (by simp), if_neg hping, hparse]
      rfl
    · have hparse := (parseRESP_bytes_iff a rest).mpr hread
      exact ⟨fun _ => ⟨a, rest, rfl, hparse.symm⟩, fun h => absurd ⟨a, rest, hne, rfl⟩ h⟩

/-- A command with something behind it. -/
def setRequest : Bytes := encodeCommand [ascii "SET", [107], [97, 10, 98]] ++ [42]

/-- A newline in the last argument does no harm. -/
theorem sound_iff_set : Sound setRequest := by
  have hbytes : setRequest = (RespArray.ofArgs [ascii "SET", [107], [97, 10, 98]]).bytes ++ [42] :=
    rfl
  refine (sound_iff rfl).mpr (Or.inr ⟨_, _, hbytes, by simp [RespArray.ofArgs], by decide,
    Or.inl ⟨by decide, by decide⟩⟩)

/-- Every request that starts with `*` is parsed soundly. -/
def SoundResp : Prop := ∀ request : Bytes, request.head? = some 42 → Sound request

/-- **A truncated command is executed**: `GET` without its key. -/
theorem not_soundResp : ¬ SoundResp := by
  intro h
  obtain ⟨a, rest, hbytes, hargs⟩ :=
    (h (ascii "*2\r\n$3\r\nGET\r\n") rfl).array (by decide)
  have hparse : parseRESP (ascii "*2\r\n$3\r\nGET\r\n") = [ascii "GET"] := rfl
  have hcount : a.bulks.length = 1 := by
    rw [← List.length_map BulkString.arg, ← RespArray.args, hargs, hparse]
    rfl
  have hstoi := stoi_numeral a.counted (by decide : isDigit 13 = false)
    (10 :: (RespArray.bodyOf a.bulks ++ rest))
  have htail : a.numeral ++ 13 :: 10 :: (RespArray.bodyOf a.bulks ++ rest) =
      (ascii "*2\r\n$3\r\nGET\r\n").tail := by
    rw [hbytes]
    simp [RespArray.bytes, crlf]
  have htwo : stoi (ascii "*2\r\n$3\r\nGET\r\n").tail = some 2 := rfl
  rw [htail, htwo, hcount] at hstoi
  exact absurd hstoi (by decide)

end SmallKV
