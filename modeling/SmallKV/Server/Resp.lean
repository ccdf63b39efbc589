import SmallKV.Foundations.PrefixCode
import SmallKV.Utils.Decimal

/-!
# Server/Resp — commands on the wire, and `parseRESP` of `server/server.cpp`

A command is an array of bulk strings.  Its encoding is self-delimiting
(`selfDelimiting_encodeCommand`): a stream of commands determines the commands.  `parseRESP` looks
for the next newline where it should skip the bytes of a bulk string, so it reads an encoding back
when no argument holds a newline, and then whatever follows the command (`parseRESP_append`).
-/

namespace SmallKV

/-! ## Commands -/

/-- `\r\n`. -/
def crlf : Bytes := [13, 10]

/-- A number on a line of its own. -/
def encodeLine (n : ℕ) : Bytes := toDecimal n ++ crlf

/-- A bulk string: `$`, its length, and its bytes. -/
def encodeBulk (arg : Bytes) : Bytes := [36] ++ (encodeLine arg.length ++ (arg ++ crlf))

/-- A command: `*`, the number of its arguments, and the arguments. -/
def encodeCommand (args : List Bytes) : Bytes :=
  [42] ++ (encodeLine args.length ++ args.flatMap encodeBulk)

theorem selfDelimiting_encodeLine : SelfDelimiting encodeLine :=
  .terminated toDecimal_injective (fun _ h => by
    have hdigit := isDigit_of_mem_toDecimal h
    exact absurd hdigit (by decide)) [10]

theorem selfDelimiting_encodeBulk : SelfDelimiting encodeBulk := by
  refine .prepend (.dep selfDelimiting_encodeLine List.length fun x y r s hlen heq => ?_) [36]
  rw [List.append_assoc, List.append_assoc] at heq
  obtain ⟨harg, hrest⟩ := List.append_inj heq hlen
  exact ⟨harg, List.append_cancel_left hrest⟩

/-- **A stream of commands can be told apart.** -/
theorem selfDelimiting_encodeCommand : SelfDelimiting encodeCommand :=
  .prepend (.dep selfDelimiting_encodeLine List.length
    selfDelimiting_encodeBulk.flatMap_append) [42]

/-! ## Parsing -/

/-- `request.find('\n', pos) + 1`, which is `0` where there is no newline. -/
def afterNewline (request : Bytes) (pos : ℕ) : ℕ :=
  match (request.drop pos).findIdx? (· = 10) with
  | some i => pos + i + 1
  | none => 0

/-- `request.substr(pos, len)`: a negative length is a huge `size_t`, and a position behind the end
throws. -/
def substr (request : Bytes) (pos : ℕ) (len : ℤ) : Option Bytes :=
  if request.length < pos then none
  else some ((request.drop pos).take (toUInt64 len))

/-- The loop of `parseRESP` over the elements. -/
def parseElements (request : Bytes) : ℕ → ℕ → List Bytes → List Bytes
  | 0, _, args => args
  | n + 1, pos, args =>
      if request[pos]? ≠ some 36 then args
      else
        match stoi (request.drop (pos + 1)) with
        | none => args
        | some len =>
            let pos := afterNewline request pos
            match substr request pos len with
            | none => args
            | some arg => parseElements request n (afterNewline request pos) (args ++ [arg])

/-- `parseRESP`. -/
def parseRESP (request : Bytes) : List Bytes :=
  if request.head? ≠ some 42 then []
  else
    match stoi (request.drop 1) with
    | none => []
    | some numElements => parseElements request numElements.toNat (afterNewline request 0) []

/-! ## Parsing an encoding -/

theorem findIdx?_newline {line : Bytes} (hline : 10 ∉ line) (rest : Bytes) :
    (line ++ 10 :: rest).findIdx? (· = 10) = some line.length := by
  have hnone : line.findIdx? (· = 10) = none :=
    List.findIdx?_eq_none_iff.mpr fun b hb => by simpa using fun h : b = 10 => hline (h ▸ hb)
  rw [List.findIdx?_append, hnone]
  simp [List.findIdx?_cons]

/-- The line after a part without a newline. -/
theorem afterNewline_append {pre line rest : Bytes} (hline : 10 ∉ line) :
    afterNewline (pre ++ (line ++ 10 :: rest)) pre.length = (pre ++ (line ++ [10])).length := by
  rw [afterNewline, List.drop_left, findIdx?_newline hline]
  simp [Nat.add_assoc]

theorem newline_notMem_toDecimal (n : ℕ) : (10 : UInt8) ∉ toDecimal n := fun h => by
  have hdigit := isDigit_of_mem_toDecimal h
  exact absurd hdigit (by decide)

/-- One round of the loop of `parseRESP` on a bulk string without a newline. -/
theorem parseElements_bulk {arg : Bytes} (harg : 10 ∉ arg) (hlen : arg.length < 2 ^ 31)
    (pre rest : Bytes) (n : ℕ) (acc : List Bytes) :
    parseElements (pre ++ (encodeBulk arg ++ rest)) (n + 1) pre.length acc =
      parseElements (pre ++ (encodeBulk arg ++ rest)) n (pre ++ encodeBulk arg).length
        (acc ++ [arg]) := by
  -- the request, cut at the newline behind the length, and at the one behind the bytes
  have hlength : pre ++ (encodeBulk arg ++ rest) =
      pre ++ (([36] ++ toDecimal arg.length ++ [13]) ++ 10 :: (arg ++ (crlf ++ rest))) := by
    simp [encodeBulk, encodeLine, crlf]
  have hbytes : pre ++ (encodeBulk arg ++ rest) =
      (pre ++ ([36] ++ encodeLine arg.length)) ++ ((arg ++ [13]) ++ 10 :: rest) := by
    simp [encodeBulk, encodeLine, crlf]
  have hmark : (pre ++ (encodeBulk arg ++ rest))[pre.length]? = some 36 := by
    simp [encodeBulk]
  have hstoi : stoi ((pre ++ (encodeBulk arg ++ rest)).drop (pre.length + 1)) =
      some (arg.length : ℤ) := by
    rw [← List.drop_drop, List.drop_left]
    simpa [encodeBulk, encodeLine, crlf] using
      stoi_toDecimal hlen (by decide : isDigit 13 = false) (10 :: (arg ++ 13 :: 10 :: rest))
  have hpos : afterNewline (pre ++ (encodeBulk arg ++ rest)) pre.length =
      (pre ++ ([36] ++ encodeLine arg.length)).length := by
    rw [hlength, afterNewline_append (by simp [newline_notMem_toDecimal])]
    simp [encodeLine, crlf]
  have hsubstr : substr (pre ++ (encodeBulk arg ++ rest))
      (pre ++ ([36] ++ encodeLine arg.length)).length arg.length = some arg := by
    rw [hbytes, substr, if_neg (by simp), toUInt64_of_lt (by omega), List.drop_left,
      List.append_assoc, List.take_left]
  have hnext : afterNewline (pre ++ (encodeBulk arg ++ rest))
      (pre ++ ([36] ++ encodeLine arg.length)).length = (pre ++ encodeBulk arg).length := by
    rw [hbytes, afterNewline_append (by simp [harg])]
    simp [encodeBulk, encodeLine, crlf, Nat.add_assoc]
  simp only [parseElements, hmark, ne_eq, not_true_eq_false, if_false, hstoi, hpos, hsubstr, hnext]

/-- **Parsing goes through the bulk strings without a newline.** -/
theorem parseElements_append : ∀ (args : List Bytes) (pre rest : Bytes) (acc : List Bytes),
    (∀ arg ∈ args, 10 ∉ arg ∧ arg.length < 2 ^ 31) →
      parseElements (pre ++ (args.flatMap encodeBulk ++ rest)) args.length pre.length acc =
        acc ++ args
  | [], pre, rest, acc, _ => by simp [parseElements]
  | arg :: args, pre, rest, acc, h => by
      obtain ⟨harg, hlen⟩ := h arg List.mem_cons_self
      have hrest := parseElements_append args (pre ++ encodeBulk arg) rest (acc ++ [arg])
        fun a ha => h a (List.mem_cons_of_mem arg ha)
      rw [List.flatMap_cons, List.append_assoc, List.length_cons,
        parseElements_bulk harg hlen, ← List.append_assoc pre, hrest, List.append_assoc,
        List.singleton_append]

/-- **`parseRESP` reads the first command** of a stream, when its arguments hold no newline, and
nothing behind it. -/
theorem parseRESP_append {args : List Bytes} (hcount : args.length < 2 ^ 31)
    (hargs : ∀ arg ∈ args, 10 ∉ arg ∧ arg.length < 2 ^ 31) (rest : Bytes) :
    parseRESP (encodeCommand args ++ rest) = args := by
  have hline : encodeCommand args ++ rest = [] ++
      (([42] ++ toDecimal args.length ++ [13]) ++ 10 :: (args.flatMap encodeBulk ++ rest)) := by
    simp [encodeCommand, encodeLine, crlf]
  have hstoi : stoi ((encodeCommand args ++ rest).drop 1) = some (args.length : ℤ) := by
    simpa [encodeCommand, encodeLine, crlf] using stoi_toDecimal hcount
      (by decide : isDigit 13 = false) (10 :: (args.flatMap encodeBulk ++ rest))
  have hpos : afterNewline (encodeCommand args ++ rest) 0 =
      ([42] ++ encodeLine args.length).length := by
    rw [hline]
    refine (afterNewline_append (by simp [newline_notMem_toDecimal])).trans ?_
    simp [encodeLine, crlf]
  have hhead : (encodeCommand args ++ rest).head? = some 42 := rfl
  have hloop := parseElements_append args ([42] ++ encodeLine args.length) rest [] hargs
  rw [parseRESP, hhead, if_neg (by simp), hstoi]
  simp only [Int.toNat_natCast, hpos]
  rw [encodeCommand, ← List.append_assoc, List.append_assoc, hloop, List.nil_append]

end SmallKV
