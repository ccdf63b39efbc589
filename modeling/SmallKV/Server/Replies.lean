import SmallKV.Server.RespSound

/-!
# Server/Replies — one reply for each request

A reply on the wire is a line of text, a number, or a counted string; replies are self-delimiting
(`selfDelimiting_bytes`), so a stream of them determines them.  Values are counted and the other
texts are fixed, but an unknown command is quoted as it came: the server sends one reply exactly
when the name of the command stays on one line (`oneReply_iff`).
-/

namespace SmallKV

/-! ## Replies on the wire -/

/-- Without CR and LF. -/
def OneLine (text : Bytes) : Prop := 13 ∉ text ∧ 10 ∉ text

instance (text : Bytes) : Decidable (OneLine text) := instDecidableAnd

/-- A text that stays on one line. -/
structure Line where
  text : Bytes
  oneLine : OneLine text

theorem Line.ext_text : ∀ {l l' : Line}, l.text = l'.text → l = l'
  | ⟨_, _⟩, ⟨_, _⟩, rfl => rfl

/-- The text of an integer. -/
def toDecimalInt (n : ℤ) : Bytes :=
  if n < 0 then 45 :: toDecimal n.natAbs else toDecimal n.natAbs

@[simp] theorem toDecimalInt_natCast (n : ℕ) : toDecimalInt n = toDecimal n := by
  rw [toDecimalInt, if_neg (by omega), Int.natAbs_natCast]

/-- A reply; `bulk none` stands for an absent value. -/
inductive RespReply
  | simple (line : Line)
  | error (line : Line)
  | integer (n : ℤ)
  | bulk (value : Option Bytes)

/-- The length line of a bulk string. -/
def bulkLength (value : Option Bytes) : ℤ := value.elim (-1) fun v => v.length

/-- What follows the length line. -/
def bulkBody (value : Option Bytes) : Bytes := value.elim [] fun v => v ++ crlf

/-- The bytes of a reply. -/
def RespReply.bytes : RespReply → Bytes
  | .simple line => 43 :: (line.text ++ crlf)
  | .error line => 45 :: (line.text ++ crlf)
  | .integer n => 58 :: (toDecimalInt n ++ crlf)
  | .bulk value => 36 :: (toDecimalInt (bulkLength value) ++ crlf ++ bulkBody value)

/-! ## A stream of replies -/

theorem mem_toDecimalInt {n : ℤ} {b : UInt8} (h : b ∈ toDecimalInt n) :
    b = 45 ∨ isDigit b = true := by
  rw [toDecimalInt] at h
  split_ifs at h with hneg
  · exact (List.mem_cons.mp h).imp_right isDigit_of_mem_toDecimal
  · exact Or.inr (isDigit_of_mem_toDecimal h)

/-- A minus sign is no digit. -/
theorem minus_notMem_toDecimal (n : ℕ) : (45 : UInt8) ∉ toDecimal n := fun h =>
  absurd (isDigit_of_mem_toDecimal h) (by decide)

theorem toDecimalInt_injective : Function.Injective toDecimalInt := by
  intro n n' h
  have hsign : ∀ {k k' : ℕ}, 45 :: toDecimal k ≠ toDecimal k' := fun {k k'} heq =>
    minus_notMem_toDecimal k' (heq ▸ List.mem_cons_self)
  rw [toDecimalInt, toDecimalInt] at h
  split_ifs at h with hneg hneg' hneg'
  · have habs := toDecimal_injective (List.cons.inj h).2
    omega
  · exact absurd h hsign
  · exact absurd h.symm hsign
  · have habs := toDecimal_injective h
    omega

theorem selfDelimiting_integer : SelfDelimiting fun n => toDecimalInt n ++ crlf :=
  .terminated toDecimalInt_injective (fun n h => by
    rcases mem_toDecimalInt h with h | h
    · exact absurd h (by decide)
    · exact absurd h (by decide)) [10]

theorem selfDelimiting_line : SelfDelimiting fun l : Line => l.text ++ crlf :=
  .terminated (fun _ _ => Line.ext_text) (fun l => l.oneLine.1) [10]

theorem selfDelimiting_bulk : SelfDelimiting fun value =>
    toDecimalInt (bulkLength value) ++ crlf ++ bulkBody value := by
  refine .dep selfDelimiting_integer bulkLength fun value value' r s hlen heq => ?_
  cases value with
  | none =>
    cases value' with
    | none => exact ⟨rfl, heq⟩
    | some v' =>
      simp only [bulkLength, Option.elim] at hlen
      omega
  | some v =>
    cases value' with
    | none =>
      simp only [bulkLength, Option.elim] at hlen
      omega
    | some v' =>
      simp only [bulkBody, Option.elim, List.append_assoc] at heq
      obtain ⟨rfl, hrest⟩ := List.append_inj heq (by simpa [bulkLength] using hlen)
      exact ⟨rfl, List.append_cancel_left hrest⟩

/-- **A stream of replies can be told apart.** -/
theorem RespReply.selfDelimiting_bytes : SelfDelimiting RespReply.bytes := by
  intro x y r s heq
  cases x with
  | simple l =>
    cases y with
    | simple l' =>
      obtain ⟨rfl, hrest⟩ := selfDelimiting_line l l' r s (List.cons.inj heq).2
      exact ⟨rfl, hrest⟩
    | _ => simp [RespReply.bytes] at heq
  | error l =>
    cases y with
    | error l' =>
      obtain ⟨rfl, hrest⟩ := selfDelimiting_line l l' r s (List.cons.inj heq).2
      exact ⟨rfl, hrest⟩
    | _ => simp [RespReply.bytes] at heq
  | integer n =>
    cases y with
    | integer n' =>
      obtain ⟨rfl, hrest⟩ := selfDelimiting_integer n n' r s (List.cons.inj heq).2
      exact ⟨rfl, hrest⟩
    | _ => simp [RespReply.bytes] at heq
  | bulk value =>
    cases y with
    | bulk value' =>
      obtain ⟨rfl, hrest⟩ := selfDelimiting_bulk value value' r s (List.cons.inj heq).2
      exact ⟨rfl, hrest⟩
    | _ => simp [RespReply.bytes] at heq

theorem RespReply.bytes_ne_nil (r : RespReply) : r.bytes ≠ [] := by
  cases r <;> exact List.cons_ne_nil _ _

/-- The bytes are one reply. -/
def IsReply (bytes : Bytes) : Prop := ∃ r : RespReply, r.bytes = bytes

/-- **An error line is a reply exactly when its text stays on one line.** -/
theorem isReply_error_iff (text : Bytes) : IsReply (45 :: (text ++ crlf)) ↔ OneLine text := by
  constructor
  · rintro ⟨r, hr⟩
    cases r with
    | error line =>
      have htext : line.text = text := List.append_cancel_right (List.cons.inj hr).2
      exact htext ▸ line.oneLine
    | _ => simp [RespReply.bytes] at hr
  · exact fun h => ⟨.error ⟨text, h⟩, rfl⟩

/-! ## The name of a command -/

/-- The bytes of an element, whose length counts from the next line on, or, in the last line, from
the start of the request. -/
def elementBytes (request element : Bytes) : Option Bytes := do
  guard (element.head? = some 36)
  let len ← stoi element.tail
  return ((nextLine element).getD request).take (toUInt64 len)

/-- The bytes of the first element of a request. -/
def commandName (request : Bytes) : Option Bytes := do
  guard (request.head? = some 42)
  let numElements ← stoi request.tail
  guard (0 < numElements)
  let element ← nextLine request
  elementBytes request element

/-- Where no newline is left, the position wraps around to the start of the request. -/
theorem drop_afterNewline_eq (request : Bytes) (pos : ℕ) :
    request.drop (afterNewline request pos) = (nextLine (request.drop pos)).getD request := by
  cases hline : nextLine (request.drop pos) with
  | none => rw [afterNewline_of_none hline, List.drop_zero, Option.getD_none]
  | some more => rw [drop_afterNewline hline, Option.getD_some]

/-- The loop starts with the element in front of it. -/
theorem head?_parseElements (request : Bytes) (n pos : ℕ) :
    (parseElements request (n + 1) pos []).head? = elementBytes request (request.drop pos) := by
  by_cases hmark : (request.drop pos).head? = some 36
  · cases hlen : stoi (request.drop pos).tail with
    | none =>
      rw [parseElements_stop fun _ => hlen, elementBytes, hmark, hlen]
      rfl
    | some len =>
      rw [parseElements_succ hmark hlen, drop_afterNewline_eq, List.nil_append]
      -- the loop keeps what it has read
      obtain ⟨args, hargs⟩ := prefix_parseElements request n
        (afterNewline request (afterNewline request pos))
        [((nextLine (request.drop pos)).getD request).take (toUInt64 len)]
      rw [← hargs, elementBytes, hmark, hlen]
      rfl
  · rw [parseElements_stop fun h => absurd h hmark, elementBytes, guard, if_neg hmark]
    rfl

/-- **`parseRESP` reads the name first**, and nothing at all without a name. -/
theorem head?_parseRESP (request : Bytes) : (parseRESP request).head? = commandName request := by
  by_cases hstar : request.head? = some 42
  · rw [parseRESP, hstar, if_neg (by simp), List.drop_one]
    cases hstoi : stoi request.tail with
    | none => simp [commandName, hstoi]
    | some n =>
      by_cases hpos : 0 < n
      · obtain ⟨m, hm⟩ := Nat.exists_eq_succ_of_ne_zero (by omega : n.toNat ≠ 0)
        have hfirst := drop_afterNewline_eq request 0
        rw [List.drop_zero] at hfirst
        dsimp only
        rw [hm, head?_parseElements, hfirst]
        cases hline : nextLine request with
        | none => simp [commandName, hline, elementBytes, hstar]
        | some element => simp [commandName, hstar, hstoi, hpos, hline]
      · have hzero : n.toNat = 0 := by omega
        simp [commandName, hstoi, hpos, hzero, parseElements]
  · simp [parseRESP, commandName, hstar]

/-! ## One reply for each request -/

namespace LSMServer

variable {env : Env} {s s' : LSMServer} {request reply : Bytes} {args : List Bytes}

theorem isReply_errorReply (status : DBStatus) : IsReply (errorReply status) := by
  have hline : OneLine (ascii "ERR " ++ status.errMsg) := by cases status <;> decide
  exact (isReply_error_iff _).mpr hline

/-- The reply of `SET`. -/
theorem isReply_handleSet (h : s.handleSet env args = .ok (s', reply)) : IsReply reply := by
  unfold handleSet at h
  split at h
  · obtain ⟨⟨status, s₁⟩, -, h⟩ := bind_eq_ok.mp h
    dsimp only at h
    split_ifs at h with hstatus
    · obtain ⟨-, rfl⟩ := Prod.mk.inj (Except.ok.inj h)
      exact ⟨.simple ⟨ascii "OK", by decide⟩, rfl⟩
    · obtain ⟨-, rfl⟩ := Prod.mk.inj (Except.ok.inj h)
      exact isReply_errorReply status
  · obtain ⟨-, rfl⟩ := Prod.mk.inj (Except.ok.inj h)
    exact ⟨.error ⟨ascii "ERR wrong number of arguments for 'SET' command", by decide⟩, rfl⟩

/-- The reply of `GET`: whatever the value holds, its length is in front of it. -/
theorem isReply_handleGet (h : s.handleGet env args = .ok (s', reply)) : IsReply reply := by
  unfold handleGet at h
  split at h
  · obtain ⟨⟨status, ret, db⟩, -, h⟩ := bind_eq_ok.mp h
    dsimp only at h
    split_ifs at h with hfound hmissing
    · obtain ⟨-, rfl⟩ := Prod.mk.inj (Except.ok.inj h)
      refine ⟨.bulk (some (ret.getD [])), ?_⟩
      simp [RespReply.bytes, bulkLength, bulkBody, ascii]
    · obtain ⟨-, rfl⟩ := Prod.mk.inj (Except.ok.inj h)
      exact ⟨.bulk none, rfl⟩
    · obtain ⟨-, rfl⟩ := Prod.mk.inj (Except.ok.inj h)
      exact isReply_errorReply status
  · obtain ⟨-, rfl⟩ := Prod.mk.inj (Except.ok.inj h)
    exact ⟨.error ⟨ascii "ERR wrong number of arguments for 'GET' command", by decide⟩, rfl⟩

/-- The reply of `DEL`. -/
theorem isReply_handleDel (h : s.handleDel env args = .ok (s', reply)) : IsReply reply := by
  rw [handleDel] at h
  split_ifs at h with hargs
  · obtain ⟨-, rfl⟩ := Prod.mk.inj (Except.ok.inj h)
    exact ⟨.error ⟨ascii "ERR wrong number of arguments for 'DEL' command", by decide⟩, rfl⟩
  · obtain ⟨⟨s₁, deleted⟩, -, h⟩ := bind_eq_ok.mp h
    obtain ⟨-, rfl⟩ := Prod.mk.inj (Except.ok.inj h)
    refine ⟨.integer deleted, ?_⟩
    simp [RespReply.bytes, ascii]

/-- **A command is answered with one reply, unless its name is unknown and does not stay on one
line.** -/
theorem isReply_handleCommand_iff (h : s.handleCommand env args = .ok (s', reply)) :
    IsReply reply ↔ ∀ name ∈ args.head?, OneLine name := by
  cases args with
  | nil =>
    obtain ⟨-, rfl⟩ := Prod.mk.inj (Except.ok.inj h)
    exact iff_of_true ⟨.error ⟨ascii "ERR Protocol error", by decide⟩, rfl⟩ (by simp)
  | cons name rest =>
    have hhead : (∀ n ∈ (name :: rest).head?, OneLine n) ↔ OneLine name := by simp
    rw [hhead]
    simp only [handleCommand] at h
    split_ifs at h with hset hget hdel
    · exact iff_of_true (isReply_handleSet h) (hset ▸ by decide)
    · exact iff_of_true (isReply_handleGet h) (hget ▸ by decide)
    · exact iff_of_true (isReply_handleDel h) (hdel ▸ by decide)
    · obtain ⟨-, rfl⟩ := Prod.mk.inj (Except.ok.inj h)
      have hbytes : ascii "-ERR unknown command '" ++ name ++ ascii "'\r\n" =
          45 :: (ascii "ERR unknown command '" ++ (name ++ [39]) ++ crlf) := by
        simp [ascii, crlf]
      rw [hbytes, isReply_error_iff]
      simp [OneLine, ascii]

/-- **A request is answered with one reply exactly when the first element it is parsed into, if
there is one, stays on one line.** -/
theorem isReply_handleRequest_iff (h : s.handleRequest env request = .ok (s', reply)) :
    IsReply reply ↔ ∀ name ∈ (parseRESP request).head?, OneLine name := by
  rw [handleRequest] at h
  split_ifs at h with hempty hping
  · obtain ⟨-, rfl⟩ := Prod.mk.inj (Except.ok.inj h)
    rw [List.isEmpty_iff.mp hempty]
    exact iff_of_true ⟨.error ⟨ascii "ERR Protocol error: expected '*'", by decide⟩, rfl⟩
      (by simp [parseRESP])
  · obtain ⟨-, rfl⟩ := Prod.mk.inj (Except.ok.inj h)
    rw [hping]
    exact iff_of_true ⟨.simple ⟨ascii "PONG", by decide⟩, rfl⟩ (by simp [parseRESP, ascii])
  · exact isReply_handleCommand_iff h

/-- **A request is answered with one reply exactly when the name of its command, if it has one,
stays on one line.** -/
theorem oneReply_iff (h : s.handleRequest env request = .ok (s', reply)) :
    IsReply reply ↔ ∀ name ∈ commandName request, OneLine name := by
  rw [isReply_handleRequest_iff h, head?_parseRESP]

/-- A request for an unknown command, whose name is the given bytes. -/
def unknown (name : Bytes) : Bytes := encodeCommand [name]

/-- A name of one letter. -/
theorem oneReply_iff_unknown :
    IsReply (ascii "-ERR unknown command 'x'\r\n") ↔
      ∀ name ∈ commandName (unknown [120]), OneLine name := by
  have hrun : fresh.handleRequest Env.plain (unknown [120]) =
    .ok (fresh, ascii "-ERR unknown command 'x'\r\n") := rfl
  exact oneReply_iff hrun

/-- Every request is answered with one reply. -/
def OneReplies : Prop :=
  ∀ (env : Env) (s s' : LSMServer) (request reply : Bytes),
    s.handleRequest env request = .ok (s', reply) → IsReply reply

/-- **A command whose name holds a reply is answered with two lines.** -/
theorem not_oneReplies : ¬ OneReplies := by
  intro h
  have hrun : fresh.handleRequest Env.plain (unknown (ascii "x'\r\n+OK")) =
    .ok (fresh, ascii "-ERR unknown command 'x'\r\n+OK'\r\n") := rfl
  obtain ⟨r, hr⟩ := h _ _ _ _ _ hrun
  have hline := (isReply_error_iff (ascii "ERR unknown command 'x'\r\n+OK'")).mp ⟨r, hr⟩
  exact absurd hline (by decide)

/-- **A run is answered with a stream of as many replies as there are requests**, and of no others,
when the names stay on one line. -/
theorem exists_replies {requests replies : List Bytes}
    (hnames : ∀ request ∈ requests, ∀ name ∈ commandName request, OneLine name)
    (hrun : runFrom (handleRequest env) s requests = .ok (s', replies)) :
    ∃ rs : List RespReply, replies.flatten = rs.flatMap RespReply.bytes ∧
      rs.length = requests.length ∧
      ∀ rs' : List RespReply, replies.flatten = rs'.flatMap RespReply.bytes → rs' = rs := by
  have hlen : replies.length = requests.length := length_of_runFrom _ hrun
  -- every request answered so far, if its name stays on one line, got one reply
  have hzip := run_history (handleRequest env) (P := fun _ _ => True)
    (I := fun h _ => ∀ e ∈ h, (∀ name ∈ commandName e.1, OneLine name) → IsReply e.2)
    (fun h s request s₁ reply hI _ hstep e he hname => by
      rcases List.mem_append.mp he with he | he
      · exact hI e he hname
      · obtain rfl := List.mem_singleton.mp he
        exact (isReply_handleRequest_iff hstep).mpr (head?_parseRESP request ▸ hname))
    requests [] s s' replies (by simp) (along_of_forall _ (fun _ _ => trivial) _ _) hrun
  have hall : ∀ reply ∈ replies, IsReply reply := by
    intro reply hreply
    rw [← List.map_snd_zip hlen.le] at hreply
    obtain ⟨e, he, rfl⟩ := List.mem_map.mp hreply
    exact hzip e (by simpa using he) (hnames e.1 (List.of_mem_zip he).1)
  obtain ⟨rs, rfl⟩ : replies ∈ Set.range (List.map RespReply.bytes) := by
    rw [Set.range_list_map]
    exact hall
  refine ⟨rs, by rw [List.flatMap_def], ?_, fun rs' hrs' => ?_⟩
  · rw [← hlen, List.length_map]
  · rw [← List.flatMap_def] at hrs'
    exact (RespReply.selfDelimiting_bytes.flatMap_injective RespReply.bytes_ne_nil hrs').symm

end LSMServer

end SmallKV
