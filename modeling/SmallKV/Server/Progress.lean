import SmallKV.Server.RespSound

/-!
# Server/Progress — how far the loop of `parseRESP` gets in a round

A round of the loop skips two newlines.  Where one of them is missing, `find` returns `npos`, and the
position `npos + 1` is the start of the request: a round does not advance then, and may be made again
as often as the count of elements says (`not_alwaysProgresses`).  The loop makes progress exactly when
two newlines follow every element that it reaches (`progresses_iff`).
-/

namespace SmallKV

/-! ## Rounds -/

/-- A round of the loop at a position: the argument it adds and the position it goes on to, unless
the loop returns. -/
def parseRound (request : Bytes) (pos : ℕ) : Option (Bytes × ℕ) :=
  if request[pos]? ≠ some 36 then none
  else
    match stoi (request.drop (pos + 1)) with
    | none => none
    | some len =>
        (substr request (afterNewline request pos) len).map fun arg =>
          (arg, afterNewline request (afterNewline request pos))

/-- The positions at which the loop begins a round, with `n` elements to read. -/
def roundsFrom (request : Bytes) : ℕ → ℕ → List ℕ
  | 0, _ => []
  | n + 1, pos => pos ::
      match parseRound request pos with
      | none => []
      | some (_, next) => roundsFrom request n next

/-- The positions at which `parseRESP` begins a round of its loop. -/
def parseRounds (request : Bytes) : List ℕ :=
  match stoi (request.drop 1) with
  | none => []
  | some numElements => roundsFrom request numElements.toNat (afterNewline request 0)

/-- **`parseRESP` makes progress**: a round that does not return advances the position, and neither
the rounds nor the arguments are more than the bytes of the request. -/
structure Progresses (request : Bytes) : Prop where
  advances : ∀ pos ∈ parseRounds request, ∀ arg next,
    parseRound request pos = some (arg, next) → pos < next
  rounds : (parseRounds request).length ≤ request.length
  args : (parseRESP request).length ≤ request.length

variable {request text : Bytes} {pos next n : ℕ} {arg : Bytes}

/-- **The loop makes its rounds.** -/
theorem parseElements_succ_eq (request : Bytes) (n pos : ℕ) (acc : List Bytes) :
    parseElements request (n + 1) pos acc =
      match parseRound request pos with
      | none => acc
      | some (arg, next) => parseElements request n next (acc ++ [arg]) := by
  rw [parseElements, parseRound]
  split_ifs with hmark
  · rfl
  · cases stoi (request.drop (pos + 1)) with
    | none => rfl
    | some len => cases hsub : substr request (afterNewline request pos) len <;> simp [hsub]

/-- Each argument is the work of a round. -/
theorem length_parseElements_le (request : Bytes) : ∀ (n pos : ℕ) (acc : List Bytes),
    (parseElements request n pos acc).length ≤ acc.length + (roundsFrom request n pos).length
  | 0, _, acc => Nat.le_add_right _ _
  | n + 1, pos, acc => by
      rw [parseElements_succ_eq, roundsFrom]
      cases parseRound request pos with
      | none => exact Nat.le_add_right _ _
      | some round =>
        have hrest := length_parseElements_le request n round.2 (acc ++ [round.1])
        simp only [List.length_append, List.length_cons, List.length_nil] at hrest ⊢
        omega

theorem length_parseRESP_le (request : Bytes) :
    (parseRESP request).length ≤ (parseRounds request).length := by
  rw [parseRESP, parseRounds]
  split_ifs with hhead
  · exact Nat.zero_le _
  · cases stoi (request.drop 1) with
    | none => exact Nat.le_refl _
    | some numElements => simpa using length_parseElements_le request numElements.toNat _ []

/-- **A round goes on** from an element with a length, to what stands behind the second newline. -/
theorem parseRound_eq_some : parseRound request pos = some (arg, next) ↔
    (request.drop pos).head? = some 36 ∧ next = afterNewline request (afterNewline request pos) ∧
      ∃ len, stoi (request.drop pos).tail = some len ∧
        substr request (afterNewline request pos) len = some arg := by
  rw [parseRound, List.head?_drop, List.tail_drop]
  split_ifs with hmark
  · simp [hmark]
  · rw [ne_eq, not_not] at hmark
    cases hlen : stoi (request.drop (pos + 1)) with
    | none => simp
    | some len => simp [hmark, and_comm, eq_comm]

/-! ## Framed elements -/

/-- **The elements are framed**: two newlines follow each element that begins with a mark and a
length, among the first `n`. -/
def Framed : ℕ → Bytes → Prop
  | 0, _ => True
  | n + 1, text => text.head? = some 36 → (∃ len, stoi text.tail = some len) →
      ∃ more next, nextLine text = some more ∧ nextLine more = some next ∧ Framed n next

/-- The elements behind the header of a request are framed. -/
def FramedRequest (request : Bytes) : Prop :=
  ∀ numElements body, stoi request.tail = some numElements → nextLine request = some body →
    Framed numElements.toNat body

/-- Framed elements are passed one by one. -/
theorem rounds_of_framed : ∀ {n pos : ℕ}, pos ≤ request.length → Framed n (request.drop pos) →
    (∀ p ∈ roundsFrom request n pos, ∀ arg next, parseRound request p = some (arg, next) → p < next) ∧
      (roundsFrom request n pos).length ≤ request.length - pos + 1
  | 0, pos, _, _ => ⟨by simp [roundsFrom], Nat.zero_le _⟩
  | n + 1, pos, hpos, h => by
      rw [roundsFrom]
      cases hround : parseRound request pos with
      | none =>
        refine ⟨fun p hp arg next hp' => ?_, Nat.le_add_left _ _⟩
        rw [List.mem_singleton.mp hp, hround] at hp'
        cases hp'
      | some round =>
        obtain ⟨hmark, hnext, len, hlen, -⟩ := parseRound_eq_some.mp hround
        obtain ⟨more, text, hmore, htext, hframed⟩ := h hmark ⟨len, hlen⟩
        have hfirst := lt_afterNewline hmore
        have hdrop := drop_afterNewline hmore
        rw [← hdrop] at htext
        have hsecond := lt_afterNewline htext
        rw [← drop_afterNewline htext] at hframed
        obtain ⟨hadvances, hlength⟩ := rounds_of_framed
          (afterNewline_le request (afterNewline request pos)) hframed
        have hle := afterNewline_le request (afterNewline request pos)
        rw [← hnext] at hadvances hlength hsecond hle
        refine ⟨fun p hp arg next hp' => ?_, ?_⟩
        · rcases List.mem_cons.mp hp with rfl | hp
          · rw [hround] at hp'
            obtain rfl := Option.some.inj hp'
            exact hfirst.trans hsecond
          · exact hadvances p hp arg next hp'
        · rw [List.length_cons]
          show (roundsFrom request n round.2).length + 1 ≤ _
          omega

/-- Rounds that advance pass framed elements. -/
theorem framed_of_rounds : ∀ {n pos : ℕ}, afterNewline request 0 ≤ pos →
    (∀ p ∈ roundsFrom request n pos, ∀ arg next,
      parseRound request p = some (arg, next) → p < next) → Framed n (request.drop pos)
  | 0, _, _, _ => trivial
  | n + 1, pos, hpos, h => by
      rintro hmark ⟨len, hlen⟩
      have hround : parseRound request pos =
          some ((request.drop (afterNewline request pos)).take (toUInt64 len),
            afterNewline request (afterNewline request pos)) :=
        parseRound_eq_some.mpr ⟨hmark, rfl, len, hlen,
          if_neg (not_lt.mpr (afterNewline_le request pos))⟩
      rw [roundsFrom, hround] at h
      have hadvance := h pos List.mem_cons_self _ _ hround
      obtain ⟨more, hmore⟩ : ∃ more, nextLine (request.drop pos) = some more := by
        by_contra hnone
        -- the position is back at the start, and then behind the header
        rw [afterNewline_of_none (Option.eq_none_iff_forall_ne_some.mpr fun more hmore =>
          hnone ⟨more, hmore⟩)] at hadvance
        omega
      obtain ⟨next, hnext⟩ : ∃ next, nextLine more = some next := by
        by_contra hnone
        rw [← drop_afterNewline hmore] at hnone
        rw [afterNewline_of_none (Option.eq_none_iff_forall_ne_some.mpr fun next hnext =>
          hnone ⟨next, hnext⟩)] at hadvance
        exact absurd hadvance (Nat.not_lt_zero pos)
      refine ⟨more, next, hmore, hnext, ?_⟩
      rw [← drop_afterNewline hmore] at hnext
      rw [← drop_afterNewline hnext]
      exact framed_of_rounds (hpos.trans hadvance.le) fun p hp =>
        h p (List.mem_cons_of_mem pos hp)

/-! ## Requests -/

/-- A request is no element. -/
theorem parseRound_zero (hstar : request.head? = some 42) : parseRound request 0 = none := by
  rw [parseRound, ← List.head?_eq_getElem?, hstar]
  rfl

/-- A loop that does not find the end of the header returns in its first round. -/
theorem roundsFrom_zero (hstar : request.head? = some 42) (n : ℕ) :
    roundsFrom request n 0 = [] ∨ roundsFrom request n 0 = [0] := by
  cases n with
  | zero => exact .inl rfl
  | succ n =>
    right
    rw [roundsFrom, parseRound_zero hstar]

/-- **The rounds of a framed request**: each advances, and there are no more than bytes. -/
theorem parseRounds_of_framed (hstar : request.head? = some 42) (hframed : FramedRequest request) :
    (∀ pos ∈ parseRounds request, ∀ arg next,
      parseRound request pos = some (arg, next) → pos < next) ∧
      (parseRounds request).length ≤ request.length := by
  have hlength : 0 < request.length := by
    rw [List.length_pos_iff]
    rintro rfl
    cases hstar
  rw [parseRounds, List.drop_one]
  cases hcount : stoi request.tail with
  | none => exact ⟨by simp, Nat.zero_le _⟩
  | some numElements =>
    cases hbody : nextLine request with
    | none =>
      have hbody' : nextLine (request.drop 0) = none := hbody
      simp only [afterNewline_of_none hbody']
      rcases roundsFrom_zero hstar numElements.toNat with hnil | hfirst
      · rw [hnil]
        exact ⟨by simp, Nat.zero_le _⟩
      · rw [hfirst]
        refine ⟨fun pos hpos arg next hround => ?_, hlength⟩
        rw [List.mem_singleton.mp hpos, parseRound_zero hstar] at hround
        cases hround
    | some body =>
      have hbody' : nextLine (request.drop 0) = some body := hbody
      have hfirst := lt_afterNewline hbody'
      have hle := afterNewline_le request 0
      have hdrop := drop_afterNewline hbody'
      obtain ⟨hadvances, hrounds⟩ := rounds_of_framed hle
        (hdrop.symm ▸ hframed numElements body hcount hbody)
      exact ⟨hadvances, hrounds.trans (by omega)⟩

/-- Only a framed request is passed in rounds that advance. -/
theorem framedRequest_of_rounds (h : ∀ pos ∈ parseRounds request, ∀ arg next,
    parseRound request pos = some (arg, next) → pos < next) : FramedRequest request := by
  intro numElements body hcount hbody
  rw [parseRounds, List.drop_one, hcount] at h
  have hbody' : nextLine (request.drop 0) = some body := hbody
  rw [← drop_afterNewline hbody']
  exact framed_of_rounds (Nat.le_refl _) h

/-- **When `parseRESP` makes progress**: exactly when each element that it reaches, of as many as the
header announces, is followed by two newlines. -/
theorem progresses_iff (hstar : request.head? = some 42) :
    Progresses request ↔ FramedRequest request := by
  constructor
  · exact fun h => framedRequest_of_rounds h.advances
  · intro hframed
    obtain ⟨hadvances, hrounds⟩ := parseRounds_of_framed hstar hframed
    exact ⟨hadvances, hrounds, (length_parseRESP_le request).trans hrounds⟩

/-- A request of three elements. -/
theorem progresses_iff_three : Progresses (encodeCommand [[115, 101, 116], [107], [97]]) := by
  refine (progresses_iff rfl).mpr fun numElements body hcount hbody => ?_
  obtain rfl := Option.some.inj hcount
  obtain rfl := Option.some.inj hbody
  exact fun _ _ => ⟨_, _, rfl, rfl, fun _ _ => ⟨_, _, rfl, rfl, fun _ _ => ⟨_, _, rfl, rfl, trivial⟩⟩⟩

/-- Every request is parsed with progress. -/
def AlwaysProgresses : Prop := ∀ request : Bytes, request.head? = some 42 → Progresses request

/-- **Nine elements announced, and no newline behind the only one**: its round is made nine times. -/
theorem not_alwaysProgresses : ¬ AlwaysProgresses := by
  intro h
  have hargs := (h [42, 57, 10, 36, 51] rfl).args
  exact absurd hargs (by decide)

end SmallKV
