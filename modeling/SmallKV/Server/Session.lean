import SmallKV.Db.Provenance
import SmallKV.Server.Delete

/-!
# Server/Session — the server as a client of its database

A request is a few calls on the database and a reply made of their answers (`handleRequest_eq`), so
what holds of runs of the database holds of the server.  The server never deletes; hence every value
in a reply was set by an earlier request, whatever bytes the requests are (`reply_sourced`).
-/

namespace SmallKV.LSMServer

open DbImpl (Call Reply Sourced WrittenSince)

/-! ## Requests as calls -/

/-- What the server takes a request for: a command with the right number of arguments, or something
it has a fixed reply to. -/
inductive Request
  | set (key value : Bytes)
  | get (key : Bytes)
  | del (keys : List Bytes)
  | other (reply : Bytes)

/-- The way from the bytes to the handler. -/
def Request.ofBytes (request : Bytes) : Request :=
  if request.isEmpty then .other (ascii "-ERR Protocol error: expected '*'\r\n")
  else if request = ascii "PING\r\n" then .other (ascii "+PONG\r\n")
  else
    match parseRESP request with
    | [] => .other (ascii "-ERR Protocol error\r\n")
    | name :: args =>
        if name = ascii "SET" then
          match args with
          | [key, value] => .set key value
          | _ => .other (ascii "-ERR wrong number of arguments for 'SET' command\r\n")
        else if name = ascii "GET" then
          match args with
          | [key] => .get key
          | _ => .other (ascii "-ERR wrong number of arguments for 'GET' command\r\n")
        else if name = ascii "DEL" then
          match args with
          | [] => .other (ascii "-ERR wrong number of arguments for 'DEL' command\r\n")
          | keys => .del keys
        else .other (ascii "-ERR unknown command '" ++ name ++ ascii "'\r\n")

/-- The calls that a request makes on the database. -/
def Request.calls (chances : ℕ → Chance) : Request → List Call
  | .set key value => [.put (.ofBytes key) (.ofBytes value) (chances 0)]
  | .get key => [.get (.ofBytes key) (some [])]
  | .del keys => keys.mapIdx fun i key => .put (.ofBytes key) (.ofBytes []) (chances i)
  | .other _ => []

/-- The number of its writes. -/
def Request.writes : Request → ℕ
  | .set _ _ => 1
  | .get _ => 0
  | .del keys => keys.length
  | .other _ => 0

/-- What a status is answered with, if it is not a success. -/
def statusReply (status : DBStatus) : Bytes :=
  if status = .notFound then absentReply else errorReply status

/-- The reply to a request, from the answers of its calls. -/
def Request.reply : Request → List Reply → Bytes
  | .set _ _, rs =>
      if ∀ r ∈ rs, r.1 = .success then ascii "+OK\r\n" else rs.flatMap fun r => errorReply r.1
  | .get _, rs => rs.flatMap fun r =>
      if r.1 = .success then valueReply (r.2.getD []) else statusReply r.1
  | .del _, rs => ascii ":" ++ toDecimal (rs.countP fun r => r.1 = .success) ++ crlf
  | .other reply, _ => reply

/-- The server after some writes, with another database. -/
def after (s : LSMServer) (db : DbImpl) (writes : ℕ) : LSMServer :=
  ⟨db, fun n => s.chances (n + writes)⟩

variable {env : Env} {s s' : LSMServer}

theorem handleSet_eq (s : LSMServer) (key value : Bytes) :
    s.handleSet env [ascii "SET", key, value] = (do
      let (db, rs) ← runFrom (DbImpl.step env) s.db ((Request.set key value).calls s.chances)
      return (s.after db 1, (Request.set key value).reply rs)) := by
  cases h : s.db.put env (.ofBytes key) (.ofBytes value) (s.chances 0) with
  | error e => simp [handleSet, put, Request.calls, runFrom, DbImpl.step, h]
  | ok r =>
    by_cases hr : r.1 = .success <;>
      simp [handleSet, put, Request.calls, Request.reply, runFrom, DbImpl.step, h, hr, after]

theorem handleGet_eq (s : LSMServer) (key : Bytes) :
    s.handleGet env [ascii "GET", key] = (do
      let (db, rs) ← runFrom (DbImpl.step env) s.db ((Request.get key).calls s.chances)
      return (s.after db 0, (Request.get key).reply rs)) := by
  cases h : s.db.get env (.ofBytes key) (some []) with
  | error e => simp [handleGet, Request.calls, runFrom, DbImpl.step, h]
  | ok r =>
    by_cases hr : r.1 = .success
    · simp [handleGet, Request.calls, Request.reply, runFrom, DbImpl.step, h, hr, after, valueReply]
    · by_cases hf : r.1 = .notFound <;>
        simp [handleGet, Request.calls, Request.reply, runFrom, DbImpl.step, h, hr, hf, after,
          statusReply, absentReply]

/-- The loop of `DEL` makes a `Put` for each key. -/
theorem delLoop_eq : ∀ (keys : List Bytes) (s : LSMServer) (n : ℕ), s.delLoop env n keys = (do
    let (db, rs) ← runFrom (DbImpl.step env) s.db ((Request.del keys).calls s.chances)
    return (s.after db keys.length, n + rs.countP fun r => r.1 = .success))
  | [], s, n => rfl
  | key :: keys, s, n => by
      cases h : s.db.put env (.ofBytes key) (.ofBytes []) (s.chances 0) with
      | error e => simp [delLoop, put, Request.calls, runFrom, DbImpl.step, h]
      | ok r =>
        simp only [delLoop, put, Request.calls, runFrom, DbImpl.step, h, delLoop_eq keys, ok_bind,
          pure_eq_ok, List.mapIdx_cons, bind_assoc, List.length_cons, List.countP_cons]
        refine bind_congr fun x => ?_
        by_cases hr : r.1 = .success <;> simp [after, hr, Nat.add_assoc, Nat.add_comm 1]

theorem handleDel_eq (s : LSMServer) {keys : List Bytes} (hkeys : keys ≠ []) :
    s.handleDel env (ascii "DEL" :: keys) = (do
      let (db, rs) ← runFrom (DbImpl.step env) s.db ((Request.del keys).calls s.chances)
      return (s.after db keys.length, (Request.del keys).reply rs)) := by
  have hlength : ¬ (ascii "DEL" :: keys).length < 2 := by
    have := List.length_pos_iff.mpr hkeys
    simp only [List.length_cons]
    omega
  rw [handleDel, if_neg hlength, List.drop_one, List.tail_cons, delLoop_eq]
  simp [Request.reply, bind_assoc]

/-- **A request is a run of calls on the database**, and a reply made of their answers. -/
theorem handleRequest_eq (s : LSMServer) (request : Bytes) :
    s.handleRequest env request = (do
      let r := Request.ofBytes request
      let (db, rs) ← runFrom (DbImpl.step env) s.db (r.calls s.chances)
      return (s.after db r.writes, r.reply rs)) := by
  rw [handleRequest, Request.ofBytes]
  split_ifs with hempty hping
  · rfl
  · rfl
  · cases parseRESP request with
    | nil => rfl
    | cons name args =>
      rw [handleCommand]
      dsimp only
      split_ifs with hset hget hdel
      · subst hset
        rcases args with _ | ⟨key, _ | ⟨value, _ | _⟩⟩
        · rfl
        · rfl
        · exact handleSet_eq s key value
        · rfl
      · subst hget
        rcases args with _ | ⟨key, _ | _⟩
        · rfl
        · exact handleGet_eq s key
        · rfl
      · subst hdel
        rcases args with _ | ⟨key, keys⟩
        · rfl
        · exact handleDel_eq s (List.cons_ne_nil key keys)
      · rfl

/-! ## Where the values in replies come from -/

/-- The request has the value written under the key. -/
def Request.Wrote (k v : Bytes) : Request → Prop
  | .set key value =>
      (StringView.ofBytes key).cstr = k ∧ (v = value ∨ v = (StringView.ofBytes value).cstr)
  | .del keys => v = [] ∧ ∃ key ∈ keys, (StringView.ofBytes key).cstr = k
  | .get _ => False
  | .other _ => False

/-- Among the C strings a whole string has no other key than itself up to its first NUL. -/
theorem cstr_eq_of_eq {key k : Bytes} (hk : DbImpl.NulFree k)
    (h : (StringView.ofBytes key).cstr = k ∨ key = k) : (StringView.ofBytes key).cstr = k := by
  rcases h with h | rfl
  · exact h
  · exact StringView.cstr_of_isCStr (StringView.isCStr_ofBytes hk)

/-- A write among the calls of a request is one of the request. -/
theorem wrote_of_mem_calls {chances : ℕ → Chance} {r : Request} {c : Call} {k v : Bytes}
    (hk : DbImpl.NulFree k) (hc : c ∈ r.calls chances) (hwrote : c.Wrote k v) : r.Wrote k v := by
  cases r with
  | set key value =>
    obtain rfl := List.mem_singleton.mp hc
    rcases hwrote with ⟨hkey, hvalue⟩ | ⟨hkey, hvalue⟩
    · exact ⟨hkey, Or.inr hvalue.symm⟩
    · exact ⟨cstr_eq_of_eq hk (Or.inr hkey), Or.inl hvalue.symm⟩
  | get key =>
    obtain rfl := List.mem_singleton.mp hc
    exact hwrote
  | del keys =>
    obtain ⟨i, hi, rfl⟩ := List.mem_mapIdx.mp hc
    have hkey : keys[i] ∈ keys := List.getElem_mem hi
    rcases hwrote with ⟨hkey', hvalue⟩ | ⟨hkey', hvalue⟩
    · exact ⟨hvalue.symm, _, hkey, hkey'⟩
    · exact ⟨hvalue.symm, _, hkey, cstr_eq_of_eq hk (Or.inr hkey')⟩
  | other reply => cases hc

/-- A request without calls is not answered with a value. -/
theorem head?_other {request reply : Bytes} (h : Request.ofBytes request = .other reply) :
    reply.head? ≠ some 36 := by
  rw [Request.ofBytes] at h
  split_ifs at h
  · obtain rfl := Request.other.inj h
    decide
  · obtain rfl := Request.other.inj h
    decide
  · split at h
    · obtain rfl := Request.other.inj h
      decide
    · split_ifs at h
      · split at h
        · cases h
        · obtain rfl := Request.other.inj h
          decide
      · split at h
        · cases h
        · obtain rfl := Request.other.inj h
          decide
      · split at h
        · obtain rfl := Request.other.inj h
          decide
        · cases h
      · obtain rfl := Request.other.inj h
        simp [ascii]

theorem valueReply_injective : Function.Injective valueReply := fun v w h => by
  refine selfDelimiting_encodeBulk.injective ?_
  simpa [encodeBulk, encodeLine, valueReply, ascii] using h

theorem statusReply_ne_valueReply (status : DBStatus) (v : Bytes) :
    statusReply status ≠ valueReply v := by
  rw [statusReply]
  split_ifs
  · exact (valueReply_ne_absentReply v).symm
  · exact fun h => by simpa [errorReply, valueReply, ascii] using congrArg List.head? h

/-- **Only `GET` is answered with a value**, the one that `Get` returned. -/
theorem exists_get_of_reply {request v : Bytes} {rs : List Reply} {chances : ℕ → Chance}
    (hlength : rs.length = ((Request.ofBytes request).calls chances).length)
    (hreply : (Request.ofBytes request).reply rs = valueReply v) :
    ∃ key, Request.ofBytes request = .get key ∧ ∃ ret, rs = [(.success, ret)] ∧ ret.getD [] = v := by
  have hhead := congrArg List.head? hreply
  cases h : Request.ofBytes request with
  | set key value =>
    rw [h] at hlength hhead
    obtain ⟨r, rfl⟩ := List.length_eq_one_iff.mp hlength
    by_cases hr : r.1 = .success <;> simp [Request.reply, hr, errorReply, valueReply, ascii] at hhead
  | get key =>
    rw [h] at hlength hreply hhead
    obtain ⟨⟨status, ret⟩, rfl⟩ := List.length_eq_one_iff.mp hlength
    rw [Request.reply, List.flatMap_singleton] at hreply
    split_ifs at hreply with hstatus
    · exact ⟨key, rfl, ret, by rw [← hstatus], valueReply_injective hreply⟩
    · exact absurd hreply (statusReply_ne_valueReply status v)
  | del keys =>
    rw [h] at hhead
    simp [Request.reply, valueReply, ascii] at hhead
  | other reply =>
    rw [h] at hhead
    exact absurd (hhead.trans (by simp [valueReply, ascii])) (head?_other h)

/-- **The invariant of provenance for the server**: the database has its entries from the calls of
earlier requests. -/
def Served (env : Env) (h : List (Bytes × Bytes)) (s : LSMServer) : Prop :=
  ∃ calls, Sourced env calls s.db ∧ ∀ c ∈ calls, ∃ e ∈ h, ∃ chances,
    c.1 ∈ (Request.ofBytes e.1).calls chances

theorem served_new (env : Env) (wal : Bytes) (disk : Disk) (chances : ℕ → Chance) :
    Served env [] (new wal disk chances) :=
  ⟨[], DbImpl.sourced_new _ wal disk, fun _ hc => by cases hc⟩

/-- A request that is answered has made its calls. -/
theorem calls_of_onMessage {request reply : Bytes} (h : s.onMessage env request = .ok (s', reply)) :
    ∃ rs, runFrom (DbImpl.step env) s.db ((Request.ofBytes request).calls s.chances) =
        .ok (s'.db, rs) ∧ reply = (Request.ofBytes request).reply rs := by
  rw [onMessage, handleRequest_eq] at h
  obtain ⟨⟨db, rs⟩, hrun, h⟩ := bind_eq_ok.mp h
  obtain ⟨rfl, rfl⟩ := Prod.mk.inj (Except.ok.inj h)
  exact ⟨rs, hrun, rfl⟩

/-- **The step lemma of provenance for the server.** -/
theorem Served.step {h : List (Bytes × Bytes)} {request reply : Bytes} (hi : Served env h s)
    (hstep : s.onMessage env request = .ok (s', reply)) :
    Served env (h ++ [(request, reply)]) s' := by
  obtain ⟨calls, hsourced, hfrom⟩ := hi
  obtain ⟨rs, hrun, -⟩ := calls_of_onMessage hstep
  refine ⟨_, hsourced.run hrun, fun c hc => ?_⟩
  rcases List.mem_append.mp hc with hc | hc
  · obtain ⟨e, he, hcalls⟩ := hfrom c hc
    exact ⟨e, List.mem_append_left _ he, hcalls⟩
  · exact ⟨_, List.mem_append_right _ (List.mem_singleton_self _), s.chances,
      (List.of_mem_zip hc).1⟩

/-- A value that is returned was written by an earlier request. -/
theorem Served.get {h : List (Bytes × Bytes)} {key : Bytes} {ret out : Option Bytes} {db : DbImpl}
    (hi : Served env h s)
    (hstep : s.db.step env (.get (.ofBytes key) ret) = .ok (db, .success, out)) :
    ∃ v, out = some v ∧
      ∃ e ∈ h, (Request.ofBytes e.1).Wrote (StringView.ofBytes key).cstr v := by
  obtain ⟨calls, hsourced, hfrom⟩ := hi
  obtain ⟨v, hout, before, c, after, rfl, hwrote, -⟩ := hsourced.get hstep
  obtain ⟨e, he, chances, hmem⟩ := hfrom c (by simp)
  exact ⟨v, hout, e, he, wrote_of_mem_calls StringView.ne_zero_of_mem_cstr hmem hwrote⟩

variable {wal : Bytes} {disk : Disk} {chances : ℕ → Chance} {requests replies : List Bytes}

/-- **Every value that the server sends was set.**  Whatever bytes it receives, a reply that is a
value answers a `GET`, and the value was written under the key by an earlier request: by a `SET`,
whole or up to its first NUL, or by a `DEL`, which writes the empty value. -/
theorem reply_sourced
    (hrun : runFrom (onMessage env) (new wal disk chances) requests = .ok (s, replies))
    {before after : List (Bytes × Bytes)} {request v : Bytes}
    (hreply : requests.zip replies = before ++ (request, valueReply v) :: after) :
    ∃ key, Request.ofBytes request = .get key ∧
      ∃ e ∈ before, (Request.ofBytes e.1).Wrote (StringView.ofBytes key).cstr v := by
  obtain ⟨s₁, s₂, hbefore, hstep⟩ := exists_step_of_zip (onMessage env) hrun hreply
  have hi := run_history (onMessage env) (fun _ _ _ _ _ hi _ hs => Served.step hi hs) _ [] _ s₁ _
    (served_new env wal disk chances)
    (along_of_forall _ (P := fun _ _ => True) (fun _ _ => trivial) _ _) hbefore
  rw [List.nil_append, ← List.zip_of_prod rfl rfl] at hi
  obtain ⟨rs, hcalls, hvalue⟩ := calls_of_onMessage hstep
  obtain ⟨key, hget, ret, rfl, rfl⟩ :=
    exists_get_of_reply (length_of_runFrom _ hcalls) hvalue.symm
  rw [hget] at hcalls
  obtain ⟨db, r, rs', hstep, -, heq⟩ := (runFrom_cons (DbImpl.step env)).mp hcalls
  obtain ⟨rfl, -⟩ := List.cons.inj heq
  obtain ⟨v, rfl, hwrote⟩ := hi.get hstep
  exact ⟨key, hget, hwrote⟩

/-- A `SET` and a `GET`: the value comes from the `SET`. -/
theorem reply_sourced_two :
    ∃ key, Request.ofBytes (encodeCommand [ascii "GET", [107]]) = .get key ∧
      ∃ e ∈ [(encodeCommand [ascii "SET", [107], [97]], ascii "+OK\r\n")],
        (Request.ofBytes e.1).Wrote (StringView.ofBytes key).cstr [97] := by
  obtain ⟨s, hrun⟩ : ∃ s, runFrom (onMessage Env.plain) fresh (setGet.map encodeCommand) =
    .ok (s, [ascii "+OK\r\n", ascii "$1\r\na\r\n"]) := ⟨_, rfl⟩
  exact reply_sourced hrun (rfl : _ = [_] ++ [(_, valueReply [97])])

end SmallKV.LSMServer
