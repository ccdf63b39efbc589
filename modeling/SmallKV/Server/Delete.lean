import SmallKV.Server.LsmServer
import SmallKV.Db.Reads

/-!
# Server/Delete — what `DEL` replies, and what `GET` replies after it

`handleDel` puts the empty value under each key, and counts the writes that succeed.  `Put` refuses
every one of them, so the reply is zero (`handleDel_eq_ok`), after which `GET` answers with the
empty value it finds in the memtable, or with the old one in the cache, and never with the reply for
an absent key (`handleGet_ne_absent`).
-/

namespace SmallKV.LSMServer

open DbImpl (Shaped)

variable {env : Env} {s s' : LSMServer}

/-! ## DEL -/

/-- A `Put` of the empty value is refused. -/
theorem put_nil {key : Bytes} {status : DBStatus} (hs : Shaped s.db)
    (h : s.put env key [] = .ok (status, s')) : status = .invalidArgs ∧ Shaped s'.db := by
  obtain ⟨⟨status', db⟩, hput, h⟩ := bind_eq_ok.mp h
  obtain ⟨rfl, rfl⟩ := Prod.mk.inj (Except.ok.inj h)
  obtain ⟨m, hm⟩ := hs.table
  obtain ⟨m', hm', -⟩ := DbImpl.holds_sub ((DbImpl.put_eq_ok hput).table m hm)
  refine ⟨?_, ((DbImpl.put_eq_ok hput).cached hs.wf).1, m', hm'⟩
  rcases (DbImpl.put_eq_ok hput).outcome with ⟨-, hstatus, -⟩ | ⟨⟨-, hvalue⟩, -, -⟩
  · exact hstatus
  · exact absurd rfl hvalue

/-- **The loop of `handleDel` counts nothing.** -/
theorem delLoop_eq_ok : ∀ {keys : List Bytes} {s s' : LSMServer} {n n' : ℕ}, Shaped s.db →
    s.delLoop env n keys = .ok (s', n') → n' = n ∧ Shaped s'.db
  | [], s, s', n, n', hs, h => by
      obtain ⟨rfl, rfl⟩ := Prod.mk.inj (Except.ok.inj h)
      exact ⟨rfl, hs⟩
  | key :: keys, s, s', n, n', hs, h => by
      obtain ⟨⟨status, s₁⟩, hput, h⟩ := bind_eq_ok.mp h
      obtain ⟨rfl, hs₁⟩ := put_nil hs hput
      exact delLoop_eq_ok hs₁ h

/-- **`DEL` replies zero**, if it replies. -/
theorem handleDel_eq_ok {name : Bytes} {keys : List Bytes} {reply : Bytes} (hs : Shaped s.db)
    (hkeys : keys ≠ []) (h : s.handleDel env (name :: keys) = .ok (s', reply)) :
    reply = ascii ":0\r\n" ∧ Shaped s'.db := by
  obtain ⟨key, keys, rfl⟩ := List.exists_cons_of_ne_nil hkeys
  rw [handleDel, if_neg (by simp)] at h
  obtain ⟨⟨s₁, n⟩, hloop, h⟩ := bind_eq_ok.mp h
  obtain ⟨rfl, rfl⟩ := Prod.mk.inj (Except.ok.inj h)
  obtain ⟨rfl, hs'⟩ := delLoop_eq_ok hs hloop
  exact ⟨rfl, hs'⟩

/-! ## GET -/

/-- The reply of `GET` for a key that is absent. -/
def absentReply : Bytes := ascii "$-1\r\n"

/-- The reply of `GET` with a value. -/
def valueReply (value : Bytes) : Bytes :=
  ascii "$" ++ toDecimal value.length ++ crlf ++ value ++ crlf

/-- A length is not a negative number. -/
theorem valueReply_ne_absentReply (value : Bytes) : valueReply value ≠ absentReply := by
  intro h
  obtain ⟨d, ds, hd⟩ := List.exists_cons_of_ne_nil (toDecimal_ne_nil value.length)
  have hdigit : isDigit d = true :=
    isDigit_of_mem_toDecimal (hd ▸ List.mem_cons_self : d ∈ toDecimal value.length)
  rw [valueReply, hd] at h
  obtain rfl : d = 45 := (List.cons.inj (List.cons.inj h).2).1
  exact absurd hdigit (by decide)

/-- **`GET` replies with a value or with an error**, and never that the key is absent. -/
theorem handleGet_ne_absent {key : Bytes} (hs : Shaped s.db) :
    s.handleGet env [ascii "GET", key] ≠ .ok (s', absentReply) := by
  intro h
  obtain ⟨m, hm⟩ := hs.table
  obtain ⟨⟨status, ret, db⟩, hget, h⟩ := bind_eq_ok.mp h
  rcases (DbImpl.get_eq_ok hs.wf hm hget).2 with rfl | rfl
  · exact absurd (Prod.mk.inj (Except.ok.inj h)).2 (by decide)
  · exact valueReply_ne_absentReply (ret.getD []) (Prod.mk.inj (Except.ok.inj h)).2

/-! ## The semantics of DEL -/

/-- `GET` of the key replies with a value. -/
def Answered (env : Env) (s : LSMServer) (key : Bytes) : Prop :=
  ∃ s' value, s.handleGet env [ascii "GET", key] = .ok (s', valueReply value)

/-- The request is not a `SET` of the key. -/
def NotSet (key request : Bytes) : Prop := ∀ value, parseRESP request ≠ [ascii "SET", key, value]

/-- `DEL` of the keys replies with the number of those that were answered, and afterwards each key
is absent until it is set again. -/
def DelSemantics (env : Env) (s : LSMServer) (keys : List Bytes) : Prop :=
  ∃ (s' : LSMServer) (answered : List Bytes), s.handleDel env (ascii "DEL" :: keys) =
      .ok (s', ascii ":" ++ toDecimal answered.length ++ crlf) ∧
    (answered.Nodup ∧ ∀ key, key ∈ answered ↔ key ∈ keys ∧ Answered env s key) ∧
    ∀ key ∈ keys, ∀ requests, (∀ request ∈ requests, NotSet key request) → ∀ s'' replies,
      runFrom (handleRequest env) s' requests = .ok (s'', replies) →
        ∃ s₃, s''.handleGet env [ascii "GET", key] = .ok (s₃, absentReply)

/-- **`DEL` never does what it should**, in no state of a database and for no keys: it replies zero,
and no later `GET` replies that its key is absent. -/
theorem not_delSemantics {options : Options} {wal : Bytes} {disk : Disk}
    {calls : List DbImpl.Call} {rs : List DbImpl.Reply}
    (hrun : DbImpl.run env options wal disk calls = .ok (s.db, rs)) {keys : List Bytes}
    (hkeys : keys ≠ []) :
    (∀ s' reply, s.handleDel env (ascii "DEL" :: keys) = .ok (s', reply) →
      reply = ascii ":0\r\n" ∧
        ∀ key s'', s'.handleGet env [ascii "GET", key] ≠ .ok (s'', absentReply)) ∧
      ¬ DelSemantics env s keys := by
  have hs := DbImpl.shaped_of_run hrun
  refine ⟨fun s' reply hdel => ?_, ?_⟩
  · obtain ⟨hreply, hs'⟩ := handleDel_eq_ok hs hkeys hdel
    exact ⟨hreply, fun key s'' => handleGet_ne_absent hs'⟩
  · rintro ⟨s', answered, hdel, -, hlater⟩
    -- the `GET` right after the `DEL` will do
    obtain ⟨key, hkey⟩ := List.exists_mem_of_ne_nil keys hkeys
    obtain ⟨-, hs'⟩ := handleDel_eq_ok hs hkeys hdel
    obtain ⟨s₃, hget⟩ := hlater key hkey [] (by simp) s' [] rfl
    exact handleGet_ne_absent hs' hget

/-- A `SET`. -/
def setOne : List Bytes := [encodeCommand [ascii "SET", [107], [97]]]

/-- The server after it. -/
theorem exists_afterSet : ∃ s, runFrom (handleRequest Env.plain) fresh setOne =
      .ok (s, [ascii "+OK\r\n"]) ∧
    DbImpl.run Env.plain {} [] (fun _ => none) [.put (.ofBytes [107]) (.ofBytes [97]) .quiet] =
      .ok (s.db, [(.success, none)]) ∧
    ∃ s', s.handleDel Env.plain [ascii "DEL", [107]] = .ok (s', ascii ":0\r\n") ∧
      ∃ s'', s'.handleGet Env.plain [ascii "GET", [107]] = .ok (s'', valueReply [97]) :=
  ⟨_, rfl, rfl, _, rfl, _, rfl⟩

/-- The key that was set is not deleted. -/
theorem not_delSemantics_one :
    ∃ s, runFrom (handleRequest Env.plain) fresh setOne = .ok (s, [ascii "+OK\r\n"]) ∧
      ¬ DelSemantics Env.plain s [[107]] := by
  obtain ⟨s, hs, hrun, -⟩ := exists_afterSet
  exact ⟨s, hs, (not_delSemantics hrun (by decide)).2⟩

/-- In every state of a database, `DEL` of different keys, none of them empty or with a NUL, does
what it should. -/
def DelsSemantic : Prop :=
  ∀ (env : Env) (options : Options) (wal : Bytes) (disk : Disk) (calls : List DbImpl.Call)
    (rs : List DbImpl.Reply) (s : LSMServer) (keys : List Bytes),
    DbImpl.run env options wal disk calls = .ok (s.db, rs) → keys ≠ [] → keys.Nodup →
    (∀ key ∈ keys, key ≠ [] ∧ DbImpl.NulFree key) → DelSemantics env s keys

/-- **A deleted key is still answered with its value.** -/
theorem not_delsSemantic : ¬ DelsSemantic := by
  intro h
  obtain ⟨s, -, hrun, s₁, hdel₁, s₂, hget₂⟩ := exists_afterSet
  obtain ⟨s', answered, hdel, -, hlater⟩ := h _ _ _ _ _ _ s [[107]] hrun (by decide) (by decide)
    (by simp [DbImpl.NulFree])
  obtain ⟨rfl, -⟩ := Prod.mk.inj (Except.ok.inj (hdel₁.symm.trans hdel))
  obtain ⟨s₃, hget₃⟩ := hlater [107] (by simp) [] (by simp) s₁ [] rfl
  have hreply := (Prod.mk.inj (Except.ok.inj (hget₂.symm.trans hget₃))).2
  exact absurd hreply (by decide)

end SmallKV.LSMServer
