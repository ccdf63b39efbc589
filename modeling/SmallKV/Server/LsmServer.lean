import SmallKV.Db.DbImpl
import SmallKV.Server.Resp
import Mathlib.Data.Set.List

/-!
# Server/LsmServer — the server of `server/server.cpp`

The server answers each delivery of bytes with one reply.  When every delivery is the encoding of
one command, the replies are those to the commands (`streamIndependent_of_whole`).  A delivery of
several commands is answered as if it were the first of them (`handleRequest_append`), and a command
in several deliveries is answered more than once.
-/

namespace SmallKV

/-- `LSMServer`: its database, and what the coming writes find by chance. -/
structure LSMServer where
  db : DbImpl
  chances : ℕ → Chance

namespace LSMServer

/-- The constructor, over an existing log and existing table files. -/
def new (wal : Bytes) (disk : Disk) (chances : ℕ → Chance) : LSMServer where
  db := DbImpl.new {} wal disk
  chances := chances

variable (env : Env)

/-- `db_holder_->Put`, on two strings. -/
def put (s : LSMServer) (key value : Bytes) : Exec (DBStatus × LSMServer) := do
  let (status, db) ← s.db.put env (.ofBytes key) (.ofBytes value) (s.chances 0)
  return (status, ⟨db, fun n => s.chances (n + 1)⟩)

/-- `"-ERR " + std::string(status.err_msg) + "\r\n"`. -/
def errorReply (status : DBStatus) : Bytes := ascii "-ERR " ++ status.errMsg ++ crlf

/-- `handleSet`. -/
def handleSet (s : LSMServer) (args : List Bytes) : Exec (LSMServer × Bytes) :=
  match args with
  | [_, key, value] => do
      let (status, s) ← s.put env key value
      if status = .success then return (s, ascii "+OK\r\n") else return (s, errorReply status)
  | _ => return (s, ascii "-ERR wrong number of arguments for 'SET' command\r\n")

/-- `handleGet`.  The result string is empty at first. -/
def handleGet (s : LSMServer) (args : List Bytes) : Exec (LSMServer × Bytes) :=
  match args with
  | [_, key] => do
      let (status, ret, db) ← s.db.get env (.ofBytes key) (some [])
      let value := ret.getD []
      let s := { s with db := db }
      if status = .success then
        return (s, ascii "$" ++ toDecimal value.length ++ crlf ++ value ++ crlf)
      else if status = .notFound then return (s, ascii "$-1\r\n")
      else return (s, errorReply status)
  | _ => return (s, ascii "-ERR wrong number of arguments for 'GET' command\r\n")

/-- The loop of `handleDel`: put the empty value under each of the keys. -/
def delLoop (s : LSMServer) (deleted : ℕ) : List Bytes → Exec (LSMServer × ℕ)
  | [] => .ok (s, deleted)
  | key :: keys => do
      let (status, s) ← s.put env key []
      s.delLoop (if status = .success then deleted + 1 else deleted) keys

/-- `handleDel`. -/
def handleDel (s : LSMServer) (args : List Bytes) : Exec (LSMServer × Bytes) :=
  if args.length < 2 then
    return (s, ascii "-ERR wrong number of arguments for 'DEL' command\r\n")
  else do
    let (s, deleted) ← s.delLoop env 0 (args.drop 1)
    return (s, ascii ":" ++ toDecimal deleted ++ crlf)

/-- The end of `handleRequest`: look the command up in `command_handlers_`. -/
def handleCommand (s : LSMServer) (args : List Bytes) : Exec (LSMServer × Bytes) :=
  match args with
  | [] => return (s, ascii "-ERR Protocol error\r\n")
  | name :: _ =>
      if name = ascii "SET" then s.handleSet env args
      else if name = ascii "GET" then s.handleGet env args
      else if name = ascii "DEL" then s.handleDel env args
      else return (s, ascii "-ERR unknown command '" ++ name ++ ascii "'\r\n")

/-- `handleRequest`. -/
def handleRequest (s : LSMServer) (request : Bytes) : Exec (LSMServer × Bytes) :=
  if request.isEmpty then return (s, ascii "-ERR Protocol error: expected '*'\r\n")
  else if request = ascii "PING\r\n" then return (s, ascii "+PONG\r\n")
  else s.handleCommand env (parseRESP request)

/-- `onMessage`: everything in the buffer is taken for one request. -/
def onMessage (s : LSMServer) (buf : Bytes) : Exec (LSMServer × Bytes) := s.handleRequest env buf

/-! ## Streams -/

/-- The bytes sent back for the deliveries are those sent back for the commands, one by one. -/
def StreamIndependent (s : LSMServer) (commands : List (List Bytes)) (deliveries : List Bytes) :
    Prop :=
  (runFrom (onMessage env) s deliveries).map (fun r => r.2.flatten) =
    (runFrom (handleRequest env) s (commands.map encodeCommand)).map fun r => r.2.flatten

theorem encodeCommand_ne_nil (args : List Bytes) : encodeCommand args ≠ [] :=
  List.cons_ne_nil _ _

/-- **The replies do not depend on the stream while every delivery is one command**: a delivery that
is the encoding of a command can only be the command whose turn it is. -/
theorem streamIndependent_of_whole (s : LSMServer) {commands : List (List Bytes)}
    {deliveries : List Bytes} (hstream : deliveries.flatten = commands.flatMap encodeCommand)
    (hwhole : ∀ d ∈ deliveries, ∃ args, encodeCommand args = d) :
    StreamIndependent env s commands deliveries := by
  obtain ⟨delivered, rfl⟩ : deliveries ∈ Set.range (List.map encodeCommand) := by
    rw [Set.range_list_map]
    exact hwhole
  have hsame : delivered.flatMap encodeCommand = commands.flatMap encodeCommand := by
    rw [← hstream, List.flatMap_def]
  rw [StreamIndependent,
    selfDelimiting_encodeCommand.flatMap_injective encodeCommand_ne_nil hsame]
  rfl

/-- A `SET` and a `GET` of one key. -/
def setGet : List (List Bytes) := [[ascii "SET", [107], [97]], [ascii "GET", [107]]]

/-- A new server whose writes find nothing unusual. -/
def fresh : LSMServer := new [] (fun _ => none) fun _ => .quiet

/-- The two commands, each delivered on its own. -/
theorem streamIndependent_of_whole_two :
    StreamIndependent Env.plain fresh setGet (setGet.map encodeCommand) :=
  streamIndependent_of_whole Env.plain fresh (by rw [List.flatMap_def])
    fun _ hd => (List.mem_map.mp hd).imp fun _ h => h.2

/-- The replies do not depend on the deliveries of a stream, none of which is empty. -/
def StreamsIndependent : Prop :=
  ∀ (env : Env) (s : LSMServer) (commands : List (List Bytes)) (deliveries : List Bytes),
    (∀ d ∈ deliveries, d ≠ []) → deliveries.flatten = commands.flatMap encodeCommand →
    StreamIndependent env s commands deliveries

/-- **Two commands in one delivery are answered once.** -/
theorem not_streamsIndependent : ¬ StreamsIndependent := by
  intro h
  have hsame := h Env.plain fresh setGet [setGet.flatMap encodeCommand] (by decide) (by simp)
  have hone : (runFrom (onMessage Env.plain) fresh [setGet.flatMap encodeCommand]).map
    (fun r => r.2.flatten) = .ok (ascii "+OK\r\n") := rfl
  have htwo : (runFrom (handleRequest Env.plain) fresh (setGet.map encodeCommand)).map
    (fun r => r.2.flatten) = .ok (ascii "+OK\r\n$1\r\na\r\n") := rfl
  rw [StreamIndependent, hone, htwo] at hsame
  exact absurd (Except.ok.inj hsame) (by decide)

/-- **What follows a command in a delivery is lost**, when no argument of the command holds a
newline. -/
theorem handleRequest_append (s : LSMServer) {args : List Bytes} (hcount : args.length < 2 ^ 31)
    (hargs : ∀ arg ∈ args, 10 ∉ arg ∧ arg.length < 2 ^ 31) (rest : Bytes) :
    s.handleRequest env (encodeCommand args ++ rest) = s.handleCommand env args := by
  have hping : encodeCommand args ++ rest ≠ ascii "PING\r\n" := fun h =>
    absurd (Option.some.inj (congrArg List.head? h : some (42 : UInt8) = some 80)) (by decide)
  rw [handleRequest, if_neg (by simp [encodeCommand]), if_neg hping,
    parseRESP_append hcount hargs rest]

end LSMServer

end SmallKV
