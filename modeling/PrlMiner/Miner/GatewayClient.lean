import PrlMiner.Library.Lines
import PrlMiner.Library.Python
import PrlMiner.Library.Runs

/-! The client of the gateway on its connection, against a gateway that accepts
connections and answers every request it receives, in order and with its id. How the
bytes travel is left to the network. `loads` is `json.loads` of a line, none where it
raises. -/
namespace Miner.Gateway

open LittleEndian Python

/-- What the gateway has written and the client has not read. So many bytes of it have
arrived. `timeouts` counts the calls that gave up on the connection. -/
structure Connection where
  stream : List Byte
  arrived : Nat
  closed : Bool
  timeouts : Nat

/-- `_sock`, `_buf` and `_id`. -/
structure GatewayClient where
  sock : Option Connection
  buf : List Byte
  id : Nat

structure Request where
  method : Text
  params : Json
  id : Nat

/-- How `_call` raises: `MiningPaused` and `GatewayError` with what their texts are
made of, an exception on a reply that is no object, or a failure of the exchange. -/
inductive CallError where
  | miningPaused (message : Json)
  | gatewayError (code message : Json)
  | malformed
  | idMismatch (sent : Nat) (got : Json)
  | closedConnection
  | timeout
  | sendFailed

/-- A call, the reply that the gateway has for it, and whether that is delivered within
the timeout. `earlier` counts the calls that had given up on the connection before. -/
structure Call where
  request : Request
  reply : List Byte
  timely : Bool
  earlier : Nat

/-- The client, the call it is in, and the calls that have ended. -/
structure Session where
  client : GatewayClient
  waiting : Option Call
  ended : List (Call × Except CallError Json)

def Session.init : Session := ⟨⟨none, [], 0⟩, none, []⟩

/-- `recv` takes bytes that have arrived. `gatewayCloses` keeps so many bytes of the
stream. -/
inductive Event where
  | connect
  | close
  | call (method : Text) (params : Json) (reply : List Byte) (timely sendFails : Bool)
  | arrive (n : Nat)
  | gatewayCloses (keep : Nat)
  | recv (n : Nat)
  | timeout
  | eof

def newline : Byte := 10

def miningPausedCode : Int := -32001

section

variable (loads : List Byte → Option Json)

/-- What `_call` makes of a line. -/
def handleReply (id : Nat) (line : List Byte) : Except CallError Json :=
  match loads line with
  | some (.obj resp) =>
      let got := Fields.get resp (text "id") .null
      if !got.eq (.int id) then .error (.idMismatch id got)
      else if (Fields.get resp (text "error") .null).truthy then
        match Fields.get resp (text "error") .null with
        | .obj err =>
            let code := Fields.get err (text "code") .null
            if code.eq (.int miningPausedCode) then
              .error (.miningPaused (Fields.get err (text "message") (.str (text "mining_paused"))))
            else .error (.gatewayError code (Fields.get err (text "message") .null))
        | _ => .error .malformed
      else .ok (Fields.get resp (text "result") .null)
  | _ => .error .malformed

/-- A line with a response to the request `id`. -/
def answers (id : Nat) (line : List Byte) : Bool :=
  !line.contains newline &&
    match loads line with
    | some (.obj resp) => (Fields.get resp (text "id") .null).eq (.int id)
    | _ => false

def GatewayClient.connect (c : GatewayClient) : GatewayClient := { c with sock := some ⟨[], 0, false, 0⟩, buf := [] }

/-- The end of the call. -/
def Session.finish (s : Session) (outcome : Except CallError Json) : Session :=
  match s.waiting with
  | none => s
  | some call => { s with waiting := none, ended := s.ended ++ [(call, outcome)] }

/-- `_read_line` returns once there is a line in the buffer, and cuts it off. -/
def readReply (handle : List Byte → Except CallError Json) (buf : List Byte) :
    Option (Except CallError Json × List Byte) :=
  (Lines.split newline buf).map fun cut => (handle cut.1, cut.2)

/-- A line that has come in full is the reply, and the bytes behind it stay for the next
call. -/
theorem readReply_of_split {handle : List Byte → Except CallError Json} {buf line rest : List Byte}
    (h : Lines.split newline buf = some (line, rest)) : readReply handle buf = some (handle line, rest) := by
  rw [readReply, h]
  rfl

/-- As long as no line has come in full, the call waits. -/
theorem readReply_of_none {handle : List Byte → Except CallError Json} {buf : List Byte}
    (h : Lines.split newline buf = none) : readReply handle buf = none := by
  rw [readReply, h]
  rfl

/-- The call that the client is in ends with its reply. -/
def Session.readLine (s : Session) : Session :=
  match s.waiting.bind fun call => readReply (handleReply loads call.request.id) s.client.buf with
  | none => s
  | some (outcome, rest) => { s with client := { s.client with buf := rest } }.finish outcome

/-- `_call` on a connection, up to the reading. -/
def Session.send (s : Session) (conn : Connection) (method : Text) (params : Json) (reply : List Byte)
    (timely sendFails : Bool) : Option Session :=
  let client := { s.client with id := s.client.id + 1 }
  let call : Call := ⟨⟨method, params, client.id⟩, reply, timely, conn.timeouts⟩
  if conn.closed then
    if timely then none
    else if sendFails then some ({ s with client := client, waiting := some call }.finish (.error .sendFailed))
    else some ({ s with client := client, waiting := some call }.readLine loads)
  else if sendFails then none
  else
    let conn := { conn with stream := conn.stream ++ (reply ++ [newline]) }
    some ({ s with client := { client with sock := some conn }, waiting := some call }.readLine loads)

def step (s : Session) : Event → Option Session
  | .connect => if s.waiting.isSome then none else some { s with client := s.client.connect }
  | .close => if s.waiting.isSome then none else some { s with client := { s.client with sock := none } }
  | .call method params reply timely sendFails =>
      if s.waiting.isSome ∨ answers loads (s.client.id + 1) reply = false then none
      else
        let s := if s.client.sock.isNone then { s with client := s.client.connect } else s
        s.client.sock.bind fun conn => s.send loads conn method params reply timely sendFails
  | .arrive n => s.client.sock.bind fun conn =>
      if conn.stream.length < conn.arrived + n then none
      else some { s with client := { s.client with sock := some { conn with arrived := conn.arrived + n } } }
  | .gatewayCloses keep => s.client.sock.bind fun conn =>
      -- a timely reply is written before
      if conn.closed ∨ keep < conn.arrived ∨ conn.stream.length < keep ∨
          keep ≠ conn.stream.length ∧ s.waiting.any Call.timely then none
      else
        let conn := { conn with stream := conn.stream.take keep, closed := true }
        some { s with client := { s.client with sock := some conn } }
  | .recv n => s.client.sock.bind fun conn =>
      if s.waiting.isNone ∨ n = 0 ∨ 65536 < n ∨ conn.arrived < n then none
      else
        let buf := s.client.buf ++ conn.stream.take n
        let conn := { conn with stream := conn.stream.drop n, arrived := conn.arrived - n }
        some ({ s with client := { s.client with sock := some conn, buf := buf } }.readLine loads)
  | .timeout => s.client.sock.bind fun conn =>
      if s.waiting.isNone ∨ s.waiting.any Call.timely ∨ 0 < conn.arrived ∨ conn.closed ∧ conn.stream = [] then none
      else
        let conn := { conn with timeouts := conn.timeouts + 1 }
        some ({ s with client := { s.client with sock := some conn } }.finish (.error .timeout))
  | .eof => s.client.sock.bind fun conn =>
      if s.waiting.isNone ∨ conn.closed = false ∨ conn.stream ≠ [] then none
      else some (s.finish (.error .closedConnection))

end

end Miner.Gateway
