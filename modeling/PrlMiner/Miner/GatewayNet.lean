import PrlMiner.Miner.GatewayWire

/-! Clients on their connections to the mock gateway, byte by byte. The handler of each
connection is a thread of its own; a response is computed under the lock of the gateway.
A call hands its request over whole: that `sendall` times out part-way, and that
`json.dumps` raises when `_id` has been advanced, are left out. -/
namespace Miner

open LittleEndian Python Runs

/-- A call that has ended. -/
structure EndedCall where
  id : Nat
  method : Method
  answer : Answer

/-- A connection: `_id`, `_buf` and the call of its client, the lines that its handler
has not read, and the bytes under way to either side. -/
structure Conn where
  id : Nat
  buf : List Byte
  waiting : Option Method
  ended : List EndedCall
  toServer : List Byte
  rfile : List Byte
  toClient : List Byte
  died : Bool

structure Net (ι : Type) where
  server : MockServer
  conns : ι → Conn

inductive NetEvent (ι : Type) where
  | call (i : ι) (method : Method)
  | upload (i : ι) (n : Nat)
  | handle (i : ι)
  | download (i : ι) (n : Nat)
  | timeout (i : ι)
  | eof (i : ι)

namespace Conn

/-- Fresh from `connect`, by a client that has made some calls before. -/
def init (id : Nat) : Conn := ⟨id, [], none, [], [], [], [], false⟩

variable (rt : PyRuntime)

/-- The end of the call. -/
def finish (conn : Conn) (result : Except Gateway.CallError Json) : Conn :=
  match conn.waiting with
  | none => conn
  | some method =>
      { conn with waiting := none, ended := conn.ended ++ [⟨conn.id, method, rt.answer method result⟩] }

/-- The call that the client is in ends with its reply, read as by a client alone. -/
def readLine (conn : Conn) : Conn :=
  match conn.waiting.bind fun _ => Gateway.readReply (rt.handleReply conn.id) conn.buf with
  | none => conn
  | some (result, rest) => { conn with buf := rest }.finish rt result

/-- `json.dumps` prints the ints of the request. -/
def Prints (method : Method) (id : Nat) : Prop := method.Prints ∧ (digitsText id).length ≤ maxDigits

instance prints_decidable (method : Method) (id : Nat) : Decidable (Prints method id) :=
  match method with
  | .getMiningInfo => inferInstanceAs (Decidable (True ∧ _))
  | .submitPlainProof submission =>
      inferInstanceAs (Decidable ((digitsText submission.job.target.natAbs).length ≤ maxDigits ∧ _))

def call (conn : Conn) (method : Method) : Option Conn :=
  if conn.waiting.isSome ∨ ¬Prints method (conn.id + 1) then none
  else
    some ({ conn with
      id := conn.id + 1
      waiting := some method
      toServer := conn.toServer ++ rt.dumpsLine (.obj (method.request (conn.id + 1))) }.readLine rt)

/-- Bytes arrive at the gateway, -/
def upload (conn : Conn) (n : Nat) : Option Conn :=
  if conn.toServer.length < n then none
  else some { conn with rfile := conn.rfile ++ conn.toServer.take n, toServer := conn.toServer.drop n }

/-- and `recv` takes some that have come back. -/
def download (conn : Conn) (n : Nat) : Option Conn :=
  if conn.waiting.isNone ∨ n = 0 ∨ 65536 < n ∨ conn.toClient.length < n then none
  else
    some ({ conn with buf := conn.buf ++ conn.toClient.take n, toClient := conn.toClient.drop n }.readLine rt)

/-- The handler reads a line. -/
def handle (conn : Conn) (server : MockServer) : Option (Conn × MockServer) :=
  match conn.died, Lines.split Gateway.newline conn.rfile with
  | false, some (line, rest) =>
      let conn := { conn with rfile := rest }
      match server.handleLine rt (line ++ [Gateway.newline]) with
      | .skipped => some (conn, server)
      | .died => some ({ conn with died := true }, server)
      | .replied reply server => some ({ conn with toClient := conn.toClient ++ reply }, server)
  | _, _ => none

def timeout (conn : Conn) : Option Conn :=
  if conn.waiting.isNone then none else some (conn.finish rt (.error .timeout))

def eof (conn : Conn) : Option Conn :=
  if conn.waiting.isNone ∨ conn.died = false ∨ conn.toClient ≠ [] then none
  else some (conn.finish rt (.error .closedConnection))

end Conn

namespace Net

variable {ι : Type} [DecidableEq ι]

def init (target rotateAfter pausedFirst : Int) (ids : ι → Nat) : Net ι :=
  ⟨.init target rotateAfter pausedFirst, fun i => .init (ids i)⟩

def setConn (net : Net ι) (i : ι) (conn : Conn) : Net ι := { net with conns := Function.update net.conns i conn }

def step (rt : PyRuntime) (net : Net ι) : NetEvent ι → Option (Net ι)
  | .call i method => ((net.conns i).call rt method).map (net.setConn i)
  | .upload i n => ((net.conns i).upload n).map (net.setConn i)
  | .handle i => ((net.conns i).handle rt net.server).map fun p => { net.setConn i p.1 with server := p.2 }
  | .download i n => ((net.conns i).download rt n).map (net.setConn i)
  | .timeout i => ((net.conns i).timeout rt).map (net.setConn i)
  | .eof i => ((net.conns i).eof rt).map (net.setConn i)

end Net

end Miner
