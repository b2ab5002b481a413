import PrlMiner.Library.Python
import PrlMiner.Library.Runs

/-! The LuckyPool miner, `live`. The server, the clock and the search act by events.
Framing is left out: a line arrives as the value that it decodes to. Printing, and
the report with it, is left out. Every send succeeds: one that raises, also when
`submitted` has counted its share, is left out. -/
namespace Miner.LuckyPool

open Python LittleEndian

/-- Under the mining config of `live`. `adjustTarget` is that of the gateway's
`MiningJob`, none where it raises. -/
structure Host where
  tables : Tables
  adjustTarget : List Byte → Int → Option Int

/-- The entries of `cur`. -/
structure Job where
  header : List Byte
  tle : Bytes 32
  jobId : Json
  adj : Int

/-- None where it raises, before it updates `cur`. -/
def applyJob (host : Host) (p : Json) : Option Job :=
  match p with
  | .obj fields => do
      let .str header ← Fields.item fields (text "header") | none
      let hdr ← fromHex header
      let target ← Fields.item fields (text "target")
      let raw ← match target with
        | .str s => intBase16 host.tables s
        | v => v.toInt
      let adj ← host.adjustTarget hdr raw
      let jobId ← Fields.item fields (text "job_id")
      if 0 ≤ adj ∧ adj < 2 ^ 256 then some ⟨hdr, toBytes 32 adj.toNat, jobId, adj⟩ else none
  | _ => none

/-- What reaches the client: a line, with the value it decodes to or `_raw` with its
text, a line that is not UTF-8, or the end of the connection. -/
inductive Arrival where
  | line (msg : Json)
  | undecodable
  | closed
  | failed (e : Text)

/-- What `messages` yields, none where it raises. -/
def Arrival.message : Arrival → Option Json
  | .line msg => some msg
  | .undecodable => none
  | .closed => some (.obj [(text "_closed", .bool true)])
  | .failed e => some (.obj [(text "_error", .str (text "recv failed: " ++ e))])

/-- `messages` returns after it. -/
def Arrival.isLast : Arrival → Bool
  | .line _ | .undecodable => false
  | .closed | .failed _ => true

/-- Where `live` is. -/
inductive Phase where
  /-- `pump(8.0)`. -/
  | authorizing
  /-- The condition of the `while` loop. -/
  | head
  /-- `pump(0.02)`. -/
  | pumping
  /-- A batch on the job captured for it, up to its submit. -/
  | mining (job : Job)
  /-- The messages after the submit `sid`. -/
  | waiting (sid : Nat)
  /-- With the status returned, none after an exception. -/
  | ended (status : Option Nat)

/-- A `mining.submit` sent, and what had arrived but was not read then. -/
structure Share where
  id : Nat
  jobId : Json
  proof : Text
  unread : List Arrival

/-- A message read, whether `pump` read it, and the id of the last request before it. -/
structure Reading where
  msg : Json
  pumped : Bool
  lastId : Nat

/-- Variables of `live`, the id counter of the client, what has arrived and is not
read, and the history of messages read and shares sent. -/
structure Live where
  phase : Phase
  unread : List Arrival
  cur : Option Job
  lastId : Nat
  tried : Nat
  submitted : Nat
  accepted : Nat
  history : List Reading
  sent : List Share

/-- Connected, with `mining.authorize` sent. -/
def Live.init : Live := ⟨.authorizing, [], none, 1, 0, 0, 0, [], []⟩

/-- How a search ends. -/
inductive Search where
  | noWinner
  | unconfirmed
  | confirmed (proof : Text)

/-- `enters` and `deadline` are the outcomes of the loop condition. `windowEnds` is the
deadline of `messages`, `raises` an exception from elsewhere. -/
inductive Event where
  | arrives (arrival : Arrival)
  | enters
  | deadline
  | reads
  | windowEnds
  | searched (search : Search)
  | raises

/-- `cur["job_id"]`. -/
def Live.jobId (s : Live) : Json :=
  match s.cur with
  | none => .null
  | some job => job.jobId

def Live.raise (s : Live) : Live := { s with phase := .ended none }

def isJobMethod (method : Json) : Bool :=
  method.eq (.str (text "mining.notify")) || method.eq (.str (text "job"))

/-- `"_closed" in msg or "_error" in msg`. -/
def isLinkMessage (msg : Json) : Option Bool := do
  let closed ← msg.contains (text "_closed")
  let failed ← msg.contains (text "_error")
  some (closed || failed)

/-- The body of the loop in `pump`. -/
def pumpMessage (host : Host) (msg : Json) (s : Live) : Live :=
  match isLinkMessage msg, msg with
  | none, _ => s.raise
  | some true, _ => { s with phase := .ended (some 1) }
  | some false, .obj fields =>
      if isJobMethod (Fields.get fields (text "method") (.str [])) then
        match (Fields.item fields (text "params")).bind (applyJob host) with
        | none => s.raise
        | some job => { s with cur := some job }
      else s
  | some false, _ => s.raise

/-- `result is True`, or a text that mentions `accept`. -/
def countsAsAccepted (host : Host) (msg : Json) : Bool :=
  match msg with
  | .obj fields =>
      match Fields.get fields (text "result") .null with
      | .bool true => true
      | _ => isInfix (text "accept") (lower (dumps host.tables msg))
  | _ => false

/-- What ends the wait for the reply `sid`. -/
def endsWait (sid : Nat) (fields : Fields) : Bool :=
  (Fields.get fields (text "id") .null).eq (.int sid) || (Fields.item fields (text "result")).isSome ||
    (Fields.item fields (text "error")).isSome

/-- The body of the loop after a submit. -/
def waitMessage (host : Host) (sid : Nat) (last : Bool) (msg : Json) (s : Live) : Live :=
  match msg with
  | .obj fields =>
      let s := if countsAsAccepted host msg then { s with accepted := s.accepted + 1 } else s
      if endsWait sid fields || last then { s with phase := .head } else s
  | _ => s.raise

/-- The next message is yielded to the loop that reads. -/
def readMessage (host : Host) (arrival : Arrival) (s : Live) : Option Live :=
  let logged (msg : Json) (pumped : Bool) : Live :=
    { s with history := s.history ++ [⟨msg, pumped, s.lastId⟩] }
  match s.phase with
  | .authorizing | .pumping =>
      match arrival.message with
      | none => some s.raise
      | some msg => some (pumpMessage host msg (logged msg true))
  | .waiting sid =>
      match arrival.message with
      | none => some s.raise
      | some msg => some (waitMessage host sid arrival.isLast msg (logged msg false))
  | _ => none

/-- `send` of a share. -/
def submit (job : Job) (proof : Text) (s : Live) : Live :=
  { s with
    phase := .waiting (s.lastId + 1)
    lastId := s.lastId + 1
    submitted := s.submitted + 1
    sent := s.sent ++ [⟨s.lastId + 1, job.jobId, proof, s.unread⟩] }

/-- After the search: the rollover check, the confirmation and the submit. -/
def afterSearch (job : Job) (search : Search) (s : Live) : Live :=
  if !job.jobId.eq s.jobId then { s with phase := .head }
  else match search with
    | .noWinner | .unconfirmed => { s with phase := .head }
    | .confirmed proof => submit job proof s

def liveStep (host : Host) (natt : Nat) (s : Live) : Event → Option Live
  | .arrives arrival => some { s with unread := s.unread ++ [arrival] }
  | .raises => match s.phase with
      | .ended _ => none
      | _ => some s.raise
  | .enters => match s.phase with
      | .head => some { s with phase := .pumping }
      | _ => none
  | .deadline => match s.phase with
      | .head => some { s with phase := .ended (some 0) }
      | _ => none
  | .reads => match s.unread with
      | [] => none
      | arrival :: unread => readMessage host arrival { s with unread := unread }
  | .windowEnds => match s.phase, s.cur with
      | .authorizing, _ | .waiting _, _ | .pumping, none => some { s with phase := .head }
      | .pumping, some job => some { s with phase := .mining job, tried := s.tried + natt }
      | _, _ => none
  | .searched search => match s.phase with
      | .mining job => some (afterSearch job search s)
      | _ => none

/-- Runs of `live` up to some point. -/
abbrev LiveRun (host : Host) (natt : Nat) : List Event → Live → Prop :=
  Runs.Run (liveStep host natt) Live.init

end Miner.LuckyPool
