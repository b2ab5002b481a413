import PrlMiner.Library.Triples
import PrlMiner.Miner.LuckyPool

/-! `probe` of `pool_client.py`: the requests it sends and the messages it reads, in
both modes. What arrives and where a window ends are events. Printing is left out. -/
namespace Miner.Probe

open Python Triples
open LuckyPool (Arrival isJobMethod isLinkMessage)

/-- `strLower` is `str(v).lower()`. `connects` and `sendFails` are the outcomes of
`connect` and of `sendall` for each request. -/
structure Host where
  tables : Tables
  strLower : Json → Text
  connects : Bool
  sendFails : Nat → Bool

/-- Something reaches the client, or the deadline of its window passes. -/
inductive Event where
  | arrives (a : Arrival)
  | windowEnds

structure Request where
  id : Nat
  method : Text
  params : Json

/-- A request, or what is read while replies to `watchIds` are awaited. -/
inductive Action where
  | sends (r : Request)
  | reads (watchIds : List Nat) (a : Arrival)

/-- Events to come, the id counter of the client, and what it has done. -/
structure World where
  unread : List Event
  lastId : Nat
  log : List Action

def World.init (events : List Event) : World := ⟨events, 0, []⟩

/-- A run that goes no further: it waits for an event, or an exception ended it. -/
inductive Halt where
  | waiting
  | raised

abbrev Run (α : Type) : Type := Prog World Halt α

def send (host : Host) (method : String) (params : Json) : Run Nat := fun w =>
  let id := w.lastId + 1
  (if host.sendFails id then .error .raised else .ok id,
    { w with lastId := id, log := w.log ++ [.sends ⟨id, text method, params⟩] })

def challengeHints : List Text :=
  [text "challenge", text "pearl.challenge", text "authorization required", text "unauthorized"]

/-- What `_collect` returns. `null` stands for `None`. -/
structure Obs where
  job : Json
  authorized : Json
  challenge : Bool
  closed : Bool
  msgs : List Fields

def Obs.init : Obs := ⟨.null, .null, false, false, []⟩

def isNone : Json → Bool
  | .null => true
  | _ => false

/-- The test that sets `challenge`. -/
def challengeSignal (host : Host) (method : Text) (msg : Json) : Bool :=
  let blob := lower (dumps host.tables msg)
  (text "pearl.challenge").isPrefixOf method || isInfix (text "challenge_response") blob ||
    challengeHints.any fun h => isInfix h blob

/-- `v in watch_ids`. A list or a `dict` has no hash. -/
def isWatched (watchIds : List Nat) : Json → Option Bool
  | .arr _ | .obj _ => none
  | v => some (watchIds.any fun i => v.eq (.int i))

/-- `res.get("job") or res.get("jobs")`, of a result that has one of them. -/
def embeddedJob : Json → Option Json
  | .obj res =>
      if (Fields.item res (text "job")).isSome || (Fields.item res (text "jobs")).isSome then
        let job := Fields.get res (text "job") .null
        some (if job.truthy then job else Fields.get res (text "jobs") .null)
      else none
  | _ => none

/-- The job after a message. -/
def jobAfter (watched : Bool) (fields : Fields) (job : Json) : Json :=
  if watched then (embeddedJob (Fields.get fields (text "result") .null)).getD job
  else if isJobMethod (Fields.get fields (text "method") (.str [])) then
    Fields.get fields (text "params") .null
  else job

def isTrue : Json → Bool
  | .bool b => b
  | _ => false

/-- The body of the loop of `_collect`, past its first two tests. -/
def observe (host : Host) (watchIds : List Nat) (fields : Fields) (obs : Obs) : Option Obs :=
  (isWatched watchIds (Fields.get fields (text "id") .null)).bind fun watched =>
    match Fields.get fields (text "method") (.str []) with
    | .str method =>
        some {
          job := jobAfter watched fields obs.job
          authorized :=
            if watched && isTrue (Fields.get fields (text "result") .null) then .bool true else obs.authorized
          challenge := obs.challenge || challengeSignal host method (.obj fields)
          closed := obs.closed
          msgs := obs.msgs ++ [fields] }
    | _ => none

/-- The body of the loop of `_collect`, and whether it leaves it. None where it raises. -/
def readMessage (host : Host) (watchIds : List Nat) (msg : Json) (obs : Obs) : Option (Obs × Bool) :=
  match msg.contains (text "_closed"), msg.contains (text "_error"), msg with
  | some true, _, _ => some ({ obs with closed := true }, true)
  | some false, some true, .obj _ => some (obs, true)
  | some false, some false, .obj fields =>
      (observe host watchIds fields obs).map fun obs => (obs, !isNone obs.job || obs.challenge)
  | _, _, _ => none

/-- The loop of `_collect`. -/
def collectFrom (host : Host) (watchIds : List Nat) (lastId : Nat) :
    List Event → List Action → Obs → Except Halt Obs × World
  | [], log, _ => (.error .waiting, ⟨[], lastId, log⟩)
  | .windowEnds :: rest, log, obs => (.ok obs, ⟨rest, lastId, log⟩)
  | .arrives a :: rest, log, obs =>
      let log := log ++ [.reads watchIds a]
      match a.message.bind fun msg => readMessage host watchIds msg obs with
      | none => (.error .raised, ⟨rest, lastId, log⟩)
      | some (obs, true) => (.ok obs, ⟨rest, lastId, log⟩)
      | some (obs, false) => collectFrom host watchIds lastId rest log obs

def collect (host : Host) (watchIds : List Nat) : Run Obs := fun w =>
  collectFrom host watchIds w.lastId w.unread w.log .init

/-- `prl-3090-miner/1.0` -/
def agent : Json := .str (text "prl-3090-miner/1.0")

/-- The loop of the wallet mode. -/
def listenFrom (lastId : Nat) : List Event → List Action → Json → Except Halt Json × World
  | [], log, _ => (.error .waiting, ⟨[], lastId, log⟩)
  | .windowEnds :: rest, log, job => (.ok job, ⟨rest, lastId, log⟩)
  | .arrives a :: rest, log, job =>
      let log := log ++ [.reads [] a]
      match a.message with
      | none => (.error .raised, ⟨rest, lastId, log⟩)
      | some msg =>
          match isLinkMessage msg, msg with
          | some true, _ => (.ok job, ⟨rest, lastId, log⟩)
          | some false, .obj fields =>
              let method := Fields.get fields (text "method") .null
              listenFrom lastId rest log
                (if isJobMethod method then Fields.get fields (text "params") .null else job)
          | _, _ => (.error .raised, ⟨rest, lastId, log⟩)

def listen : Run Json := fun w => listenFrom w.lastId w.unread w.log .null

/-- The verdict of the wallet mode. Other values have no `len`. -/
def walletVerdict (job : Json) : Run Nat :=
  match job with
  | .null => pure 3
  | .obj _ | .arr _ | .str _ => pure 0
  | _ => throw .raised

def walletProbe (host : Host) (address worker : Text) : Run Nat := do
  let _ ← send host "mining.authorize"
    (.obj [(text "wallet", .str address), (text "worker", .str worker), (text "agent", agent)])
  let job ← listen
  walletVerdict job

/-- An error whose `msg` has this in it. -/
def errorMentions (host : Host) (hint : Text) (obs : Obs) : Bool :=
  obs.msgs.any fun m =>
    match Fields.get m (text "error") .null with
    | .obj err => isInfix hint (host.strLower (Fields.get err (text "msg") (.str [])))
    | _ => false

/-- `v in (None, False)`. -/
def isUnset (v : Json) : Bool := isNone v || v.eq (.bool false)

/-- The observations of phases 1 and 2 as one. -/
def Obs.mergeLogin (obs obs2 : Obs) : Obs where
  job := if !isUnset obs2.job || isUnset obs.job then obs2.job else obs.job
  authorized := if obs.authorized.truthy then obs.authorized else obs2.authorized
  challenge := if obs2.challenge || !obs.challenge then obs2.challenge else obs.challenge
  closed := if obs2.closed || !obs.closed then obs2.closed else obs.closed
  msgs := obs.msgs

/-- The same for a shape of phase 3. -/
def Obs.mergeShape (obs o3 : Obs) : Obs where
  job := if !isUnset o3.job then o3.job else obs.job
  authorized := if obs.authorized.truthy then obs.authorized else o3.authorized
  challenge := if o3.challenge then o3.challenge else obs.challenge
  closed := if o3.closed then o3.closed else obs.closed
  msgs := obs.msgs

/-- Phase 2. -/
def loginPhase (host : Host) (user : Text) (obs : Obs) : Run Obs :=
  if isNone obs.job ∧ obs.challenge = false ∧ (errorMentions host (text "not supported") obs ∨
      errorMentions host (text "object") obs ∨ obs.closed = false) then
    if obs.closed then pure obs
    else do
      let loginId ← send host "login"
        (.obj [(text "login", .str user), (text "pass", .str (text "x")), (text "agent", agent)])
      let obs2 ← collect host [loginId]
      pure (obs.mergeLogin obs2)
  else pure obs

/-- The loop of phase 3. -/
def tryShapes (host : Host) : List Json → Obs → Run Obs
  | [], obs => pure obs
  | shape :: shapes, obs => do
      let aid ← send host "mining.authorize" shape
      let o3 ← collect host [aid]
      let obs := obs.mergeShape o3
      if !isNone obs.job ∨ obs.challenge ∨ obs.closed then pure obs else tryShapes host shapes obs

def shapes (address worker user : Text) : List Json :=
  [.obj [(text "wallet", .str address), (text "worker", .str worker), (text "agent", agent)],
    .obj [(text "wallet", .str address), (text "worker", .str worker)],
    .obj [(text "wallet", .str address)],
    .obj [(text "wallet", .str user)],
    .obj [(text "login", .str user), (text "pass", .str (text "x"))]]

/-- Phase 3. -/
def shapePhase (host : Host) (address worker user : Text) (obs : Obs) : Run Obs :=
  if isNone obs.job ∧ obs.challenge = false ∧ obs.closed = false then
    tryShapes host (shapes address worker user) obs
  else pure obs

def verdict (obs : Obs) : Nat :=
  if obs.challenge then 1
  else if !isNone obs.job then 0
  else if obs.closed then 1
  else 3

/-- The three phases of the classic mode. -/
def threePhases (host : Host) (address worker user : Text) : Run Nat := do
  let subId ← send host "mining.subscribe" (.arr [agent])
  let authId ← send host "mining.authorize" (.arr [.str user, .str (text "x")])
  let obs ← collect host [subId, authId]
  let obs ← loginPhase host user obs
  let obs ← shapePhase host address worker user obs
  pure (verdict obs)

/-- The status that `probe` returns. -/
def probe (host : Host) (walletOnly : Bool) (address worker : Text) : Run Nat :=
  let user := if worker.isEmpty then address else address ++ text "." ++ worker
  if !host.connects then pure 2
  else if walletOnly then walletProbe host address worker
  else threePhases host address worker user

end Miner.Probe
