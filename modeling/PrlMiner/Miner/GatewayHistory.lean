import PrlMiner.Miner.GatewayNet

/-! The order in which the gateway handles the requests of all connections is a history
of the abstract gateway, and every client sees its own part of it. -/
namespace Miner

open LittleEndian Python Runs Lines

/-- The method of a call. -/
def GatewayCall.method : GatewayCall → Method
  | .getMiningInfo _ => .getMiningInfo
  | .submitPlainProof submission _ => .submitPlainProof submission

/-- A call is answered by the entry of its request. -/
def AnsweredBy (x : EndedCall) (entry : Nat × GatewayCall) : Prop :=
  entry.1 = x.id ∧ entry.2.method = x.method ∧ Agrees entry.2 x.answer

def TimedOut (rt : PyRuntime) (x : EndedCall) : Prop := x.answer = rt.answer x.method (.error .timeout)

/-- The client gave up, or it read the reply to an earlier call. -/
def Lost (rt : PyRuntime) (x : EndedCall) : Prop :=
  TimedOut rt x ∨ ∃ got, x.answer = rt.answer x.method (.error (.idMismatch x.id got))

/-- A reply that the client has not read. -/
structure Owed where
  id : Nat
  call : GatewayCall
  resp : Json

def Owed.line (rt : PyRuntime) (o : Owed) : List Byte := encodeAscii (dumps rt.tables o.resp)

def requestLine (rt : PyRuntime) (p : Nat × Method) : List Byte :=
  encodeAscii (dumps rt.tables (.obj (p.2.request p.1)))

structure Owed.Sound (rt : PyRuntime) (o : Owed) : Prop where
  plain : o.resp.Plain rt.limit
  tagged : ∃ key v, o.resp = MockServer.response (.int o.id) key v
  agrees : Agrees o.call (rt.answer o.call.method (rt.handleReply o.id (o.line rt)))

/-- Requests of a connection that are under way or answered but not read. -/
def outstanding (owed : List Owed) (pending : List (Nat × Method)) : List (Nat × Method) :=
  owed.map (fun o => (o.id, o.call.method)) ++ pending

/-- The entries of replies that the client has not read. -/
def entries (owed : List Owed) : List (Nat × GatewayCall) := owed.map fun o => (o.id, o.call)

/-- Where a client is in its part of the history: each of its calls has been answered, or
from the first timeout on it reads the replies to earlier calls. -/
inductive Reading (rt : PyRuntime) (conn : Conn) (owed : List Owed) (pending : List (Nat × Method)) :
    List (Nat × GatewayCall) → Prop where
  | current {done : List (Nat × GatewayCall)} (answered : List.Forall₂ AnsweredBy conn.ended done)
      (waits : outstanding owed pending = conn.waiting.toList.map (conn.id, ·)) :
      Reading rt conn owed pending (done ++ entries owed)
  | behind {good : List EndedCall} {x : EndedCall} {bad : List EndedCall} {done rest : List (Nat × GatewayCall)}
      (ended : conn.ended = good ++ x :: bad) (answered : List.Forall₂ AnsweredBy good done)
      (timedOut : TimedOut rt x) (lost : ∀ y ∈ bad, Lost rt y)
      (waits : conn.waiting.toList.length < (outstanding owed pending).length) :
      Reading rt conn owed pending (done ++ rest)

/-- A connection after the calls of its client, the replies and requests on it, and its
part of the history. -/
structure Tracks (rt : PyRuntime) (first : Nat) (calls : List Method) (conn : Conn) (owed : List Owed)
    (pending : List (Nat × Method)) (part : List (Nat × GatewayCall)) : Prop where
  alive : conn.died = false
  counted : conn.id = first + calls.length
  numbered : part.map Prod.fst ++ pending.map Prod.fst = List.range' (first + 1) calls.length
  made : part.map (·.2.method) ++ pending.map Prod.snd = calls
  requests : conn.rfile ++ conn.toServer = joined Gateway.newline (pending.map (requestLine rt))
  replies : conn.buf ++ conn.toClient = joined Gateway.newline (owed.map (·.line rt))
  prints : ∀ p ∈ pending, Conn.Prints p.2 p.1
  sound : ∀ o ∈ owed, o.Sound rt
  unread : entries owed <:+ part
  last : ∀ method ∈ conn.waiting, ∃ before, outstanding owed pending = before ++ [(conn.id, method)]
  reading : Reading rt conn owed pending part

section Conns

variable {rt : PyRuntime} {first : Nat} {calls : List Method} {conn : Conn} {owed : List Owed}
  {pending : List (Nat × Method)} {part : List (Nat × GatewayCall)}

theorem method_serve (method : Method) (gw : MockGateway) : (method.serve gw).1.method = method := by
  cases method <;> rfl

theorem Owed.Sound.one_line {o : Owed} (h : o.Sound rt) : Gateway.newline ∉ o.line rt := newline_not_mem h.plain

/-- Ids grow from one outstanding request to the next, so that no two of them have the
same. -/
theorem Tracks.ordered (h : Tracks rt first calls conn owed pending part) :
    ((outstanding owed pending).map Prod.fst).Pairwise (· < ·) := by
  obtain ⟨read, hPart⟩ := h.unread
  have hNumbered : (part.map Prod.fst ++ pending.map Prod.fst).Pairwise (· < ·) := by
    rw [h.numbered]
    exact List.pairwise_lt_range'
  rw [← hPart, List.map_append, List.append_assoc] at hNumbered
  have hUnread := (List.pairwise_append.mp hNumbered).2.1
  simpa [outstanding, entries, Function.comp_def] using hUnread

/-- A new request goes behind the others, with an id above all of theirs. -/
theorem Tracks.call (h : Tracks rt first calls conn owed pending part) (hIdle : conn.waiting = none)
    {method : Method} (hPrints : Conn.Prints method (conn.id + 1)) :
    Tracks rt first (calls ++ [method]) { conn with
      id := conn.id + 1
      waiting := some method
      toServer := conn.toServer ++ rt.dumpsLine (.obj (method.request (conn.id + 1))) }
      owed (pending ++ [(conn.id + 1, method)]) part := by
  have hOutstanding : outstanding owed (pending ++ [(conn.id + 1, method)]) =
      outstanding owed pending ++ [(conn.id + 1, method)] := by
    simp [outstanding]
  refine { h with
    counted := ?_
    numbered := ?_
    made := ?_
    requests := ?_
    prints := fun p hp => ?_
    last := fun method' hMethod => ?_
    reading := ?_ }
  · rw [List.length_append, h.counted]
    rfl
  · rw [List.map_append, ← List.append_assoc, h.numbered, List.length_append, h.counted]
    exact (Nat.add_right_comm first 1 calls.length).symm ▸ (List.range'_1_concat).symm
  · rw [List.map_append, ← List.append_assoc, h.made]
    rfl
  · rw [← List.append_assoc, h.requests, List.map_append, joined_append, dumpsLine_eq]
    simp [requestLine, Gateway.newline]
  · rcases List.mem_append.mp hp with hp | hp
    · exact h.prints p hp
    · rw [List.mem_singleton.mp hp]
      exact hPrints
  · cases hMethod
    exact ⟨outstanding owed pending, hOutstanding⟩
  · cases h.reading with
    | current answered waits =>
        refine .current answered ?_
        rw [hOutstanding, waits, hIdle]
        rfl
    | behind ended answered timedOut lost waits =>
        refine .behind ended answered timedOut lost ?_
        rw [hIdle] at waits
        rw [hOutstanding, List.length_append]
        exact Nat.add_lt_add_right waits 1

/-- Bytes of requests that reach the handler are still those of the same requests, -/
theorem Tracks.upload (h : Tracks rt first calls conn owed pending part) (n : Nat) :
    Tracks rt first calls
      { conn with rfile := conn.rfile ++ conn.toServer.take n, toServer := conn.toServer.drop n }
      owed pending part := by
  refine { h with requests := ?_, reading := ?_ }
  · rw [List.append_assoc, List.take_append_drop, h.requests]
  · cases h.reading with
    | current answered waits => exact .current answered waits
    | behind ended answered timedOut lost waits => exact .behind ended answered timedOut lost waits

/-- and bytes of replies that reach the client are still those of the same replies. -/
theorem Tracks.download (h : Tracks rt first calls conn owed pending part) (n : Nat) :
    Tracks rt first calls { conn with buf := conn.buf ++ conn.toClient.take n, toClient := conn.toClient.drop n }
      owed pending part := by
  refine { h with replies := ?_, reading := ?_ }
  · rw [List.append_assoc, List.take_append_drop, h.replies]
  · cases h.reading with
    | current answered waits => exact .current answered waits
    | behind ended answered timedOut lost waits => exact .behind ended answered timedOut lost waits

/-- The request of a call that timed out stays on the connection, and so does its reply.
Every call from then on is behind. -/
theorem Tracks.timeout (h : Tracks rt first calls conn owed pending part) {method : Method}
    (hWaiting : conn.waiting = some method) :
    Tracks rt first calls { conn with
      waiting := none
      ended := conn.ended ++ [⟨conn.id, method, rt.answer method (.error .timeout)⟩] } owed pending part := by
  refine { h with last := nofun, reading := ?_ }
  cases h.reading with
  | current answered waits =>
      refine .behind rfl answered rfl nofun ?_
      rw [waits, hWaiting]
      exact Nat.zero_lt_one
  | behind ended answered timedOut lost waits =>
      refine .behind (by rw [ended, List.append_assoc, List.cons_append]) answered timedOut ?_
        (Nat.zero_lt_of_lt waits)
      intro y hy
      rcases List.mem_append.mp hy with hy | hy
      · exact lost y hy
      · rw [List.mem_singleton.mp hy]
        exact .inl rfl

/-- The client reads the oldest reply: it ends the call with its answer if it has its id,
and with an id mismatch if it is that of an earlier call. -/
theorem Tracks.reply {o : Owed} (h : Tracks rt first calls conn (o :: owed) pending part) {method : Method}
    (hWaiting : conn.waiting = some method) {rest : List Byte}
    (hReplies : rest ++ conn.toClient = joined Gateway.newline (owed.map (·.line rt))) :
    Tracks rt first calls { conn with
      buf := rest
      waiting := none
      ended := conn.ended ++ [⟨conn.id, method, rt.answer method (rt.handleReply conn.id (o.line rt))⟩] }
      owed pending part := by
  have hSound := h.sound o List.mem_cons_self
  refine { h with
    replies := hReplies
    sound := fun o' ho' => h.sound o' (List.mem_cons_of_mem o ho')
    unread := (List.suffix_cons _ _).trans h.unread
    last := nofun
    reading := ?_ }
  cases h.reading with
  | @current done answered waits =>
      -- the reply is to the current call, and it is the only one
      rw [hWaiting] at waits
      obtain ⟨hFirst, hNone⟩ := List.cons.inj waits
      obtain ⟨hOwed, rfl⟩ := List.append_eq_nil_iff.mp hNone
      obtain rfl := List.map_eq_nil_iff.mp hOwed
      obtain ⟨hId, hMethod⟩ := Prod.mk.inj hFirst
      have hAgrees := hSound.agrees
      rw [hMethod, hId] at hAgrees
      have hAnswered : AnsweredBy ⟨conn.id, method, rt.answer method (rt.handleReply conn.id (o.line rt))⟩
          (o.id, o.call) := ⟨hId, hMethod, hAgrees⟩
      have hReading : Reading rt { conn with
          buf := rest
          waiting := none
          ended := conn.ended ++ [⟨conn.id, method, rt.answer method (rt.handleReply conn.id (o.line rt))⟩] } [] []
          (done ++ [(o.id, o.call)] ++ entries []) := .current (List.rel_append answered (.cons hAnswered .nil)) rfl
      rwa [entries, List.map_nil, List.append_nil] at hReading
  | behind ended answered timedOut lost waits =>
      -- the reply is to a call before the current one
      obtain ⟨before, hLast⟩ := h.last method hWaiting
      have hOrdered := h.ordered
      rw [hWaiting, hLast] at waits
      obtain ⟨p, before, rfl⟩ := List.exists_cons_of_length_pos (l := before) (by simpa using waits)
      obtain ⟨rfl, hMore⟩ := List.cons.inj hLast
      have hLess : o.id < conn.id := by
        rw [hLast, List.cons_append, List.map_cons, List.pairwise_cons] at hOrdered
        exact hOrdered.1 conn.id (by simp)
      have hOther : rt.handleReply conn.id (o.line rt) = .error (.idMismatch conn.id (.int o.id)) := by
        obtain ⟨key, v, hResp⟩ := hSound.tagged
        have hPlain := hSound.plain
        rw [Owed.line, hResp]
        rw [hResp] at hPlain
        exact handleReply_other hPlain (Nat.ne_of_gt hLess)
      refine .behind (by rw [ended, List.append_assoc, List.cons_append]) answered timedOut ?_ ?_
      · intro y hy
        rcases List.mem_append.mp hy with hy | hy
        · exact lost y hy
        · rw [List.mem_singleton.mp hy]
          exact .inr ⟨.int o.id, by rw [hOther]⟩
      · change 0 < (outstanding owed pending).length
        rw [show outstanding owed pending = before ++ [(conn.id, method)] from hMore, List.length_append]
        exact Nat.succ_pos before.length

/-- Where a call waits, its line has not come in full. -/
def Conn.Reads (conn : Conn) : Prop := conn.waiting.isSome → Gateway.newline ∉ conn.buf

/-- Where a line has come in full the call ends with it. Otherwise it waits, and no line
has come in full. -/
theorem Tracks.readLine (h : Tracks rt first calls conn owed pending part) :
    (∃ owed', Tracks rt first calls (conn.readLine rt) owed' pending part) ∧ (conn.readLine rt).Reads := by
  rw [Conn.readLine]
  cases hWaiting : conn.waiting with
  | none =>
      rw [Option.bind_none]
      exact ⟨⟨owed, h⟩, fun hSome => by rw [hWaiting] at hSome; cases hSome⟩
  | some method =>
      rw [Option.bind_some]
      cases hSplit : split Gateway.newline conn.buf with
      | none =>
          rw [Gateway.readReply_of_none hSplit]
          exact ⟨⟨owed, h⟩, fun _ => split_eq_none_iff.mp hSplit⟩
      | some cut =>
          obtain ⟨line, rest⟩ := cut
          rw [Gateway.readReply_of_split hSplit]
          cases owed with
          | nil =>
              obtain ⟨hBuf, -⟩ := List.append_eq_nil_iff.mp h.replies
              rw [hBuf] at hSplit
              cases hSplit
          | cons o owed =>
              obtain ⟨rfl, hReplies⟩ := split_of_joined (h.sound o List.mem_cons_self).one_line h.replies hSplit
              exact ⟨⟨owed, h.reply hWaiting hReplies⟩, nofun⟩

/-- The handler answers the oldest request, and its reply is owed behind the others. -/
theorem Tracks.handled {p : Nat × Method} (h : Tracks rt first calls conn owed (p :: pending) part) {rest : List Byte}
    (hRequests : rest ++ conn.toServer = joined Gateway.newline (pending.map (requestLine rt))) {gw : MockGateway}
    {resp : Json} {server : MockServer} (hExchanged : Exchanged rt p.2 p.1 gw resp server) :
    Tracks rt first calls { conn with rfile := rest, toClient := conn.toClient ++ rt.dumpsLine resp }
      (owed ++ [⟨p.1, (p.2.serve gw).1, resp⟩]) pending (part ++ [(p.1, (p.2.serve gw).1)]) := by
  have hOutstanding :
      outstanding (owed ++ [⟨p.1, (p.2.serve gw).1, resp⟩]) pending = outstanding owed (p :: pending) := by
    simp [outstanding, method_serve]
  have hEntries : entries (owed ++ [⟨p.1, (p.2.serve gw).1, resp⟩]) =
      entries owed ++ [(p.1, (p.2.serve gw).1)] := by
    simp [entries]
  refine { h with
    numbered := ?_
    made := ?_
    requests := hRequests
    replies := ?_
    prints := fun q hq => h.prints q (List.mem_cons_of_mem p hq)
    sound := fun o ho => ?_
    unread := ?_
    last := hOutstanding ▸ h.last
    reading := ?_ }
  · rw [← h.numbered]
    simp
  · rw [← h.made]
    simp [method_serve]
  · rw [← List.append_assoc, h.replies, List.map_append, joined_append, dumpsLine_eq]
    simp [Owed.line, Gateway.newline]
  · rcases List.mem_append.mp ho with ho | ho
    · exact h.sound o ho
    · rw [List.mem_singleton.mp ho]
      refine ⟨hExchanged.plain, hExchanged.tagged, ?_⟩
      rw [method_serve]
      exact hExchanged.agrees
  · obtain ⟨read, hPart⟩ := h.unread
    exact ⟨read, by rw [hEntries, ← List.append_assoc, hPart]⟩
  · cases h.reading with
    | current answered waits =>
        rw [List.append_assoc, ← hEntries]
        exact .current answered (hOutstanding.trans waits)
    | behind ended answered timedOut lost waits =>
        rw [List.append_assoc]
        exact .behind ended answered timedOut lost (hOutstanding ▸ waits)

end Conns

section Nets

variable {ι : Type} [DecidableEq ι] {rt : PyRuntime} {target rotateAfter pausedFirst : Int} {net net' : Net ι}
  {ids : ι → Nat} {events : List (NetEvent ι)} {history : List (ι × Nat × GatewayCall)} {gw : MockGateway} {i : ι}

/-- The entries of one connection. -/
def part (history : List (ι × Nat × GatewayCall)) (i : ι) : List (Nat × GatewayCall) :=
  (history.filter (·.1 = i)).map Prod.snd

theorem part_same (entry : Nat × GatewayCall) : part (history ++ [(i, entry)]) i = part history i ++ [entry] := by
  simp [part]

theorem part_other {j : ι} (hOther : j ≠ i) (entry : Nat × GatewayCall) :
    part (history ++ [(i, entry)]) j = part history j := by
  simp [part, hOther.symm]

/-- A method with the answer of the gateway is a call that the abstract gateway serves,
and leaves it in the same state. -/
theorem serve_method (method : Method) (gw : MockGateway) :
    MockGateway.serve gw (method.serve gw).1 = some (method.serve gw).2 := by
  cases method with
  | getMiningInfo => exact if_pos rfl
  | submitPlainProof => exact if_pos rfl

/-- The target of the gateway does not change. -/
theorem serve_target (method : Method) (gw : MockGateway) : (method.serve gw).2.target = gw.target := by
  cases method with
  | getMiningInfo =>
      have hSame := congrArg (·.target) (MockGateway.getMiningInfo_snd gw)
      exact hSame.trans (MockServer.nextJob_keeps gw).2
  | submitPlainProof submission =>
      rw [Method.serve, MockGateway.submitPlainProof, MockGateway.recordSubmit]
      dsimp only
      cases MockGateway.currentHeader { gw with submissions := gw.submissions ++ [submission] } with
      | error e => rfl
      | ok header =>
          dsimp only
          split_ifs <;> rfl

/-- The methods that a client has called. -/
def called (events : List (NetEvent ι)) (i : ι) : List Method :=
  events.filterMap fun e =>
    match e with
    | .call j method => if j = i then some method else none
    | _ => none

/-- Events that are no calls do not count among the methods that a client has called. -/
theorem called_other {e : NetEvent ι} (h : ∀ i method, e ≠ .call i method) (events : List (NetEvent ι)) :
    called (events ++ [e]) = called events := by
  funext i
  cases e with
  | call j method => exact absurd rfl (h j method)
  | _ => simp [called]

/-- A call counts for its own client, behind the calls that this has made before. -/
theorem called_call (events : List (NetEvent ι)) (method : Method) (j : ι) :
    called (events ++ [.call i method]) j = if i = j then called events j ++ [method] else called events j := by
  by_cases hj : i = j <;> simp [called, hj]

/-- The gateway and the connections after events and the history that they make. -/
structure Linear (rt : PyRuntime) (target rotateAfter pausedFirst : Int) (ids : ι → Nat)
    (events : List (NetEvent ι)) (net : Net ι) (history : List (ι × Nat × GatewayCall)) (gw : MockGateway) :
    Prop where
  served : Run MockGateway.serve (.init target rotateAfter pausedFirst) (history.map (·.2.2)) gw
  server : net.server = .ofGateway gw
  target : gw.target = target
  conns : ∀ i, (∃ owed pending,
    Tracks rt (ids i) (called events i) (net.conns i) owed pending (part history i)) ∧ (net.conns i).Reads

/-- Before any event nothing has been called, sent or served. -/
theorem linear_init (ids : ι → Nat) :
    Linear rt target rotateAfter pausedFirst ids [] (.init target rotateAfter pausedFirst ids) []
      (.init target rotateAfter pausedFirst) where
  served := .nil
  server := rfl
  target := rfl
  conns i := by
    refine ⟨⟨[], [], ?_⟩, nofun⟩
    exact ⟨rfl, rfl, rfl, rfl, rfl, rfl, nofun, nofun, List.suffix_rfl, nofun, @Reading.current _ _ [] [] [] .nil rfl⟩

/-- A step of one connection that leaves the gateway alone: the others are tracked as
before, and the history is the same. -/
theorem Linear.setConn (h : Linear rt target rotateAfter pausedFirst ids events net history gw) {conn : Conn}
    {events' : List (NetEvent ι)} (hOthers : ∀ j, i ≠ j → called events' j = called events j)
    (hConn : (∃ owed pending, Tracks rt (ids i) (called events' i) conn owed pending (part history i)) ∧
      conn.Reads) :
    Linear rt target rotateAfter pausedFirst ids events' (net.setConn i conn) history gw :=
  { h with
    conns := fun j => by
      dsimp only [Net.setConn]
      by_cases hj : i = j
      · rw [← hj, Function.update_self]
        exact hConn
      · rw [Function.update_of_ne (Ne.symm hj), hOthers j hj]
        exact h.conns j }

/-- The handler of a connection: the oldest request becomes the next entry of the history,
answered as by the abstract gateway in the state that it has come to. -/
theorem Linear.handle (hLimit : 3 ≤ rt.limit) (hTarget : (digitsText target.natAbs).length ≤ maxDigits)
    (h : Linear rt target rotateAfter pausedFirst ids events net history gw) {p : Conn × MockServer}
    (hHandle : (net.conns i).handle rt net.server = some p) :
    ∃ entry gw', Linear rt target rotateAfter pausedFirst ids (events ++ [.handle i])
      { net.setConn i p.1 with server := p.2 } (history ++ [(i, entry)]) gw' := by
  obtain ⟨⟨owed, pending, hTracks⟩, hReads⟩ := h.conns i
  rw [Conn.handle, hTracks.alive] at hHandle
  cases hSplit : split Gateway.newline (net.conns i).rfile with
  | none =>
      rw [hSplit] at hHandle
      cases hHandle
  | some cut =>
      obtain ⟨line, rest⟩ := cut
      cases pending with
      | nil =>
          obtain ⟨hEmpty, -⟩ := List.append_eq_nil_iff.mp hTracks.requests
          rw [hEmpty] at hSplit
          cases hSplit
      | cons q pending =>
          obtain ⟨id, method⟩ := q
          have hPrints : Conn.Prints method id := hTracks.prints (id, method) List.mem_cons_self
          have hExchanged := exchange hLimit (h.target ▸ hTarget) method hPrints.2
          have hPlain : (Json.obj (method.request id)).Plain rt.limit := by
            obtain ⟨limit, hLimit⟩ : ∃ limit, rt.limit = limit + 3 := ⟨rt.limit - 3, by omega⟩
            rw [hLimit]
            exact plain_request hPrints.1 hPrints.2
          obtain ⟨rfl, hRequests⟩ := split_of_joined (newline_not_mem hPlain) hTracks.requests hSplit
          have hLine : encodeAscii (dumps rt.tables (.obj (method.request id))) ++ [Gateway.newline] =
              rt.dumpsLine (.obj (method.request id)) :=
            (dumpsLine_eq rt _).symm
          rw [hSplit] at hHandle
          dsimp only at hHandle
          rw [hLine, handleLine_request hLimit hPrints.1 hPrints.2, h.server] at hHandle
          dsimp only at hHandle
          cases hHandle
          refine ⟨(id, (method.serve gw).1), (method.serve gw).2, ?_, hExchanged.server, ?_, fun j => ?_⟩
          · rw [List.map_append]
            exact h.served.snoc _ (serve_method method gw)
          · exact (serve_target method gw).trans h.target
          · rw [called_other nofun]
            dsimp only [Net.setConn]
            by_cases hj : j = i
            · rw [hj, Function.update_self, part_same]
              have hHandled := hTracks.handled hRequests hExchanged
              rw [hTracks.alive] at hHandled
              exact ⟨⟨_, _, hHandled⟩, hReads⟩
            · rw [Function.update_of_ne hj, part_other hj]
              exact h.conns j

/-- A step of one connection that leaves the gateway and the calls made alone. -/
theorem Linear.moves (h : Linear rt target rotateAfter pausedFirst ids events net history gw) {e : NetEvent ι}
    (hCall : ∀ j method, e ≠ .call j method) {conn : Conn} {owed : List Owed} {pending : List (Nat × Method)}
    (hTracks : Tracks rt (ids i) (called events i) conn owed pending (part history i)) (hReads : conn.Reads) :
    Linear rt target rotateAfter pausedFirst ids (events ++ [e]) (net.setConn i conn) history gw := by
  refine h.setConn (fun j _ => ?_) ⟨⟨owed, pending, ?_⟩, hReads⟩
  · rw [called_other hCall]
  · rw [called_other hCall]
    exact hTracks

/-- A call sends its request. It ends at once if a line is in the buffer already, which
can only be a late reply. -/
theorem Linear.call (h : Linear rt target rotateAfter pausedFirst ids events net history gw) {method : Method}
    {conn : Conn} (hConn : (net.conns i).call rt method = some conn) :
    Linear rt target rotateAfter pausedFirst ids (events ++ [.call i method]) (net.setConn i conn) history gw := by
  obtain ⟨⟨owed, pending, hTracks⟩, -⟩ := h.conns i
  rw [Conn.call] at hConn
  split_ifs at hConn with hGuard
  cases hConn
  rw [not_or, not_not, Option.not_isSome_iff_eq_none] at hGuard
  obtain ⟨⟨owed', hTracks'⟩, hReads⟩ := (hTracks.call hGuard.1 hGuard.2).readLine
  refine h.setConn (fun j hj => ?_) ⟨⟨owed', pending ++ [((net.conns i).id + 1, method)], ?_⟩, hReads⟩
  · rw [called_call, if_neg hj]
  · rw [called_call, if_pos rfl]
    exact hTracks'

/-- The network takes bytes of a request to the handler. No client and no handler
notices. -/
theorem Linear.upload (h : Linear rt target rotateAfter pausedFirst ids events net history gw) {n : Nat}
    {conn : Conn} (hConn : (net.conns i).upload n = some conn) :
    Linear rt target rotateAfter pausedFirst ids (events ++ [.upload i n]) (net.setConn i conn) history gw := by
  obtain ⟨⟨owed, pending, hTracks⟩, hReads⟩ := h.conns i
  rw [Conn.upload] at hConn
  split_ifs at hConn
  cases hConn
  exact h.moves (by simp) (hTracks.upload n) hReads

/-- The network takes bytes of a reply to the client, which reads the line when it is
complete. -/
theorem Linear.download (h : Linear rt target rotateAfter pausedFirst ids events net history gw) {n : Nat}
    {conn : Conn} (hConn : (net.conns i).download rt n = some conn) :
    Linear rt target rotateAfter pausedFirst ids (events ++ [.download i n]) (net.setConn i conn) history gw := by
  obtain ⟨⟨owed, pending, hTracks⟩, -⟩ := h.conns i
  rw [Conn.download] at hConn
  split_ifs at hConn
  cases hConn
  obtain ⟨⟨owed', hTracks'⟩, hReads⟩ := (hTracks.download n).readLine
  exact h.moves (by simp) hTracks' hReads

/-- The client gives its call up. Its request stays in the history, or is still going to
enter it. -/
theorem Linear.timeout (h : Linear rt target rotateAfter pausedFirst ids events net history gw) {conn : Conn}
    (hConn : (net.conns i).timeout rt = some conn) :
    Linear rt target rotateAfter pausedFirst ids (events ++ [.timeout i]) (net.setConn i conn) history gw := by
  obtain ⟨⟨owed, pending, hTracks⟩, -⟩ := h.conns i
  rw [Conn.timeout, Conn.finish] at hConn
  cases hWaiting : (net.conns i).waiting with
  | none =>
      rw [hWaiting] at hConn
      cases hConn
  | some method =>
      rw [hWaiting] at hConn
      cases hConn
      exact h.moves (by simp) (hTracks.timeout hWaiting) nofun

/-- No handler has died, so that no client meets the end of its stream. -/
theorem Linear.no_eof (h : Linear rt target rotateAfter pausedFirst ids events net history gw) :
    (net.conns i).eof rt = none := by
  obtain ⟨⟨owed, pending, hTracks⟩, -⟩ := h.conns i
  rw [Conn.eof, hTracks.alive]
  simp

/-- A step extends the history by the request that a handler reads, and by nothing where it
is a step of a client or of the network. -/
theorem linear_step (hLimit : 3 ≤ rt.limit) (hTarget : (digitsText target.natAbs).length ≤ maxDigits)
    (h : Linear rt target rotateAfter pausedFirst ids events net history gw) {e : NetEvent ι}
    (hStep : net.step rt e = some net') :
    ∃ more gw', Linear rt target rotateAfter pausedFirst ids (events ++ [e]) net' (history ++ more) gw' := by
  have hSame (h' : Linear rt target rotateAfter pausedFirst ids (events ++ [e]) net' history gw) :
      ∃ more gw', Linear rt target rotateAfter pausedFirst ids (events ++ [e]) net' (history ++ more) gw' :=
    ⟨[], gw, (List.append_nil history).symm ▸ h'⟩
  cases e with
  | handle i =>
      obtain ⟨p, hHandle, rfl⟩ := Option.map_eq_some_iff.mp hStep
      obtain ⟨entry, gw', h'⟩ := h.handle hLimit hTarget hHandle
      exact ⟨[(i, entry)], gw', h'⟩
  | call i method =>
      obtain ⟨conn, hCall, rfl⟩ := Option.map_eq_some_iff.mp hStep
      exact hSame (h.call hCall)
  | upload i n =>
      obtain ⟨conn, hUpload, rfl⟩ := Option.map_eq_some_iff.mp hStep
      exact hSame (h.upload hUpload)
  | download i n =>
      obtain ⟨conn, hDownload, rfl⟩ := Option.map_eq_some_iff.mp hStep
      exact hSame (h.download hDownload)
  | timeout i =>
      obtain ⟨conn, hTimeout, rfl⟩ := Option.map_eq_some_iff.mp hStep
      exact hSame (h.timeout hTimeout)
  | eof i =>
      obtain ⟨conn, hEof, rfl⟩ := Option.map_eq_some_iff.mp hStep
      rw [h.no_eof] at hEof
      cases hEof

/-- A run extends the history step by step: what was served before is never taken back or
reordered. -/
theorem linear_run (hLimit : 3 ≤ rt.limit) (hTarget : (digitsText target.natAbs).length ≤ maxDigits)
    (h : Linear rt target rotateAfter pausedFirst ids events net history gw) {after : List (NetEvent ι)}
    (run : Run (Net.step rt) net after net') :
    ∃ more gw', Linear rt target rotateAfter pausedFirst ids (events ++ after) net' (history ++ more) gw' := by
  induction run with
  | nil =>
      refine ⟨[], gw, ?_⟩
      rwa [List.append_nil, List.append_nil]
  | snoc prior e hLast ih =>
      obtain ⟨more, gw', h'⟩ := ih
      obtain ⟨more', gw'', h''⟩ := linear_step hLimit hTarget h' hLast
      refine ⟨more ++ more', gw'', ?_⟩
      rwa [← List.append_assoc, ← List.append_assoc]

/-- What a client knows of the history after its calls. Its part are the first of them,
in order and each once. Up to the first timeout each call that has ended is answered by
the entry of its request; after it none is. -/
structure Conn.Follows (rt : PyRuntime) (first : Nat) (calls : List Method) (conn : Conn)
    (part : List (Nat × GatewayCall)) : Prop where
  alive : conn.died = false
  counted : conn.id = first + calls.length
  numbered : part.map Prod.fst = List.range' (first + 1) part.length
  made : part.map (·.2.method) <+: calls
  answered : ∃ done rest good bad, part = done ++ rest ∧ conn.ended = good ++ bad ∧
    List.Forall₂ AnsweredBy good done ∧ (∀ x ∈ bad.head?, TimedOut rt x) ∧ (∀ x ∈ bad, Lost rt x) ∧
    (bad = [] → rest.length ≤ conn.waiting.toList.length)

/-- What is known of a connection on the way gives what the client knows of the history
after its calls. -/
theorem Tracks.follows {first : Nat} {calls : List Method} {conn : Conn} {owed : List Owed}
    {pending : List (Nat × Method)} {part : List (Nat × GatewayCall)}
    (h : Tracks rt first calls conn owed pending part) : conn.Follows rt first calls part where
  alive := h.alive
  counted := h.counted
  numbered := by
    have hNumbered := h.numbered
    have hLength : calls.length = part.length + pending.length := by
      rw [← h.made, List.length_append, List.length_map, List.length_map]
    rw [hLength, ← List.range'_append_1] at hNumbered
    exact (List.append_inj hNumbered (by simp)).1
  made := ⟨pending.map Prod.snd, h.made⟩
  answered := by
    cases h.reading with
    | @current done answered waits =>
        refine ⟨done, entries owed, conn.ended, [], rfl, (List.append_nil _).symm, answered, nofun, nofun, fun _ => ?_⟩
        have hLength := congrArg List.length waits
        simp only [outstanding, List.length_append, List.length_map] at hLength
        rw [entries, List.length_map]
        omega
    | @behind good x bad done rest ended answered timedOut lost waits =>
        refine ⟨done, rest, good, x :: bad, rfl, ended, answered, fun y hy => ?_, fun y hy => ?_, nofun⟩
        · cases hy
          exact timedOut
        · rcases List.mem_cons.mp hy with rfl | hy
          · exact .inl timedOut
          · exact lost y hy

/-- After some events, the history is a run of the gateway, and each client follows its
part of it. -/
structure Linearized (rt : PyRuntime) (target rotateAfter pausedFirst : Int) (ids : ι → Nat)
    (events : List (NetEvent ι)) (net : Net ι) (history : List (ι × Nat × GatewayCall)) (gw : MockGateway) :
    Prop where
  served : Run MockGateway.serve (.init target rotateAfter pausedFirst) (history.map (·.2.2)) gw
  server : net.server = .ofGateway gw
  clients : ∀ i, (net.conns i).Follows rt (ids i) (called events i) (part history i)

/-- The history that a run keeps is a run of the abstract gateway, and each client follows
its own part of it. -/
theorem Linear.linearized (h : Linear rt target rotateAfter pausedFirst ids events net history gw) :
    Linearized rt target rotateAfter pausedFirst ids events net history gw where
  served := h.served
  server := h.server
  clients i := by
    obtain ⟨⟨owed, pending, hTracks⟩, -⟩ := h.conns i
    exact hTracks.follows

/-- Whatever the handlers, the network and the clients interleave, the gateway answers as
if the requests came one by one, and what it has answered once it never takes back. -/
theorem gateway_linearizable {before after : List (NetEvent ι)} (hLimit : 3 ≤ rt.limit)
    (hTarget : (digitsText target.natAbs).length ≤ maxDigits)
    (run : Run (Net.step rt) (.init target rotateAfter pausedFirst ids) before net)
    (later : Run (Net.step rt) net after net') :
    ∃ history more gw gw',
      Linearized rt target rotateAfter pausedFirst ids before net history gw ∧
        Linearized rt target rotateAfter pausedFirst ids (before ++ after) net' (history ++ more) gw' := by
  obtain ⟨history, gw, h⟩ := linear_run hLimit hTarget (linear_init ids) run
  obtain ⟨more, gw', h'⟩ := linear_run hLimit hTarget h later
  exact ⟨history, more, gw, gw', h.linearized, h'.linearized⟩

end Nets

/-- Two clients ask for a job; the one that asked last is handled first. -/
def trialBefore : List (NetEvent Bool) :=
  [.call true .getMiningInfo, .call false .getMiningInfo, .upload true 69, .upload false 69, .handle false,
    .handle true]

/-- The first client takes its job, the second one does not wait for the reply. -/
def trialAfter : List (NetEvent Bool) := [.download true 192, .timeout false]

/-- Two clients, of which one gives up a call and then reads its late reply: the history
before the timeout is the beginning of the one after it. -/
theorem gateway_linearizable_two : ∃ net net' history more gw gw',
    Run (Net.step asciiRuntime) (.init 5 3 1 fun _ => 0) trialBefore net ∧
    Run (Net.step asciiRuntime) net trialAfter net' ∧
    Linearized asciiRuntime 5 3 1 (fun _ => 0) trialBefore net history gw ∧
    Linearized asciiRuntime 5 3 1 (fun _ => 0) (trialBefore ++ trialAfter) net' (history ++ more) gw' := by
  obtain ⟨net', hAll⟩ := Option.isSome_iff_exists.mp
    (show ((trialBefore ++ trialAfter).foldlM (Net.step asciiRuntime) (.init 5 3 1 fun _ => 0)).isSome by
      decide +kernel)
  obtain ⟨net, run, later⟩ := (run_iff_foldlM.mpr hAll).of_append
  obtain ⟨history, more, gw, gw', h, h'⟩ := gateway_linearizable (show 3 ≤ asciiRuntime.limit by decide)
      (show (digitsText (5 : Int).natAbs).length ≤ maxDigits by decide +kernel) run later
  exact ⟨net, net', history, more, gw, gw', run, later, h, h'⟩

end Miner
