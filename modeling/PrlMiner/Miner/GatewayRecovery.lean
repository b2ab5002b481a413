import PrlMiner.Miner.GatewayClient

/-! A client of the gateway after a failed call. The reply that a call gave up on stays
in the stream, and every later call on the connection reads the reply of an earlier one. -/
namespace Miner.Gateway

open LittleEndian Python Lines Runs

variable {loads : List Byte → Option Json} {s s' : Session} {conn conn' : Connection} {call : Call}
  {owed : List (Nat × List Byte)} {i : Nat} {line : List Byte} {e : Event}

/-- The result, or the JSON-RPC error, of the call itself. -/
def Call.answer (loads : List Byte → Option Json) (call : Call) : Except CallError Json :=
  handleReply loads call.request.id call.reply

/-- No answer at all, or one that belongs to another request. -/
def Fails : Except CallError Json → Prop
  | .error (.idMismatch _ _) | .error .closedConnection | .error .timeout | .error .sendFailed => True
  | _ => False

/-- A line answers a request exactly if it is a single line with an object whose id is
that of the request. -/
theorem answers_iff : answers loads i line = true ↔ newline ∉ line ∧ ∃ resp, loads line = some (.obj resp) ∧
    (Fields.get resp (text "id") .null).eq (.int i) = true := by
  rw [answers, Bool.and_eq_true]
  refine and_congr (by simp) ?_
  rcases loads line with _ | _ | _ | _ | _ | _ | _ | resp <;> simp

/-- The call whose id a line has takes it as its reply, be it a result or an error of the
gateway. -/
theorem not_fails_of_answers (h : answers loads i line = true) : ¬Fails (handleReply loads i line) := by
  obtain ⟨-, resp, hLoads, hId⟩ := answers_iff.mp h
  rw [handleReply, hLoads]
  dsimp only
  rw [hId, Bool.not_true, if_neg Bool.false_ne_true]
  split_ifs
  · cases Fields.get resp (text "error") .null with
    | obj err =>
        dsimp only
        split_ifs <;> exact id
    | _ => exact id
  · exact id

/-- A call with another id fails on the line, whatever it says. -/
theorem fails_of_other {j : Nat} (h : answers loads j line = true) (hOther : j ≠ i) :
    Fails (handleReply loads i line) := by
  obtain ⟨-, resp, hLoads, hId⟩ := answers_iff.mp h
  have hNot : (Fields.get resp (text "id") .null).eq (.int i) = false := by
    rw [Bool.eq_false_iff]
    intro hSame
    exact hOther (by exact_mod_cast Json.eq_int_inj hId hSame)
  rw [handleReply, hLoads]
  dsimp only
  rw [hNot, Bool.not_false, if_pos rfl]
  trivial

/-- A call that has ended got its own answer or none. In time it got its own exactly
where no earlier call had given up on the connection. -/
structure Sound (loads : List Byte → Option Json) (call : Call) (outcome : Except CallError Json) : Prop where
  own : outcome = call.answer loads ∨ Fails outcome
  timely : call.timely = true → (outcome = call.answer loads ↔ call.earlier = 0)

/-- The replies owed on a connection, the oldest first, are what its bytes are made of. -/
structure Tracks (loads : List Byte → Option Json) (s : Session) (conn : Connection)
    (owed : List (Nat × List Byte)) : Prop where
  lines : ∀ p ∈ owed, answers loads p.1 p.2 = true
  order : (owed.map Prod.fst).Pairwise (· < ·)
  recent : ∀ p ∈ owed, p.1 ≤ s.client.id
  arrived : s.client.buf ++ conn.stream <+: joined newline (owed.map Prod.snd)
  whole : conn.closed = false → s.client.buf ++ conn.stream = joined newline (owed.map Prod.snd) ∧
    owed.length = conn.timeouts + if s.waiting.isSome then 1 else 0
  own : ∀ call, s.waiting = some call → call.request.id = s.client.id ∧
    answers loads call.request.id call.reply = true ∧ ∀ p ∈ owed, p.1 = call.request.id → p.2 = call.reply
  timely : ∀ call, s.waiting = some call → call.timely = true →
    s.client.buf ++ conn.stream = joined newline (owed.map Prod.snd) ∧ owed.length = call.earlier + 1 ∧
      (call.request.id, call.reply) ∈ owed

structure Inv (loads : List Byte → Option Json) (s : Session) : Prop where
  tracks : ∀ conn, s.client.sock = some conn → ∃ owed, Tracks loads s conn owed
  idle : s.client.sock = none → s.waiting = none
  settled : s.waiting.isSome = true → split newline s.client.buf = none
  ended : ∀ x ∈ s.ended, Sound loads x.1 x.2

/-- The oldest reply owed is that of the call itself only if there is no other, that is if
no call before it on the connection gave up. -/
theorem Tracks.head_own {p : Nat × List Byte} {rest : List (Nat × List Byte)}
    (hTracks : Tracks loads s conn (p :: rest)) (hWaiting : s.waiting = some call)
    (hTimely : call.timely = true) : p.1 = call.request.id ↔ call.earlier = 0 := by
  obtain ⟨-, hLength, hMem⟩ := hTracks.timely call hWaiting hTimely
  rw [List.length_cons, Nat.add_right_cancel_iff] at hLength
  rw [← hLength]
  constructor
  · intro hSame
    cases rest with
    | nil => rfl
    | cons q rest =>
        have hLess : p.1 < q.1 := (List.pairwise_cons.mp hTracks.order).1 q.1 (by simp)
        have hRecent := hTracks.recent q (by simp)
        rw [← (hTracks.own call hWaiting).1, ← hSame] at hRecent
        omega
  · intro hNil
    cases List.eq_nil_of_length_eq_zero hNil
    rw [List.mem_singleton] at hMem
    exact congrArg Prod.fst hMem.symm

/-- A call that waits ends with the first line that has come in full. -/
theorem readLine_eq {rest : List Byte} (hWaiting : s.waiting = some call)
    (hSplit : split newline s.client.buf = some (line, rest)) : s.readLine loads =
      ⟨{ s.client with buf := rest }, none, s.ended ++ [(call, handleReply loads call.request.id line)]⟩ := by
  rw [Session.readLine, hWaiting, Option.bind_some, readReply_of_split hSplit]
  rfl

theorem readLine_of_none (hSplit : split newline s.client.buf = none) : s.readLine loads = s := by
  rw [Session.readLine]
  cases s.waiting with
  | none => rfl
  | some call => rw [Option.bind_some, readReply_of_none hSplit]

/-- The line read for a call is the oldest reply owed: the call returns its own answer
from it, or raises. -/
theorem Tracks.sound {p : Nat × List Byte} {rest : List (Nat × List Byte)}
    (hTracks : Tracks loads s conn (p :: rest)) (hWaiting : s.waiting = some call) :
    Sound loads call (handleReply loads call.request.id p.2) := by
  obtain ⟨-, hAnswers, hOwn⟩ := hTracks.own call hWaiting
  have hSame (h : p.1 = call.request.id) : handleReply loads call.request.id p.2 = call.answer loads := by
    rw [hOwn p (by simp) h]
    rfl
  have hOther (h : p.1 ≠ call.request.id) : Fails (handleReply loads call.request.id p.2) :=
    fails_of_other (hTracks.lines p (by simp)) h
  refine ⟨?_, fun hTimely => ?_⟩
  · by_cases h : p.1 = call.request.id
    · exact .inl (hSame h)
    · exact .inr (hOther h)
  · rw [← hTracks.head_own hWaiting hTimely]
    refine ⟨fun hOutcome => ?_, hSame⟩
    by_contra h
    have hFails : Fails (call.answer loads) := hOutcome ▸ hOther h
    exact not_fails_of_answers hAnswers hFails

/-- Reading a line, where one has come in full, keeps what is known of the connection,
with one reply less that is owed. -/
theorem readLine_inv (hSock : s.client.sock = some conn) (hTracks : Tracks loads s conn owed)
    (hEnded : ∀ x ∈ s.ended, Sound loads x.1 x.2) : Inv loads (s.readLine loads) := by
  have hConn (conn' : Connection) (h : s.client.sock = some conn') : conn' = conn :=
    Option.some.inj (h.symm.trans hSock)
  have hSome : s.client.sock ≠ none := by simp [hSock]
  cases hSplit : split newline s.client.buf with
  | none =>
      rw [readLine_of_none hSplit]
      exact ⟨fun conn' h => ⟨owed, hConn conn' h ▸ hTracks⟩, fun h => absurd h hSome, fun _ => hSplit, hEnded⟩
  | some cut =>
      obtain ⟨line, rest⟩ := cut
      cases hWaiting : s.waiting with
      | none =>
          have hSame : s.readLine loads = s := by rw [Session.readLine, hWaiting, Option.bind_none]
          rw [hSame]
          refine ⟨fun conn' h => ⟨owed, hConn conn' h ▸ hTracks⟩, fun h => absurd h hSome, ?_, hEnded⟩
          rw [hWaiting]
          nofun
      | some call =>
          rw [readLine_eq hWaiting hSplit]
          cases owed with
          | nil =>
              have hNil : s.client.buf ++ conn.stream = [] := List.prefix_nil.mp hTracks.arrived
              rw [(List.append_eq_nil_iff.mp hNil).1] at hSplit
              cases hSplit
          | cons p owed =>
              have hLine := (answers_iff.mp (hTracks.lines p (by simp))).1
              obtain ⟨rfl, hRest⟩ := split_of_prefix hLine hTracks.arrived hSplit
              refine ⟨fun conn' h => ⟨owed, ?_⟩, fun h => absurd h hSome, nofun, fun x hMem => ?_⟩
              · rw [hConn conn' h]
                refine ⟨fun q hq => hTracks.lines q (by simp [hq]), (List.pairwise_cons.mp hTracks.order).2,
                  fun q hq => hTracks.recent q (by simp [hq]), hRest, fun hOpen => ?_, nofun, nofun⟩
                obtain ⟨hWhole, hLength⟩ := hTracks.whole hOpen
                rw [hWaiting] at hLength
                exact ⟨(split_of_joined hLine hWhole hSplit).2, by simpa using hLength⟩
              · rcases List.mem_append.mp hMem with hMem | hMem
                · exact hEnded x hMem
                · cases List.mem_singleton.mp hMem
                  exact hTracks.sound hWaiting

/-- A new connection owes nothing. The replies that the old one owed are gone with it. -/
theorem connect_inv (hInv : Inv loads s) (hIdle : s.waiting = none) :
    Inv loads { s with client := s.client.connect } := by
  refine ⟨fun conn h => ⟨[], ?_⟩, fun _ => hIdle, ?_, hInv.ended⟩
  · cases h
    exact ⟨fun p hp => absurd hp List.not_mem_nil, .nil, fun p hp => absurd hp List.not_mem_nil,
      List.prefix_refl _, fun _ => ⟨rfl, by simp [hIdle]⟩, by simp [hIdle], by simp [hIdle]⟩
  · rw [hIdle]
    nofun

/-- The end of a call without a line, on a connection that counts the calls that gave up.
Its reply is still owed, unless the connection is closed. -/
theorem finish_inv (hTracks : Tracks loads s conn owed) (hEnded : ∀ x ∈ s.ended, Sound loads x.1 x.2)
    (hWaiting : s.waiting = some call) (hTimely : call.timely = false) {outcome : Except CallError Json}
    (hFails : Fails outcome) (hStream : conn'.stream = conn.stream) (hClosed : conn'.closed = conn.closed)
    (hCount : conn.closed = false → owed.length = conn'.timeouts) :
    Inv loads ({ s with client := { s.client with sock := some conn' } }.finish outcome) := by
  have hFinish : { s with client := { s.client with sock := some conn' } }.finish outcome =
      ⟨{ s.client with sock := some conn' }, none, s.ended ++ [(call, outcome)]⟩ := by
    rw [Session.finish, hWaiting]
  rw [hFinish]
  refine ⟨fun _ h => ⟨owed, ?_⟩, fun _ => rfl, nofun, fun x hMem => ?_⟩
  · cases h
    refine ⟨hTracks.lines, hTracks.order, hTracks.recent, ?_, fun hOpen => ?_, nofun, nofun⟩
    · rw [hStream]
      exact hTracks.arrived
    · rw [hClosed] at hOpen
      rw [hStream]
      exact ⟨(hTracks.whole hOpen).1, hCount hOpen⟩
  · rcases List.mem_append.mp hMem with hMem | hMem
    · exact hEnded x hMem
    · cases List.mem_singleton.mp hMem
      refine ⟨.inr hFails, fun h => ?_⟩
      rw [hTimely] at h
      cases h

theorem with_sock (hSock : s.client.sock = some conn) :
    { s with client := { s.client with sock := some conn } } = s := by
  rw [← hSock]

/-- A request on an open connection is owed a reply, behind the replies owed before. -/
theorem Tracks.send (hTracks : Tracks loads s conn owed) (hIdle : s.waiting = none)
    (hOpen : conn.closed = false) (method : Text) (params : Json) {reply : List Byte} (timely : Bool)
    (hAnswers : answers loads (s.client.id + 1) reply = true) :
    Tracks loads
      { s with
        client := ⟨some { conn with stream := conn.stream ++ (reply ++ [newline]) }, s.client.buf, s.client.id + 1⟩
        waiting := some ⟨⟨method, params, s.client.id + 1⟩, reply, timely, conn.timeouts⟩ }
      { conn with stream := conn.stream ++ (reply ++ [newline]) } (owed ++ [(s.client.id + 1, reply)]) := by
  obtain ⟨hWhole, hLength⟩ := hTracks.whole hOpen
  have hStream : s.client.buf ++ (conn.stream ++ (reply ++ [newline])) =
      joined newline ((owed ++ [(s.client.id + 1, reply)]).map Prod.snd) := by
    rw [← List.append_assoc, hWhole, List.map_append, joined_append]
    simp
  have hCount : (owed ++ [(s.client.id + 1, reply)]).length = conn.timeouts + 1 := by
    rw [List.length_append, hLength, hIdle]
    rfl
  refine ⟨fun p hp => ?_, ?_, fun p hp => ?_, hStream ▸ List.prefix_refl _, fun _ => ⟨hStream, hCount⟩, ?_, ?_⟩
  · rcases List.mem_append.mp hp with hp | hp
    · exact hTracks.lines p hp
    · cases List.mem_singleton.mp hp
      exact hAnswers
  · rw [List.map_append, List.pairwise_append]
    refine ⟨hTracks.order, List.pairwise_singleton _ _, fun i hi j hj => ?_⟩
    obtain ⟨p, hp, rfl⟩ := List.mem_map.mp hi
    cases List.mem_singleton.mp hj
    exact Nat.lt_succ_of_le (hTracks.recent p hp)
  · rcases List.mem_append.mp hp with hp | hp
    · exact Nat.le_succ_of_le (hTracks.recent p hp)
    · cases List.mem_singleton.mp hp
      exact Nat.le_refl _
  · rintro _ ⟨⟩
    refine ⟨rfl, hAnswers, fun p hp hSame => ?_⟩
    rcases List.mem_append.mp hp with hp | hp
    · have hRecent := hTracks.recent p hp
      dsimp only at hSame
      omega
    · cases List.mem_singleton.mp hp
      rfl
  · rintro _ ⟨⟩ -
    exact ⟨hStream, hCount, by simp⟩

/-- A request on a closed connection is lost, and nothing is owed for it. -/
theorem Tracks.lose (hTracks : Tracks loads s conn owed) (hClosed : conn.closed = true) {reply : List Byte}
    (method : Text) (params : Json) (hAnswers : answers loads (s.client.id + 1) reply = true) :
    Tracks loads
      { s with
        client := { s.client with id := s.client.id + 1 }
        waiting := some ⟨⟨method, params, s.client.id + 1⟩, reply, false, conn.timeouts⟩ }
      conn owed := by
  refine ⟨hTracks.lines, hTracks.order, fun p hp => Nat.le_succ_of_le (hTracks.recent p hp), hTracks.arrived,
    fun hOpen => ?_, ?_, ?_⟩
  · rw [hClosed] at hOpen
    cases hOpen
  · rintro _ ⟨⟩
    refine ⟨rfl, hAnswers, fun p hp hSame => ?_⟩
    have hRecent := hTracks.recent p hp
    dsimp only at hSame
    omega
  · rintro _ ⟨⟩ h
    cases h

/-- A request is sent or fails to be sent. In either case the connection is tracked as
before, with one reply more that is owed or one call more that gave up. -/
theorem send_inv (hSock : s.client.sock = some conn) (hInv : Inv loads s) (hIdle : s.waiting = none)
    {method : Text} {params : Json} {reply : List Byte} {timely sendFails : Bool}
    (hAnswers : answers loads (s.client.id + 1) reply = true)
    (h : s.send loads conn method params reply timely sendFails = some s') : Inv loads s' := by
  obtain ⟨owed, hTracks⟩ := hInv.tracks conn hSock
  rw [Session.send] at h
  dsimp only at h
  cases hClosed : conn.closed with
  | true =>
      rw [if_pos hClosed] at h
      cases timely with
      | true => cases h
      | false =>
          have hLost := hTracks.lose hClosed method params hAnswers
          rw [if_neg Bool.false_ne_true] at h
          cases sendFails with
          | true =>
              cases h
              have hEnd := finish_inv hLost hInv.ended rfl rfl (show Fails (.error .sendFailed) from trivial)
                rfl rfl (by simp [hClosed])
              rwa [← hSock] at hEnd
          | false =>
              cases h
              exact readLine_inv hSock hLost hInv.ended
  | false =>
      rw [if_neg (Bool.eq_false_iff.mp hClosed)] at h
      cases sendFails with
      | true => cases h
      | false =>
          cases h
          exact readLine_inv rfl (hTracks.send hIdle hClosed method params timely hAnswers) hInv.ended

/-- The bytes on their way do not change what is owed, however many of them have been
received. -/
theorem Tracks.congr (hTracks : Tracks loads s conn owed) {client : GatewayClient}
    (hId : client.id = s.client.id) (hStream : client.buf ++ conn'.stream = s.client.buf ++ conn.stream)
    (hClosed : conn'.closed = conn.closed) (hTimeouts : conn'.timeouts = conn.timeouts) :
    Tracks loads { s with client := client } conn' owed := by
  obtain ⟨hLines, hOrder, hRecent, hArrived, hWhole, hOwn, hTimely⟩ := hTracks
  rw [← hId] at hRecent hOwn
  rw [← hStream] at hArrived hWhole hTimely
  rw [← hClosed, ← hTimeouts] at hWhole
  exact ⟨hLines, hOrder, hRecent, hArrived, hWhole, hOwn, hTimely⟩

/-- The gateway closes behind a part of the stream. The replies that are cut off never
come. -/
theorem Tracks.truncate (hTracks : Tracks loads s conn owed) {keep : Nat}
    (hTimely : ∀ call, s.waiting = some call → call.timely = true → keep = conn.stream.length) :
    Tracks loads s { conn with stream := conn.stream.take keep, closed := true } owed := by
  refine ⟨hTracks.lines, hTracks.order, hTracks.recent, ?_, nofun, hTracks.own, fun call hWaiting hCall => ?_⟩
  · refine List.IsPrefix.trans ?_ hTracks.arrived
    rw [List.prefix_append_right_inj]
    exact List.take_prefix keep conn.stream
  · dsimp only
    rw [hTimely call hWaiting hCall, List.take_length]
    exact hTracks.timely call hWaiting hCall

/-- A timely call does not see the end of the stream, since its reply comes before it. -/
theorem Inv.not_timely (hInv : Inv loads s) (hSock : s.client.sock = some conn)
    (hWaiting : s.waiting = some call) (hNil : conn.stream = []) : call.timely = false := by
  rw [Bool.eq_false_iff]
  intro hTimely
  obtain ⟨owed, hTracks⟩ := hInv.tracks conn hSock
  obtain ⟨hStream, -, hMem⟩ := hTracks.timely call hWaiting hTimely
  have hNone := split_eq_none_iff.mp (hInv.settled (by simp [hWaiting]))
  rw [hNil, List.append_nil] at hStream
  rw [hStream, joined, List.mem_flatMap] at hNone
  exact hNone ⟨call.reply, List.mem_map.mpr ⟨_, hMem, rfl⟩, by simp⟩

/-- The client closes its connection between two calls. -/
theorem close_inv (hInv : Inv loads s) (hStep : step loads s .close = some s') : Inv loads s' := by
  rw [step] at hStep
  split_ifs at hStep with hIdle
  cases hStep
  have hNone := Option.not_isSome_iff_eq_none.mp hIdle
  refine ⟨nofun, fun _ => hNone, fun h => ?_, hInv.ended⟩
  exact absurd h hIdle

/-- A call is sent over the connection there is, or over a new one. -/
theorem call_inv {method : Text} {params : Json} {reply : List Byte} {timely sendFails : Bool}
    (hInv : Inv loads s) (hStep : step loads s (.call method params reply timely sendFails) = some s') :
    Inv loads s' := by
  rw [step] at hStep
  split_ifs at hStep with hGuard hSock
  all_goals
    rw [not_or] at hGuard
    have hIdle := Option.not_isSome_iff_eq_none.mp hGuard.1
    have hAnswers := eq_true_of_ne_false hGuard.2
  · obtain ⟨conn, hConn, hSend⟩ := Option.bind_eq_some_iff.mp hStep
    exact send_inv hConn (connect_inv hInv hIdle) hIdle hAnswers hSend
  · obtain ⟨conn, hConn, hSend⟩ := Option.bind_eq_some_iff.mp hStep
    exact send_inv hConn hInv hIdle hAnswers hSend

/-- Bytes that the gateway has sent arrive at the client and are received later. -/
theorem arrive_inv {n : Nat} (hInv : Inv loads s) (hStep : step loads s (.arrive n) = some s') : Inv loads s' := by
  obtain ⟨conn, hSock, hStep⟩ := Option.bind_eq_some_iff.mp hStep
  split_ifs at hStep
  cases hStep
  obtain ⟨owed, hTracks⟩ := hInv.tracks conn hSock
  refine ⟨fun conn' h => ⟨owed, ?_⟩, nofun, hInv.settled, hInv.ended⟩
  cases h
  exact hTracks.congr rfl rfl rfl rfl

/-- The gateway cuts off no reply that is to arrive in time. -/
theorem gatewayCloses_inv {keep : Nat} (hInv : Inv loads s)
    (hStep : step loads s (.gatewayCloses keep) = some s') : Inv loads s' := by
  obtain ⟨conn, hSock, hStep⟩ := Option.bind_eq_some_iff.mp hStep
  split_ifs at hStep with hGuard
  cases hStep
  obtain ⟨owed, hTracks⟩ := hInv.tracks conn hSock
  refine ⟨fun conn' h => ⟨owed, ?_⟩, nofun, hInv.settled, hInv.ended⟩
  cases h
  refine (hTracks.truncate fun call hWaiting hTimely => ?_).congr rfl rfl rfl rfl
  by_contra hKeep
  exact hGuard (.inr (.inr (.inr ⟨hKeep, by simp [hWaiting, hTimely]⟩)))

/-- The client receives some of the bytes that have arrived, and reads a line when it is
complete. -/
theorem recv_inv {n : Nat} (hInv : Inv loads s) (hStep : step loads s (.recv n) = some s') : Inv loads s' := by
  obtain ⟨conn, hSock, hStep⟩ := Option.bind_eq_some_iff.mp hStep
  split_ifs at hStep
  cases hStep
  obtain ⟨owed, hTracks⟩ := hInv.tracks conn hSock
  refine readLine_inv rfl (hTracks.congr rfl ?_ rfl rfl) hInv.ended
  dsimp only
  rw [List.append_assoc, List.take_append_drop]

/-- Only a call whose reply does not come in time is timed out. -/
theorem timeout_inv (hInv : Inv loads s) (hStep : step loads s .timeout = some s') : Inv loads s' := by
  obtain ⟨conn, hSock, hStep⟩ := Option.bind_eq_some_iff.mp hStep
  split_ifs at hStep with hGuard
  cases hStep
  obtain ⟨owed, hTracks⟩ := hInv.tracks conn hSock
  rw [not_or, not_or] at hGuard
  obtain ⟨call, hWaiting⟩ := Option.ne_none_iff_exists'.mp
    fun (h : s.waiting = none) => hGuard.1 (by simp [h])
  refine finish_inv hTracks hInv.ended hWaiting ?_ trivial rfl rfl fun hOpen => ?_
  · simpa [hWaiting] using hGuard.2.1
  · simpa [hWaiting] using (hTracks.whole hOpen).2

/-- A client that meets the end of the stream raises. Its call was not to be answered in
time. -/
theorem eof_inv (hInv : Inv loads s) (hStep : step loads s .eof = some s') : Inv loads s' := by
  obtain ⟨conn, hSock, hStep⟩ := Option.bind_eq_some_iff.mp hStep
  split_ifs at hStep with hGuard
  cases hStep
  obtain ⟨owed, hTracks⟩ := hInv.tracks conn hSock
  rw [not_or, not_or, not_not] at hGuard
  obtain ⟨call, hWaiting⟩ := Option.ne_none_iff_exists'.mp
    fun (h : s.waiting = none) => hGuard.1 (by simp [h])
  have hEnd := finish_inv hTracks hInv.ended hWaiting (hInv.not_timely hSock hWaiting hGuard.2.2)
    (show Fails (.error .closedConnection) from trivial) rfl rfl fun hOpen => absurd hOpen hGuard.2.1
  rwa [with_sock hSock] at hEnd

/-- Every event keeps what is known of the client and of its connection, and of the calls
that have ended. -/
theorem inv_step (hInv : Inv loads s) (hStep : step loads s e = some s') : Inv loads s' := by
  cases e with
  | connect =>
      rw [step] at hStep
      split_ifs at hStep with hIdle
      cases hStep
      exact connect_inv hInv (Option.not_isSome_iff_eq_none.mp hIdle)
  | close => exact close_inv hInv hStep
  | call method params reply timely sendFails => exact call_inv hInv hStep
  | arrive n => exact arrive_inv hInv hStep
  | gatewayCloses keep => exact gatewayCloses_inv hInv hStep
  | recv n => exact recv_inv hInv hStep
  | timeout => exact timeout_inv hInv hStep
  | eof => exact eof_inv hInv hStep

/-- So it holds after every run of calls, connections, bytes and timeouts. -/
theorem inv_of_run {events : List Event} (run : Run (step loads) Session.init events s) : Inv loads s := by
  refine run.invariant (Inv loads) ⟨nofun, fun _ => rfl, nofun, ?_⟩ fun _ _ _ hInv hStep => inv_step hInv hStep
  exact fun x hMem => absurd hMem List.not_mem_nil

/-- Every call whose reply is delivered in time returns its own answer, and no call
returns the result of another request. -/
def Recovers (loads : List Byte → Option Json) (s : Session) : Prop :=
  (∀ x ∈ s.ended, x.1.timely = true → x.2 = x.1.answer loads) ∧
    ∀ x ∈ s.ended, ∀ v, x.2 = .ok v → x.1.answer loads = .ok v

/-- No call with a reply in time is made on a connection on which another one gave up. -/
def NoneGaveUp (s : Session) : Prop := ∀ x ∈ s.ended, x.1.timely = true → x.1.earlier = 0

/-- The calls that have ended returned what they should have exactly if none whose reply
came in time was made after one that gave up on the same connection. -/
theorem Inv.recovers_iff (hInv : Inv loads s) : Recovers loads s ↔ NoneGaveUp s := by
  constructor
  · intro h x hMem hTimely
    exact ((hInv.ended x hMem).timely hTimely).mp (h.1 x hMem hTimely)
  · intro h
    refine ⟨fun x hMem hTimely => ((hInv.ended x hMem).timely hTimely).mpr (h x hMem hTimely), ?_⟩
    intro x hMem v hOk
    rcases (hInv.ended x hMem).own with hOwn | hFails
    · rw [← hOwn, hOk]
    · rw [hOk] at hFails
      exact absurd hFails id

/-- The client recovers in a run exactly where no call after one that gave up has its
reply delivered. -/
theorem client_recovers_iff (loads : List Byte → Option Json) (events : List Event) :
    EveryState (step loads) Session.init (Recovers loads) events ↔
      EveryState (step loads) Session.init NoneGaveUp events := by
  constructor
  · intro h before after s hEvents run
    exact (inv_of_run run).recovers_iff.mp (h before after s hEvents run)
  · intro h before after s hEvents run
    exact (inv_of_run run).recovers_iff.mpr (h before after s hEvents run)

/-- The bytes of an ASCII text. -/
def ascii (s : String) : List Byte := (text s).map fun c => BitVec.ofNat 8 c.val

/-- The reply of the gateway to a submit. -/
def submittedReply (id : String) : List Byte :=
  ascii "\x7b\"jsonrpc\": \"2.0\", \"id\": " ++ ascii id ++ ascii ", \"result\": \"submitted\"\x7d"

/-- `json.loads` on two replies. -/
def loadsReplies (line : List Byte) : Option Json :=
  let reply (id : Int) : Json := .obj [(text "jsonrpc", .str (text "2.0")), (text "id", .int id),
    (text "result", .str (text "submitted"))]
  if line = submittedReply "1" then some (reply 1)
  else if line = submittedReply "2" then some (reply 2)
  else none

/-- The first call gives up, its reply is late. The reply to the second one is in time. -/
def lateReply : List Event :=
  [.call (text "submitPlainProof") (.obj []) (submittedReply "1") false false, .timeout,
    .call (text "submitPlainProof") (.obj []) (submittedReply "2") true false,
    .arrive 102, .recv 102]

/-- Of each call: whether its reply is in time, whether the call returns, and whether
its own answer is a result. -/
theorem lateReply_ends : (lateReply.foldlM (step loadsReplies) Session.init).map
    (fun s => s.ended.map fun x => (x.1.timely, x.2.toOption.isSome, (x.1.answer loadsReplies).toOption.isSome)) =
      some [(false, false, true), (true, false, true)] := by
  decide +kernel

/-- The second call raises although its reply is in time and says `submitted`: it reads
the reply of the first, which gave up. -/
theorem late_reply_breaks_client : ∃ s, Run (step loadsReplies) Session.init lateReply s ∧
    (∃ x ∈ s.ended, x.1.timely = true ∧ x.2.toOption.isSome = false ∧
      (x.1.answer loadsReplies).toOption.isSome = true) ∧ ¬Recovers loadsReplies s := by
  obtain ⟨s, hRun, hEnded⟩ := Option.map_eq_some_iff.mp lateReply_ends
  have hMem : (true, false, true) ∈ s.ended.map fun x =>
      (x.1.timely, x.2.toOption.isSome, (x.1.answer loadsReplies).toOption.isSome) := by
    rw [hEnded]
    simp
  obtain ⟨x, hMem, hSame⟩ := List.mem_map.mp hMem
  obtain ⟨hTimely, hSame⟩ := Prod.mk.inj hSame
  obtain ⟨hRaises, hAnswer⟩ := Prod.mk.inj hSame
  refine ⟨s, run_iff_foldlM.mpr hRun, ⟨x, hMem, hTimely, hRaises, hAnswer⟩, fun hRecovers => ?_⟩
  rw [← hRecovers.1 x hMem hTimely, hRaises] at hAnswer
  cases hAnswer

end Miner.Gateway
