import PrlMiner.Miner.GatewayHistory

/-! Calls that the network carries to their end: a connection with nothing under way takes
the next call, and each history of the gateway is one that clients can have with it. -/
namespace Miner

open LittleEndian Python Lines Runs

section Quiet

variable {rt : PyRuntime} {first : Nat} {calls : List Method} {conn : Conn} {owed : List Owed}
  {pending : List (Nat × Method)} {part : List (Nat × GatewayCall)}

/-- Nothing is under way on the connection. -/
structure Conn.Quiet (conn : Conn) : Prop where
  idle : conn.waiting = none
  sent : conn.rfile ++ conn.toServer = []
  replied : conn.buf ++ conn.toClient = []

/-- A quiet connection is decided by the id that its client has come to and by the calls
that have ended. -/
theorem Conn.Quiet.eq (quiet : conn.Quiet) (hAlive : conn.died = false) :
    conn = ⟨conn.id, [], none, conn.ended, [], [], [], false⟩ := by
  obtain ⟨id, buf, waiting, ended, toServer, rfile, toClient, died⟩ := conn
  obtain ⟨rfl, hSent, hReplied⟩ := quiet
  obtain ⟨rfl, rfl⟩ := List.append_eq_nil_iff.mp hSent
  obtain ⟨rfl, rfl⟩ := List.append_eq_nil_iff.mp hReplied
  cases hAlive
  rfl

/-- All calls on a quiet connection have been answered, and nothing is owed or pending on
it. -/
theorem Tracks.of_quiet (h : Tracks rt first calls conn owed pending part) (quiet : conn.Quiet) :
    owed = [] ∧ pending = [] ∧ List.Forall₂ AnsweredBy conn.ended part := by
  have hPending : pending = [] := List.map_eq_nil_iff.mp (joined_eq_nil (h.requests.symm.trans quiet.sent))
  have hOwed : owed = [] := List.map_eq_nil_iff.mp (joined_eq_nil (h.replies.symm.trans quiet.replied))
  subst hPending hOwed
  refine ⟨rfl, rfl, ?_⟩
  cases h.reading with
  | current answered waits => rwa [entries, List.map_nil, List.append_nil]
  | behind ended answered timedOut lost waits => cases waits

/-- A connection is quiet once all that was called on it has been answered in time. -/
theorem Tracks.quiet (h : Tracks rt first calls conn owed pending part) (hIdle : conn.waiting = none)
    (hInTime : ∀ x ∈ conn.ended, ¬TimedOut rt x) : conn.Quiet := by
  have hRequests := h.requests
  have hReplies := h.replies
  cases h.reading with
  | current answered waits =>
      rw [hIdle] at waits
      obtain ⟨hOwed, rfl⟩ := List.append_eq_nil_iff.mp waits
      obtain rfl := List.map_eq_nil_iff.mp hOwed
      exact ⟨hIdle, hRequests, hReplies⟩
  | @behind good x bad done rest ended answered timedOut lost waits =>
      exact absurd timedOut (hInTime x (by simp [ended]))

/-- With a call under way, either its request or the reply to it is, and nothing else,
since no call before it was late. -/
theorem Tracks.under_way (h : Tracks rt first calls conn owed pending part) {method : Method}
    (hWaiting : conn.waiting = some method) (hInTime : ∀ x ∈ conn.ended, ¬TimedOut rt x) :
    (owed = [] ∧ pending = [(conn.id, method)]) ∨ ∃ o, owed = [o] ∧ pending = [] := by
  cases h.reading with
  | current answered waits =>
      rw [hWaiting, outstanding] at waits
      rcases List.append_eq_cons_iff.mp waits with ⟨hOwed, hPending⟩ | ⟨rest, hOwed, hRest⟩
      · exact .inl ⟨List.map_eq_nil_iff.mp hOwed, hPending⟩
      · obtain ⟨rfl, rfl⟩ := List.append_eq_nil_iff.mp hRest.symm
        obtain ⟨o, rfl, -⟩ := List.map_eq_singleton_iff.mp hOwed
        exact .inr ⟨o, rfl, rfl⟩
  | @behind good x bad done rest ended answered timedOut lost waits =>
      exact absurd timedOut (hInTime x (by simp [ended]))

/-- A quiet connection after one more call, with the answer of the gateway to it. -/
theorem Tracks.answered (h : Tracks rt first calls conn [] [] part)
    (hAnswered : List.Forall₂ AnsweredBy conn.ended part) {c : GatewayCall} {answer : Answer}
    (hAgrees : Agrees c answer) :
    Tracks rt first (calls ++ [c.method])
      ⟨conn.id + 1, [], none, conn.ended ++ [⟨conn.id + 1, c.method, answer⟩], [], [], [], false⟩ [] []
      (part ++ [(conn.id + 1, c)]) where
  alive := rfl
  counted := by
    rw [h.counted, List.length_append]
    rfl
  numbered := by
    have hNumbered := h.numbered
    rw [List.map_nil, List.append_nil] at hNumbered
    rw [List.map_append, hNumbered, List.length_append, h.counted, List.map_nil, List.append_nil]
    exact (Nat.add_right_comm first 1 calls.length).symm ▸ (List.range'_1_concat).symm
  made := by
    have hMade := h.made
    rw [List.map_nil, List.append_nil] at hMade
    rw [List.map_append, hMade, List.map_nil, List.append_nil]
    rfl
  requests := rfl
  replies := rfl
  prints := nofun
  sound := nofun
  unread := List.nil_suffix
  last := nofun
  reading := by
    have hReading : Reading rt
        ⟨conn.id + 1, [], none, conn.ended ++ [⟨conn.id + 1, c.method, answer⟩], [], [], [], false⟩ [] []
        (part ++ [(conn.id + 1, c)] ++ entries []) :=
      .current (List.rel_append hAnswered (.cons ⟨rfl, rfl, hAgrees⟩ .nil)) rfl
    rwa [entries, List.map_nil, List.append_nil] at hReading

end Quiet

section Calls

variable {ι : Type} [DecidableEq ι] {rt : PyRuntime} {target rotateAfter pausedFirst : Int} {net : Net ι}
  {ids : ι → Nat} {events : List (NetEvent ι)} {history : List (ι × Nat × GatewayCall)} {gw : MockGateway} {i : ι}

/-- The calls of some events are those of their parts, in this order. -/
theorem called_append (events events' : List (NetEvent ι)) (i : ι) :
    called (events ++ events') i = called events i ++ called events' i := List.filterMap_append

theorem setConn_conns (conn : Conn) : (net.setConn i conn).conns i = conn := by
  simp [Net.setConn]

theorem setConn_setConn (conn conn' : Conn) : (net.setConn i conn).setConn i conn' = net.setConn i conn' := by
  simp [Net.setConn]

theorem step_download (conn : Conn) (n : Nat) :
    (net.setConn i conn).step rt (.download i n) = (conn.download rt n).map (net.setConn i) := by
  rw [Net.step, funext (setConn_setConn conn)]
  simp [Net.setConn]

/-- A line that comes byte by byte ends the call with its last byte, and not before. -/
theorem downloads (rt : PyRuntime) (net : Net ι) (i : ι) (id : Nat) (method : Method) (ended : List EndedCall)
    {line toClient : List Byte} (hLine : Gateway.newline ∉ line) (hMore : toClient ≠ []) {buf : List Byte}
    (hStream : buf ++ toClient = line ++ [Gateway.newline]) :
    ∃ k, Run (Net.step rt) (net.setConn i ⟨id, buf, some method, ended, [], [], toClient, false⟩)
      (List.replicate k (.download i 1)) (net.setConn i
        ⟨id, [], none, ended ++ [⟨id, method, rt.answer method (rt.handleReply id line)⟩], [], [], [], false⟩) := by
  induction toClient generalizing buf with
  | nil => exact absurd rfl hMore
  | cons x toClient ih =>
      by_cases hLast : toClient = []
      · -- the last byte is the newline
        subst hLast
        obtain ⟨rfl, hNewline⟩ := List.append_inj' hStream rfl
        obtain rfl := (List.cons.inj hNewline).1
        refine ⟨1, .snoc .nil _ ?_⟩
        rw [step_download]
        simp [Conn.download, Conn.readLine, Gateway.readReply_of_split (split_append hLine), Conn.finish]
      · obtain ⟨before, last, rfl⟩ := List.eq_nil_or_concat toClient |>.resolve_left hLast
        rw [List.concat_eq_append] at hStream
        have hShift : (buf ++ [x]) ++ (before ++ [last]) = line ++ [Gateway.newline] := by simpa using hStream
        obtain ⟨hBefore, -⟩ := List.append_inj' ((List.append_assoc _ _ _).trans hShift) rfl
        have hNone : split Gateway.newline (buf ++ [x]) = none := by
          refine split_eq_none_iff.mpr fun hMem => hLine ?_
          rw [← hBefore]
          exact List.mem_append_left before hMem
        obtain ⟨k, run⟩ := ih hLast (by rw [List.concat_eq_append]; exact hShift)
        refine ⟨k + 1, (Run.snoc .nil (.download i 1) ?_).append run⟩
        rw [step_download]
        simp [Conn.download, Conn.readLine, Gateway.readReply_of_none hNone]

/-- The last byte of a request arrives, its handler answers, and the client reads that
byte by byte. -/
theorem carries {id : Nat} {method : Method} {ended : List EndedCall} {toServer rfile : List Byte}
    (hConn : net.conns i = ⟨id, [], some method, ended, toServer, rfile, [], false⟩) {request line : List Byte}
    (hStream : rfile ++ toServer = request ++ [Gateway.newline]) (hRequest : Gateway.newline ∉ request)
    (hLine : Gateway.newline ∉ line) {server : MockServer}
    (hHandled : net.server.handleLine rt (request ++ [Gateway.newline]) =
      .replied (line ++ [Gateway.newline]) server) :
    ∃ more, (∀ j, called more j = []) ∧ Run (Net.step rt) net more (Net.setConn { net with server := server } i
      ⟨id, [], none, ended ++ [⟨id, method, rt.answer method (rt.handleReply id line)⟩], [], [], [], false⟩) := by
  let waiting (rfile toClient : List Byte) : Conn := ⟨id, [], some method, ended, [], rfile, toClient, false⟩
  have hUpload : net.step rt (.upload i toServer.length) =
      some (net.setConn i (waiting (request ++ [Gateway.newline]) [])) := by
    rw [Net.step, hConn, Conn.upload, if_neg (lt_irrefl _), List.take_length, List.drop_length, hStream]
    rfl
  have hHandle : (net.setConn i (waiting (request ++ [Gateway.newline]) [])).step rt (.handle i) =
      some (Net.setConn { net with server := server } i (waiting [] (line ++ [Gateway.newline]))) := by
    have hCut : split Gateway.newline (request ++ [Gateway.newline]) = some (request, []) := split_append hRequest
    rw [Net.step]
    simp only [Net.setConn, Function.update_self, Function.update_idem, Conn.handle, waiting, hCut, hHandled,
      Option.map_some, List.nil_append]
  obtain ⟨k, hDownloads⟩ := downloads rt { net with server := server } i id method ended hLine (by simp)
    (List.nil_append (line ++ [Gateway.newline]))
  refine ⟨_, fun j => ?_, .append (.snoc (.snoc .nil _ hUpload) _ hHandle) hDownloads⟩
  simp [called]

/-- A request that the gateway can read is answered as the gateway serves it, by a single
line. -/
theorem handled_as_served (hLimit : 3 ≤ rt.limit) (hTarget : (digitsText gw.target.natAbs).length ≤ maxDigits)
    {method : Method} {id : Nat} (hPrints : Conn.Prints method id) :
    ∃ line, Gateway.newline ∉ line ∧ Gateway.newline ∉ requestLine rt (id, method) ∧
      (MockServer.ofGateway gw).handleLine rt (requestLine rt (id, method) ++ [Gateway.newline]) =
        .replied (line ++ [Gateway.newline]) (.ofGateway (method.serve gw).2) ∧
      Agrees (method.serve gw).1 (rt.answer method (rt.handleReply id line)) := by
  have hExchanged := exchange hLimit hTarget method hPrints.2
  have hHandled := handleLine_request hLimit hPrints.1 hPrints.2 (.ofGateway gw)
  have hPlain : (Json.obj (method.request id)).Plain rt.limit := by
    obtain ⟨limit, hLimit⟩ : ∃ limit, rt.limit = limit + 3 := ⟨rt.limit - 3, by omega⟩
    rw [hLimit]
    exact plain_request hPrints.1 hPrints.2
  rw [dumpsLine_eq, dumpsLine_eq, hExchanged.server] at hHandled
  exact ⟨_, newline_not_mem hExchanged.plain, newline_not_mem hPlain, hHandled, hExchanged.agrees⟩

/-- A quiet connection carries the next call, and the others are left as they are. -/
theorem Linear.round_trip (hLimit : 3 ≤ rt.limit) (hTarget : (digitsText target.natAbs).length ≤ maxDigits)
    (h : Linear rt target rotateAfter pausedFirst ids events net history gw) (quiet : (net.conns i).Quiet)
    {method : Method} (hPrints : Conn.Prints method ((net.conns i).id + 1)) :
    ∃ more net' answer, Run (Net.step rt) net more net' ∧
      Linear rt target rotateAfter pausedFirst ids (events ++ more) net'
        (history ++ [(i, (net.conns i).id + 1, (method.serve gw).1)]) (method.serve gw).2 ∧
      Agrees (method.serve gw).1 answer ∧ (net'.conns i).Quiet ∧
      (net'.conns i).ended = (net.conns i).ended ++ [⟨(net.conns i).id + 1, method, answer⟩] ∧
      ∀ j, j ≠ i → net'.conns j = net.conns j := by
  obtain ⟨⟨owed, pending, hTracks⟩, -⟩ := h.conns i
  obtain ⟨rfl, rfl, hAnswered⟩ := hTracks.of_quiet quiet
  obtain ⟨id, ended, hConn⟩ : ∃ id ended, net.conns i = ⟨id, [], none, ended, [], [], [], false⟩ :=
    ⟨_, _, quiet.eq hTracks.alive⟩
  rw [hConn] at hTracks hAnswered hPrints
  obtain ⟨line, hLine, hRequest, hHandled, hAgrees⟩ :=
    handled_as_served hLimit (h.target.symm ▸ hTarget : (digitsText gw.target.natAbs).length ≤ maxDigits) hPrints
  have hAfter := hTracks.answered hAnswered hAgrees
  rw [method_serve] at hAfter
  let asked : Conn :=
    ⟨id + 1, [], some method, ended, requestLine rt (id + 1, method) ++ [Gateway.newline], [], [], false⟩
  have hCall : net.step rt (.call i method) = some (net.setConn i asked) := by
    rw [Net.step, hConn, Conn.call, if_neg (by simp [hPrints]), dumpsLine_eq]
    rfl
  have hAsked : (net.setConn i asked).conns i = asked := setConn_conns asked
  have hServer : (net.setConn i asked).server = .ofGateway gw := h.server
  obtain ⟨more, hCalled, run⟩ := carries hAsked (List.nil_append _) hRequest hLine (hServer.symm ▸ hHandled)
  have hCalls (j : ι) : called (events ++ .call i method :: more) j =
      if i = j then called events j ++ [method] else called events j := by
    rw [List.append_cons, called_append, hCalled, called_call, List.append_nil]
  refine ⟨.call i method :: more, _, _, (Run.snoc .nil _ hCall).append run, ⟨?_, rfl, ?_, fun j => ?_⟩, hAgrees, ?_, ?_,
    fun j hj => ?_⟩
  · rw [List.map_append]
    exact h.served.snoc _ (serve_method method gw)
  · exact (serve_target method gw).trans h.target
  · rw [hCalls]
    dsimp only [Net.setConn]
    rw [Function.update_idem]
    by_cases hj : i = j
    · subst hj
      rw [Function.update_self, if_pos rfl, hConn, part_same]
      exact ⟨⟨[], [], hAfter⟩, fun hSome => by cases hSome⟩
    · rw [Function.update_of_ne (Ne.symm hj), if_neg hj, part_other (Ne.symm hj)]
      exact h.conns j
  · dsimp only [Net.setConn]
    rw [Function.update_self]
    exact ⟨rfl, rfl, rfl⟩
  · dsimp only [Net.setConn]
    rw [Function.update_self, hConn]
  · dsimp only [Net.setConn]
    rw [Function.update_of_ne hj, Function.update_of_ne hj]

/-- A call that the gateway answers so is its own step: the answer is that of the
method. -/
theorem serve_eq {gw' : MockGateway} {c : GatewayCall} (h : gw.serve c = some gw') : c.method.serve gw = (c, gw') := by
  cases c with
  | getMiningInfo answer =>
      obtain ⟨rfl, rfl⟩ := MockGateway.serve_getMiningInfo h
      rfl
  | submitPlainProof submission answer =>
      obtain ⟨rfl, rfl⟩ := MockGateway.serve_submitPlainProof h
      rfl

/-- Calls one after the other, each once the last one has ended. By induction on the calls
that are served. -/
theorem linear_of_served (hLimit : 3 ≤ rt.limit) (hTarget : (digitsText target.natAbs).length ≤ maxDigits)
    {calls : List (ι × GatewayCall)}
    (served : Run MockGateway.serve (.init target rotateAfter pausedFirst) (calls.map Prod.snd) gw)
    (hPrints : ∀ entry ∈ calls, entry.2.method.Prints)
    (hIds : ∀ i, ∀ n ≤ calls.length, (digitsText (ids i + n)).length ≤ maxDigits) :
    ∃ events net history, Run (Net.step rt) (.init target rotateAfter pausedFirst ids) events net ∧
      Linear rt target rotateAfter pausedFirst ids events net history gw ∧
      history.map (fun entry => (entry.1, entry.2.2)) = calls ∧ ∀ i, (net.conns i).Quiet := by
  induction calls using List.reverseRecOn generalizing gw with
  | nil =>
      cases served.unique .nil
      exact ⟨[], _, [], .nil, linear_init ids, rfl, fun i => ⟨rfl, rfl, rfl⟩⟩
  | append_singleton calls entry ih =>
      obtain ⟨i, c⟩ := entry
      rw [List.map_append] at served
      obtain ⟨gw₀, prior, hLast⟩ := served.of_snoc
      obtain ⟨events, net, history, run, h, hCalls, hQuiet⟩ := ih prior
        (fun entry hMem => hPrints entry (List.mem_append_left _ hMem))
        (fun i n hn => hIds i n (hn.trans (by simp)))
      obtain ⟨⟨owed, pending, hTracks⟩, -⟩ := h.conns i
      obtain ⟨rfl, rfl, -⟩ := hTracks.of_quiet (hQuiet i)
      have hMade : (called events i).length ≤ calls.length := by
        rw [← hTracks.made, ← hCalls, List.map_nil, List.append_nil, List.length_map, List.length_map, part,
          List.length_map]
        exact List.length_filter_le _ history
      have hId : (digitsText ((net.conns i).id + 1)).length ≤ maxDigits := by
        rw [hTracks.counted, Nat.add_assoc]
        exact hIds i _ (by simpa using hMade)
      obtain ⟨more, net', answer, run', h', -, hQuiet', -, hOthers⟩ :=
        h.round_trip hLimit hTarget (hQuiet i) ⟨hPrints (i, c) (by simp), hId⟩
      rw [serve_eq hLast] at h'
      refine ⟨_, net', _, run.append run', h', by rw [List.map_append, hCalls]; rfl, fun j => ?_⟩
      by_cases hj : j = i
      · exact hj ▸ hQuiet'
      · exact hOthers j hj ▸ hQuiet j

/-- Each order of calls that the gateway can serve is one that clients can make over the
network, with its answers. -/
theorem gateway_realizable (hLimit : 3 ≤ rt.limit) (hTarget : (digitsText target.natAbs).length ≤ maxDigits)
    {calls : List (ι × GatewayCall)}
    (served : Run MockGateway.serve (.init target rotateAfter pausedFirst) (calls.map Prod.snd) gw)
    (hPrints : ∀ entry ∈ calls, entry.2.method.Prints)
    (hIds : ∀ i, ∀ n ≤ calls.length, (digitsText (ids i + n)).length ≤ maxDigits) :
    ∃ events net history, Run (Net.step rt) (.init target rotateAfter pausedFirst ids) events net ∧
      Linearized rt target rotateAfter pausedFirst ids events net history gw ∧
      history.map (fun entry => (entry.1, entry.2.2)) = calls ∧
      ∀ i, (net.conns i).waiting = none ∧ List.Forall₂ AnsweredBy (net.conns i).ended (part history i) := by
  obtain ⟨events, net, history, run, h, hCalls, hQuiet⟩ := linear_of_served hLimit hTarget served hPrints hIds
  refine ⟨events, net, history, run, h.linearized, hCalls, fun i => ⟨(hQuiet i).idle, ?_⟩⟩
  obtain ⟨⟨owed, pending, hTracks⟩, -⟩ := h.conns i
  exact (hTracks.of_quiet (hQuiet i)).2.2

/-- The poll of the second client rotates the header, before the first one submits. -/
def mockCalls : List (Bool × GatewayCall) :=
  [(false, .getMiningInfo (.ok (mockJob 0))), (false, .getMiningInfo (.ok (mockJob 0))),
    (true, .getMiningInfo (.ok (mockJob 1))), (false, .submitPlainProof ⟨[], mockJob 0⟩ (.ok "submitted")),
    (true, .getMiningInfo (.ok (mockJob 1))), (true, .submitPlainProof ⟨[], mockJob 1⟩ (.ok "submitted"))]

/-- The order of calls above is made by two clients over the network, each call under the
client and with the answer that it has there. -/
theorem gateway_realizable_two : ∃ events net history gw,
    Run MockGateway.serve (.init 5 3 0) (mockCalls.map Prod.snd) gw ∧
      Run (Net.step asciiRuntime) (.init 5 3 0 fun _ => 0) events net ∧
      Linearized asciiRuntime 5 3 0 (fun _ => 0) events net history gw ∧
      history.map (fun entry => (entry.1, entry.2.2)) = mockCalls := by
  obtain ⟨gw, served⟩ : ∃ gw, Run MockGateway.serve (.init 5 3 0) (mockCalls.map Prod.snd) gw :=
    ⟨_, run_iff_foldlM.mpr rfl⟩
  have hDigits : (digitsText (5 : Int).natAbs).length ≤ maxDigits := by decide +kernel
  have hPrints : ∀ entry ∈ mockCalls, entry.2.method.Prints := by
    simp only [mockCalls, List.forall_mem_cons]
    exact ⟨trivial, trivial, trivial, hDigits, trivial, hDigits, by simp⟩
  let ids : Bool → Nat := fun _ => 0
  have hIds : ∀ i, ∀ n ≤ 6, (digitsText (ids i + n)).length ≤ maxDigits := by
    intro i
    change ∀ n ≤ 6, (digitsText (0 + n)).length ≤ maxDigits
    decide +kernel
  obtain ⟨events, net, history, run, hLinearized, hCalls, -⟩ :=
    gateway_realizable (show 3 ≤ asciiRuntime.limit by decide) hDigits served hPrints hIds
  exact ⟨events, net, history, gw, served, run, hLinearized, hCalls⟩

/-- Whatever the others have under way, a client that has not been late can end its next
call, with the answer that the gateway now has for it. -/
theorem next_call_completes (hLimit : 3 ≤ rt.limit) (hTarget : (digitsText target.natAbs).length ≤ maxDigits)
    (run : Run (Net.step rt) (.init target rotateAfter pausedFirst ids) events net)
    (hIdle : (net.conns i).waiting = none) (hInTime : ∀ x ∈ (net.conns i).ended, ¬TimedOut rt x) {method : Method}
    (hPrints : Conn.Prints method ((net.conns i).id + 1)) :
    ∃ gw more net' answer, net.server = .ofGateway gw ∧ Run (Net.step rt) net more net' ∧
      net'.server = .ofGateway (method.serve gw).2 ∧ Agrees (method.serve gw).1 answer ∧
      (net'.conns i).waiting = none ∧
      (net'.conns i).ended = (net.conns i).ended ++ [⟨(net.conns i).id + 1, method, answer⟩] ∧
      ∀ j, j ≠ i → net'.conns j = net.conns j := by
  obtain ⟨history, gw, h⟩ := linear_run hLimit hTarget (linear_init ids) run
  obtain ⟨⟨owed, pending, hTracks⟩, -⟩ := h.conns i
  obtain ⟨more, net', answer, run', h', hAgrees, hQuiet, hEnded, hOthers⟩ :=
    h.round_trip hLimit hTarget (hTracks.quiet hIdle hInTime) hPrints
  exact ⟨gw, more, net', answer, h.server, run', h'.server, hAgrees, hQuiet.idle, hEnded, hOthers⟩

/-- The first client asks for a job while the request of the second is under way. -/
theorem next_call_completes_two : ∃ net gw more net' answer,
    Run (Net.step asciiRuntime) (.init 5 3 1 fun _ => 0) [.call true .getMiningInfo, .upload true 69] net ∧
      Run (Net.step asciiRuntime) net more net' ∧ net'.server = .ofGateway (Method.getMiningInfo.serve gw).2 ∧
      Agrees (Method.getMiningInfo.serve gw).1 answer ∧
      (net'.conns false).ended = [⟨1, .getMiningInfo, answer⟩] ∧ net'.conns true = net.conns true := by
  obtain ⟨net, hNet, hFresh⟩ := (Option.any_eq_true _ _).mp
    (show (([.call true .getMiningInfo, .upload true 69] : List (NetEvent Bool)).foldlM (Net.step asciiRuntime)
        (.init 5 3 1 fun _ => 0)).any fun net => decide ((net.conns false).waiting.isNone ∧
          (net.conns false).ended.isEmpty ∧ (net.conns false).id = 0) by
      decide +kernel)
  obtain ⟨hIdle, hNone, hId⟩ := of_decide_eq_true hFresh
  have hEnded : (net.conns false).ended = [] := List.isEmpty_iff.mp hNone
  obtain ⟨gw, more, net', answer, -, run', hServer, hAgrees, -, hEnded', hOthers⟩ := next_call_completes
    (show 3 ≤ asciiRuntime.limit by decide) (show (digitsText (5 : Int).natAbs).length ≤ maxDigits by decide +kernel)
    (run_iff_foldlM.mpr hNet) (Option.isNone_iff_eq_none.mp hIdle) (by simp [hEnded])
    (show Conn.Prints .getMiningInfo ((net.conns false).id + 1) by rw [hId]; decide +kernel)
  rw [hEnded, hId] at hEnded'
  exact ⟨net, gw, more, net', answer, run_iff_foldlM.mpr hNet, run', hServer, hAgrees, hEnded',
    hOthers true (by decide)⟩

/-- The call of a client in time can end, by events of its own. -/
theorem Linear.drains (hLimit : 3 ≤ rt.limit) (hTarget : (digitsText target.natAbs).length ≤ maxDigits)
    (h : Linear rt target rotateAfter pausedFirst ids events net history gw)
    (hInTime : ∀ x ∈ (net.conns i).ended, ¬TimedOut rt x) :
    ∃ more net', Run (Net.step rt) net more net' ∧ (∀ j, called more j = []) ∧ (net'.conns i).Quiet ∧
      ∀ j, j ≠ i → net'.conns j = net.conns j := by
  obtain ⟨⟨owed, pending, hTracks⟩, hReads⟩ := h.conns i
  cases hWaiting : (net.conns i).waiting with
  | none => exact ⟨[], net, .nil, fun _ => rfl, hTracks.quiet hWaiting hInTime, fun _ _ => rfl⟩
  | some method =>
      have hUnderWay := hTracks.under_way hWaiting hInTime
      have hRequests := hTracks.requests
      have hReplies := hTracks.replies
      have hAlive := hTracks.alive
      generalize hConn : net.conns i = conn at *
      obtain ⟨id, buf, waiting, ended, toServer, rfile, toClient, died⟩ := conn
      cases hWaiting
      cases hAlive
      rcases hUnderWay with ⟨rfl, rfl⟩ | ⟨o, rfl, rfl⟩
      · -- the gateway has still to read the request
        obtain ⟨line, hLine, hRequest, hHandled, -⟩ :=
          handled_as_served hLimit (h.target.symm ▸ hTarget : (digitsText gw.target.natAbs).length ≤ maxDigits)
            (hTracks.prints _ (List.mem_singleton_self _))
        obtain ⟨rfl, rfl⟩ := List.append_eq_nil_iff.mp hReplies
        obtain ⟨more, hCalled, run⟩ :=
          carries hConn (by simpa using hRequests) hRequest hLine (h.server.symm ▸ hHandled)
        refine ⟨more, _, run, hCalled, ?_, fun j hj => Function.update_of_ne hj _ _⟩
        rw [setConn_conns]
        exact ⟨rfl, rfl, rfl⟩
      · -- it has, and the last byte of the reply is still to come
        have hStream : buf ++ toClient = o.line rt ++ [Gateway.newline] := by simpa using hReplies
        have hMore : toClient ≠ [] := by
          rintro rfl
          rw [List.append_nil] at hStream
          exact hReads rfl (by simp [hStream])
        obtain ⟨rfl, rfl⟩ := List.append_eq_nil_iff.mp hRequests
        obtain ⟨k, run⟩ := downloads rt net i id method ended (hTracks.sound o (List.mem_singleton_self o)).one_line
          hMore hStream
        rw [← hConn, Net.setConn, Function.update_eq_self] at run
        refine ⟨_, _, run, fun j => by simp [called], ?_, fun j hj => Function.update_of_ne hj _ _⟩
        rw [setConn_conns]
        exact ⟨rfl, rfl, rfl⟩

/-- A call that is under way can end too, and the history answers all calls of its client. -/
theorem call_under_way_ends (hLimit : 3 ≤ rt.limit) (hTarget : (digitsText target.natAbs).length ≤ maxDigits)
    (run : Run (Net.step rt) (.init target rotateAfter pausedFirst ids) events net)
    (hInTime : ∀ x ∈ (net.conns i).ended, ¬TimedOut rt x) :
    ∃ more net' history gw, Run (Net.step rt) net more net' ∧
      Linearized rt target rotateAfter pausedFirst ids (events ++ more) net' history gw ∧
      (net'.conns i).waiting = none ∧ (net'.conns i).ended.map EndedCall.method = called events i ∧
      List.Forall₂ AnsweredBy (net'.conns i).ended (part history i) ∧ ∀ j, j ≠ i → net'.conns j = net.conns j := by
  obtain ⟨history, gw, h⟩ := linear_run hLimit hTarget (linear_init ids) run
  obtain ⟨more, net', run', hCalled, hQuiet, hOthers⟩ := h.drains hLimit hTarget hInTime
  obtain ⟨later, gw', h'⟩ := linear_run hLimit hTarget h run'
  obtain ⟨⟨owed, pending, hTracks⟩, -⟩ := h'.conns i
  obtain ⟨rfl, rfl, hAnswered⟩ := hTracks.of_quiet hQuiet
  refine ⟨more, net', _, gw', run', h'.linearized, hQuiet.idle, ?_, hAnswered, hOthers⟩
  have hMethods : (net'.conns i).ended.map EndedCall.method = (part (history ++ later) i).map (·.2.method) := by
    rw [← List.forall₂_eq_eq_eq, List.forall₂_map_right_iff, List.forall₂_map_left_iff]
    exact hAnswered.imp fun _ _ h => h.2.1.symm
  have hMade := hTracks.made
  rw [List.map_nil, List.append_nil, List.nil_append, called_append, hCalled, List.append_nil] at hMade
  exact hMethods.trans hMade

/-- Part of one request has come to the gateway, and the other one is answered. -/
def halfway : List (NetEvent Bool) :=
  [.call true .getMiningInfo, .call false .getMiningInfo, .upload true 40, .upload false 69, .handle false]

/-- From halfway on the first request can still be completed and answered, as the only
call of its client. -/
theorem call_under_way_ends_two : ∃ net more net' history gw,
    Run (Net.step asciiRuntime) (.init 5 3 1 fun _ => 0) halfway net ∧ (net.conns true).waiting.isSome ∧
      Run (Net.step asciiRuntime) net more net' ∧
      Linearized asciiRuntime 5 3 1 (fun _ => 0) (halfway ++ more) net' history gw ∧
      (net'.conns true).waiting = none ∧ (net'.conns true).ended.map EndedCall.method = [.getMiningInfo] ∧
      List.Forall₂ AnsweredBy (net'.conns true).ended (part history true) := by
  obtain ⟨net, hNet, hHalfway⟩ := (Option.any_eq_true _ _).mp
    (show ((halfway.foldlM (Net.step asciiRuntime) (.init 5 3 1 fun _ => 0)).any fun net =>
        decide ((net.conns true).waiting.isSome ∧ (net.conns true).ended.isEmpty)) by
      decide +kernel)
  obtain ⟨hWaits, hNone⟩ := of_decide_eq_true hHalfway
  have hEnded : (net.conns true).ended = [] := List.isEmpty_iff.mp hNone
  obtain ⟨more, net', history, gw, run', hLinearized, hIdle, hMethods, hAnswered, -⟩ := call_under_way_ends
    (show 3 ≤ asciiRuntime.limit by decide) (show (digitsText (5 : Int).natAbs).length ≤ maxDigits by decide +kernel)
    (run_iff_foldlM.mpr hNet) (show ∀ x ∈ (net.conns true).ended, ¬TimedOut asciiRuntime x by simp [hEnded])
  exact ⟨net, more, net', history, gw, run_iff_foldlM.mpr hNet, hWaits, run', hLinearized, hIdle, hMethods, hAnswered⟩

end Calls

end Miner
