import PrlMiner.Miner.WireFormat

/-! One request over the wire: the line that the client writes, what the handler of the
mock gateway does with it, and what the client makes of the reply. -/
namespace Miner

open LittleEndian Python EarlyExit

/-- `getMiningInfo` and `submitPlainProof`. -/
inductive Method where
  | getMiningInfo
  | submitPlainProof (submission : PlainProofSubmission)

def Method.name : Method → String
  | .getMiningInfo => "getMiningInfo"
  | .submitPlainProof _ => "submitPlainProof"

def Method.params : Method → Json
  | .getMiningInfo => .obj []
  | .submitPlainProof submission => submission.params

/-- The request of `_call`. -/
def Method.request (method : Method) (id : Nat) : Fields :=
  [(text "jsonrpc", .str (text "2.0")), (text "method", .str (text method.name)), (text "params", method.params),
    (text "id", .int id)]

/-- How a method of the client raises: as `_call` does, or on a job that `from_dict`
refuses. -/
inductive ClientError where
  | call (e : Gateway.CallError)
  | value (text : String)

/-- How a method of the client ends. -/
inductive Answer where
  | info (x : Except ClientError MiningJob)
  | submit (x : Except ClientError Text)

/-- Built-in functions of Python, and its limits. `other` are the lines of `json.loads`
with bytes that are not ASCII or NUL, `str` is `str(v)` of values other than strings. -/
structure PyRuntime where
  tables : Tables
  parseFloat : Text → PyFloat
  limit : Nat
  other : List Byte → Except JsonError Json
  reprText : Text → String
  str : Json → Text

namespace PyRuntime

variable (rt : PyRuntime)

/-- `json.loads` of a line. -/
def loads (line : List Byte) : Except JsonError Json := loadsBytes rt.parseFloat rt.limit rt.other line

/-- `(json.dumps(v) + "\n").encode()`. -/
def dumpsLine (v : Json) : List Byte := encodeAscii (dumps rt.tables v ++ [10])

/-- What `_call` makes of a line. -/
def handleReply (id : Nat) (line : List Byte) : Except Gateway.CallError Json :=
  Gateway.handleReply (fun line => (rt.loads line).toOption) id line

/-- `get_mining_info` and `submit_plain_proof`, behind `_call`. -/
def answer (method : Method) (result : Except Gateway.CallError Json) : Answer :=
  match method with
  | .getMiningInfo =>
      .info (result.mapError .call >>= fun d => (MiningJob.readDict rt.tables rt.reprText d).mapError .value)
  | .submitPlainProof _ =>
      .submit ((result.mapError .call).map fun result =>
        match result with
        | .str s => s
        | v => rt.str v)

/-- `MiningJob.from_dict(json.loads(line))`. -/
def readJob (line : List Byte) : Option MiningJob :=
  (rt.loads line).toOption.bind fun d => (MiningJob.readDict rt.tables rt.reprText d).toOption

end PyRuntime

/-- The mock gateway behind its handler. `submissions` are the params as they came; the
list of `gw` stays empty. -/
structure MockServer where
  gw : MockGateway
  submissions : List Json

namespace MockServer

def init (target rotateAfter pausedFirst : Int) : MockServer := ⟨.init target rotateAfter pausedFirst, []⟩

/-- `_record_submit`. -/
def recordSubmit (server : MockServer) (params : Json) : Except String Unit × MockServer :=
  let server := { server with submissions := server.submissions ++ [params] }
  match subscript params "mining_job" >>= (subscript · "incomplete_header_bytes") >>= b64decode with
  | .error e => (.error e, server)
  | .ok hdr =>
      match server.gw.currentHeader with
      | .error e => (.error e, server)
      | .ok header =>
          if hdr = header then
            (.ok (), { server with
              gw := { server.gw with acceptedByHeader := MockGateway.bump hdr server.gw.acceptedByHeader } })
          else (.ok (), { server with gw := { server.gw with droppedStale := server.gw.droppedStale + 1 } })

def response (rid : Json) (key : String) (v : Json) : Json :=
  .obj [(text "jsonrpc", .str (text "2.0")), (text "id", rid), (text key, v)]

def errorResponse (rid : Json) (code : Int) (message : String) : Json :=
  response rid "error" (.obj [(text "code", .int code), (text "message", .str (text message))])

/-- The response to a request, under the lock of the gateway. -/
def respond (server : MockServer) (req : Fields) : Json × MockServer :=
  let rid := Fields.get req (text "id") .null
  let method := Fields.get req (text "method") .null
  if method.eq (.str (text "getMiningInfo")) then
    match server.gw.nextJob with
    | (.error e, gw) => (errorResponse rid (-32000) e, { server with gw := gw })
    | (.ok none, gw) => (errorResponse rid Gateway.miningPausedCode "mining_paused", { server with gw := gw })
    | (.ok (some hdr), gw) =>
        (response rid "result" (MiningJob.toDict ⟨hdr, gw.target⟩), { server with gw := gw })
  else if method.eq (.str (text "submitPlainProof")) then
    match server.recordSubmit (Fields.get req (text "params") (.obj [])) with
    | (.error e, server) => (errorResponse rid (-32000) e, server)
    | (.ok (), server) => (response rid "result" (.str (text "submitted")), server)
  else (errorResponse rid (-32601) "method not found", server)

/-- What the handler of a connection does with a line: it goes on to the next one, it
ends with an exception, or it writes a response. -/
inductive Handled where
  | skipped
  | died
  | replied (line : List Byte) (server : MockServer)

def handleLine (rt : PyRuntime) (server : MockServer) (raw : List Byte) : Handled :=
  match rt.loads raw with
  | .error .decode => .skipped
  | .ok (.obj req) => .replied (rt.dumpsLine (server.respond req).1) (server.respond req).2
  | _ => .died

/-- The server of a gateway. -/
def ofGateway (gw : MockGateway) : MockServer := ⟨{ gw with submissions := [] }, gw.submissions.map (·.params)⟩

end MockServer

/-- A request as one step of the gateway. -/
def Method.serve (method : Method) (gw : MockGateway) : GatewayCall × MockGateway :=
  match method with
  | .getMiningInfo => (.getMiningInfo gw.getMiningInfo.1, gw.getMiningInfo.2)
  | .submitPlainProof submission =>
      (.submitPlainProof submission (gw.submitPlainProof submission).1, (gw.submitPlainProof submission).2)

/-- The client ends a call as the gateway answered it. -/
inductive Agrees : GatewayCall → Answer → Prop where
  | job (job : MiningJob) : Agrees (.getMiningInfo (.ok job)) (.info (.ok job))
  | paused : Agrees (.getMiningInfo (.error .miningPaused))
      (.info (.error (.call (.miningPaused (.str (text "mining_paused"))))))
  | failed (e : String) : Agrees (.getMiningInfo (.error (.raised (.exception s!"-32000: {e}"))))
      (.info (.error (.call (.gatewayError (.int (-32000)) (.str (text e))))))
  | refused (e : String) : Agrees (.getMiningInfo (.error (.raised (.exception e)))) (.info (.error (.value e)))
  | submitted (submission : PlainProofSubmission) :
      Agrees (.submitPlainProof submission (.ok "submitted")) (.submit (.ok (text "submitted")))
  | rejected (submission : PlainProofSubmission) (e : String) :
      Agrees (.submitPlainProof submission (.error (.exception s!"-32000: {e}")))
        (.submit (.error (.call (.gatewayError (.int (-32000)) (.str (text e))))))

section Lines

variable {rt : PyRuntime} {v : Json}

theorem dumpsLine_eq (rt : PyRuntime) (v : Json) : rt.dumpsLine v = encodeAscii (dumps rt.tables v) ++ [10] := by
  rw [PyRuntime.dumpsLine, encodeAscii, List.map_append]
  rfl

/-- A value that is written as a line is read back from it, with the newline that ends
it, -/
theorem loads_dumpsLine (h : v.Plain rt.limit) : rt.loads (rt.dumpsLine v) = .ok v :=
  loadsBytes_dumpsLine rt.tables rt.parseFloat rt.other h (.inr rfl)

/-- and without it. -/
theorem loads_line (h : v.Plain rt.limit) : rt.loads (encodeAscii (dumps rt.tables v)) = .ok v := by
  have hLine := loadsBytes_dumpsLine rt.tables rt.parseFloat rt.other h (.inl rfl)
  rwa [List.append_nil] at hLine

/-- A printed value is one line: its text is ASCII without control characters. -/
theorem newline_not_mem (h : v.Plain rt.limit) : Gateway.newline ∉ encodeAscii (dumps rt.tables v) := by
  intro hMem
  obtain ⟨c, hc, hNewline⟩ := List.mem_map.mp hMem
  have hPrintable := printable_dumps rt.tables h c hc
  have hVal := congrArg BitVec.toNat hNewline
  rw [BitVec.toNat_ofNat] at hVal
  change c.val % 2 ^ 8 = 10 at hVal
  omega

end Lines

section Jobs

variable {rt : PyRuntime}

theorem toOption_eq_some {ε α : Type} {x : Except ε α} {a : α} : x.toOption = some a ↔ x = .ok a := by
  cases x <;> simp [Except.toOption]

/-- Whatever line is read, only a valid job is taken from it. `from_dict` raises on every
other. -/
theorem readJob_valid {line : List Byte} {job : MiningJob} (h : rt.readJob line = some job) : job.Valid := by
  obtain ⟨d, -, hRead⟩ := Option.bind_eq_some_iff.mp h
  rw [toOption_eq_some, MiningJob.readDict] at hRead
  cases hHeader : subscript d "incomplete_header_bytes" >>= b64decode with
  | error e =>
      rw [hHeader] at hRead
      cases hRead
  | ok hdr =>
      cases hTarget : subscript d "target" >>= toInt rt.tables rt.reprText with
      | error e =>
          rw [hHeader, hTarget] at hRead
          cases hRead
      | ok target =>
          rw [hHeader, hTarget] at hRead
          exact (fromDict_eq_ok.mp hRead).2

/-- A valid job is read back from its own line. Its target has few enough digits, and the
nesting is within the limit. -/
theorem readJob_dumpsLine (hLimit : 2 ≤ rt.limit) {job : MiningJob} (h : job.Valid) :
    rt.readJob (rt.dumpsLine job.toDict) = some job := by
  obtain ⟨limit, hLimit⟩ : ∃ limit, rt.limit = limit + 1 := ⟨rt.limit - 1, by omega⟩
  have hPlain : job.toDict.Plain rt.limit := by
    rw [hLimit]
    exact plain_toDict limit h.prints
  rw [PyRuntime.readJob, loads_dumpsLine hPlain]
  change (MiningJob.readDict rt.tables rt.reprText job.toDict).toOption = some job
  rw [readDict_toDict, toOption_eq_some, fromDict_eq_ok]
  exact ⟨rfl, h⟩

/-- Only valid jobs are read, and these are read from what is written. The parts of a
submission for a valid job are read back as well. -/
theorem job_wire_format (hLimit : 2 ≤ rt.limit) :
    (∀ line job, rt.readJob line = some job → job.Valid) ∧
      (∀ job : MiningJob, rt.readJob (rt.dumpsLine job.toDict) = some job ↔ job.Valid) ∧
      ∀ submission : PlainProofSubmission, submission.job.Valid →
        ∃ d, rt.loads (rt.dumpsLine submission.params) = .ok d ∧
          (subscript d "plain_proof" >>= b64decode) = .ok submission.plainProof ∧
          (subscript d "mining_job" >>= MiningJob.readDict rt.tables rt.reprText) = .ok submission.job := by
  refine ⟨fun line job => readJob_valid, fun job => ⟨readJob_valid, readJob_dumpsLine hLimit⟩, ?_⟩
  intro submission hValid
  obtain ⟨limit, hLimit⟩ : ∃ limit, rt.limit = limit + 2 := ⟨rt.limit - 2, by omega⟩
  have hPlain : submission.params.Plain rt.limit := by
    rw [hLimit]
    exact plain_params limit hValid.prints
  have hProof : subscript submission.params "plain_proof" = .ok (.str (Base64.encode submission.plainProof)) := rfl
  have hJob : subscript submission.params "mining_job" = .ok submission.job.toDict := rfl
  refine ⟨submission.params, loads_dumpsLine hPlain, ?_, ?_⟩
  · rw [hProof]
    exact Base64.decode_encode submission.plainProof
  · rw [hJob]
    change MiningJob.readDict rt.tables rt.reprText submission.job.toDict = .ok submission.job
    rw [readDict_toDict, fromDict_eq_ok]
    exact ⟨rfl, hValid⟩

/-- A runtime for lines without floats and with nothing beyond ASCII. -/
def asciiRuntime : PyRuntime where
  tables := ⟨fun _ => [], fun _ => false, fun _ => none⟩
  parseFloat _ := .nan
  limit := 1000
  other _ := .error .decode
  reprText _ := ""
  str _ := []

/-- A job with a header of three bytes comes back from its line. -/
theorem job_wire_format_header :
    asciiRuntime.readJob (asciiRuntime.dumpsLine (MiningJob.toDict ⟨[112, 114, 108], 255⟩)) =
      some ⟨[112, 114, 108], 255⟩ := by
  have hLimit : 2 ≤ asciiRuntime.limit := by decide
  have hTarget : (255 : Int) ≤ maxTarget := by decide
  exact ((job_wire_format hLimit).2.1 ⟨[112, 114, 108], 255⟩).mpr ⟨⟨by decide, hTarget⟩, nofun⟩

end Jobs

namespace MockServer

variable {gw : MockGateway}

theorem nextJob_submissions (gw : MockGateway) (submissions : List PlainProofSubmission) :
    MockGateway.nextJob { gw with submissions := submissions } =
      (gw.nextJob.1, { gw.nextJob.2 with submissions := submissions }) := by
  rw [MockGateway.nextJob, MockGateway.nextJob]
  dsimp only
  split_ifs <;> rfl

/-- The next job changes neither what was submitted nor the target. -/
theorem nextJob_keeps (gw : MockGateway) :
    gw.nextJob.2.submissions = gw.submissions ∧ gw.nextJob.2.target = gw.target := by
  rw [MockGateway.nextJob]
  dsimp only
  split_ifs <;> exact ⟨rfl, rfl⟩

/-- The only exception of the header is that its number does not fit in eight bytes. -/
theorem currentHeader_eq_error {e : String} (h : gw.currentHeader = .error e) : e = "int too big to convert" := by
  rw [MockGateway.currentHeader, Python.toBytesLittle, if_neg (by omega)] at h
  split_ifs at h
  · cases h
  · cases h
    rfl

/-- The header in the params of a submission is that of its job. -/
theorem header_of_params (submission : PlainProofSubmission) :
    (subscript submission.params "mining_job" >>= (subscript · "incomplete_header_bytes") >>= b64decode) =
      .ok submission.job.incompleteHeaderBytes := by
  have hJob : subscript submission.params "mining_job" = .ok submission.job.toDict := rfl
  have hHeader : subscript submission.job.toDict "incomplete_header_bytes" =
      .ok (.str (Base64.encode submission.job.incompleteHeaderBytes)) := rfl
  rw [hJob]
  dsimp only [bind, Except.bind]
  rw [hHeader]
  exact Base64.decode_encode submission.job.incompleteHeaderBytes

theorem nextJob_eq_error {e : String} (h : gw.nextJob.1 = .error e) : e = "int too big to convert" := by
  rw [MockGateway.nextJob] at h
  dsimp only at h
  split_ifs at h <;>
  · cases hHeader : MockGateway.currentHeader _ with
    | error e' =>
        rw [hHeader] at h
        cases h
        exact currentHeader_eq_error hHeader
    | ok header =>
        rw [hHeader] at h
        cases h

/-- On the params of a submission, read from the wire, the server records what the gateway
records for the submission itself. -/
theorem recordSubmit_ofGateway (gw : MockGateway) (submission : PlainProofSubmission) :
    (ofGateway gw).recordSubmit submission.params =
      ((gw.recordSubmit submission).1, ofGateway (gw.recordSubmit submission).2) := by
  have hServer : (ofGateway gw).gw.currentHeader = gw.currentHeader := rfl
  have hGateway : MockGateway.currentHeader { gw with submissions := gw.submissions ++ [submission] } =
      gw.currentHeader := rfl
  rw [recordSubmit, MockGateway.recordSubmit]
  dsimp only
  rw [header_of_params, hServer, hGateway]
  dsimp only
  cases gw.currentHeader with
  | error e => simp [ofGateway]
  | ok header =>
      dsimp only
      split_ifs <;> simp [ofGateway]

/-- The job that the server gives out is that of the gateway. -/
theorem nextJob_ofGateway (gw : MockGateway) :
    (ofGateway gw).gw.nextJob = (gw.nextJob.1, { gw.nextJob.2 with submissions := [] }) ∧
      { ofGateway gw with gw := { gw.nextJob.2 with submissions := [] } } = ofGateway gw.nextJob.2 := by
  refine ⟨nextJob_submissions gw [], ?_⟩
  rw [ofGateway, ofGateway, (nextJob_keeps gw).1]

end MockServer

/-- The ints of a request are printed. -/
def Method.Prints : Method → Prop
  | .getMiningInfo => True
  | .submitPlainProof submission => submission.job.Prints

/-- A request is read back from its line: its ids and targets have few enough digits, and
it nests three deep at most. -/
theorem plain_request {limit : Nat} {method : Method} (h : method.Prints) {id : Nat}
    (hId : (digitsText id).length ≤ maxDigits) : (Json.obj (method.request id)).Plain (limit + 3) := by
  refine plain_obj ["jsonrpc", "method", "params", "id"] rfl (by decide) (by decide) fun field hField => ?_
  simp only [Method.request, List.mem_cons, List.not_mem_nil, or_false] at hField
  rcases hField with rfl | rfl | rfl | rfl
  · exact .str (limit + 2) _ (by decide)
  · cases method with
    | getMiningInfo => exact .str (limit + 2) _ (show unpaired (text "getMiningInfo") = true by decide)
    | submitPlainProof => exact .str (limit + 2) _ (show unpaired (text "submitPlainProof") = true by decide)
  · cases method with
    | getMiningInfo => exact .obj (limit + 1) [] List.nodup_nil nofun nofun
    | submitPlainProof submission => exact plain_params limit h
  · exact .int (limit + 2) id hId

section Responses

variable {limit : Nat} {rid v : Json}

/-- A response is read back if what it carries is. -/
theorem plain_response {key : String} (hKey : key = "result" ∨ key = "error") (hRid : rid.Plain (limit + 2))
    (h : v.Plain (limit + 2)) : (MockServer.response rid key v).Plain (limit + 3) := by
  have hFields : ∀ field ∈ [(text "jsonrpc", Json.str (text "2.0")), (text "id", rid), (text key, v)],
      field.2.Plain (limit + 2) := by
    intro field hField
    simp only [List.mem_cons, List.not_mem_nil, or_false] at hField
    rcases hField with rfl | rfl | rfl
    · exact .str (limit + 2) _ (by decide)
    · exact hRid
    · exact h
  rcases hKey with rfl | rfl
  · exact plain_obj ["jsonrpc", "id", "result"] rfl (by decide) (by decide) hFields
  · exact plain_obj ["jsonrpc", "id", "error"] rfl (by decide) (by decide) hFields

/-- An error is read back with its code and its message. -/
theorem plain_errorResponse {code : Int} {message : String} (hRid : rid.Plain (limit + 2))
    (hCode : (digitsText code.natAbs).length ≤ maxDigits) (hMessage : unpaired (text message) = true) :
    (MockServer.errorResponse rid code message).Plain (limit + 3) := by
  refine plain_response (.inr rfl) hRid
    (plain_obj ["code", "message"] rfl (by decide) (by decide) fun field hField => ?_)
  simp only [List.mem_cons, List.not_mem_nil, or_false] at hField
  rcases hField with rfl | rfl
  · exact .int (limit + 1) code hCode
  · exact .str (limit + 1) _ hMessage

end Responses

section Replies

variable {rt : PyRuntime} {id : Nat}

theorem eq_int (i j : Int) : (Json.int i).eq (.int j) = decide (i = j) := by
  rw [Bool.eq_iff_iff]
  simp [Json.eq, Json.isNaN, Json.same, Json.number?]

theorem toOption_loads {v : Json} (h : v.Plain rt.limit) :
    (rt.loads (encodeAscii (dumps rt.tables v))).toOption = some v := by
  rw [loads_line h]
  rfl

/-- Only the call with the id of the request takes the response. Every other call raises
an id mismatch. -/
theorem handleReply_other {key : String} {v : Json} {other : Nat}
    (h : (MockServer.response (.int id) key v).Plain rt.limit) (hOther : other ≠ id) :
    rt.handleReply other (encodeAscii (dumps rt.tables (MockServer.response (.int id) key v))) =
      .error (.idMismatch other (.int id)) := by
  have hId : (Json.int id).eq (.int other) = false := by
    rw [eq_int, decide_eq_false_iff_not]
    omega
  rw [PyRuntime.handleReply, Gateway.handleReply, toOption_loads h]
  dsimp only [MockServer.response]
  rw [show Fields.get [(text "jsonrpc", .str (text "2.0")), (text "id", .int id), (text key, v)] (text "id") .null =
    .int id from rfl, hId]
  rfl

/-- The call with this id returns the result, -/
theorem handleReply_result {v : Json} (h : (MockServer.response (.int id) "result" v).Plain rt.limit) :
    rt.handleReply id (encodeAscii (dumps rt.tables (MockServer.response (.int id) "result" v))) = .ok v := by
  have hId : (Json.int id).eq (.int id) = true := by rw [eq_int, decide_eq_true rfl]
  rw [PyRuntime.handleReply, Gateway.handleReply, toOption_loads h]
  dsimp only [MockServer.response]
  rw [show Fields.get [(text "jsonrpc", .str (text "2.0")), (text "id", .int id), (text "result", v)]
    (text "id") .null = .int id from rfl, hId]
  rfl

/-- and raises the error. The code for a pause is an exception of its own, with the
message of the gateway. -/
theorem handleReply_error {code : Int} {message : String}
    (h : (MockServer.errorResponse (.int id) code message).Plain rt.limit) :
    rt.handleReply id (encodeAscii (dumps rt.tables (MockServer.errorResponse (.int id) code message))) =
      .error (if code = Gateway.miningPausedCode then .miningPaused (.str (text message))
        else .gatewayError (.int code) (.str (text message))) := by
  have hId : (Json.int id).eq (.int id) = true := by rw [eq_int, decide_eq_true rfl]
  have hCode : (Json.int code).eq (.int Gateway.miningPausedCode) = decide (code = Gateway.miningPausedCode) :=
    eq_int code _
  let err : Fields := [(text "code", .int code), (text "message", .str (text message))]
  let resp : Fields := [(text "jsonrpc", .str (text "2.0")), (text "id", .int id), (text "error", .obj err)]
  have hRespId : Fields.get resp (text "id") .null = .int id := rfl
  have hRespError : Fields.get resp (text "error") .null = .obj err := rfl
  have hErrCode : Fields.get err (text "code") .null = .int code := rfl
  have hErrMessage (default : Json) : Fields.get err (text "message") default = .str (text message) := rfl
  rw [PyRuntime.handleReply, Gateway.handleReply, toOption_loads h]
  change (if (!(Fields.get resp (text "id") .null).eq (.int id)) = true then _ else _) = _
  rw [hRespId, hId, hRespError]
  change (if (Fields.get err (text "code") .null).eq (.int Gateway.miningPausedCode) = true then _ else _) = _
  rw [hErrCode, hCode, hErrMessage, hErrMessage]
  by_cases hPaused : code = Gateway.miningPausedCode
  · rw [if_pos hPaused, if_pos (decide_eq_true hPaused)]
  · rw [if_neg hPaused, if_neg (by simpa using hPaused)]

end Replies

section Exchange

variable {rt : PyRuntime} {gw : MockGateway} {id : Nat}

/-- A response to a request, and the call it ends. -/
structure Exchanged (rt : PyRuntime) (method : Method) (id : Nat) (gw : MockGateway) (resp : Json)
    (server : MockServer) : Prop where
  server : server = MockServer.ofGateway (method.serve gw).2
  plain : resp.Plain rt.limit
  tagged : ∃ key v, resp = MockServer.response (.int id) key v
  agrees : Agrees (method.serve gw).1 (rt.answer method (rt.handleReply id (encodeAscii (dumps rt.tables resp))))

theorem eq_method (name name' : String) :
    (Json.str (text name)).eq (.str (text name')) = decide (text name = text name') := by
  simp [Json.eq, Json.isNaN, Json.same]

/-- What the server answers to `getMiningInfo`: an error where the header cannot be built,
a pause, or the job of the current header. -/
theorem respond_info (gw : MockGateway) (id : Nat) :
    (∃ e, gw.nextJob.1 = .error e ∧ (MockServer.ofGateway gw).respond (Method.getMiningInfo.request id) =
      (MockServer.errorResponse (.int id) (-32000) e, MockServer.ofGateway gw.nextJob.2)) ∨
    (gw.nextJob.1 = .ok none ∧ (MockServer.ofGateway gw).respond (Method.getMiningInfo.request id) =
      (MockServer.errorResponse (.int id) Gateway.miningPausedCode "mining_paused",
        MockServer.ofGateway gw.nextJob.2)) ∨
    ∃ hdr, gw.nextJob.1 = .ok (some hdr) ∧ (MockServer.ofGateway gw).respond (Method.getMiningInfo.request id) =
      (MockServer.response (.int id) "result" (MiningJob.toDict ⟨hdr, gw.target⟩),
        MockServer.ofGateway gw.nextJob.2) := by
  have hInfo : (Json.str (text "getMiningInfo")).eq (.str (text "getMiningInfo")) = true := by
    rw [eq_method, decide_eq_true rfl]
  obtain ⟨hNext, hServer⟩ := MockServer.nextJob_ofGateway gw
  have hTarget := (MockServer.nextJob_keeps gw).2
  rw [MockServer.respond]
  change (∃ e, _ ∧ (if (Json.str (text "getMiningInfo")).eq (.str (text "getMiningInfo")) = true then _ else _) = _) ∨
    (_ ∧ (if (Json.str (text "getMiningInfo")).eq (.str (text "getMiningInfo")) = true then _ else _) = _) ∨
    ∃ hdr, _ ∧ (if (Json.str (text "getMiningInfo")).eq (.str (text "getMiningInfo")) = true then _ else _) = _
  simp only [hInfo, if_pos, hNext]
  cases hJob : gw.nextJob.1 with
  | error e => exact .inl ⟨e, rfl, congrArg (Prod.mk _) hServer⟩
  | ok hdr =>
      cases hdr with
      | none => exact .inr (.inl ⟨rfl, congrArg (Prod.mk _) hServer⟩)
      | some hdr =>
          refine .inr (.inr ⟨hdr, rfl, ?_⟩)
          dsimp only
          rw [hServer, hTarget]
          rfl

/-- A request for a job is exchanged: the server does what the gateway does, its response
is one that can be read, and the client makes of it the answer of the gateway. -/
theorem exchange_info (hLimit : 3 ≤ rt.limit) (hTarget : (digitsText gw.target.natAbs).length ≤ maxDigits)
    (hId : (digitsText id).length ≤ maxDigits) :
    Exchanged rt .getMiningInfo id gw ((MockServer.ofGateway gw).respond (Method.getMiningInfo.request id)).1
      ((MockServer.ofGateway gw).respond (Method.getMiningInfo.request id)).2 := by
  obtain ⟨limit, hLimit⟩ : ∃ limit, rt.limit = limit + 3 := ⟨rt.limit - 3, by omega⟩
  have hRid : (Json.int id).Plain (limit + 2) := .int _ _ hId
  have hKept : gw.nextJob.2.target = gw.target := (MockServer.nextJob_keeps gw).2
  have hError (e : String) (h : gw.nextJob.1 = .error e) : e = "int too big to convert" :=
    MockServer.nextJob_eq_error h
  rcases respond_info gw id with ⟨e, hOut, hRespond⟩ | ⟨hOut, hRespond⟩ | ⟨hdr, hOut, hRespond⟩
  · have hNext : gw.nextJob = (.error e, gw.nextJob.2) := Prod.ext hOut rfl
    have hPlain : (MockServer.errorResponse (.int id) (-32000) e).Plain rt.limit := by
      rw [hLimit, hError e hOut]
      exact plain_errorResponse hRid (by decide) (by decide)
    rw [hRespond]
    refine ⟨?_, hPlain, ⟨_, _, rfl⟩, ?_⟩
    · rw [Method.serve, MockGateway.getMiningInfo, hNext]
    · dsimp only
      rw [handleReply_error hPlain, if_neg (by decide), Method.serve, MockGateway.getMiningInfo, hNext]
      exact .failed e
  · have hNext : gw.nextJob = (.ok none, gw.nextJob.2) := Prod.ext hOut rfl
    have hPlain : (MockServer.errorResponse (.int id) Gateway.miningPausedCode "mining_paused").Plain rt.limit := by
      rw [hLimit]
      exact plain_errorResponse hRid (by decide) (by decide)
    rw [hRespond]
    refine ⟨?_, hPlain, ⟨_, _, rfl⟩, ?_⟩
    · rw [Method.serve, MockGateway.getMiningInfo, hNext]
    · dsimp only
      rw [handleReply_error hPlain, if_pos rfl, Method.serve, MockGateway.getMiningInfo, hNext]
      exact .paused
  · have hNext : gw.nextJob = (.ok (some hdr), gw.nextJob.2) := Prod.ext hOut rfl
    have hPlain : (MockServer.response (.int id) "result" (MiningJob.toDict ⟨hdr, gw.target⟩)).Plain rt.limit := by
      rw [hLimit]
      exact plain_response (.inl rfl) hRid (plain_toDict _ hTarget)
    have hTagged : ∃ key v, MockServer.response (.int id) "result" (MiningJob.toDict ⟨hdr, gw.target⟩) =
        MockServer.response (.int id) key v := ⟨_, _, rfl⟩
    have hRead : rt.answer .getMiningInfo (rt.handleReply id (encodeAscii (dumps rt.tables
        (MockServer.response (.int id) "result" (MiningJob.toDict ⟨hdr, gw.target⟩))))) =
        .info ((MiningJob.fromDict hdr gw.target).mapError .value) := by
      rw [handleReply_result hPlain, PyRuntime.answer]
      dsimp only [Except.mapError, bind, Except.bind]
      rw [readDict_toDict]
    rw [hRespond]
    cases hJob : MiningJob.fromDict hdr gw.target with
    | error e =>
        have hServe : Method.getMiningInfo.serve gw =
            (.getMiningInfo (.error (.raised (.exception e))), gw.nextJob.2) := by
          rw [Method.serve, MockGateway.getMiningInfo, hNext]
          dsimp only
          rw [hKept, hJob]
        refine ⟨by rw [hServe], hPlain, hTagged, ?_⟩
        rw [hServe, hRead, hJob]
        exact .refused e
    | ok job =>
        have hServe : Method.getMiningInfo.serve gw = (.getMiningInfo (.ok job), gw.nextJob.2) := by
          rw [Method.serve, MockGateway.getMiningInfo, hNext]
          dsimp only
          rw [hKept, hJob]
        refine ⟨by rw [hServe], hPlain, hTagged, ?_⟩
        rw [hServe, hRead, hJob]
        exact .job job

/-- What the server answers to `submitPlainProof`: an error where the current header
cannot be built, or that the proof was submitted, also where it was dropped. -/
theorem respond_submit (gw : MockGateway) (submission : PlainProofSubmission) (id : Nat) :
    (∃ e gw', gw.recordSubmit submission = (.error e, gw') ∧
      (MockServer.ofGateway gw).respond ((Method.submitPlainProof submission).request id) =
        (MockServer.errorResponse (.int id) (-32000) e, MockServer.ofGateway gw')) ∨
    ∃ gw', gw.recordSubmit submission = (.ok (), gw') ∧
      (MockServer.ofGateway gw).respond ((Method.submitPlainProof submission).request id) =
        (MockServer.response (.int id) "result" (.str (text "submitted")), MockServer.ofGateway gw') := by
  have hInfo : (Json.str (text "submitPlainProof")).eq (.str (text "getMiningInfo")) = false := by
    rw [eq_method, decide_eq_false (by decide)]
  have hSubmit : (Json.str (text "submitPlainProof")).eq (.str (text "submitPlainProof")) = true := by
    rw [eq_method, decide_eq_true rfl]
  have hParams : ((Method.submitPlainProof submission).request id).get (text "params") (.obj []) =
      submission.params := rfl
  have hRecord := MockServer.recordSubmit_ofGateway gw submission
  rcases hOutcome : gw.recordSubmit submission with ⟨e | ⟨⟩, gw'⟩
  · refine .inl ⟨e, gw', rfl, ?_⟩
    rw [MockServer.respond]
    change (if (Json.str (text "submitPlainProof")).eq (.str (text "getMiningInfo")) = true then _ else
      if (Json.str (text "submitPlainProof")).eq (.str (text "submitPlainProof")) = true then _ else _) = _
    rw [hInfo, hSubmit, if_neg Bool.false_ne_true, if_pos rfl, hParams, hRecord, hOutcome]
    rfl
  · refine .inr ⟨gw', rfl, ?_⟩
    rw [MockServer.respond]
    change (if (Json.str (text "submitPlainProof")).eq (.str (text "getMiningInfo")) = true then _ else
      if (Json.str (text "submitPlainProof")).eq (.str (text "submitPlainProof")) = true then _ else _) = _
    rw [hInfo, hSubmit, if_neg Bool.false_ne_true, if_pos rfl, hParams, hRecord, hOutcome]
    rfl

/-- A submit is exchanged: the server records it as the gateway does, and the client makes
of the response the answer of the gateway. -/
theorem exchange_submit (hLimit : 3 ≤ rt.limit) (submission : PlainProofSubmission)
    (hId : (digitsText id).length ≤ maxDigits) :
    Exchanged rt (.submitPlainProof submission) id gw
      ((MockServer.ofGateway gw).respond ((Method.submitPlainProof submission).request id)).1
      ((MockServer.ofGateway gw).respond ((Method.submitPlainProof submission).request id)).2 := by
  obtain ⟨limit, hLimit⟩ : ∃ limit, rt.limit = limit + 3 := ⟨rt.limit - 3, by omega⟩
  have hRid : (Json.int id).Plain (limit + 2) := .int _ _ hId
  have hError (e : String) (gw' : MockGateway) (h : gw.recordSubmit submission = (.error e, gw')) :
      e = "int too big to convert" := by
    rw [MockGateway.recordSubmit] at h
    dsimp only at h
    cases hHeader : MockGateway.currentHeader { gw with submissions := gw.submissions ++ [submission] } with
    | error e' =>
        rw [hHeader] at h
        cases h
        exact MockServer.currentHeader_eq_error hHeader
    | ok header =>
        rw [hHeader] at h
        dsimp only at h
        split_ifs at h <;> cases h
  rcases respond_submit gw submission id with ⟨e, gw', hOutcome, hRespond⟩ | ⟨gw', hOutcome, hRespond⟩
  · have hPlain : (MockServer.errorResponse (.int id) (-32000) e).Plain rt.limit := by
      rw [hLimit, hError e gw' hOutcome]
      exact plain_errorResponse hRid (by decide) (by decide)
    rw [hRespond]
    refine ⟨?_, hPlain, ⟨_, _, rfl⟩, ?_⟩
    · rw [Method.serve, MockGateway.submitPlainProof, hOutcome]
    · dsimp only
      rw [handleReply_error hPlain, if_neg (by decide), Method.serve, MockGateway.submitPlainProof, hOutcome]
      exact .rejected submission e
  · have hPlain : (MockServer.response (.int id) "result" (.str (text "submitted"))).Plain rt.limit := by
      rw [hLimit]
      exact plain_response (.inl rfl) hRid (.str _ _ (by decide))
    rw [hRespond]
    refine ⟨?_, hPlain, ⟨_, _, rfl⟩, ?_⟩
    · rw [Method.serve, MockGateway.submitPlainProof, hOutcome]
    · dsimp only
      rw [handleReply_result hPlain, Method.serve, MockGateway.submitPlainProof, hOutcome]
      exact .submitted submission

/-- Each method is exchanged, so that a request over the wire is a call of the abstract
gateway. -/
theorem exchange (hLimit : 3 ≤ rt.limit) (hTarget : (digitsText gw.target.natAbs).length ≤ maxDigits)
    (method : Method) (hId : (digitsText id).length ≤ maxDigits) :
    Exchanged rt method id gw ((MockServer.ofGateway gw).respond (method.request id)).1
      ((MockServer.ofGateway gw).respond (method.request id)).2 := by
  cases method with
  | getMiningInfo => exact exchange_info hLimit hTarget hId
  | submitPlainProof submission => exact exchange_submit hLimit submission hId

/-- The handler takes the line of a request for the request itself, and replies with one
line. -/
theorem handleLine_request (hLimit : 3 ≤ rt.limit) {method : Method} (hPrints : method.Prints)
    (hId : (digitsText id).length ≤ maxDigits) (server : MockServer) :
    MockServer.handleLine rt server (rt.dumpsLine (.obj (method.request id))) =
      .replied (rt.dumpsLine (server.respond (method.request id)).1) (server.respond (method.request id)).2 := by
  obtain ⟨limit, hLimit⟩ : ∃ limit, rt.limit = limit + 3 := ⟨rt.limit - 3, by omega⟩
  have hPlain : (Json.obj (method.request id)).Plain rt.limit := by
    rw [hLimit]
    exact plain_request hPrints hId
  rw [MockServer.handleLine, loads_dumpsLine hPlain]

end Exchange

end Miner
