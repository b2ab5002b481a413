import PrlMiner.Miner.LuckyPool

/-! What a step of `live` can do, and what holds in every state of a run. -/
namespace Miner.LuckyPool

open Python Runs

/-- A loop of `pump` is reading. -/
def Live.Pumps (s : Live) : Prop := s.phase = .authorizing ∨ s.phase = .pumping

/-- Neither a batch nor the wait for a reply. -/
def Phase.Idle : Phase → Prop
  | .mining _ | .waiting _ => False
  | _ => True

/-- A step other than a read or a submit. -/
def Event.Quiet : Event → Prop
  | .arrives _ | .reads | .searched (.confirmed _) => False
  | _ => True

def isJobMessage : Json → Bool
  | .obj fields => isJobMethod (Fields.get fields (text "method") (.str []))
  | _ => false

/-- The job that a message carries. -/
def carriedJob (host : Host) : Json → Option Job
  | .obj fields => (Fields.item fields (text "params")).bind (applyJob host)
  | _ => none

/-- `s` with the next message read. -/
def Live.logged (s : Live) (unread : List Arrival) (msg : Json) (pumped : Bool) : Live :=
  { s with unread := unread, history := s.history ++ [⟨msg, pumped, s.lastId⟩] }

/-- The transitions of `live`. -/
inductive Effect (host : Host) (natt : Nat) (s : Live) : Event → Live → Prop where
  | arrives (arrival : Arrival) :
      Effect host natt s (.arrives arrival) { s with unread := s.unread ++ [arrival] }
  | idles (e : Event) (phase : Phase) (hQuiet : e.Quiet) (hIdle : phase.Idle)
      (hStart : e = .windowEnds → s.phase = .pumping → s.cur = none)
      (hRunning : ∀ status, s.phase ≠ .ended status) :
      Effect host natt s e { s with phase := phase }
  | garbles (arrival : Arrival) (unread : List Arrival) (hUnread : s.unread = arrival :: unread)
      (hMessage : arrival.message = none) :
      Effect host natt s .reads { s with unread := unread, phase := .ended none }
  | starts (job : Job) (hPhase : s.phase = .pumping) (hCur : s.cur = some job) :
      Effect host natt s .windowEnds { s with phase := .mining job, tried := s.tried + natt }
  | pumps (arrival : Arrival) (unread : List Arrival) (msg : Json) (hPumps : s.Pumps)
      (hUnread : s.unread = arrival :: unread) (hMessage : arrival.message = some msg) :
      Effect host natt s .reads (pumpMessage host msg (s.logged unread msg true))
  | waits (sid : Nat) (arrival : Arrival) (unread : List Arrival) (msg : Json)
      (hPhase : s.phase = .waiting sid) (hUnread : s.unread = arrival :: unread)
      (hMessage : arrival.message = some msg) :
      Effect host natt s .reads (waitMessage host sid arrival.isLast msg (s.logged unread msg false))
  | drops (job : Job) (proof : Text) (hPhase : s.phase = .mining job)
      (hRolled : job.jobId.eq s.jobId = false) :
      Effect host natt s (.searched (.confirmed proof)) { s with phase := .head }
  | submits (job : Job) (proof : Text) (hPhase : s.phase = .mining job)
      (hSame : job.jobId.eq s.jobId = true) :
      Effect host natt s (.searched (.confirmed proof)) (submit job proof s)

variable {host : Host} {natt : Nat} {s s' : Live} {e : Event} {events : List Event}

/-- Every step of `live` is one of these transitions, which say what the phase must be for
it and what it changes. -/
theorem effect_of_step (hStep : liveStep host natt s e = some s') : Effect host natt s e s' := by
  obtain ⟨phase, unread, cur, lastId, tried, submitted, accepted, history, sent⟩ := s
  cases e with
  | arrives arrival =>
      cases hStep
      exact .arrives arrival
  | enters =>
      cases phase <;> cases hStep
      exact .idles _ .pumping trivial trivial nofun nofun
  | deadline =>
      cases phase <;> cases hStep
      exact .idles _ (.ended (some 0)) trivial trivial nofun nofun
  | raises =>
      cases phase <;> cases hStep <;> exact .idles _ (.ended none) trivial trivial nofun nofun
  | windowEnds =>
      cases phase with
      | pumping =>
          cases cur <;> cases hStep
          · exact .idles _ .head trivial trivial (fun _ _ => rfl) nofun
          · exact .starts _ rfl rfl
      | authorizing | waiting sid =>
          cases hStep
          exact .idles _ .head trivial trivial nofun nofun
      | _ => cases hStep
  | searched search =>
      cases phase with
      | mining job =>
          cases hStep
          unfold afterSearch
          cases hSame : job.jobId.eq (Live.jobId ⟨.mining job, unread, cur, lastId, tried, submitted,
            accepted, history, sent⟩) <;> cases search
          case false.confirmed proof => exact .drops job proof rfl hSame
          case true.confirmed proof => exact .submits job proof rfl hSame
          all_goals exact .idles _ .head trivial trivial nofun nofun
      | _ => cases hStep
  | reads =>
      cases unread with
      | nil => cases hStep
      | cons arrival unread =>
          cases hMessage : arrival.message with
          | none =>
              dsimp only [liveStep, readMessage] at hStep
              rw [hMessage] at hStep
              cases phase <;> cases hStep <;> exact .garbles arrival unread rfl hMessage
          | some msg =>
              dsimp only [liveStep, readMessage] at hStep
              rw [hMessage] at hStep
              cases phase with
              | authorizing =>
                  cases hStep
                  exact .pumps arrival unread msg (.inl rfl) rfl hMessage
              | pumping =>
                  cases hStep
                  exact .pumps arrival unread msg (.inr rfl) rfl hMessage
              | waiting sid =>
                  cases hStep
                  exact .waits sid arrival unread msg rfl rfl hMessage
              | _ => cases hStep

/-- A message pumped ends the run, or puts the job it carries in force, or does
nothing. -/
theorem pumpMessage_spec (host : Host) (msg : Json) (s : Live) :
    (∃ status, pumpMessage host msg s = { s with phase := .ended status }) ∨
    (∃ job, isJobMessage msg = true ∧ carriedJob host msg = some job ∧
      pumpMessage host msg s = { s with cur := some job }) ∨
    (isJobMessage msg = false ∧ pumpMessage host msg s = s) := by
  unfold pumpMessage
  cases isLinkMessage msg with
  | none => exact .inl ⟨none, rfl⟩
  | some link =>
      cases link with
      | true => exact .inl ⟨some 1, rfl⟩
      | false =>
          cases msg with
          | obj fields =>
              dsimp only
              split_ifs with hJob
              · cases hCarried : (Fields.item fields (text "params")).bind (applyJob host) with
                | none => exact .inl ⟨none, rfl⟩
                | some job => exact .inr (.inl ⟨job, hJob, hCarried, rfl⟩)
              · exact .inr (.inr ⟨Bool.eq_false_iff.mpr hJob, rfl⟩)
          | _ => exact .inl ⟨none, rfl⟩

/-- A message read while waiting changes the counter of accepted shares and the phase. A
job that it carries is not put in force. -/
theorem waitMessage_spec (host : Host) (sid : Nat) (last : Bool) (msg : Json) (s : Live) :
    ∃ phase, waitMessage host sid last msg s =
      { s with
        phase := phase
        accepted := s.accepted + if countsAsAccepted host msg then 1 else 0 } ∧
      (phase = s.phase ∨ phase.Idle) := by
  cases msg with
  | obj fields =>
      dsimp only [waitMessage]
      cases countsAsAccepted host (.obj fields) <;> cases endsWait sid fields || last
      · exact ⟨s.phase, rfl, .inl rfl⟩
      · exact ⟨.head, rfl, .inr trivial⟩
      · exact ⟨s.phase, rfl, .inl rfl⟩
      · exact ⟨.head, rfl, .inr trivial⟩
  | _ => exact ⟨.ended none, rfl, .inr trivial⟩

/-- The job that the last `mining.notify` or `job` of some messages carries. -/
def lastJob (host : Host) (history : List Reading) : Option Job :=
  ((history.map Reading.msg).filter isJobMessage).getLast?.bind (carriedJob host)

/-- The last job is that of the last job message, also where this carries none that can be
applied. -/
theorem lastJob_append (host : Host) (history : List Reading) (r : Reading) :
    lastJob host (history ++ [r]) =
      if isJobMessage r.msg then carriedJob host r.msg else lastJob host history := by
  unfold lastJob
  rw [List.map_append, List.filter_append, List.map_singleton, List.filter_singleton]
  cases isJobMessage r.msg with
  | true => simp
  | false => simp

/-- Ids of the shares sent. -/
def Live.submitIds (s : Live) : List Nat := s.sent.map Share.id

/-- A batch mines the job in force, which is the last one pumped. Ids of shares
follow that of `mining.authorize`. -/
structure Consistent (host : Host) (s : Live) : Prop where
  mining : ∀ job, s.phase = .mining job → s.cur = some job
  current : (∀ status, s.phase ≠ .ended status) →
    s.cur = lastJob host (s.history.filter Reading.pumped)
  ids : s.submitIds = (List.range s.submitted).map (· + 2)
  lastId : s.lastId = s.submitted + 1
  earlier : ∀ r ∈ s.history, r.lastId ≤ s.lastId

theorem consistent_init (host : Host) : Consistent host Live.init :=
  ⟨nofun, fun _ => rfl, rfl, rfl, nofun⟩

/-- Reading a message keeps what does not depend on the phase. -/
theorem Consistent.earlier_logged (h : Consistent host s) (unread : List Arrival) (msg : Json)
    (pumped : Bool) : ∀ r ∈ (s.logged unread msg pumped).history, r.lastId ≤ s.lastId := by
  intro r hr
  rcases List.mem_append.mp hr with hr | hr
  · exact h.earlier r hr
  · rw [List.mem_singleton.mp hr]

/-- Every transition keeps the job that is mined the one in force, this the last one that
was pumped, and the ids of the shares in order. -/
theorem consistent_step (h : Consistent host s) (effect : Effect host natt s e s') :
    Consistent host s' := by
  cases effect with
  | arrives arrival => exact ⟨h.mining, h.current, h.ids, h.lastId, h.earlier⟩
  | idles _ phase hQuiet hIdle hStart hRunning =>
      refine ⟨?_, fun _ => h.current hRunning, h.ids, h.lastId, h.earlier⟩
      rintro job rfl
      exact hIdle.elim
  | garbles arrival unread hUnread hMessage =>
      exact ⟨nofun, fun hRunning => absurd rfl (hRunning none), h.ids, h.lastId, h.earlier⟩
  | starts job hPhase hCur =>
      refine ⟨?_, fun _ => h.current (by simp [hPhase]), h.ids, h.lastId, h.earlier⟩
      rintro job' hJob
      cases hJob
      exact hCur
  | pumps arrival unread msg hPumps hUnread hMessage =>
      have hEarlier := h.earlier_logged unread msg true
      have hMining (job : Job) : s.phase ≠ .mining job := by
        rcases hPumps with hPhase | hPhase <;> simp [hPhase]
      have hCurrent := h.current (by rcases hPumps with hPhase | hPhase <;> simp [hPhase])
      have hLast : lastJob host ((s.logged unread msg true).history.filter Reading.pumped) =
          if isJobMessage msg then carriedJob host msg else s.cur := by
        rw [hCurrent, ← lastJob_append host _ ⟨msg, true, s.lastId⟩]
        simp [Live.logged]
      obtain ⟨status, hEnd⟩ | ⟨job, hJob, hCarried, hEnd⟩ | ⟨hJob, hEnd⟩ :=
        pumpMessage_spec host msg (s.logged unread msg true)
      · rw [hEnd]
        exact ⟨nofun, fun hRunning => absurd rfl (hRunning status), h.ids, h.lastId, hEarlier⟩
      · rw [hEnd]
        refine ⟨fun job' hPhase => absurd hPhase (hMining job'), fun _ => ?_, h.ids, h.lastId, hEarlier⟩
        exact (hLast.trans (by rw [if_pos hJob, hCarried])).symm
      · rw [hEnd]
        refine ⟨fun job' hPhase => absurd hPhase (hMining job'), fun _ => ?_, h.ids, h.lastId, hEarlier⟩
        exact (hLast.trans (by rw [hJob]; rfl)).symm
  | waits sid arrival unread msg hPhase hUnread hMessage =>
      have hEarlier := h.earlier_logged unread msg false
      have hCurrent := h.current (by simp [hPhase])
      obtain ⟨phase, hEnd, hNext⟩ := waitMessage_spec host sid arrival.isLast msg (s.logged unread msg false)
      rw [hEnd]
      refine ⟨?_, fun _ => ?_, h.ids, h.lastId, hEarlier⟩
      · rintro job rfl
        rcases hNext with hSame | hIdle
        · exact absurd (hSame.trans hPhase) nofun
        · exact hIdle.elim
      · simpa [Live.logged] using hCurrent
  | drops job proof hPhase hRolled =>
      exact ⟨nofun, fun _ => h.current (by simp [hPhase]), h.ids, h.lastId, h.earlier⟩
  | submits job proof hPhase hSame =>
      refine ⟨nofun, fun _ => h.current (by simp [hPhase]), ?_, ?_, ?_⟩
      · have hIds := h.ids
        have hLast := h.lastId
        rw [Live.submitIds] at hIds ⊢
        rw [submit, List.map_append, hIds, List.range_succ, List.map_append, hLast]
        rfl
      · exact congrArg (· + 1) h.lastId
      · exact fun r hr => (h.earlier r hr).trans (Nat.le_succ _)

/-- So they are in every run, whatever order of messages, windows and searches it has. -/
theorem LiveRun.consistent (run : LiveRun host natt events s) : Consistent host s :=
  Runs.Run.invariant (Consistent host) run (consistent_init host)
    fun _ _ _ h hStep => consistent_step h (effect_of_step hStep)

end Miner.LuckyPool
