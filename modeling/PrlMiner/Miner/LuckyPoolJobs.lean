import PrlMiner.Miner.LuckyPoolRuns

/-! Jobs that the wait for a reply takes from the stream, and shares of a job that a
message not yet read has replaced. -/
namespace Miner.LuckyPool

open Python Runs

variable {host : Host} {natt : Nat} {s s' : Live} {e : Event} {events : List Event}

/-- A batch mines the job of the last job message read. -/
def MinesLastJob (host : Host) (s : Live) : Prop :=
  ∀ job, s.phase = .mining job → lastJob host s.history = some job

/-- Where a batch starts, the last job message read carries the job of the last one
that `pump` read. -/
def NoJobLost (host : Host) (s : Live) (e : Event) : Prop :=
  e = .windowEnds → s.phase = .pumping → s.cur.isSome →
    lastJob host s.history = lastJob host (s.history.filter Reading.pumped)

/-- Nothing is asked of a miner that is not mining. -/
theorem minesLastJob_of_not_mining (hPhase : ∀ job, s.phase ≠ .mining job) : MinesLastJob host s :=
  fun job h => absurd h (hPhase job)

theorem Phase.Idle.not_mining {phase : Phase} (h : phase.Idle) (job : Job) : phase ≠ .mining job := by
  rintro rfl
  exact h

/-- Only the start of a batch can break it: then the job of the batch is compared with the
last one that was read, also by the wait for a reply. -/
theorem minesLastJob_step (run : LiveRun host natt events s) (hMines : MinesLastJob host s)
    (hStep : liveStep host natt s e = some s') : MinesLastJob host s' ↔ NoJobLost host s e := by
  have hConsistent := run.consistent
  cases effect_of_step hStep with
  | arrives arrival => exact iff_of_true hMines fun hEvent => by cases hEvent
  | idles _ phase hQuiet hIdle hStart hRunning =>
      refine iff_of_true (minesLastJob_of_not_mining hIdle.not_mining) fun hEvent hPhase hCur => ?_
      rw [hStart hEvent hPhase] at hCur
      cases hCur
  | garbles arrival unread hUnread hMessage =>
      exact iff_of_true (minesLastJob_of_not_mining fun job h => by cases h) fun hEvent => by cases hEvent
  | starts job hPhase hCur =>
      have hCurrent := hConsistent.current (by simp [hPhase])
      constructor
      · intro h _ _ _
        rw [← hCurrent, hCur]
        exact h job rfl
      · intro h job' hJob
        cases hJob
        exact (h rfl hPhase (by rw [hCur]; rfl)).trans (hCurrent.symm.trans hCur)
  | pumps arrival unread msg hPumps hUnread hMessage =>
      refine iff_of_true (minesLastJob_of_not_mining fun job => ?_) fun hEvent => by cases hEvent
      have hNot : (s.logged unread msg true).phase ≠ .mining job := by
        rcases hPumps with hPhase | hPhase <;> simp [Live.logged, hPhase]
      obtain ⟨status, hEnd⟩ | ⟨_, -, -, hEnd⟩ | ⟨-, hEnd⟩ :=
        pumpMessage_spec host msg (s.logged unread msg true)
      · rw [hEnd]
        exact fun h => by cases h
      · rw [hEnd]
        exact hNot
      · rw [hEnd]
        exact hNot
  | waits sid arrival unread msg hPhase hUnread hMessage =>
      obtain ⟨phase, hEnd, hNext⟩ := waitMessage_spec host sid arrival.isLast msg (s.logged unread msg false)
      rw [hEnd]
      refine iff_of_true (minesLastJob_of_not_mining fun job hMining => ?_) fun hEvent => by cases hEvent
      rcases hNext with hSame | hIdle
      · cases (hMining.symm.trans hSame).trans hPhase
      · exact hIdle.not_mining job hMining
  | drops job proof hPhase hRolled =>
      exact iff_of_true (minesLastJob_of_not_mining fun job h => by cases h) fun hEvent => by cases hEvent
  | submits job proof hPhase hSame =>
      exact iff_of_true (minesLastJob_of_not_mining (by simp [submit])) (fun hEvent => by cases hEvent)

/-- A step that cannot be taken starts no batch, so that nothing is lost by it. -/
theorem noJobLost_of_stuck (hStuck : liveStep host natt s e = none) : NoJobLost host s e := by
  rintro rfl hPhase hCur
  obtain ⟨job, hJob⟩ := Option.isSome_iff_exists.mp hCur
  rw [liveStep, hPhase, hJob] at hStuck
  cases hStuck

/-- Every batch of some events mines the job of the last job message read exactly when
no batch starts after the wait for a reply took a new job from the stream. -/
theorem mines_last_job_iff (host : Host) (natt : Nat) (events : List Event) :
    EveryState (liveStep host natt) Live.init (MinesLastJob host) events ↔
      EveryStep (liveStep host natt) Live.init (NoJobLost host) events :=
  everyState_iff_everyStep (minesLastJob_of_not_mining (by simp [Live.init]))
    (fun _ _ _ _ run hMines hStep => minesLastJob_step run hMines hStep)
    (fun _ _ hStuck => noJobLost_of_stuck hStuck) events

/-- The tile factor of the matmul config of `live`, and no value beyond ASCII. -/
def plainHost : Host where
  tables := ⟨fun _ => [], fun _ => false, fun _ => none⟩
  adjustTarget := fun _ target => some (16 * 16 * 256 * target)

/-- A `mining.notify`. -/
def notify (jobId : String) : Arrival :=
  .line (.obj [(text "method", .str (text "mining.notify")),
    (text "params", .obj [(text "header", .str (text "00")), (text "target", .str (text "0x21")),
      (text "job_id", .str (text jobId))])])

/-- A share of the job `a`, and a notify before the reply to it. -/
def notifyWhileWaiting : List Event :=
  [.arrives (notify "a"), .reads, .windowEnds, .enters, .windowEnds, .searched (.confirmed []),
    .arrives (notify "b"), .reads, .windowEnds, .enters, .windowEnds]

/-- Id of the job that a batch mines. -/
def Phase.jobId : Phase → Option Json
  | .mining job => some job.jobId
  | _ => none

theorem notifyWhileWaiting_ends :
    (notifyWhileWaiting.foldlM (liveStep plainHost 256) Live.init).map (fun s =>
      (s.phase.jobId, (lastJob plainHost s.history).map Job.jobId)) =
      some (some (.str (text "a")), some (.str (text "b"))) := rfl

/-- The batch that starts last still mines `a`, although the wait for a reply has read
that `b` replaced it. -/
theorem job_lost_while_waiting :
    ¬EveryState (liveStep plainHost 256) Live.init (MinesLastJob plainHost) notifyWhileWaiting := by
  intro h
  obtain ⟨s, hRun, hEnd⟩ := Option.map_eq_some_iff.mp notifyWhileWaiting_ends
  obtain ⟨hMined, hLast⟩ := Prod.mk.inj hEnd
  have hMines := h _ [] s (List.append_nil _).symm (run_iff_foldlM.mpr hRun)
  cases hPhase : s.phase with
  | mining job =>
      rw [hPhase] at hMined
      rw [hMines job hPhase] at hLast
      exact absurd (hMined.symm.trans hLast) (by simp [text])
  | _ =>
      rw [hPhase] at hMined
      cases hMined

/-- A `mining.notify` of a job with another id. -/
def announcesOther (jobId : Json) : Arrival → Bool
  | .line (.obj fields) =>
      (Fields.get fields (text "method") .null).eq (.str (text "mining.notify")) &&
        match Fields.item fields (text "params") with
        | some (.obj params) =>
            match Fields.item params (text "job_id") with
            | some other => !other.eq jobId
            | none => false
        | _ => false
  | _ => false

/-- No share was sent while a `mining.notify` of another job was unread. -/
def NoStaleShare (s : Live) : Prop :=
  ∀ share ∈ s.sent, share.unread.any (announcesOther share.jobId) = false

/-- Where a winner is confirmed no `mining.notify` of another job is unread, or the id
of the job is a NaN. -/
def WinnerCurrent (s : Live) (e : Event) : Prop :=
  ∀ job proof, s.phase = .mining job → e = .searched (.confirmed proof) →
    s.unread.any (announcesOther job.jobId) = false ∨ job.jobId.isNaN = true

/-- Nothing between the capture of the id and the rollover check changes the job: the
check can only find that a NaN differs from itself. -/
theorem rollover_eq_isNaN (run : LiveRun host natt events s) {job : Job} (hPhase : s.phase = .mining job) :
    job.jobId.eq s.jobId = !job.jobId.isNaN := by
  rw [Live.jobId, run.consistent.mining job hPhase]
  exact Json.eq_self job.jobId

/-- Only a confirmed winner can break it, when a message that replaces its job has come
and is not read yet. -/
theorem noStaleShare_step (run : LiveRun host natt events s) (hFresh : NoStaleShare s)
    (hStep : liveStep host natt s e = some s') : NoStaleShare s' ↔ WinnerCurrent s e := by
  cases effect_of_step hStep with
  | arrives arrival => exact iff_of_true hFresh nofun
  | idles _ phase hQuiet hIdle hStart hRunning =>
      refine iff_of_true hFresh fun job proof hPhase hEvent => ?_
      rw [hEvent] at hQuiet
      exact hQuiet.elim
  | garbles arrival unread hUnread hMessage => exact iff_of_true hFresh nofun
  | starts job hPhase hCur => exact iff_of_true hFresh nofun
  | pumps arrival unread msg hPumps hUnread hMessage =>
      refine iff_of_true ?_ nofun
      obtain ⟨status, hEnd⟩ | ⟨_, -, -, hEnd⟩ | ⟨-, hEnd⟩ :=
        pumpMessage_spec host msg (s.logged unread msg true)
      · rw [hEnd]
        exact hFresh
      · rw [hEnd]
        exact hFresh
      · rw [hEnd]
        exact hFresh
  | waits sid arrival unread msg hPhase hUnread hMessage =>
      obtain ⟨phase, hEnd, -⟩ := waitMessage_spec host sid arrival.isLast msg (s.logged unread msg false)
      rw [hEnd]
      exact iff_of_true hFresh nofun
  | drops job proof hPhase hRolled =>
      refine iff_of_true hFresh fun job' proof' hPhase' hEvent => .inr ?_
      rw [rollover_eq_isNaN run hPhase, Bool.not_eq_false'] at hRolled
      cases hPhase.symm.trans hPhase'
      exact hRolled
  | submits job proof hPhase hSame =>
      rw [rollover_eq_isNaN run hPhase, Bool.not_eq_true'] at hSame
      constructor
      · intro h job' proof' hPhase' hEvent
        cases hPhase.symm.trans hPhase'
        exact .inl (h _ (List.mem_append_right _ (List.mem_singleton_self _)))
      · intro h share hShare
        rcases List.mem_append.mp hShare with hShare | hShare
        · exact hFresh share hShare
        · rw [List.mem_singleton.mp hShare]
          rcases h job proof hPhase rfl with hNone | hNaN
          · exact hNone
          · rw [hSame] at hNaN
            cases hNaN

/-- The shares of some events are never stale exactly when every winner is confirmed
while no `mining.notify` of another job is unread, or on a job whose id is a NaN. -/
theorem no_stale_share_iff (host : Host) (natt : Nat) (events : List Event) :
    EveryState (liveStep host natt) Live.init NoStaleShare events ↔
      EveryStep (liveStep host natt) Live.init WinnerCurrent events := by
  refine everyState_iff_everyStep nofun
    (fun _ _ _ _ run hFresh hStep => noStaleShare_step run hFresh hStep) ?_ events
  rintro s e hStuck job proof hPhase rfl
  rw [liveStep, hPhase] at hStuck
  cases hStuck

/-- A notify that arrives while the batch on the job `a` runs. -/
def notifyWhileMining : List Event :=
  [.arrives (notify "a"), .reads, .windowEnds, .enters, .windowEnds, .arrives (notify "b"),
    .searched (.confirmed [])]

theorem notifyWhileMining_ends :
    (notifyWhileMining.foldlM (liveStep plainHost 256) Live.init).map Live.sent =
      some [⟨2, .str (text "a"), [], [notify "b"]⟩] := rfl

/-- A share of `a` is sent while the message that replaces `a` by `b` is unread. -/
theorem stale_share_sent :
    ¬EveryState (liveStep plainHost 256) Live.init NoStaleShare notifyWhileMining := by
  intro h
  obtain ⟨s, hRun, hSent⟩ := Option.map_eq_some_iff.mp notifyWhileMining_ends
  have hFresh := h _ [] s (List.append_nil _).symm (run_iff_foldlM.mpr hRun) ⟨2, _, [], _⟩
    (hSent ▸ List.mem_singleton_self _)
  exact absurd hFresh (by decide)

end Miner.LuckyPool
