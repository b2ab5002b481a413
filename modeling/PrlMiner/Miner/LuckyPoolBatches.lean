import PrlMiner.Miner.FastMineRuns
import PrlMiner.Miner.LuckyPoolRuns

/-! The batches of `live`: every share that it sends is of an attempt that `noisy_gemm`
opens for an announced job. -/
namespace Miner.LuckyPool

open Python LittleEndian Cuda Reference Runs FastMine

/-- A batch on the job captured for it: `build_batch`, `gpu_search`, and `noisy_gemm` at
the target of `cur`. -/
def searchJob (base : MinerBase) (d : Device) (natt : Nat) (job : Job) (adj : Int) (draws : Draws) :
    Except Failure Search := do
  let atts := fun j => base.attempt job.header (draws j)
  let res ← batchSearch d base.M MinerBase.K base.N natt atts job.tle
  if res.1 < 0 then return .noWinner
  else
    match ← base.confirm adj (atts res.1.toNat) with
    | none => return .unconfirmed
    | some ob => return .confirmed (base.createProof ob job.header)

/-- A search ends as its batch does, whatever was drawn for it. -/
def Searches (base : MinerBase) (natt : Nat) (s : Live) (e : Event) : Prop :=
  ∀ search job cur, e = .searched search → s.phase = .mining job → s.cur = some cur →
    ∃ d draws, draws.InRange ∧ searchJob base d natt job cur.adj draws = .ok search

/-- The target of a job, as `adjust_target` has scaled it. -/
structure Job.Sound (job : Job) : Prop where
  target : 0 ≤ job.adj ∧ job.adj < 2 ^ 256
  tle : job.tle = toBytes 32 job.adj.toNat

/-- A share of a job of the pool, with the proof of the first attempt of a batch that
`noisy_gemm` opens at the target of the job. -/
structure Share.ProvesWork (base : MinerBase) (host : Host) (natt : Nat) (history : List Reading) (share : Share)
    (job : Job) (draws : Draws) : Prop where
  announced : ∃ r ∈ history, r.pumped = true ∧ isJobMessage r.msg = true ∧ carriedJob host r.msg = some job
  jobId : share.jobId = job.jobId
  inRange : draws.InRange
  opens : base.MinesFirst job.header job.adj draws natt (some share.proof)

variable {base : MinerBase} {host : Host} {natt : Nat} {s s' : Live} {e : Event} {events : List Event}

/-- A job that is applied has a target of 256 bits, or `to_bytes` has raised. -/
theorem applyJob_sound {p : Json} {job : Job} (h : applyJob host p = some job) : job.Sound := by
  cases p with
  | obj fields =>
      rw [applyJob] at h
      simp only [bind, Option.bind_eq_some_iff] at h
      obtain ⟨header, -, h⟩ := h
      cases header with
      | str header =>
          simp only [Option.bind_eq_some_iff] at h
          obtain ⟨hdr, -, target, -, h⟩ := h
          split at h <;>
          · simp only [Option.bind_eq_some_iff] at h
            obtain ⟨raw, -, adj, -, jobId, -, h⟩ := h
            split_ifs at h with hRange
            cases h
            exact ⟨hRange, rfl⟩
      | _ => cases h
  | _ => cases h

theorem carriedJob_sound {msg : Json} {job : Job} (h : carriedJob host msg = some job) : job.Sound := by
  cases msg with
  | obj fields =>
      obtain ⟨p, -, hApply⟩ := Option.bind_eq_some_iff.mp h
      exact applyJob_sound hApply
  | _ => cases h

/-- A job in force has been announced, by a message that was read and is a job message. -/
theorem lastJob_announced {history : List Reading} {job : Job} (h : lastJob host history = some job) :
    ∃ r ∈ history, isJobMessage r.msg = true ∧ carriedJob host r.msg = some job := by
  obtain ⟨msg, hLast, hCarried⟩ := Option.bind_eq_some_iff.mp h
  obtain ⟨hMem, hJob⟩ := List.mem_filter.mp (List.mem_of_getLast? hLast)
  obtain ⟨r, hr, rfl⟩ := List.mem_map.mp hMem
  exact ⟨r, hr, hJob, hCarried⟩

/-- A batch does not raise, and a winner of the device is confirmed: it is the first
attempt of the batch that `noisy_gemm` opens. There is none exactly if no attempt is
opened. -/
theorem searchJob_ends (hPorted : base.Ported) (hConfig : base.config.Production) (hNatt : 1 ≤ natt)
    (hBound : natt * (base.M / 2) * (base.N / 64) < sentinel) {job : Job} (hJob : job.Sound) (d : Device)
    {draws : Draws} (hDraws : draws.InRange) : ∃ search, searchJob base d natt job job.adj draws = .ok search ∧
      ((search = .noWinner ∧ base.MinesFirst job.header job.adj draws natt none) ∨
        ∃ proof, search = .confirmed proof ∧ base.MinesFirst job.header job.adj draws natt (some proof)) := by
  have hConfirm := confirm_eq hPorted hConfig hDraws hJob.target job.header
  obtain ⟨res, hSearch, hFinds⟩ := batchSearch_finds (g := base.gemm) d
    (fun j => base.attempt job.header (draws j)) hConfig.dims (by decide) hNatt hBound rfl
    (congrArg Nat.cast hConfig.tileH) (congrArg Nat.cast hConfig.tileW) hJob.target
  rw [searchJob, hJob.tle, hSearch]
  dsimp only [bind, Except.bind]
  cases hFinds with
  | miss hNone row col words =>
      rw [if_pos (show (-1 : Int) < 0 by decide)]
      refine ⟨.noWinner, rfl, .inl ⟨rfl, .nothing fun j hj => ?_⟩⟩
      rw [hConfirm, show base.opens job.header job.adj draws j = none from hNone j hj]
  | @hit j block row col inside opens before rowIs colIs =>
      have hOpens : base.opens job.header job.adj draws j = some block := opens
      rw [if_neg (show ¬ (j : Int) < 0 by omega), Int.toNat_natCast, hConfirm, hOpens]
      refine ⟨.confirmed _, rfl, .inr ⟨_, rfl, .proof inside (by rw [hConfirm, hOpens]) fun i hi => ?_⟩⟩
      rw [hConfirm, show base.opens job.header job.adj draws i = none from before i hi]

/-- Only a submit sends a share, for the job and with the proof of the search, and
messages read are not forgotten. -/
theorem sent_of_effect (effect : Effect host natt s e s') :
    (s'.sent = s.sent ∨ ∃ job proof, e = .searched (.confirmed proof) ∧ s.phase = .mining job ∧
      s'.sent = s.sent ++ [⟨s.lastId + 1, job.jobId, proof, s.unread⟩]) ∧ s.history ⊆ s'.history := by
  cases effect with
  | pumps arrival unread msg hPumps hUnread hMessage =>
      have hLogged : s.history ⊆ (s.logged unread msg true).history := List.subset_append_left _ _
      obtain ⟨status, hEnd⟩ | ⟨job, -, -, hEnd⟩ | ⟨-, hEnd⟩ :=
        pumpMessage_spec host msg (s.logged unread msg true) <;>
      · rw [hEnd]
        exact ⟨.inl rfl, hLogged⟩
  | waits sid arrival unread msg hPhase hUnread hMessage =>
      obtain ⟨phase, hEnd, -⟩ := waitMessage_spec host sid arrival.isLast msg (s.logged unread msg false)
      rw [hEnd]
      exact ⟨.inl rfl, List.subset_append_left _ _⟩
  | submits job proof hPhase hSame => exact ⟨.inr ⟨job, proof, rfl, hPhase, rfl⟩, List.Subset.refl _⟩
  | _ => exact ⟨.inl rfl, List.Subset.refl _⟩

/-- The job that is mined was announced by a message of the pool, which `pump` has read. -/
theorem Consistent.announced (hConsistent : Consistent host s) {job : Job} (hPhase : s.phase = .mining job) :
    ∃ r ∈ s.history, r.pumped = true ∧ isJobMessage r.msg = true ∧ carriedJob host r.msg = some job := by
  have hForce := hConsistent.current (by simp [hPhase])
  rw [hConsistent.mining job hPhase] at hForce
  obtain ⟨r, hr, hJob, hCarried⟩ := lastJob_announced hForce.symm
  obtain ⟨hr, hPumped⟩ := List.mem_filter.mp hr
  exact ⟨r, hr, hPumped, hJob, hCarried⟩

/-- What the search of a step ends with: no winner, or the proof of the first attempt of
its batch that `noisy_gemm` opens. -/
theorem Searches.outcome (hPorted : base.Ported) (hConfig : base.config.Production) (hNatt : 1 ≤ natt)
    (hBound : natt * (base.M / 2) * (base.N / 64) < sentinel) (hConsistent : Consistent host s) {search : Search}
    (hSearches : Searches base natt s (.searched search)) {job : Job} (hPhase : s.phase = .mining job) :
    search = .noWinner ∨ ∃ proof draws, search = .confirmed proof ∧ draws.InRange ∧
      base.MinesFirst job.header job.adj draws natt (some proof) := by
  obtain ⟨r, -, -, -, hCarried⟩ := hConsistent.announced hPhase
  obtain ⟨d, draws, hDraws, hEnds⟩ := hSearches search job job rfl hPhase (hConsistent.mining job hPhase)
  obtain ⟨search', hEnds', hOutcome⟩ :=
    searchJob_ends hPorted hConfig hNatt hBound (carriedJob_sound hCarried) d hDraws
  cases hEnds.symm.trans hEnds'
  obtain ⟨rfl, -⟩ | ⟨proof, rfl, hMines⟩ := hOutcome
  · exact .inl rfl
  · exact .inr ⟨proof, draws, rfl, hDraws, hMines⟩

/-- A longer history announces what a shorter one did. -/
theorem Share.ProvesWork.mono {history history' : List Reading} {share : Share} {job : Job} {draws : Draws}
    (hSubset : history ⊆ history') (h : share.ProvesWork base host natt history job draws) :
    share.ProvesWork base host natt history' job draws := by
  obtain ⟨r, hr, hAnnounced⟩ := h.announced
  exact { h with announced := ⟨r, hSubset hr, hAnnounced⟩ }

/-- Every share that a run sends proves work for a job of the pool, and the device never
reports a winner that is not confirmed. -/
theorem shares_prove_work (hPorted : base.Ported) (hConfig : base.config.Production) (hNatt : 1 ≤ natt)
    (hBound : natt * (base.M / 2) * (base.N / 64) < sentinel) (run : LiveRun host natt events s)
    (hSearches : EveryStep (liveStep host natt) Live.init (Searches base natt) events) :
    (∀ share ∈ s.sent, ∃ job draws, share.ProvesWork base host natt s.history job draws) ∧
      Event.searched .unconfirmed ∉ events := by
  induction run with
  | nil => exact ⟨nofun, nofun⟩
  | @snoc events s s' prior e last ih =>
      obtain ⟨hBefore, hLast⟩ := (everyStep_snoc prior).mp hSearches
      obtain ⟨hShares, hConfirmed⟩ := ih hBefore
      have hConsistent := LiveRun.consistent prior
      obtain ⟨hSent, hHistory⟩ := sent_of_effect (effect_of_step last)
      have hKept (share : Share) (hShare : share ∈ s.sent) :
          ∃ job draws, share.ProvesWork base host natt s'.history job draws := by
        obtain ⟨job, draws, hProves⟩ := hShares share hShare
        exact ⟨job, draws, hProves.mono hHistory⟩
      refine ⟨fun share hShare => ?_, fun hMem => ?_⟩
      · rcases hSent with hSent | ⟨job, proof, rfl, hPhase, hSent⟩
        · exact hKept share (hSent ▸ hShare)
        · rw [hSent] at hShare
          rcases List.mem_append.mp hShare with hShare | hShare
          · exact hKept share hShare
          · rw [List.mem_singleton.mp hShare]
            obtain hMiss | ⟨proof', draws, hProof, hDraws, hMines⟩ :=
              hLast.outcome hPorted hConfig hNatt hBound hConsistent hPhase
            · cases hMiss
            · cases hProof
              obtain ⟨r, hr, hAnnounced⟩ := hConsistent.announced hPhase
              exact ⟨job, draws, ⟨r, hHistory hr, hAnnounced⟩, rfl, hDraws, hMines⟩
      · rcases List.mem_append.mp hMem with hMem | hMem
        · exact hConfirmed hMem
        · obtain rfl := List.mem_singleton.mp hMem
          -- only a step that mines ends a search
          cases hPhase : s.phase with
          | mining job =>
              obtain hMiss | ⟨proof, draws, hProof, -⟩ :=
                hLast.outcome hPorted hConfig hNatt hBound hConsistent hPhase
              · cases hMiss
              · cases hProof
          | _ =>
              rw [liveStep, hPhase] at last
              cases last

/-- A batch of six at `middleTarget` ends with the proof of its fifth attempt, the first
that is opened. -/
theorem searchJob_late {job : Job} (hJob : job.Sound) (hTarget : job.adj = middleTarget) :
    ∃ block, plainBase.opens job.header middleTarget lateDraws 4 = some block ∧
      searchJob plainBase default 6 job job.adj lateDraws =
        .ok (.confirmed (plainBase.createProof block job.header)) := by
  have hConfirm := confirm_eq plainBase_ported plainBase_production lateDraws_inRange hJob.target job.header
  rw [hTarget] at hConfirm
  have hFifth := (plainBase_opens job.header 4).mpr (le_refl 4)
  obtain ⟨search, hOk, ⟨rfl, hNone⟩ | ⟨proof, rfl, hMines⟩⟩ := searchJob_ends plainBase_ported plainBase_production
    (show 1 ≤ 6 by decide) (by decide) hJob default lateDraws_inRange
  · rw [hTarget] at hNone
    cases hNone with
    | nothing hMiss =>
        have hFirst := hMiss 4 (by decide)
        rw [hConfirm] at hFirst
        rw [Except.ok.inj hFirst] at hFifth
        cases hFifth
  · rw [hTarget] at hMines hOk ⊢
    cases hMines with
    | @proof i block inside hOpens hBefore =>
        rw [hConfirm] at hOpens
        have hLate : 4 ≤ i := by
          rw [← plainBase_opens job.header i, Except.ok.inj hOpens]
          rfl
        have hFirst : ¬ 4 < i := by
          intro hLess
          have hMiss := hBefore 4 hLess
          rw [hConfirm] at hMiss
          rw [Except.ok.inj hMiss] at hFifth
          cases hFifth
        obtain rfl : i = 4 := by omega
        exact ⟨block, Except.ok.inj hOpens, hOk⟩

/-- A pool whose jobs are all at `middleTarget`. -/
def middleHost : Host where
  tables := ⟨fun _ => [], fun _ => false, fun _ => none⟩
  adjustTarget _ _ := some (middleTarget : Nat)

/-- A job, up to the search of a batch on it. -/
def untilSearch : List Event :=
  [.arrives (.line (.obj [(text "method", .str (text "mining.notify")),
      (text "params", .obj [(text "header", .str (text "00")), (text "target", .str (text "0x21")),
        (text "job_id", .str (text "a"))])])),
    .reads, .windowEnds, .enters, .windowEnds]

/-- And with the proof that the search finds. -/
def oneBatch (proof : Text) : List Event := untilSearch ++ [.searched (.confirmed proof)]

/-- These events lead to a batch at `middleTarget`. -/
theorem untilSearch_ends : ∃ s job, untilSearch.foldlM (liveStep middleHost 6) Live.init = some s ∧
    s.phase = .mining job ∧ job.adj = (middleTarget : Nat) := ⟨_, _, rfl, rfl, rfl⟩

theorem oneBatch_ends (proof : Text) : ((oneBatch proof).foldlM (liveStep middleHost 6) Live.init).map
    (fun s => s.sent.map Share.proof) = some [proof] := rfl

/-- A batch of six attempts of which the last two win: one share, with the proof of the
fifth attempt. -/
theorem shares_prove_work_six : ∃ block s,
    LiveRun middleHost 6 (oneBatch (plainBase.createProof block [])) s ∧
      s.sent.map Share.proof = [plainBase.createProof block []] ∧
      ∀ share ∈ s.sent, ∃ job draws, share.ProvesWork plainBase middleHost 6 s.history job draws := by
  obtain ⟨s, job, hRun, hPhase, hTarget⟩ := untilSearch_ends
  have run : LiveRun middleHost 6 untilSearch s := run_iff_foldlM.mpr hRun
  have hConsistent := LiveRun.consistent run
  have hCur := hConsistent.mining job hPhase
  have hForce := hConsistent.current (by simp [hPhase])
  rw [hCur] at hForce
  obtain ⟨r, -, -, hCarried⟩ := lastJob_announced hForce.symm
  obtain ⟨block, -, hSearch⟩ := searchJob_late (carriedJob_sound hCarried) hTarget
  obtain ⟨s', hRun', hSent⟩ := Option.map_eq_some_iff.mp (oneBatch_ends (plainBase.createProof block []))
  have run' : LiveRun middleHost 6 (oneBatch (plainBase.createProof block [])) s' := run_iff_foldlM.mpr hRun'
  have hSearches : EveryStep (liveStep middleHost 6) Live.init (Searches plainBase 6)
      (oneBatch (plainBase.createProof block [])) := by
    refine (everyStep_snoc run).mpr ⟨fun before e after _ hEvents _ search job' cur hEvent => ?_, ?_⟩
    · have hMem : Event.searched search ∈ untilSearch := by simp [hEvents, hEvent]
      simp [untilSearch] at hMem
    · rintro search job' cur ⟨⟩ hPhase' hCur'
      cases hCur.symm.trans hCur'
      cases hPhase.symm.trans hPhase'
      exact ⟨default, _, lateDraws_inRange, hSearch⟩
  exact ⟨block, s', run', hSent, (shares_prove_work plainBase_ported plainBase_production (by decide) (by decide) run'
    hSearches).1⟩

end Miner.LuckyPool
