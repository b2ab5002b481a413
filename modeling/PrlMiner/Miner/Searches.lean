import PrlMiner.Miner.MineLoopRuns

/-! The searches that a run of the mine loop makes. -/
namespace Miner

open LittleEndian Runs

/-- A search that the loop made: the job and the attempt it was given, and what it found. -/
structure SearchRecord where
  job : MiningJob
  attempt : Int
  result : BackendResult

/-- The parts of the body up to the search. -/
def searchBody (it : Iteration) (s : LoopState) : Body SearchRecord := do
  let (job, s) ← pollJob it s
  let s ← checkThermal it s
  let (result, _) ← search it s
  .ok ⟨job, s.attempt, result⟩

/-- The search of an iteration, if it gets there. -/
def searchMade (it : Iteration) (s : LoopState) : Option SearchRecord := (searchBody it s).toOption

/-- The loop with the record of its searches. -/
structure Traced where
  loop : LoopState
  searches : List SearchRecord

def Traced.init (safety : SafetyMonitor) : Traced := ⟨LoopState.init safety, []⟩

def tracedStep (cfg : LoopConfig) (t : Traced) (it : Iteration) : Option Traced :=
  (mineLoopStep cfg t.loop it).map fun s => ⟨s, t.searches ++ (searchMade it t.loop).toList⟩

/-- Runs of `mine_loop` with their searches. -/
abbrev TracedLoop (cfg : LoopConfig) (safety : SafetyMonitor) : List Iteration → Traced → Prop :=
  Runs.Run (tracedStep cfg) (Traced.init safety)

variable {cfg : LoopConfig} {safety : SafetyMonitor} {it : Iteration} {its : List Iteration}
  {s s' : LoopState} {t t' : Traced}

/-- The search that an iteration makes is of the polled job, from the attempt at which the
loop has arrived. -/
theorem searchMade_of_search {job : MiningJob} {result : BackendResult} (hPoll : it.poll = .ok job)
    (hNew : it.announces s job) (hThermal : it.thermal = .ok none) (hSearch : it.search = .ok result) :
    searchMade it s = some ⟨job, s.startAttempt job, result⟩ := by
  rw [searchMade, searchBody, pollJob_of_announces hPoll hNew]
  exact congrArg Except.toOption (search_bind hThermal hSearch _)

theorem searchMade_of_unsearched {job : MiningJob} (hPoll : it.poll = .ok job)
    (hNone : it.thermal ≠ .ok none ∨ ∀ result, it.search ≠ .ok result) : searchMade it s = none := by
  rw [searchMade, searchBody, pollJob_of_ok hPoll]
  have hSearch (s : LoopState) : (do
      let s ← checkThermal it s
      let (result, _) ← search it s
      .ok ⟨job, s.attempt, result⟩ : Body SearchRecord).toOption = none := by
    obtain ⟨ended, hEnd⟩ := unsearched_bind (s := s) hNone
    exact congrArg Except.toOption (hEnd _)
  split_ifs with hChanged
  · rw [notify]
    cases it.onEvent (.newJob job.target) with
    | none => exact hSearch _
    | some e => rfl
  · exact hSearch _

theorem searchMade_of_unpolled (hPoll : ∀ job, it.poll ≠ .ok job) : searchMade it s = none := by
  obtain ⟨ended, hEnd⟩ := pollJob_of_error (s := s) hPoll
  rw [searchMade, searchBody, hEnd]
  rfl

/-- A traced step is a step of the loop that records the search it made, if it made
one. -/
theorem traced_pass (hStep : tracedStep cfg t it = some t') :
    Pass cfg it t.loop t'.loop ∧ t'.searches = t.searches ++ (searchMade it t.loop).toList := by
  obtain ⟨s, hLoop, rfl⟩ := Option.map_eq_some_iff.mp hStep
  exact ⟨(pass_of_step hLoop).2, rfl⟩

end Miner
