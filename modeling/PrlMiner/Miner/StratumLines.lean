import PrlMiner.Miner.StratumClient

/-! The line stream of `messages`: a message for each line that is not blank, in order,
whatever the cuts and the windows. A line that is no UTF-8 ends it. -/
namespace Miner.Stratum

open LittleEndian Python Lines Runs

variable {loads : Text → Loaded} {c c' : StratumClient} {line rest : List Byte} {e : Event}

def NotBlank (line : List Byte) : Prop := strip line ≠ []

instance : DecidablePred NotBlank := fun line => inferInstanceAs (Decidable (strip line ≠ []))

/-- The message for a line: the decoded JSON, or a wrapper of its text. -/
def message (loads : Text → Loaded) (line : List Byte) : Json :=
  match decode (strip line) with
  | some t =>
      match loads t with
      | .value v => v
      | _ => rawMessage t
  | none => rawMessage (decodeReplace (strip line))

/-- `messages` has not raised. What it received is some lines and the buffer, and it
yielded a message for each of them that is not blank. -/
def Lossless (loads : Text → Loaded) (c : StratumClient) : Prop :=
  c.raised = false ∧ ∃ lines : List (List Byte), (∀ line ∈ lines, newline ∉ line) ∧
    c.received = joined newline lines ++ c.rx ∧
    c.messages = (lines.filter NotBlank).map (message loads)

/-- The line is UTF-8, and `json.loads` returns or raises a `JSONDecodeError`. -/
def Decodable (loads : Text → Loaded) (line : List Byte) : Prop :=
  ∃ t, decode (strip line) = some t ∧ loads t ≠ .raised

/-- A line that is reached is blank or decodable. -/
def ReachesDecodable (loads : Text → Loaded) (c : StratumClient) : Event → Prop
  | .line => c.window = .running → ∀ line rest, split newline c.rx = some (line, rest) →
      NotBlank line → Decodable loads line
  | _ => True

/-- Before anything is received nothing is lost. -/
theorem lossless_init : Lossless loads StratumClient.init :=
  ⟨rfl, [], fun _ h => absurd h List.not_mem_nil, rfl, rfl⟩

/-- The buffer is cut at a line, and a message follows where the line is not blank.
Nothing else of the stream is touched. -/
theorem Lossless.takeLine (h : Lossless loads c) (hCut : split newline c.rx = some (line, rest))
    (hRaised : c'.raised = false) (hReceived : c'.received = c.received) (hRx : c'.rx = rest)
    (hMessages : c'.messages = c.messages ++ ([line].filter NotBlank).map (message loads)) :
    Lossless loads c' := by
  obtain ⟨-, lines, hLines, hStream, hYielded⟩ := h
  obtain ⟨hLine, hBuffer⟩ := split_eq_some hCut
  refine ⟨hRaised, lines ++ [line], fun l hMem => ?_, ?_, ?_⟩
  · rcases List.mem_append.mp hMem with hMem | hMem
    · exact hLines l hMem
    · cases List.mem_singleton.mp hMem
      exact hLine
  · rw [hReceived, hStream, hBuffer, hRx, joined_append]
    simp
  · rw [hMessages, hYielded, List.filter_append, List.map_append]

/-- A blank line is skipped, -/
theorem handleLine_of_blank (h : strip line = []) : c.handleLine loads line = c := by
  rw [StratumClient.handleLine]
  exact if_pos h

/-- one that is UTF-8 gives a message, as JSON or as its text, -/
theorem handleLine_of_decodable (hBlank : NotBlank line) (h : Decodable loads line) :
    c.handleLine loads line = c.yieldMessage (message loads line) := by
  obtain ⟨t, hDecode, hLoads⟩ := h
  rw [StratumClient.handleLine, message, if_neg hBlank, hDecode]
  dsimp only
  cases hLoaded : loads t with
  | value v => rfl
  | jsonDecodeError => rw [decodeReplace_of_decode hDecode]
  | raised => exact absurd hLoaded hLoads

/-- and any other one raises. -/
theorem handleLine_of_not_decodable (hBlank : NotBlank line) (h : ¬Decodable loads line) :
    c.handleLine loads line = c.raise := by
  rw [StratumClient.handleLine, if_neg hBlank]
  cases hDecode : decode (strip line) with
  | none => rfl
  | some t =>
      have hLoads : loads t = .raised := by
        by_contra hLoads
        exact h ⟨t, hDecode, hLoads⟩
      dsimp only
      rw [hLoads]

/-- A line is lossless exactly where it is blank or decodable. -/
theorem lossless_line_iff (h : Lossless loads c) (hCut : split newline c.rx = some (line, rest)) :
    Lossless loads ({ c with rx := rest }.handleLine loads line) ↔ (NotBlank line → Decodable loads line) := by
  by_cases hBlank : NotBlank line
  · by_cases hLine : Decodable loads line
    · refine iff_of_true ?_ fun _ => hLine
      rw [handleLine_of_decodable hBlank hLine]
      refine h.takeLine hCut h.1 rfl rfl ?_
      simp [hBlank, StratumClient.yieldMessage]
    · refine iff_of_false (fun hAfter => ?_) fun hAll => hLine (hAll hBlank)
      rw [handleLine_of_not_decodable hBlank hLine] at hAfter
      exact absurd hAfter.1 (by simp [StratumClient.raise])
  · refine iff_of_true ?_ fun hNot => absurd hNot hBlank
    rw [handleLine_of_blank (not_not.mp hBlank)]
    refine h.takeLine hCut h.1 rfl rfl ?_
    simp [hBlank]

/-- What leaves the stream alone keeps it, such as the end of a window. -/
theorem Lossless.frame (h : Lossless loads c) (hRaised : c'.raised = c.raised) (hRx : c'.rx = c.rx)
    (hReceived : c'.received = c.received) (hMessages : c'.messages = c.messages) : Lossless loads c' := by
  obtain ⟨rx, window, received, messages, markers, raised⟩ := c'
  cases hRaised
  cases hRx
  cases hReceived
  cases hMessages
  exact h

/-- Bytes that are received go to the end of the buffer, wherever they are cut. -/
theorem Lossless.receive (h : Lossless loads c) (bytes : List Byte) :
    Lossless loads { c with rx := c.rx ++ bytes, received := c.received ++ bytes } := by
  obtain ⟨hRaised, lines, hLines, hStream, hYielded⟩ := h
  refine ⟨hRaised, lines, hLines, ?_, hYielded⟩
  dsimp only
  rw [hStream, List.append_assoc]

/-- A step keeps the stream lossless exactly if the line that it reaches, if any, is blank
or decodable. -/
theorem lossless_step_iff (h : Lossless loads c) (hStep : step loads c e = some c') :
    Lossless loads c' ↔ ReachesDecodable loads c e := by
  cases e with
  | line =>
      rw [step] at hStep
      split_ifs at hStep with hRunning
      obtain ⟨⟨line, rest⟩, hCut, rfl⟩ := Option.map_eq_some_iff.mp hStep
      dsimp only
      rw [lossless_line_iff h hCut]
      constructor
      · intro hLine _ line' rest' hCut'
        rw [hCut] at hCut'
        cases hCut'
        exact hLine
      · intro hReaches
        exact hReaches hRunning line rest hCut
  | chunk bytes =>
      rw [step] at hStep
      split_ifs at hStep
      cases hStep
      exact iff_of_true (h.receive bytes) trivial
  | resumes =>
      refine iff_of_true ?_ trivial
      rw [step] at hStep
      split at hStep
      · cases hStep
        exact h.frame rfl rfl rfl rfl
      · cases hStep
  | breaks =>
      refine iff_of_true ?_ trivial
      rw [step] at hStep
      split at hStep
      · cases hStep
        exact h.frame rfl rfl rfl rfl
      · cases hStep
  | _ =>
      refine iff_of_true ?_ trivial
      rw [step] at hStep
      split_ifs at hStep
      cases hStep
      exact h.frame rfl rfl rfl rfl

/-- A step that cannot be taken reaches no line. -/
theorem reaches_of_stuck (h : step loads c e = none) : ReachesDecodable loads c e := by
  cases e with
  | line =>
      intro hRunning line rest hCut
      rw [step, if_pos hRunning, hCut] at h
      cases h
  | _ => trivial

/-- The stream is lossless in a run exactly where every line it reaches is blank or
decodable. -/
theorem messages_lossless_iff (loads : Text → Loaded) (events : List Event) :
    EveryState (step loads) StratumClient.init (Lossless loads) events ↔
      EveryStep (step loads) StratumClient.init (ReachesDecodable loads) events :=
  everyState_iff_everyStep lossless_init (fun _ _ _ _ _ h hStep => lossless_step_iff h hStep)
    (fun _ _ h => reaches_of_stuck h) events

/-- A line of one byte that is no UTF-8. -/
def undecodable : List Event := [.opens, .chunk [0xff, newline], .line]

/-- The line raises, and with it the stream: its two bytes were received, and no message
will come of them. -/
theorem messages_raises : ∃ c, Run (step fun _ => .jsonDecodeError) StratumClient.init undecodable c ∧
    c.received = [0xff, newline] ∧ c.messages = [] ∧ c.raised = true ∧ ¬Lossless (fun _ => .jsonDecodeError) c := by
  have hRun : undecodable.foldlM (step fun _ => .jsonDecodeError) StratumClient.init =
      some ⟨[], .none, [0xff, newline], [], [], true⟩ := rfl
  refine ⟨_, run_iff_foldlM.mpr hRun, rfl, rfl, rfl, fun hLossless => ?_⟩
  exact absurd hLossless.1 (by simp)

end Miner.Stratum
