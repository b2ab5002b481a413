import PrlMiner.Library.RegexSuffix
import PrlMiner.Library.TextLines
import PrlMiner.Miner.StatusShares

/-! The two modes of `protocol_benchmark.py`: it counts the shares of a miner that it
runs, or those in the logs of earlier runs. -/
namespace Miner.Hashrate

open Python Regexes

variable (host : Host)

/-- `ShareStats(last_share_diff=...)` -/
def ShareStats.init (shareDiff : PyFloat) : ShareStats := ⟨0, 0, 0, .finite 0, [], some shareDiff⟩

def parseLines (lines : List Text) (defaultShareDiff : PyFloat) : ShareStats :=
  (ShareStats.init defaultShareDiff).noteLines host lines defaultShareDiff

/-- `run_command` on what the miner prints: the statistics and the log file. -/
def runCommand (output : Text) (shareDiff : PyFloat) : ShareStats × Text :=
  let lines := readLines (universalNewlines output)
  ((ShareStats.init shareDiff).noteLines host lines shareDiff, lines.flatten)

def parseLogFiles (logs : List Text) (shareDiff : PyFloat) : ShareStats :=
  parseLines host (logs.flatMap fun log => splitlines (universalNewlines log)) shareDiff

section Newlines

variable (unicode : Unicode) {stats : ShareStats} {line : Text} {shareDiff : PyFloat} {s : String}

/-- A newline is no character of a word, in every table of letters. -/
theorem isWordChar_newline : unicode.isWordChar 10 = false := by simp [Unicode.isWordChar]

theorem blind_word (s : String) : (word s).Blind 10 := blind_literal

theorem blind_anyWord (words : List String) : (anyWord words).Blind 10 := by
  fun_induction anyWord words with
  | case1 => exact trivial
  | case2 s => exact blind_word s
  | case3 s rest _ ih => exact ⟨blind_word s, ih⟩

/-- A boundary of words is the same before a newline and at the end of the text. -/
theorem blind_boundary : unicode.boundary.Blind 10 := by
  intro before
  simp [isWordChar_newline]

/-- Only a newline is the same letter as a newline. -/
theorem sameLetter_newline {c : CodePoint} (h : c ≠ 10) : sameLetter c 10 = false := by
  have hEnd : foldLetter 10 = 10 := by simp [foldLetter]
  rw [sameLetter, decide_eq_false_iff_not, hEnd, foldLetter]
  split_ifs with hUpper <;> try simp only [Fin.reduceEq, not_false_eq_true, h]
  obtain ⟨hFrom, hTo⟩ := hUpper
  change 65 ≤ c.val at hFrom
  change c.val ≤ 90 at hTo
  rw [Fin.ext_iff, Fin.val_add]
  change ¬(c.val + 32) % 0x110000 = 10
  omega

/-- A word without a newline takes something, and does not end with one. -/
theorem ends_word (hSome : text s ≠ []) (hOther : 10 ∉ text s) : (word s).Ends 10 :=
  ends_literal hSome fun _ hMem => sameLetter_newline fun hSame => hOther (hSame ▸ hMem)

/-- Boundaries take nothing, so that a word between them ends as the word does. -/
theorem ends_bounded {r : Regex CodePoint} (h : r.Ends 10) : (unicode.bounded r).Ends 10 :=
  ends_last (ends_first (ends_group h) (keeps_seq keeps_assert keeps_empty))

/-- A regex with an optional part at its end ends with one of the two. -/
theorem ends_opt {r q : Regex CodePoint} (hr : r.Ends 10) (hq : q.Ends 10) : (Regex.seq r (.opt q)).Ends 10 :=
  ends_first hr (keeps_alt hq.keeps keeps_empty)

/-- A number takes something, and does not end with a newline. -/
theorem ends_number : number.Ends 10 := by
  have hDigits : (Regex.many none isDigit).Keeps 10 := keeps_many (by decide)
  have hDigit : (Regex.one isDigit).Ends 10 := ends_one (by decide)
  have hPoint : (word ".").Ends 10 := ends_word (by simp [text]) (by simp [text])
  have hFraction : (Regex.opt (.all [word ".", .one isDigit, .many none isDigit])).Keeps 10 :=
    keeps_alt (keeps_seq hPoint.keeps (keeps_seq hDigit.keeps (keeps_seq hDigits keeps_empty))) keeps_empty
  exact ends_group (ends_first hDigit (keeps_seq hDigits (keeps_seq hFraction keeps_empty)))

theorem blind_number : number.Blind 10 := by
  simp [number, blind_word]

/-- The end of a line is nothing to a search. -/
def Unseen (r : Regex CodePoint) : Prop := r.Blind 10 ∧ r.Ends 10

/-- Whether a pattern is found does not depend on the newline at the end of a line, -/
theorem Unseen.isSome {r : Regex CodePoint} (h : Unseen r) :
    (r.search (line ++ [10])).isSome = (r.search line).isSome := by
  rw [search_extend h.1 h.2, Option.isSome_map]

/-- and neither does the number that it captures. -/
theorem Unseen.extract {r : Regex CodePoint} (h : Unseen r) : extract host r (line ++ [10]) = extract host r line := by
  rw [Hashrate.extract, search_extend h.1 h.2, Option.bind_map]
  rfl

/-- None of the patterns sees the newline: that of stale shares, -/
theorem unseen_stale : Unseen (staleRe unicode) := by
  refine ⟨?_, ends_bounded unicode (ends_alt (ends_word ?_ ?_) (ends_word ?_ ?_))⟩
  · simp [staleRe, Unicode.bounded, blind_word, blind_boundary]
  all_goals simp [text]

/-- that of rejected shares, -/
theorem unseen_reject : Unseen (rejectRe unicode) := by
  refine ⟨?_, ends_bounded unicode (ends_alt (ends_opt (ends_word ?_ ?_) (ends_word ?_ ?_))
    (ends_alt (ends_word ?_ ?_) (ends_word ?_ ?_)))⟩
  · simp [rejectRe, Unicode.bounded, blind_word, blind_boundary]
  all_goals simp [text]

/-- that of accepted shares, -/
theorem unseen_accept : Unseen (acceptRe unicode) := by
  refine ⟨?_, ends_bounded unicode (ends_alt (ends_opt (ends_word ?_ ?_) (ends_word ?_ ?_))
    (ends_alt (ends_last (ends_last (ends_first (ends_word ?_ ?_) keeps_empty)))
      (ends_last (ends_last (ends_first (ends_word ?_ ?_) keeps_empty)))))⟩
  · simp [acceptRe, oneOrMoreSpaces, Unicode.bounded, Unicode.spaces, blind_word, blind_boundary]
  all_goals simp [text]

/-- the difficulty of a share, -/
theorem unseen_diff : Unseen (diffRe unicode) := by
  refine ⟨?_, ends_last (ends_last (ends_last (ends_last (ends_first ends_number keeps_empty))))⟩
  simp [diffRe, Unicode.spaces, blind_word, blind_boundary, blind_number]

/-- a hashrate with its unit, -/
theorem unseen_th : Unseen (thRe unicode) := by
  refine ⟨?_, ends_last (ends_last (ends_last (ends_last (ends_first (ends_alt (ends_word ?_ ?_)
    (ends_alt (ends_word ?_ ?_) (ends_last (ends_last (ends_first (ends_word ?_ ?_) keeps_empty))))) keeps_empty))))⟩
  · simp [thRe, Unicode.spaces, blind_word, blind_anyWord, blind_number]
  all_goals simp [text]

/-- and a hashrate in a field. -/
theorem unseen_fieldTh : Unseen (fieldThRe unicode) := by
  refine ⟨?_,
    ends_last (ends_last (ends_last (ends_last (ends_last (ends_last (ends_first ends_number keeps_empty))))))⟩
  simp [fieldThRe, Unicode.spaces, blind_anyWord, blind_boundary, blind_number]

/-- A line counts the same with its end and without, whatever it counts as. -/
theorem noteLine_newline : stats.noteLine host (line ++ [10]) shareDiff = stats.noteLine host line shareDiff := by
  have hDiff : stats.diff host (line ++ [10]) shareDiff = stats.diff host line shareDiff := by
    rw [ShareStats.diff, ShareStats.diff, extractShareDiff, extractShareDiff, (unseen_diff host.unicode).extract]
  have hReported : extractReportedThS host (line ++ [10]) = extractReportedThS host line := by
    rw [extractReportedThS, extractReportedThS, (unseen_fieldTh host.unicode).extract,
      (unseen_th host.unicode).extract]
  rw [ShareStats.noteLine, ShareStats.noteLine, hDiff, hReported, (unseen_stale host.unicode).isSome,
    (unseen_reject host.unicode).isSome, (unseen_accept host.unicode).isSome]

theorem noteLine_chomp : stats.noteLine host (chomp line) shareDiff = stats.noteLine host line shareDiff := by
  by_cases hEnd : line.getLast? = some 10
  · obtain ⟨before, rfl⟩ := List.getLast?_eq_some_iff.mp hEnd
    rw [chomp_append, noteLine_newline]
  · rw [chomp, if_neg hEnd]

end Newlines

section Counts

variable {host} {stats : ShareStats} {line : Text} {lines : List Text} {shareDiff : PyFloat}

/-- A line that counts as a rejected share, -/
def isRejected (host : Host) (line : Text) : Bool :=
  !isStale host line && ((rejectRe host.unicode).search line).isSome

/-- and one that counts as an accepted share. -/
def isAccepted (host : Host) (line : Text) : Bool :=
  !isStale host line && !isRejected host line && ((acceptRe host.unicode).search line).isSome

/-- The hashrates that a line reports. -/
def reported (host : Host) (line : Text) : List PyFloat :=
  if isStale host line || isRejected host line then [] else (extractReportedThS host line).toList

/-- What some lines add to the counts. -/
structure Adds (host : Host) (lines : List Text) (before after : ShareStats) : Prop where
  accepted : after.acceptedShares = before.acceptedShares + lines.countP (isAccepted host)
  rejected : after.rejectedShares = before.rejectedShares + lines.countP (isRejected host)
  stale : after.staleShares = before.staleShares + lines.countP (isStale host)
  reported : after.reportedThS = before.reportedThS ++ lines.flatMap (reported host)

theorem adds_line : Adds host [line] stats (stats.noteLine host line shareDiff) := by
  cases hStale : isStale host line with
  | true =>
      rw [isStale] at hStale
      constructor <;>
        simp [isAccepted, isRejected, reported, isStale, ShareStats.noteLine, ShareStats.noteDiff, hStale]
  | false =>
      rw [isStale] at hStale
      cases hReject : ((rejectRe host.unicode).search line).isSome with
      | true =>
          constructor <;>
            simp [isAccepted, isRejected, reported, isStale, ShareStats.noteLine, ShareStats.noteDiff, hStale, hReject]
      | false =>
          cases hAccept : ((acceptRe host.unicode).search line).isSome <;>
            cases hReported : extractReportedThS host line <;> constructor <;>
              simp [isAccepted, isRejected, reported, isStale, ShareStats.noteLine, ShareStats.noteDiff, hStale,
                hReject, hAccept, hReported]

/-- What is added by lines and then by others is added by both. -/
theorem Adds.trans {lines' : List Text} {before middle after : ShareStats} (h : Adds host lines before middle)
    (h' : Adds host lines' middle after) : Adds host (lines ++ lines') before after where
  accepted := by rw [h'.accepted, h.accepted, List.countP_append, Int.natCast_add, Int.add_assoc]
  rejected := by rw [h'.rejected, h.rejected, List.countP_append, Int.natCast_add, Int.add_assoc]
  stale := by rw [h'.stale, h.stale, List.countP_append, Int.natCast_add, Int.add_assoc]
  reported := by rw [h'.reported, h.reported, List.flatMap_append, List.append_assoc]

/-- Lines add what each of them adds, in their order. -/
theorem adds_lines : Adds host lines stats (stats.noteLines host lines shareDiff) := by
  induction lines generalizing stats with
  | nil => constructor <;> simp [ShareStats.noteLines]
  | cons line lines ih => exact adds_line.trans ih

/-- The statistics of the lines are the same with their ends and without. -/
theorem noteLines_chomp (lines : List Text) :
    stats.noteLines host (lines.map chomp) shareDiff = stats.noteLines host lines shareDiff := by
  rw [ShareStats.noteLines, ShareStats.noteLines, List.foldl_map]
  simp only [noteLine_chomp]

end Counts

section Replay

variable {output : Text} {outputs : List Text}

/-- The log is the output as the command mode has read it, line by line. -/
theorem log_lines (hBreaks : ∀ c ∈ output, isLineBreak c = true → c = 10 ∨ c = 13) (shareDiff : PyFloat) :
    splitlines (universalNewlines (runCommand host output shareDiff).2) =
      (readLines (universalNewlines output)).map chomp := by
  rw [runCommand, flatten_readLines, universalNewlines_idem]
  refine splitlines_eq_readLines fun c hMem hBreak => ?_
  rcases mem_universalNewlines hMem with hEnd | hOutput
  · exact hEnd
  · refine (hBreaks c hOutput hBreak).resolve_right ?_
    rintro rfl
    exact not_mem_universalNewlines output hMem

theorem sum_countP {p : Text → Bool} {lines : Text → List Text} {f : Text → Int} (h : ∀ o, f o = (lines o).countP p) :
    ((outputs.flatMap lines).countP p : Int) = (outputs.map f).sum := by
  induction outputs with
  | nil => rfl
  | cons output outputs ih =>
      rw [List.flatMap_cons, List.countP_append, Int.natCast_add, ih, ← h, List.map_cons, List.sum_cons]

/-- Logs replay: the log of a run gives the statistics of the run, and the logs of some
runs the sums of their counts and the hashrates of all of them, in their order. -/
theorem logs_replay (hBreaks : ∀ output ∈ outputs, ∀ c ∈ output, isLineBreak c = true → c = 10 ∨ c = 13)
    (shareDiff : PyFloat) :
    let runs := outputs.map fun output => runCommand host output shareDiff
    let replayed := parseLogFiles host (runs.map Prod.snd) shareDiff
    (∀ run ∈ runs, parseLogFiles host [run.2] shareDiff = run.1) ∧
      replayed.acceptedShares = (runs.map (·.1.acceptedShares)).sum ∧
      replayed.rejectedShares = (runs.map (·.1.rejectedShares)).sum ∧
      replayed.staleShares = (runs.map (·.1.staleShares)).sum ∧
      replayed.reportedThS = runs.flatMap (·.1.reportedThS) := by
  intro runs replayed
  let lines (output : Text) : List Text := readLines (universalNewlines output)
  have hParsed (part : List Text) (hPart : ∀ output ∈ part, output ∈ outputs) :
      parseLogFiles host ((part.map fun output => runCommand host output shareDiff).map Prod.snd) shareDiff =
        (ShareStats.init shareDiff).noteLines host (part.flatMap lines) shareDiff := by
    rw [parseLogFiles, parseLines, List.map_map, List.flatMap_map, ← noteLines_chomp (part.flatMap lines),
      List.map_flatMap]
    congr 1
    exact List.flatMap_congr fun output hMem => log_lines host (hBreaks output (hPart output hMem)) shareDiff
  have hReplayed : Adds host (outputs.flatMap lines) (.init shareDiff) replayed := by
    rw [show replayed = _ from hParsed outputs fun output hMem => hMem]
    exact adds_lines
  have hRun (output : Text) : Adds host (lines output) (.init shareDiff) (runCommand host output shareDiff).1 :=
    adds_lines
  refine ⟨?_, ?_, ?_, ?_, ?_⟩
  · intro run hMem
    obtain ⟨output, hOutput, rfl⟩ := List.mem_map.mp hMem
    have hOne := hParsed [output] (by simpa using hOutput)
    rw [List.flatMap_singleton] at hOne
    exact hOne
  · rw [hReplayed.accepted, List.map_map]
    exact (Int.zero_add _).trans (sum_countP fun output => ((hRun output).accepted.trans (Int.zero_add _)))
  · rw [hReplayed.rejected, List.map_map]
    exact (Int.zero_add _).trans (sum_countP fun output => ((hRun output).rejected.trans (Int.zero_add _)))
  · rw [hReplayed.stale, List.map_map]
    exact (Int.zero_add _).trans (sum_countP fun output => ((hRun output).stale.trans (Int.zero_add _)))
  · rw [hReplayed.reported, List.flatMap_assoc, List.flatMap_map]
    refine (List.nil_append _).trans (List.flatMap_congr fun output _ => ?_)
    rw [(hRun output).reported]
    rfl

/-- An operation on two finite floats. -/
def onFinite (f : ℚ → ℚ → ℚ) : PyFloat → PyFloat → PyFloat
  | .finite x, .finite y => .finite (f x y)
  | _, _ => .nan

/-- Arithmetic without rounding, on texts such as `12.5`. -/
def exactFloats : Floats where
  add := onFinite (· + ·)
  sub := onFinite (· - ·)
  mul := onFinite (· * ·)
  div := onFinite (· / ·)
  ofInt i := some (.finite i)
  parse _ := none
  ofNumber digits :=
    let whole := digits.takeWhile isDigit
    let fraction := (digits.drop whole.length).drop 1
    let digits := (whole ++ fraction).map fun c => c.val - 48
    .finite (mkRat (Nat.ofDigits 10 digits.reverse) (10 ^ fraction.length))
  fixed _ _ := []

def exactHost : Host := ⟨⟨fun _ => false, fun _ => false⟩, exactFloats⟩

/-- Two runs, the second one cut off in a line. -/
def trialOutputs : List Text :=
  [text "accepted diff 16\x0d\n3 TH/s\nstale\n", text "accept\nspeed 12.5 TH/s\nreject"]

def trialRuns : List (ShareStats × Text) := trialOutputs.map fun output => runCommand exactHost output (.finite 8)

/-- The statistics of the two runs: their shares, the work accepted and the hashrates. -/
theorem trialRuns_stats :
    trialRuns.map (fun run => ((run.1.acceptedShares, run.1.rejectedShares, run.1.staleShares),
      run.1.acceptedWork, run.1.reportedThS)) =
      [((1, 0, 1), .finite 16, [.finite 3]), ((1, 1, 0), .finite 8, [.finite (25 / 2)])] := by decide +kernel

/-- What is read off the statistics of each run. -/
theorem trialRuns_read {α : Type} (f : (Int × Int × Int) × PyFloat × List PyFloat → α) :
    trialRuns.map (fun run => f ((run.1.acceptedShares, run.1.rejectedShares, run.1.staleShares),
      run.1.acceptedWork, run.1.reportedThS)) =
      [f ((1, 0, 1), .finite 16, [.finite 3]), f ((1, 1, 0), .finite 8, [.finite (25 / 2)])] := by
  have hStats := congrArg (List.map f) trialRuns_stats
  rwa [List.map_map] at hStats

/-- The logs replay each run with its own hashrates, and both together. The two runs
report different ones. -/
theorem logs_replay_two :
    trialRuns.map (fun run => (run.1.acceptedWork, run.1.reportedThS)) =
        [(.finite 16, [.finite 3]), (.finite 8, [.finite (25 / 2)])] ∧
      (∀ run ∈ trialRuns, parseLogFiles exactHost [run.2] (.finite 8) = run.1) ∧
      let replayed := parseLogFiles exactHost (trialRuns.map Prod.snd) (.finite 8)
      replayed.acceptedShares = 2 ∧ replayed.rejectedShares = 1 ∧ replayed.staleShares = 1 ∧
        replayed.reportedThS = [.finite 3, .finite (25 / 2)] := by
  obtain ⟨hEach, hAccepted, hRejected, hStale, hReported⟩ := @logs_replay exactHost trialOutputs
    (by simp [trialOutputs, text, isLineBreak]) (.finite 8)
  have hRates : trialRuns.flatMap (·.1.reportedThS) = [.finite 3, .finite (25 / 2)] := by
    rw [List.flatMap_def, trialRuns_read (·.2.2)]
    rfl
  exact ⟨trialRuns_read Prod.snd, hEach,
    hAccepted.trans (congrArg List.sum (trialRuns_read (·.1.1))),
    hRejected.trans (congrArg List.sum (trialRuns_read (·.1.2.1))),
    hStale.trans (congrArg List.sum (trialRuns_read (·.1.2.2))), hReported.trans hRates⟩

end Replay

end Miner.Hashrate
