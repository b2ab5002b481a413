import PrlMiner.Library.PythonText

/-! Share accounting of `protocol_hashrate.py`, from the lines that a miner prints. -/
namespace Miner.Hashrate

open Python Regexes

structure Host where
  unicode : Unicode
  floats : Floats

section Patterns

variable (unicode : Unicode)

/-- `_REJECT_RE` -/
def rejectRe : Regex CodePoint :=
  unicode.bounded (.alt (.seq (word "reject") (.opt (word "ed"))) (.alt (word "invalid") (word "denied")))

/-- `_STALE_RE` -/
def staleRe : Regex CodePoint := unicode.bounded (.alt (word "stale") (word "expired"))

def oneOrMoreSpaces : Regex CodePoint := .seq (.one unicode.isSpaceChar) unicode.spaces

/-- `_ACCEPT_RE` -/
def acceptRe : Regex CodePoint :=
  unicode.bounded (.alt (.seq (word "accept") (.opt (word "ed")))
    (.alt (.all [word "share", oneOrMoreSpaces unicode, word "accepted"])
      (.all [word "accepted", oneOrMoreSpaces unicode, word "share"])))

/-- `_DIFF_RE` -/
def diffRe : Regex CodePoint :=
  .all [.alt (.all [unicode.boundary, word "diff", .opt (word "iculty"), unicode.boundary])
      (.all [unicode.boundary, word "d", unicode.boundary]),
    unicode.spaces, .one fun c => (text "=: ").contains c, unicode.spaces, number]

def anyWord : List String → Regex CodePoint
  | [] => .empty
  | [s] => word s
  | s :: rest => .alt (word s) (anyWord rest)

/-- `_TH_RE` -/
def thRe : Regex CodePoint :=
  .all [.opt (anyWord ["hashrate", "speed", "rate", "raw", "reported", "share_equiv", "pool", "gpu"]),
    .many (some 32) fun c => !isDigit c && c ≠ 10, number, unicode.spaces,
    .alt (word "TH/s") (.alt (word "Th/s") (.all [word "terahash", .opt (word "es"), word "/s"]))]

/-- `_FIELD_TH_RE` -/
def fieldThRe : Regex CodePoint :=
  .all [unicode.boundary, anyWord ["hashrate_th_s", "raw_th_s", "share_equiv_th_s", "pool_credited_th_s"],
    unicode.boundary, unicode.spaces, .one fun c => (text "=:").contains c, unicode.spaces, number]

end Patterns

structure ShareStats where
  acceptedShares : Int
  rejectedShares : Int
  staleShares : Int
  acceptedWork : PyFloat
  reportedThS : List PyFloat
  lastShareDiff : Option PyFloat

variable (host : Host)

/-- `float(match.group(1))` of the first match. -/
def extract (r : Regex CodePoint) (line : Text) : Option PyFloat :=
  ((r.search line).bind Place.captured).map host.floats.ofNumber

def extractShareDiff (line : Text) : Option PyFloat := extract host (diffRe host.unicode) line

def extractReportedThS (line : Text) : Option PyFloat :=
  (extract host (fieldThRe host.unicode) line).or (extract host (thRe host.unicode) line)

def truthy? (x : Option PyFloat) : Option PyFloat := x.filter fun f => !f.isZero

/-- The difficulty that a line goes by. -/
def ShareStats.diff (stats : ShareStats) (line : Text) (defaultShareDiff : PyFloat) : PyFloat :=
  ((truthy? (extractShareDiff host line)).or (truthy? stats.lastShareDiff)).getD defaultShareDiff

def ShareStats.noteDiff (stats : ShareStats) (diff : PyFloat) : ShareStats :=
  { stats with lastShareDiff := if diff.isZero then stats.lastShareDiff else some diff }

def ShareStats.noteLine (stats : ShareStats) (line : Text) (defaultShareDiff : PyFloat) : ShareStats :=
  let diff := stats.diff host line defaultShareDiff
  let stats := stats.noteDiff diff
  if ((staleRe host.unicode).search line).isSome then
    { stats with staleShares := stats.staleShares + 1 }
  else if ((rejectRe host.unicode).search line).isSome then
    { stats with rejectedShares := stats.rejectedShares + 1 }
  else
    let stats :=
      if ((acceptRe host.unicode).search line).isSome then
        { stats with
          acceptedShares := stats.acceptedShares + 1
          acceptedWork := host.floats.add stats.acceptedWork diff }
      else stats
    match extractReportedThS host line with
    | none => stats
    | some thS => { stats with reportedThS := stats.reportedThS ++ [thS] }

/-- The loop of `run_command` over the output of the miner. -/
def ShareStats.noteLines (stats : ShareStats) (lines : List Text) (shareDiff : PyFloat) : ShareStats :=
  lines.foldl (fun stats line => stats.noteLine host line shareDiff) stats

end Miner.Hashrate
