import PrlMiner.Miner.ProtocolHashrate

/-! The status line of `Metrics`, and what the share accounting makes of it: a stale
share, whatever it says. -/
namespace Miner.Status

open Python Regexes Hashrate

/-- `str` is of a value that is no text. -/
structure Host extends Hashrate.Host where
  str : Json → Text

/-- The fields of `Metrics` that a status line is made of. -/
structure Metrics where
  started : PyFloat
  workUnits : Int
  accepted : Int
  rejected : Int
  stale : Int
  lastJobTime : PyFloat

/-- The readings of the monotonic clock, for the fields of the line. -/
structure Clock where
  uptime : PyFloat
  throughput : PyFloat
  jobAge : PyFloat

variable (host : Host)

def Host.display : Json → Text
  | .str s => s
  | v => host.str v

/-- `float(v)`. `except (TypeError, ValueError)` does not catch an overflow. -/
inductive ToFloat where
  | value (x : PyFloat)
  | caught
  | overflow

def Host.toFloat : Json → ToFloat
  | .bool b => .value (.finite (if b then 1 else 0))
  | .int i => (host.floats.ofInt i).elim .overflow .value
  | .float x => .value x
  | .str s => (host.floats.parse s).elim .caught .value
  | .null | .arr _ | .obj _ => .caught

namespace Metrics

variable (m : Metrics)

/-- At a time of the monotonic clock. -/
def uptime (now : PyFloat) : PyFloat := host.floats.sub now m.started

def jobAge (now : PyFloat) : PyFloat := host.floats.sub now m.lastJobTime

/-- None where the count is too large for a float. -/
def throughputMacsPerS (now : PyFloat) : Option PyFloat :=
  let up := m.uptime host now
  if up.positive then (host.floats.ofInt m.workUnits).map fun macs => host.floats.div macs up
  else some (.finite 0)

/-- `power in (None, "")` -/
def isBlank (power : Json) : Bool := power.eq .null || power.eq (.str [])

/-- The field `Eff`, where there is one. None where its division raises. -/
def efficiency (tmacs : PyFloat) (power : Json) : Option (List Text) :=
  if isBlank power || power.eq (.str (text "0")) then some []
  else
    match host.toFloat power with
    | .caught => some []
    | .overflow => none
    | .value x =>
        if x.isZero then none
        else
          let eff := host.floats.div (host.floats.mul tmacs (.finite 1000)) x
          some [text "Eff: " ++ host.floats.fixed 2 eff ++ text " GMAC/W"]

/-- `v or '-'` -/
def orDash (v : Json) : Text := if v.truthy then host.display v else text "-"

/-- None where the code raises. -/
def statusLine (clock : Clock) (dev : Fields) (mode : Text) : Option Text := do
  let up ← (m.uptime host clock.uptime).toInt
  let macs ← m.throughputMacsPerS host clock.throughput
  let tmacs := host.floats.div macs (.finite 1000000000000)
  let power := Fields.get dev (text "power_w") .null
  let eff ← efficiency host tmacs power
  let fields :=
    [text "GPU: " ++ host.display (Fields.get dev (text "name") (.str (text "?"))),
      text "Mode: " ++ mode,
      text "Throughput: " ++ host.floats.fixed 4 tmacs ++ text " TMAC/s (harness)",
      text "Power: " ++ (if isBlank power then text "-" else host.display power) ++ text " W"] ++ eff ++
    [text "GPU temp: " ++ orDash host (Fields.get dev (text "temp_c") .null) ++ text " C",
      text "VRAM temp: " ++ orDash host (Fields.get dev (text "vram_temp_c") .null) ++ text " C",
      text "Accepted: " ++ dumpsInt m.accepted,
      text "Rejected: " ++ dumpsInt m.rejected,
      text "Stale: " ++ dumpsInt m.stale,
      text "Uptime: " ++ twoDigits (up / 3600) ++ text ":" ++ twoDigits (up % 3600 / 60) ++ text ":" ++
        twoDigits (up % 60),
      text "Job age: " ++ host.floats.fixed 0 (m.jobAge host clock.jobAge) ++ text "s"]
  pure ((text " | ").intercalate fields)

end Metrics

end Miner.Status
