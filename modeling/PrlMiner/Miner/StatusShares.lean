import PrlMiner.Miner.StatusLine

/-! Status lines in the share accounting. Each counts as a stale share, for the name
of its field `Stale`. -/
namespace Miner.Hashrate

open Python Regexes

/-- A line that counts as a stale share. -/
def isStale (host : Host) (line : Text) : Bool := ((staleRe host.unicode).search line).isSome

/-- The counts that a share event changes are the same. -/
def ShareStats.SameCounts (before after : ShareStats) : Prop :=
  after.acceptedShares = before.acceptedShares ∧ after.rejectedShares = before.rejectedShares ∧
    after.staleShares = before.staleShares ∧ after.acceptedWork = before.acceptedWork

section Lines

variable (host : Host) {stats : ShareStats} {line : Text} {lines printed : List Text} {shareDiff : PyFloat}

/-- A line counts as a stale share exactly if it matches the pattern of one, whatever else
is in it. -/
theorem noteLine_staleShares : (stats.noteLine host line shareDiff).staleShares =
    stats.staleShares + if isStale host line then 1 else 0 := by
  cases hStale : isStale host line with
  | true =>
      rw [isStale] at hStale
      simp [ShareStats.noteLine, hStale, ShareStats.noteDiff]
  | false =>
      rw [isStale] at hStale
      simp only [ShareStats.noteLine, hStale, Bool.false_eq_true, if_false, Int.add_zero]
      split
      · rfl
      · split <;> split <;> rfl

/-- The stale shares of a whole output are its stale lines, one for each. -/
theorem noteLines_staleShares : (stats.noteLines host lines shareDiff).staleShares =
    stats.staleShares + lines.countP (isStale host) := by
  induction lines generalizing stats with
  | nil => simp [ShareStats.noteLines]
  | cons line lines ih =>
      rw [ShareStats.noteLines, List.foldl_cons, ← ShareStats.noteLines, ih, noteLine_staleShares, List.countP_cons]
      push_cast
      ring

/-- A line that names a field `Stale` matches the pattern of stale shares. -/
theorem isStale_of_infix (h : text " Stale:" <:+: line) : isStale host line = true := by
  obtain ⟨before, after, rfl⟩ := h
  have hSame : List.Forall₂ (fun x y => sameLetter x y = true) (text "stale") (text "Stale") := by
    simp [text, sameLetter, foldLetter]
  have hMatch : Matches (.alt (word "stale") (word "expired"))
      ⟨(before ++ [32]).reverse, text "Stale" ++ 58 :: after, none⟩
      ⟨(text "Stale").reverse ++ (before ++ [32]).reverse, 58 :: after, none⟩ :=
    .left ((matches_literal sameLetter).mpr ⟨_, hSame, rfl, rfl, rfl⟩)
  have hFound := search_bounded host.unicode hMatch (by simp [text, Unicode.isWordChar])
    (by simp [text, Unicode.isWordChar])
  have hLine : before ++ text " Stale:" ++ after = before ++ [32] ++ (text "Stale" ++ 58 :: after) := by
    simp [text]
  rw [isStale, hLine]
  exact hFound

end Lines

end Miner.Hashrate

namespace Miner.Status

open Python Hashrate

/-- The division by the power raises: by a zero, or for a number too large for a float. -/
def DivisionRaises (host : Host) (power : Json) : Prop :=
  (Metrics.isBlank power || power.eq (.str (text "0"))) = false ∧
    (host.toFloat power = .overflow ∨ ∃ x, host.toFloat power = .value x ∧ x.isZero = true)

/-- No status line can be made. -/
def Metrics.Raises (host : Host) (m : Metrics) (clock : Clock) (dev : Fields) : Prop :=
  (m.uptime host clock.uptime).toInt = none ∨
    ((m.uptime host clock.throughput).positive = true ∧ host.floats.ofInt m.workUnits = none) ∨
    DivisionRaises host (Fields.get dev (text "power_w") .null)

section Lines

variable (host : Host) {m : Metrics} {clock : Clock} {dev : Fields} {mode line : Text}

/-- The throughput raises exactly where time has passed and the work is too large for a
float. -/
theorem throughput_eq_none {now : PyFloat} : m.throughputMacsPerS host now = none ↔
    (m.uptime host now).positive = true ∧ host.floats.ofInt m.workUnits = none := by
  rw [Metrics.throughputMacsPerS]
  cases hUp : (m.uptime host now).positive <;> simp

/-- The efficiency raises only in its division. -/
theorem efficiency_eq_none {tmacs : PyFloat} {power : Json} :
    Metrics.efficiency host tmacs power = none ↔ DivisionRaises host power := by
  rw [Metrics.efficiency, DivisionRaises]
  cases hGiven : Metrics.isBlank power || power.eq (.str (text "0")) with
  | true => simp
  | false =>
      cases hPower : host.toFloat power with
      | caught => simp
      | overflow => simp
      | value x => cases hZero : x.isZero <;> simp [hZero]

/-- A status line is made unless an operation in it raises. -/
theorem statusLine_eq_none (mode : Text) : m.statusLine host clock dev mode = none ↔ m.Raises host clock dev := by
  rw [Metrics.statusLine, Metrics.Raises]
  cases hUp : (m.uptime host clock.uptime).toInt with
  | none => simp
  | some up =>
      rw [← throughput_eq_none]
      cases hMacs : m.throughputMacsPerS host clock.throughput with
      | none => simp
      | some macs =>
          rw [← efficiency_eq_none host]
          cases hEff : Metrics.efficiency host (host.floats.div macs (.finite 1000000000000))
              (Fields.get dev (text "power_w") .null) with
          | none => simp [hEff]
          | some eff => simp [hEff]

/-- A field among the last ones follows a separator, whichever fields there are before
it. -/
theorem field_follows {sep a b c d x e f : Text} {first eff : List Text} (h : first ≠ []) :
    sep ++ x <:+: sep.intercalate (first ++ eff ++ [a, b, c, d, x, e, f]) := by
  have hBefore : first ++ eff ++ [a, b, c, d] ≠ [] := by simp [h]
  have hJoined : sep ++ x <:+: sep.intercalate (first ++ eff ++ [a, b, c, d] ++ x :: [e, f]) :=
    infix_intercalate hBefore
  simpa using hJoined

/-- Every status line that is made names the field `Stale`, behind a blank, -/
theorem statusLine_names_stale (h : m.statusLine host clock dev mode = some line) : text " Stale:" <:+: line := by
  rw [Metrics.statusLine] at h
  obtain ⟨up, -, h⟩ := Option.bind_eq_some_iff.mp h
  obtain ⟨macs, -, h⟩ := Option.bind_eq_some_iff.mp h
  obtain ⟨eff, -, h⟩ := Option.bind_eq_some_iff.mp h
  rw [← Option.some.inj h]
  have hField : text " Stale:" <:+: text " | " ++ (text "Stale: " ++ dumpsInt m.stale) :=
    ⟨text " |", text " " ++ dumpsInt m.stale, by simp [text]⟩
  exact hField.trans (field_follows (List.cons_ne_nil _ _))

/-- so that it is a stale line, also inside a longer line of output. -/
theorem isStale_of_statusLine {output : Text} (h : m.statusLine host clock dev mode = some line)
    (hPrinted : line <:+: output) : isStale host.toHost output = true :=
  isStale_of_infix host.toHost ((statusLine_names_stale host h).trans hPrinted)

/-- It is counted, for a stale share. -/
theorem not_sameCounts {stats : ShareStats} {shareDiff : PyFloat}
    (h : m.statusLine host clock dev mode = some line) :
    ¬stats.SameCounts (stats.noteLine host.toHost line shareDiff) := by
  intro hSame
  have hCounted := hSame.2.2.1
  rw [noteLine_staleShares, isStale_of_statusLine host h (List.infix_refl line)] at hCounted
  simp at hCounted

/-- The accounting takes a status line for no share event if and only if the line
cannot be made. -/
theorem status_line_uncounted_iff (m : Metrics) (clock : Clock) (dev : Fields) (mode : Text)
    (stats : ShareStats) (shareDiff : PyFloat) :
    (∀ line, m.statusLine host clock dev mode = some line →
        stats.SameCounts (stats.noteLine host.toHost line shareDiff)) ↔
      m.Raises host clock dev := by
  rw [← statusLine_eq_none host mode]
  constructor
  · intro hSame
    by_contra hLine
    obtain ⟨line, hLine⟩ := Option.ne_none_iff_exists'.mp hLine
    exact not_sameCounts host hLine (hSame line hLine)
  · intro hNone line hLine
    cases hNone.symm.trans hLine

/-- Floats at zero, on a host with ASCII only. -/
def Host.atZero : Host where
  unicode := ⟨fun _ => false, fun _ => false⟩
  floats := {
    add := fun _ _ => .finite 0
    sub := fun _ _ => .finite 0
    mul := fun _ _ => .finite 0
    div := fun _ _ => .finite 0
    ofInt := fun i => some (.finite i)
    parse := fun _ => none
    ofNumber := fun _ => .finite 0
    fixed := fun n _ => text "0" ++ if n = 0 then [] else text "." ++ List.replicate n 48 }
  str := fun _ => text "None"

/-- The line before anything was mined, without a device, counts as a stale share,
although it says that there are none. -/
theorem first_line_counted :
    let m : Metrics := ⟨.finite 0, 0, 0, 0, 0, .finite 0⟩
    let stats : ShareStats := ⟨0, 0, 0, .finite 0, [], none⟩
    ∃ line, m.statusLine .atZero ⟨.finite 0, .finite 0, .finite 0⟩ [] (text "solo") = some line ∧
      ¬stats.SameCounts (stats.noteLine Host.atZero.toHost line (.finite 32768)) := by
  intro m stats
  have hMade : m.statusLine .atZero ⟨.finite 0, .finite 0, .finite 0⟩ [] (text "solo") ≠ none := by
    rw [Ne, statusLine_eq_none]
    rintro (hUp | ⟨-, hMacs⟩ | ⟨hGiven, -⟩)
    · cases hUp
    · cases hMacs
    · cases hGiven
  obtain ⟨line, hLine⟩ := Option.ne_none_iff_exists'.mp hMade
  exact ⟨line, hLine, not_sameCounts .atZero hLine⟩

/-- In a run of the benchmark, the stale shares grow by the status lines at least: each of
them is counted, whatever else the miner prints. -/
theorem status_lines_counted {output printed : List Text} {stats : ShareStats} {shareDiff : PyFloat}
    (hOutput : printed.Sublist output)
    (hPrinted : ∀ text ∈ printed, ∃ m clock dev mode line,
      Metrics.statusLine host m clock dev mode = some line ∧ line <:+: text) :
    stats.staleShares + printed.length ≤ (stats.noteLines host.toHost output shareDiff).staleShares := by
  have hStale : ∀ text ∈ printed, isStale host.toHost text = true := by
    intro text hText
    obtain ⟨m, clock, dev, mode, line, hLine, hInfix⟩ := hPrinted text hText
    exact isStale_of_statusLine host hLine hInfix
  have hCount : printed.length ≤ output.countP (isStale host.toHost) := by
    rw [← List.countP_eq_length.mpr hStale]
    exact hOutput.countP_le
  rw [noteLines_staleShares]
  exact Int.add_le_add_left (Int.ofNat_le.mpr hCount) _

end Lines

end Miner.Status
