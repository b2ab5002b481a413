import PrlMiner.Library.Lines
import PrlMiner.Library.Python
import PrlMiner.Library.Runs

/-! `messages` on the bytes of a pool, read in successive windows that the consumer may
leave early. -/
namespace Miner.Stratum

open LittleEndian Python

/-- `json.loads` of a text: its value, a `JSONDecodeError`, or another exception
(nested too deep, an integer with too many digits). -/
inductive Loaded where
  | value (v : Json)
  | jsonDecodeError
  | raised

/-- A generator of `messages`: there is none, it runs, or it waits at a `yield`. Behind
the last one it returns. -/
inductive Window where
  | none
  | running
  | yielded (last : Bool)
  deriving DecidableEq

/-- `_rx` and the generator. What follows is for reference: the bytes received, the
messages and the markers yielded, whether `messages` raised. -/
structure StratumClient where
  rx : List Byte
  window : Window
  received : List Byte
  messages : List Json
  markers : List Json
  raised : Bool

def StratumClient.init : StratumClient := ⟨[], .none, [], [], [], false⟩

/-- `deadline` is the end of a window, which is looked at before a line or a `recv`.
The consumer `resumes` a generator or `breaks` out of its loop. -/
inductive Event where
  | opens
  | line
  | chunk (bytes : List Byte)
  | timeout
  | closed
  | failed (e : Text)
  | deadline
  | resumes
  | breaks

def newline : Byte := 10

def rawMessage (t : Text) : Json := .obj [(text "_raw", .str t)]

def errorMarker (e : Text) : Json := .obj [(text "_error", .str (text "recv failed: " ++ e))]

def closedMarker : Json := .obj [(text "_closed", .bool true)]

def StratumClient.yieldMessage (c : StratumClient) (v : Json) : StratumClient :=
  { c with window := .yielded false, messages := c.messages ++ [v] }

def StratumClient.yieldMarker (c : StratumClient) (v : Json) : StratumClient :=
  { c with window := .yielded true, markers := c.markers ++ [v] }

def StratumClient.raise (c : StratumClient) : StratumClient := { c with window := .none, raised := true }

section

variable (loads : Text → Loaded)

/-- The first line of the buffer, which has left it. -/
def StratumClient.handleLine (c : StratumClient) (line : List Byte) : StratumClient :=
  let line := strip line
  if line = [] then c
  else
    match decode line with
    | none => c.raise
    | some t =>
        match loads t with
        | .value v => c.yieldMessage v
        | .jsonDecodeError => c.yieldMessage (rawMessage (decodeReplace line))
        | .raised => c.raise

def step (c : StratumClient) : Event → Option StratumClient
  | .opens => if c.window = .none then some { c with window := .running } else none
  | .deadline => if c.window = .running then some { c with window := .none } else none
  | .line =>
      if c.window = .running then
        (Lines.split newline c.rx).map fun cut => { c with rx := cut.2 }.handleLine loads cut.1
      else none
  | .chunk bytes =>
      if c.window = .running ∧ newline ∉ c.rx ∧ bytes ≠ [] ∧ bytes.length ≤ 65536 then
        some { c with rx := c.rx ++ bytes, received := c.received ++ bytes }
      else none
  | .timeout => if c.window = .running ∧ newline ∉ c.rx then some c else none
  | .closed => if c.window = .running ∧ newline ∉ c.rx then some (c.yieldMarker closedMarker) else none
  | .failed e => if c.window = .running ∧ newline ∉ c.rx then some (c.yieldMarker (errorMarker e)) else none
  | .resumes =>
      match c.window with
      | .yielded last => some { c with window := if last then .none else .running }
      | _ => none
  | .breaks =>
      match c.window with
      | .yielded _ => some { c with window := .none }
      | _ => none

end

end Miner.Stratum
