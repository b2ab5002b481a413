import PrlMiner.Library.Base64
import PrlMiner.Library.JsonRoundTrip
import PrlMiner.Miner.CpuBackend
import PrlMiner.Miner.GatewayClient
import PrlMiner.Miner.MockGateway

/-! Jobs, submissions and JSON-RPC requests as lines of bytes, at both ends of the
connection. `reprText` is `repr` of a string. -/
namespace Miner

open LittleEndian Python EarlyExit

/-! Access to JSON values, or the text of the exception. -/

def typeName : Json → String
  | .null => "NoneType"
  | .bool _ => "bool"
  | .int _ => "int"
  | .float _ => "float"
  | .str _ => "str"
  | .arr _ => "list"
  | .obj _ => "dict"

/-- `d[key]`. -/
def subscript (d : Json) (key : String) : Except String Json :=
  match d with
  | .obj fields =>
      match Fields.item fields (text key) with
      | some v => .ok v
      | none => .error s!"'{key}'"
  | .arr _ => .error "list indices must be integers or slices, not str"
  | .str _ => .error "string indices must be integers, not 'str'"
  | v => .error s!"'{typeName v}' object is not subscriptable"

/-- `base64.b64decode(v)`. -/
def b64decode : Json → Except String (List Byte)
  | .str s => Base64.decode s
  | v => .error s!"argument should be a bytes-like object or ASCII string, not '{typeName v}'"

/-- What follows a digit: digits, with single underscores between, and white space. -/
def decimalTail (value : Nat) : Text → Option Nat
  | [] => some value
  | c :: rest =>
      if isJsonDigit c then decimalTail (10 * value + (c.val - 48)) rest
      else if c = 95 then
        match rest with
        | [] => none
        | d :: _ => if isJsonDigit d then decimalTail value rest else none
      else if (c :: rest).all isAsciiSpace then some value
      else none

def decimalNumber : Text → Option Nat
  | [] => none
  | c :: rest => if isJsonDigit c then decimalTail (c.val - 48) rest else none

/-- `int(s)`. `reprText` is `repr(s)`. -/
def intBase10 (tables : Tables) (reprText : Text → String) (s : Text) : Except String Int :=
  let (negative, number) := match (s.map tables.toAscii).dropWhile isAsciiSpace with
    | 43 :: rest => (false, rest)
    | 45 :: rest => (true, rest)
    | rest => (false, rest)
  let digits := ((number.takeWhile fun c => isJsonDigit c || c = 95).filter isJsonDigit).length
  if maxDigits < digits then
    .error (s!"Exceeds the limit ({maxDigits} digits) for integer string conversion: value has {digits} digits; " ++
      "use sys.set_int_max_str_digits() to increase the limit")
  else
    match decimalNumber number with
    | some n => .ok (if negative then -n else n)
    | none => .error s!"invalid literal for int() with base 10: {reprText s}"

/-- `int(v)`. -/
def toInt (tables : Tables) (reprText : Text → String) (v : Json) : Except String Int :=
  match v with
  | .str s => intBase10 tables reprText s
  | .float .nan => .error "cannot convert float NaN to integer"
  | v =>
      match v.toInt with
      | some i => .ok i
      | none =>
          match v with
          | .float _ => .error "cannot convert float infinity to integer"
          | v => .error s!"int() argument must be a string, a bytes-like object or a real number, not '{typeName v}'"

/-! Wire types -/

def MiningJob.toDict (job : MiningJob) : Json :=
  .obj [(text "incomplete_header_bytes", .str (Base64.encode job.incompleteHeaderBytes)),
    (text "target", .int job.target)]

/-- `from_dict`. -/
def MiningJob.readDict (tables : Tables) (reprText : Text → String) (d : Json) : Except String MiningJob := do
  let hdr ← subscript d "incomplete_header_bytes" >>= b64decode
  let target ← subscript d "target" >>= toInt tables reprText
  MiningJob.fromDict hdr target

def PlainProofSubmission.params (submission : PlainProofSubmission) : Json :=
  .obj [(text "plain_proof", .str (Base64.encode submission.plainProof)), (text "mining_job", submission.job.toDict)]

/-- `json.loads` of bytes. `other` has the lines with bytes that are not ASCII or NUL. -/
def loadsBytes (parseFloat : Text → PyFloat) (limit : Nat) (other : List Byte → Except JsonError Json)
    (bytes : List Byte) : Except JsonError Json :=
  if bytes.all fun b => 0 < b.toNat && b.toNat < 128 then
    loads parseFloat limit (bytes.map fun b => Fin.ofNat _ b.toNat)
  else other bytes

/-- A number below the `d`-th power of ten has at most `d` digits. -/
theorem length_digitsText_le {n d : Nat} (hPos : 0 < d) (h : n < 10 ^ d) : (digitsText n).length ≤ d := by
  induction d generalizing n with
  | zero => exact absurd hPos (Nat.lt_irrefl 0)
  | succ d ih =>
      by_cases hSmall : n < 10
      · rw [digitsText_of_lt hSmall]
        exact Nat.succ_le_succ (Nat.zero_le d)
      · have hPower : 0 < d := by
          by_contra hZero
          obtain rfl : d = 0 := by omega
          omega
        rw [digitsText_of_le (by omega), List.length_append]
        exact Nat.succ_le_succ (ih hPower (Nat.div_lt_of_lt_mul (by rw [pow_succ] at h; omega)))

/-- A target that `json.dumps` prints. -/
def MiningJob.Prints (job : MiningJob) : Prop := (digitsText job.target.natAbs).length ≤ maxDigits

/-- What `from_dict` lets through. -/
def MiningJob.Valid (job : MiningJob) : Prop :=
  (0 ≤ job.target ∧ job.target ≤ maxTarget) ∧ job.incompleteHeaderBytes ≠ []

/-- The target of a valid job has few enough digits for `int` to print it. -/
theorem MiningJob.Valid.prints {job : MiningJob} (h : job.Valid) : job.Prints := by
  have hTarget : job.target.natAbs < 10 ^ 78 := by
    have hHigh : job.target ≤ 2 ^ 256 - 1 := h.1.2
    have hPower : (2 : Int) ^ 256 - 1 < 10 ^ 78 := by norm_num
    have hLow := h.1.1
    omega
  exact (length_digitsText_le (by decide) hTarget).trans (by decide)

/-- `from_dict` lets through what is valid, and makes a job of it without a change. -/
theorem fromDict_eq_ok {hdr : List Byte} {target : Int} {job : MiningJob} :
    MiningJob.fromDict hdr target = .ok job ↔ job = ⟨hdr, target⟩ ∧ job.Valid := by
  rw [MiningJob.fromDict]
  by_cases hTarget : 0 ≤ target ∧ target ≤ maxTarget
  · rw [if_neg (not_not.mpr hTarget)]
    by_cases hEmpty : hdr = []
    · rw [if_pos hEmpty]
      refine iff_of_false (by simp) ?_
      rintro ⟨rfl, h⟩
      exact h.2 hEmpty
    · rw [if_neg hEmpty, Except.ok.injEq, eq_comm]
      refine (and_iff_left_of_imp ?_).symm
      rintro rfl
      exact ⟨hTarget, hEmpty⟩
  · rw [if_pos hTarget]
    refine iff_of_false (by simp) ?_
    rintro ⟨rfl, h⟩
    exact hTarget h.1

/-- A text in ASCII has no surrogates. -/
theorem unpaired_of_le {s : Text} (h : ∀ c ∈ s, c ≤ 126) : unpaired s = true := by
  induction s with
  | nil => rfl
  | cons c s ih =>
      have hTail := ih fun d hd => h d (List.mem_cons_of_mem c hd)
      cases s with
      | nil => rfl
      | cons d s =>
          have hc : c.val ≤ 126 := h c List.mem_cons_self
          have hHigh : isHigh c = false := by
            rw [isHigh_eq, decide_eq_false_iff_not]
            omega
          rw [unpaired, hHigh, hTail]
          rfl

theorem unpaired_base64 (bytes : List Byte) : unpaired (Base64.encode bytes) = true :=
  unpaired_of_le fun _ h => (Base64.mem_encode h).2.1

section Json

variable (tables : Tables) (parseFloat : Text → PyFloat) (reprText : Text → String)
  (other : List Byte → Except JsonError Json) {limit : Nat}

/-- A record with these keys, all different and without surrogates, is plain if its values
are. -/
theorem plain_obj {fields : Fields} (keys : List String) (hFields : fields.map Prod.fst = keys.map text)
    (hDistinct : (keys.map text).Nodup) (hTexts : ∀ key ∈ keys.map text, unpaired key = true)
    (h : ∀ field ∈ fields, field.2.Plain limit) : (Json.obj fields).Plain (limit + 1) :=
  .obj limit fields (hFields ▸ hDistinct)
    (fun field hField => hTexts field.1 (hFields ▸ List.mem_map_of_mem hField)) h

/-- A job is written as a plain object, of one level, -/
theorem plain_toDict (limit : Nat) {job : MiningJob} (h : job.Prints) : job.toDict.Plain (limit + 1) := by
  refine plain_obj ["incomplete_header_bytes", "target"] rfl (by decide) (by decide) fun field hField => ?_
  simp only [List.mem_cons, List.not_mem_nil, or_false] at hField
  rcases hField with rfl | rfl
  · exact .str limit _ (unpaired_base64 job.incompleteHeaderBytes)
  · exact .int limit job.target h

/-- and a submission as one of two levels. -/
theorem plain_params (limit : Nat) {submission : PlainProofSubmission} (h : submission.job.Prints) :
    submission.params.Plain (limit + 2) := by
  refine plain_obj ["plain_proof", "mining_job"] rfl (by decide) (by decide) fun field hField => ?_
  simp only [List.mem_cons, List.not_mem_nil, or_false] at hField
  rcases hField with rfl | rfl
  · exact .str (limit + 1) _ (unpaired_base64 submission.plainProof)
  · exact plain_toDict limit h

/-- A job that is read from its own object is checked as by `from_dict`, with its own
header and target. -/
theorem readDict_toDict (job : MiningJob) :
    MiningJob.readDict tables reprText job.toDict = MiningJob.fromDict job.incompleteHeaderBytes job.target := by
  have hHeader : subscript job.toDict "incomplete_header_bytes" =
      .ok (.str (Base64.encode job.incompleteHeaderBytes)) := rfl
  have hTarget : subscript job.toDict "target" = .ok (.int job.target) := rfl
  rw [MiningJob.readDict, hHeader, hTarget]
  dsimp only [bind, Except.bind, b64decode]
  rw [Base64.decode_encode]
  rfl

theorem toNat_ofNat_ascii {c : CodePoint} (h : c.val ≤ 126) :
    (Fin.ofNat 0x110000 (BitVec.ofNat 8 c.val).toNat) = c := by
  rw [Fin.ext_iff, Fin.val_ofNat, BitVec.toNat_ofNat]
  omega

/-- Bytes in ASCII are detected as UTF-8 and decoded as they were encoded. A null byte
among the first would tell another encoding. -/
theorem loadsBytes_encodeAscii {s : Text} (h : ∀ c ∈ s, 0 < c.val ∧ c.val ≤ 126) :
    loadsBytes parseFloat limit other (encodeAscii s) = loads parseFloat limit s := by
  have hAscii : (encodeAscii s).all (fun b => 0 < b.toNat && b.toNat < 128) = true := by
    simp only [encodeAscii, List.all_map, List.all_eq_true]
    intro c hc
    have hc := h c hc
    simp only [Function.comp_apply, BitVec.toNat_ofNat, Bool.and_eq_true, decide_eq_true_eq]
    omega
  have hText : (encodeAscii s).map (fun b => Fin.ofNat 0x110000 b.toNat) = s := by
    rw [encodeAscii, List.map_map]
    exact (List.map_congr_left fun c hc => toNat_ofNat_ascii (h c hc).2).trans (List.map_id s)
  rw [loadsBytes, if_pos hAscii, hText]

/-- A value is read from its line, with or without the line break. -/
theorem loadsBytes_dumpsLine {v : Json} (h : v.Plain limit) {rest : Text} (hRest : rest = [] ∨ rest = [10]) :
    loadsBytes parseFloat limit other (encodeAscii (dumps tables v ++ rest)) = .ok v := by
  rw [loadsBytes_encodeAscii, loads_dumps tables parseFloat h hRest]
  intro c hc
  rcases List.mem_append.mp hc with hc | hc
  · have hc := printable_dumps tables h c hc
    omega
  · rcases hRest with rfl | rfl
    · cases hc
    · obtain rfl := List.mem_singleton.mp hc
      decide

end Json

end Miner
