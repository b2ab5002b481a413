import Mathlib.Data.List.TakeWhile
import PrlMiner.Library.LittleEndian
import PrlMiner.Library.Runs

/-! Telemetry that a background thread samples. Every access to the cached sample is
under one mutex, so each of them is a single step, and the steps of the thread come
between those of the calls in any order. -/
namespace Cuda.Nvml

open LittleEndian Runs

/-- `char name[256]`, filled by `strncpy` up to the last byte. -/
def cName (src : List Byte) : List Byte :=
  let copied := (src.takeWhile fun b => b != 0).take 255
  copied ++ List.replicate (256 - copied.length) 0

/-- Floats of the samples: `0`, `static_cast<float>` and the division of milliwatts. -/
structure Floats (F : Type) where
  zero : F
  cast : Int → F
  milli : Nat → F

structure PrlDeviceInfo (F : Type) where
  index : Int
  name : List Byte
  ccMajor : Int
  ccMinor : Int
  totalMemBytes : Nat
  smemPerBlockOptin : Int
  tempC : F
  vramTempC : F
  powerW : F
  smClockMhz : Int
  memClockMhz : Int

inductive PrlStatus where
  | ok | noDevice | badArg | notImplemented | cuda
  deriving DecidableEq

section Devices

structure CudaDeviceProp where
  name : List Byte
  major : Int
  minor : Int
  totalGlobalMem : Nat
  clockRate : Int
  memoryClockRate : Int

/-- What the CUDA runtime says of the devices. A call that fails says nothing. -/
structure Devices where
  count : Option Int
  properties : Int → Option CudaDeviceProp
  optin : Int → Int

variable {F : Type} (fl : Floats F)

def prlDeviceCount (devices : Devices) : Int := devices.count.getD 0

/-- `PrlDeviceInfo s{}` -/
def PrlDeviceInfo.zero : PrlDeviceInfo F :=
  ⟨0, List.replicate 256 0, 0, 0, 0, 0, fl.zero, fl.zero, fl.zero, 0, 0⟩

/-- The struct after `memset`, filled. -/
def PrlDeviceInfo.ofProp (index : Int) (p : CudaDeviceProp) (optin : Int) : PrlDeviceInfo F :=
  { PrlDeviceInfo.zero fl with
    index := index
    name := cName p.name
    ccMajor := p.major
    ccMinor := p.minor
    totalMemBytes := p.totalGlobalMem
    smClockMhz := p.clockRate.tdiv 1000
    memClockMhz := p.memoryClockRate.tdiv 1000
    smemPerBlockOptin := optin }

/-- With the struct that `out` points to. It is not touched by a call that fails. -/
def prlGetDeviceInfo (devices : Devices) (index : Int) (out : PrlDeviceInfo F) : PrlStatus × PrlDeviceInfo F :=
  if index < 0 ∨ index ≥ prlDeviceCount devices then (.noDevice, out)
  else
    match devices.properties index with
    | none => (.cuda, out)
    | some p => (.ok, .ofProp fl index p (devices.optin index))

end Devices

section Sampling

variable {F : Type} (fl : Floats F)

/-- What NVML answers in one iteration of the loop. -/
structure Readings where
  temperature : Option Nat
  memoryTemp : Option Int
  milliwatts : Option Nat
  smClock : Option Nat
  memClock : Option Nat

/-- `static_cast<int>` of an `unsigned`. -/
def toInt (x : Nat) : Int := (BitVec.ofNat 32 x).toInt

/-- `s` before it is published. -/
def reading (index : Int) (r : Readings) : PrlDeviceInfo F :=
  { PrlDeviceInfo.zero fl with
    index := index
    tempC := (r.temperature.map fun t => fl.cast t).getD fl.zero
    vramTempC := (r.memoryTemp.map fl.cast).getD fl.zero
    powerW := (r.milliwatts.map fl.milli).getD fl.zero
    smClockMhz := (r.smClock.map toInt).getD 0
    memClockMhz := (r.memClock.map toInt).getD 0 }

/-- The static fields of `g_sample` are preserved. -/
def preserve (s gSample : PrlDeviceInfo F) : PrlDeviceInfo F :=
  { s with
    name := cName gSample.name
    ccMajor := gSample.ccMajor
    ccMinor := gSample.ccMinor
    totalMemBytes := gSample.totalMemBytes
    smemPerBlockOptin := gSample.smemPerBlockOptin }

end Sampling

/-- Where the caller of `prl_nvml_start` and `prl_nvml_stop` is. -/
inductive Control where
  | idle
  | seeding
  | enabling
  | spawning
  | joining
  deriving DecidableEq

/-- Where `sample_loop` is. -/
inductive Sampler (F : Type) where
  | opening
  | polling
  | reading
  | storing (s : PrlDeviceInfo F)
  | sleeping
  | ended

/-- The globals, and the threads. `thread` is `g_thread`, `none` when it is not joinable. -/
structure Monitor (F : Type) where
  gSample : PrlDeviceInfo F
  gIndex : Int
  gRun : Bool
  thread : Option (Sampler F)
  control : Control
  terminated : Bool

/-- The steps. `observe` is a call of `prl_nvml_sample`, by any thread. -/
inductive Event where
  | start (initialized : Bool) (index : Int)
  | seed (devices : Devices)
  | enable
  | spawn
  | stop
  | join
  | observe
  | opened (found : Bool)
  | poll
  | read (r : Readings)
  | store
  | wake

section Steps

variable {F : Type} (fl : Floats F)

def Monitor.initial : Monitor F :=
  ⟨.zero fl, 0, false, none, .idle, false⟩

/-- A step of `prl_nvml_start` or `prl_nvml_stop`. A joinable thread that is assigned to ends
the process. -/
def stepControl (m : Monitor F) : Event → Option (Monitor F)
  | .start initialized index =>
      if m.control ≠ .idle then none
      else if initialized then some { m with gIndex := index, control := .seeding }
      else some m
  | .seed devices =>
      if m.control ≠ .seeding then none
      else some { m with gSample := (prlGetDeviceInfo fl devices m.gIndex m.gSample).2, control := .enabling }
  | .enable => if m.control ≠ .enabling then none else some { m with gRun := true, control := .spawning }
  | .spawn =>
      if m.control ≠ .spawning then none
      else if m.thread.isSome then some { m with terminated := true }
      else some { m with thread := some .opening, control := .idle }
  | .stop => if m.control ≠ .idle then none else some { m with gRun := false, control := .joining }
  | .join =>
      if m.control ≠ .joining then none
      else
        match m.thread with
        | none | some .ended => some { m with thread := none, control := .idle }
        | _ => none
  | .observe => some m
  | _ => none

/-- A step of `sample_loop`. -/
def stepSampler (m : Monitor F) : Event → Option (Monitor F)
  | .opened found =>
      match m.thread with
      | some .opening => some { m with thread := some (if found then .polling else .ended) }
      | _ => none
  | .poll =>
      match m.thread with
      | some .polling => some { m with thread := some (if m.gRun then .reading else .ended) }
      | _ => none
  | .read r =>
      match m.thread with
      | some .reading => some { m with thread := some (.storing (reading fl m.gIndex r)) }
      | _ => none
  | .store =>
      match m.thread with
      | some (.storing s) => some { m with gSample := preserve s m.gSample, thread := some .sleeping }
      | _ => none
  | .wake =>
      match m.thread with
      | some .sleeping => some { m with thread := some .polling }
      | _ => none
  | _ => none

def step (m : Monitor F) (e : Event) : Option (Monitor F) :=
  if m.terminated then none else (stepControl fl m e).or (stepSampler fl m e)

end Steps

section Effects

variable {F : Type} {fl : Floats F} {m m' : Monitor F} {e : Event}

/-- The transitions of a monitor that is not terminated, each with what the callers and
the thread must have come to for it. -/
inductive Effect (fl : Floats F) (m : Monitor F) : Event → Monitor F → Prop where
  | refuses (index : Int) (hControl : m.control = .idle) : Effect fl m (.start false index) m
  | starts (index : Int) (hControl : m.control = .idle) :
      Effect fl m (.start true index) { m with gIndex := index, control := .seeding }
  | seeds (devices : Devices) (hControl : m.control = .seeding) :
      Effect fl m (.seed devices)
        { m with gSample := (prlGetDeviceInfo fl devices m.gIndex m.gSample).2, control := .enabling }
  | enables (hControl : m.control = .enabling) : Effect fl m .enable { m with gRun := true, control := .spawning }
  | clashes (hControl : m.control = .spawning) (hThread : m.thread.isSome) :
      Effect fl m .spawn { m with terminated := true }
  | spawns (hControl : m.control = .spawning) (hThread : m.thread = none) :
      Effect fl m .spawn { m with thread := some .opening, control := .idle }
  | stops (hControl : m.control = .idle) : Effect fl m .stop { m with gRun := false, control := .joining }
  | joins (hControl : m.control = .joining) (hThread : m.thread = none ∨ m.thread = some .ended) :
      Effect fl m .join { m with thread := none, control := .idle }
  | observes : Effect fl m .observe m
  | opens (found : Bool) (hThread : m.thread = some .opening) :
      Effect fl m (.opened found) { m with thread := some (if found then .polling else .ended) }
  | polls (hThread : m.thread = some .polling) :
      Effect fl m .poll { m with thread := some (if m.gRun then .reading else .ended) }
  | reads (r : Readings) (hThread : m.thread = some .reading) :
      Effect fl m (.read r) { m with thread := some (.storing (reading fl m.gIndex r)) }
  | stores (s : PrlDeviceInfo F) (hThread : m.thread = some (.storing s)) :
      Effect fl m .store { m with gSample := preserve s m.gSample, thread := some .sleeping }
  | wakes (hThread : m.thread = some .sleeping) : Effect fl m .wake { m with thread := some .polling }

/-- A step of the calling thread is one of its effects. -/
theorem effect_of_control (hStep : stepControl fl m e = some m') : Effect fl m e m' := by
  cases e with
  | start initialized index =>
      simp only [stepControl] at hStep
      split_ifs at hStep with hIdle hInit
      · subst hInit
        cases hStep
        exact .starts index (not_not.mp hIdle)
      · cases hStep
        rw [Bool.not_eq_true] at hInit
        subst hInit
        exact .refuses index (not_not.mp hIdle)
  | seed devices =>
      simp only [stepControl] at hStep
      split_ifs at hStep with hControl
      cases hStep
      exact .seeds devices (not_not.mp hControl)
  | enable =>
      simp only [stepControl] at hStep
      split_ifs at hStep with hControl
      cases hStep
      exact .enables (not_not.mp hControl)
  | spawn =>
      simp only [stepControl] at hStep
      split_ifs at hStep with hControl hThread
      · cases hStep
        exact .clashes (not_not.mp hControl) hThread
      · cases hStep
        exact .spawns (not_not.mp hControl) (Option.not_isSome_iff_eq_none.mp hThread)
  | stop =>
      simp only [stepControl] at hStep
      split_ifs at hStep with hControl
      cases hStep
      exact .stops (not_not.mp hControl)
  | join =>
      simp only [stepControl] at hStep
      split_ifs at hStep with hControl
      split at hStep <;> cases hStep
      · exact .joins (not_not.mp hControl) (.inl ‹_›)
      · exact .joins (not_not.mp hControl) (.inr ‹_›)
  | observe =>
      cases hStep
      exact .observes
  | _ => cases hStep

/-- A step of the sampler thread is one of its effects. -/
theorem effect_of_sampler (hStep : stepSampler fl m e = some m') : Effect fl m e m' := by
  cases e with
  | opened found =>
      simp only [stepSampler] at hStep
      split at hStep <;> cases hStep
      exact .opens found ‹_›
  | poll =>
      simp only [stepSampler] at hStep
      split at hStep <;> cases hStep
      exact .polls ‹_›
  | read r =>
      simp only [stepSampler] at hStep
      split at hStep <;> cases hStep
      exact .reads r ‹_›
  | store =>
      simp only [stepSampler] at hStep
      split at hStep <;> cases hStep
      exact .stores _ ‹_›
  | wake =>
      simp only [stepSampler] at hStep
      split at hStep <;> cases hStep
      exact .wakes ‹_›
  | _ => cases hStep

/-- Every step of a program that still runs has one of the effects above. The invariants
follow from this lemma and do not look at the branches of the step again. -/
theorem effect_of_step (hRunning : m.terminated = false) (hStep : step fl m e = some m') : Effect fl m e m' := by
  rw [step, hRunning, if_neg Bool.false_ne_true] at hStep
  obtain hControl | ⟨-, hSampler⟩ := Option.or_eq_some_iff.mp hStep
  · exact effect_of_control hControl
  · exact effect_of_sampler hSampler

end Effects

section History

variable {F : Type} (fl : Floats F)

/-- What the steps of a run amount to: the device of the last `prl_nvml_start`, the last
static fields that were obtained, whether that start obtained them, and what NVML has
answered since. -/
structure History (F : Type) where
  index : Int
  info : PrlDeviceInfo F
  seeded : Bool
  readings : List (Int × Readings)

def History.initial : History F := ⟨0, .zero fl, false, []⟩

def History.note (h : History F) : Event → History F
  | .start true index => { h with index := index, seeded := false }
  | .seed devices =>
      match prlGetDeviceInfo fl devices h.index h.info with
      | (.ok, info) => { h with info := info, seeded := true, readings := [] }
      | _ => { h with seeded := false }
  | .read r => { h with readings := h.readings ++ [(h.index, r)] }
  | _ => h

def history (events : List Event) : History F := events.foldl (History.note fl) (.initial fl)

/-- The sample is that of the seed, or one iteration's with the static fields of the seed. -/
def History.Explains (h : History F) (sample : PrlDeviceInfo F) : Prop :=
  sample = h.info ∨ ∃ p ∈ h.readings, sample = preserve (reading fl p.1 p.2) h.info

/-- `prl_nvml_start` is called without a thread that was not joined. -/
def StartsJoined (m : Monitor F) (e : Event) : Prop := ∀ index, e = .start true index → m.thread = none

end History

section Invariant

variable {F : Type} {fl : Floats F} {m m' : Monitor F} {h : History F} {e : Event}

/-- A name that was copied once is copied unchanged. -/
theorem cName_cName (src : List Byte) : cName (cName src) = cName src := by
  generalize hCopied : (src.takeWhile fun b => b != 0).take 255 = copied
  have hLength : copied.length ≤ 255 := hCopied ▸ List.length_take_le ..
  have hNonzero : ∀ b ∈ copied, (b != 0) = true := by
    intro b hb
    rw [← hCopied] at hb
    exact @List.mem_takeWhile_imp _ (fun b => b != 0) src b (List.mem_of_mem_take hb)
  have hOnce : cName src = copied ++ List.replicate (256 - copied.length) 0 := by
    rw [cName, hCopied]
  have hTaken : (copied ++ List.replicate (256 - copied.length) (0 : Byte)).takeWhile (fun b => b != 0) = copied := by
    obtain ⟨rest, hRest⟩ : ∃ rest, 256 - copied.length = rest + 1 := ⟨255 - copied.length, by omega⟩
    rw [List.takeWhile_append_of_pos hNonzero, hRest]
    simp
  rw [hOnce, cName, hTaken, List.take_of_length_le hLength]

theorem cName_zeros : cName (List.replicate 256 0) = List.replicate 256 0 := by
  have hNone : (List.replicate 256 (0 : Byte)).takeWhile (fun b => b != 0) = [] := by
    rw [List.takeWhile_replicate, if_neg (by decide)]
  rw [cName, hNone]
  simp only [List.take_nil, List.length_nil, List.nil_append, Nat.sub_zero]

/-- Whatever is in the struct, a call that fails leaves it and one that succeeds fills it. -/
theorem prlGetDeviceInfo_cases (fl : Floats F) (devices : Devices) (index : Int) :
    (∃ status, status ≠ .ok ∧ ∀ out, prlGetDeviceInfo fl devices index out = (status, out)) ∨
    ∃ info, (∀ out, prlGetDeviceInfo fl devices index out = (.ok, info)) ∧ info.index = index ∧
      cName info.name = info.name := by
  by_cases hRange : index < 0 ∨ index ≥ prlDeviceCount devices
  · exact .inl ⟨.noDevice, by simp, fun out => if_pos hRange⟩
  · cases hProperties : devices.properties index with
    | none =>
        refine .inl ⟨.cuda, by simp, fun out => ?_⟩
        rw [prlGetDeviceInfo, if_neg hRange, hProperties]
    | some p =>
        refine .inr ⟨.ofProp fl index p (devices.optin index), fun out => ?_, rfl, cName_cName p.name⟩
        rw [prlGetDeviceInfo, if_neg hRange, hProperties]

theorem preserve_preserve (s s' info : PrlDeviceInfo F) : preserve s (preserve s' info) = preserve s info := by
  simp [preserve, cName_cName]

structure Tracks (fl : Floats F) (m : Monitor F) (h : History F) : Prop where
  running : m.terminated = false
  index : m.gIndex = h.index
  sample : h.Explains fl m.gSample
  pending : ∀ s, m.thread = some (.storing s) → ∃ p ∈ h.readings, s = reading fl p.1 p.2
  padded : cName h.info.name = h.info.name
  seeded : h.seeded = true → h.info.index = h.index ∧ ∀ p ∈ h.readings, p.1 = h.index
  starting : m.control = .seeding ∨ m.control = .enabling ∨ m.control = .spawning → m.thread = none
  joining : m.control = .joining → m.gRun = false

theorem tracks_initial : Tracks fl (Monitor.initial fl) (.initial fl) where
  running := rfl
  index := rfl
  sample := .inl rfl
  pending := by simp [Monitor.initial]
  padded := cName_zeros
  seeded := by simp [History.initial]
  starting := by simp [Monitor.initial]
  joining := by simp [Monitor.initial]

/-- What the thread is about to store has been read since the seed. -/
theorem Tracks.reads (t : Tracks fl m h) (r : Readings) (hThread : m.thread = some .reading) :
    Tracks fl { m with thread := some (.storing (reading fl m.gIndex r)) } (h.note fl (.read r)) where
  running := t.running
  index := t.index
  sample := by
    obtain hSeed | ⟨p, hp, hSample⟩ := t.sample
    · exact .inl hSeed
    · exact .inr ⟨p, List.mem_append_left _ hp, hSample⟩
  pending := by
    rintro s ⟨⟩
    exact ⟨(h.index, r), List.mem_append_right _ (List.mem_singleton_self _), by rw [t.index]⟩
  padded := t.padded
  seeded := by
    intro hSeeded
    obtain ⟨hIndex, hReadings⟩ := t.seeded hSeeded
    refine ⟨hIndex, fun p hp => ?_⟩
    obtain hOld | hNew := List.mem_append.mp hp
    · exact hReadings p hOld
    · rw [List.mem_singleton.mp hNew]
      rfl
  starting := fun hStarting => by simp [t.starting hStarting] at hThread
  joining := t.joining

/-- The thread goes on without a new sample to store. -/
theorem Tracks.moves (t : Tracks fl m h) {sampler next : Sampler F} (hThread : m.thread = some sampler)
    (hNext : ∀ s, next ≠ .storing s) : Tracks fl { m with thread := some next } h :=
  { t with
    pending := by
      rintro s ⟨⟩
      exact absurd rfl (hNext s)
    starting := fun hStarting => by simp [t.starting hStarting] at hThread }

/-- A store keeps the static fields, which are those of the seed as before. -/
theorem Tracks.stores (t : Tracks fl m h) (s : PrlDeviceInfo F) (hThread : m.thread = some (.storing s)) :
    Tracks fl { m with gSample := preserve s m.gSample, thread := some .sleeping } h := by
  obtain ⟨p, hp, rfl⟩ := t.pending s hThread
  have hSample : h.Explains fl (preserve (reading fl p.1 p.2) m.gSample) := by
    refine .inr ⟨p, hp, ?_⟩
    obtain hSeed | ⟨q, -, hSample⟩ := t.sample
    · rw [hSeed]
    · rw [hSample, preserve_preserve]
  have hStored : Tracks fl { m with gSample := preserve (reading fl p.1 p.2) m.gSample } h :=
    { t with sample := hSample }
  exact hStored.moves hThread (by simp)

/-- A seed is that of the device asked for, and forgets the readings before it. One that is
not obtained leaves the sample with what explained it. -/
theorem Tracks.seeds (t : Tracks fl m h) (devices : Devices) (hControl : m.control = .seeding) :
    Tracks fl { m with gSample := (prlGetDeviceInfo fl devices m.gIndex m.gSample).2, control := .enabling }
      (h.note fl (.seed devices)) := by
  have hThread : m.thread = none := t.starting (.inl hControl)
  obtain ⟨status, hStatus, hKept⟩ | ⟨info, hInfo, hIndex, hName⟩ := prlGetDeviceInfo_cases fl devices m.gIndex
  · have hNote : h.note fl (.seed devices) = { h with seeded := false } := by
      rw [History.note, ← t.index, hKept]
      cases status with
      | ok => exact absurd rfl hStatus
      | _ => rfl
    rw [hNote, hKept]
    exact { t with
      seeded := by simp
      starting := fun _ => hThread
      joining := by simp }
  · have hNote : h.note fl (.seed devices) = { h with info := info, seeded := true, readings := [] } := by
      rw [History.note, ← t.index, hInfo]
    rw [hNote, hInfo]
    exact { t with
      sample := .inl rfl
      pending := by simp [hThread]
      padded := hName
      seeded := fun _ => ⟨hIndex.trans t.index, by simp⟩
      starting := fun _ => hThread
      joining := by simp }

/-- A start asks for its device. Of that one nothing has been obtained yet. -/
theorem Tracks.starts (t : Tracks fl m h) (index : Int) (hThread : m.thread = none) :
    Tracks fl { m with gIndex := index, control := .seeding } (h.note fl (.start true index)) :=
  { t with
    index := rfl
    seeded := by simp [History.note]
    starting := fun _ => hThread
    joining := by simp }

/-- A step keeps the record in line with the history, one case for each kind of effect:
reads of the driver, moves, stores under the lock, seeds and starts. -/
theorem Tracks.step (t : Tracks fl m h) (hStarts : StartsJoined m e) (hStep : step fl m e = some m') :
    Tracks fl m' (h.note fl e) := by
  cases effect_of_step t.running hStep with
  | refuses index => exact t
  | starts index => exact t.starts index (hStarts index rfl)
  | seeds devices hControl => exact t.seeds devices hControl
  | enables hControl =>
      exact { t with
        starting := fun _ => t.starting (.inr (.inl hControl))
        joining := by simp }
  | clashes hControl hThread => simp [t.starting (.inr (.inr hControl))] at hThread
  | spawns hControl => exact { t with pending := by simp, starting := by simp, joining := by simp }
  | stops => exact { t with starting := by simp, joining := fun _ => rfl }
  | joins => exact { t with pending := by simp, starting := by simp, joining := by simp }
  | observes => exact t
  | opens found hThread => exact t.moves hThread (by cases found <;> simp)
  | polls hThread => exact t.moves hThread (by cases m.gRun <;> simp)
  | reads r hThread => exact t.reads r hThread
  | stores s hThread => exact t.stores s hThread
  | wakes hThread => exact t.moves hThread (by simp)

/-- The record is in line with the history after every interleaving that starts the
sampler only when none runs. -/
theorem run_tracks {events : List Event} (run : Run (Nvml.step fl) (.initial fl) events m)
    (hStarts : EveryStep (Nvml.step fl) (.initial fl) StartsJoined events) : Tracks fl m (history fl events) := by
  induction run with
  | nil => exact tracks_initial
  | snoc prior e last ih =>
      obtain ⟨hBefore, hLast⟩ := (everyStep_snoc prior).mp hStarts
      rw [history, List.foldl_append]
      exact (ih hBefore).step hLast last

end Invariant

section Stop

variable {F : Type} {fl : Floats F} {m m' : Monitor F} {e : Event}

def Event.OfSampler : Event → Prop
  | .opened _ | .poll | .read _ | .store | .wake => True
  | _ => False

/-- Steps that a thread still takes once `g_run` is false. -/
def Sampler.remaining : Sampler F → Nat
  | .opening => 2
  | .polling => 1
  | .reading => 4
  | .storing _ => 3
  | .sleeping => 2
  | .ended => 0

/-- The thread while `prl_nvml_stop` waits for it, with so many steps to go at most. -/
structure Winding (m : Monitor F) (steps : Nat) : Prop where
  running : m.terminated = false
  joining : m.control = .joining
  stopped : m.gRun = false
  remaining : ∀ t, m.thread = some t → t.remaining ≤ steps

/-- A step of the thread to where it has fewer steps to go. -/
theorem Winding.advance {steps : Nat} {sampler next : Sampler F} (w : Winding m steps) (sample : PrlDeviceInfo F)
    (hThread : m.thread = some sampler) (hLess : next.remaining < sampler.remaining) :
    ∃ rest, steps = rest + 1 ∧ Winding { m with gSample := sample, thread := some next } rest := by
  have hRemaining : sampler.remaining ≤ steps := w.remaining _ hThread
  refine ⟨steps - 1, by omega, w.running, w.joining, w.stopped, ?_⟩
  rintro s ⟨⟩
  omega

/-- A sampler that was told to stop has one step fewer to go after each of its own
steps. -/
theorem Winding.step {steps : Nat} (w : Winding m steps) (hOf : e.OfSampler) (hStep : step fl m e = some m') :
    ∃ rest, steps = rest + 1 ∧ Winding m' rest := by
  cases effect_of_step w.running hStep with
  | opens found hThread => exact w.advance m.gSample hThread (by cases found <;> simp [Sampler.remaining])
  | polls hThread => exact w.advance m.gSample hThread (by simp [w.stopped, Sampler.remaining])
  | reads r hThread => exact w.advance m.gSample hThread (by simp [Sampler.remaining])
  | stores s hThread => exact w.advance _ hThread (by simp [Sampler.remaining])
  | wakes hThread => exact w.advance m.gSample hThread (by simp [Sampler.remaining])
  | _ => exact hOf.elim

/-- However the thread is scheduled, it ends. -/
theorem Winding.run {steps : Nat} {rest : List Event} (w : Winding m steps) (run : Run (Nvml.step fl) m rest m')
    (hOf : ∀ e ∈ rest, e.OfSampler) : rest.length ≤ steps ∧ Winding m' (steps - rest.length) := by
  induction run with
  | nil => exact ⟨Nat.zero_le _, w⟩
  | @snoc events s s' prior e last ih =>
      obtain ⟨hLength, hWinding⟩ := ih fun e' he' => hOf e' (List.mem_append_left _ he')
      obtain ⟨left, hLeft, hNext⟩ := hWinding.step (hOf e (by simp)) last
      rw [List.length_append, List.length_singleton]
      refine ⟨by omega, ?_⟩
      rwa [show steps - (events.length + 1) = left by omega]

/-- It does not wait for anything either. -/
theorem Winding.next {steps : Nat} (w : Winding m steps) :
    (Nvml.step fl m .join).isSome ∨ ∃ e : Event, e.OfSampler ∧ (Nvml.step fl m e).isSome := by
  have hStep (e : Event) : Nvml.step fl m e = (stepControl fl m e).or (stepSampler fl m e) := by
    rw [Nvml.step, w.running, if_neg Bool.false_ne_true]
  simp only [hStep]
  cases hThread : m.thread with
  | none => exact .inl (by simp [stepControl, w.joining, hThread])
  | some t =>
      cases t with
      | opening => exact .inr ⟨.opened true, trivial, by simp [stepControl, stepSampler, hThread]⟩
      | polling => exact .inr ⟨.poll, trivial, by simp [stepControl, stepSampler, hThread]⟩
      | reading =>
          exact .inr ⟨.read ⟨none, none, none, none, none⟩, trivial, by simp [stepControl, stepSampler, hThread]⟩
      | storing s => exact .inr ⟨.store, trivial, by simp [stepControl, stepSampler, hThread]⟩
      | sleeping => exact .inr ⟨.wake, trivial, by simp [stepControl, stepSampler, hThread]⟩
      | ended => exact .inl (by simp [stepControl, w.joining, hThread])

end Stop

section Samples

variable {F : Type} {fl : Floats F}

/-- The fields that the thread does not sample. -/
def PrlDeviceInfo.statics (info : PrlDeviceInfo F) : List Byte × Int × Int × Nat × Int :=
  (info.name, info.ccMajor, info.ccMinor, info.totalMemBytes, info.smemPerBlockOptin)

/-- The fields that never change during a run are those of the last start. -/
theorem Tracks.statics {m : Monitor F} {h : History F} (t : Tracks fl m h) : m.gSample.statics = h.info.statics := by
  rcases t.sample with hSeed | ⟨p, -, hSample⟩
  · rw [hSeed]
  · rw [hSample]
    simp [PrlDeviceInfo.statics, preserve, t.padded]

/-- A sample published after a seed that was obtained carries the index of the device
asked for. -/
theorem Tracks.sample_index {m : Monitor F} {h : History F} (t : Tracks fl m h) (hSeeded : h.seeded = true) :
    m.gSample.index = m.gIndex := by
  obtain ⟨hIndex, hReadings⟩ := t.seeded hSeeded
  rcases t.sample with hSeed | ⟨p, hp, hSample⟩
  · rw [hSeed, hIndex, t.index]
  · rw [hSample, t.index]
    exact hReadings p hp

/-- From every place of its loop the sampler is at most four steps from its end. -/
theorem remaining_le (t : Sampler F) : t.remaining ≤ 4 := by
  cases t <;> simp [Sampler.remaining]

/-- If every start finds the last thread joined, then in every interleaving of the calls
and the sampling thread the process is not terminated, `prl_nvml_sample` returns the
sample of the seed or that of one iteration of the loop since it, as a whole, with the
static fields of the seed, of the device that was asked for if the seed was obtained, and
`prl_nvml_stop` returns after four steps of the thread at the latest. -/
theorem nvml_samples_whole (fl : Floats F) (events : List Event) (m : Monitor F)
    (run : Run (step fl) (.initial fl) events m)
    (hStarts : EveryStep (step fl) (.initial fl) StartsJoined events) :
    m.terminated = false ∧
    (history fl events).Explains fl m.gSample ∧
    m.gSample.statics = (history fl events).info.statics ∧
    ((history fl events).seeded = true → m.gSample.index = m.gIndex) ∧
    (m.control = .joining → ∀ rest m', Run (step fl) m rest m' → (∀ e ∈ rest, e.OfSampler) →
      rest.length ≤ 4 ∧
      ((step fl m' .join).isSome ∨ ∃ e : Event, e.OfSampler ∧ (step fl m' e).isSome)) := by
  have t := run_tracks run hStarts
  refine ⟨t.running, t.sample, t.statics, t.sample_index, fun hJoining rest m' winding hOf => ?_⟩
  have w : Winding m 4 := ⟨t.running, hJoining, t.joining hJoining, fun s _ => remaining_le s⟩
  obtain ⟨hLength, hWinding⟩ := w.run winding hOf
  exact ⟨hLength, hWinding.next⟩

/-- One iteration, and a stop during the sleep. -/
def oneIteration : List Event :=
  [.start true 0, .seed ⟨some 1, fun _ => some ⟨[82, 84, 88], 8, 6, 1024, 1695000, 9751000⟩, fun _ => 101376⟩,
    .enable, .spawn, .opened true, .poll, .read ⟨some 61, some 84, some 350000, some 1800, none⟩, .store,
    .observe, .stop]

def wholeWatts : Floats Int := ⟨0, id, fun mw => mw / 1000⟩

/-- One start and one iteration on a driver that answers publish a sample of device 0 with
the compute capability that was read. -/
theorem nvml_samples_whole_one : ∃ m, Run (step wholeWatts) (.initial wholeWatts) oneIteration m ∧
    m.gSample.index = 0 ∧ m.gSample.ccMajor = 8 := by
  have hIndex : (oneIteration.foldlM (step wholeWatts) (.initial wholeWatts)).map Monitor.gIndex = some 0 := by
    decide +kernel
  obtain ⟨m, hEnd, hZero⟩ := Option.map_eq_some_iff.mp hIndex
  have run := run_iff_foldlM.mpr hEnd
  have hStarts : EveryStep (step wholeWatts) (.initial wholeWatts) StartsJoined oneIteration := by
    intro before e after s hEvents prior index hStart
    cases before with
    | nil =>
        rw [prior.unique .nil]
        rfl
    | cons first before =>
        have hMem : e ∈ oneIteration.tail := by simp [hEvents]
        simp [oneIteration, hStart] at hMem
  obtain ⟨-, -, hStatics, hSeeded, -⟩ := nvml_samples_whole wholeWatts oneIteration m run hStarts
  exact ⟨m, run, (hSeeded rfl).trans hZero, congrArg (fun statics => statics.2.1) hStatics⟩

end Samples

end Cuda.Nvml
