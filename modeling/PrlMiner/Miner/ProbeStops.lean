import PrlMiner.Miner.PoolProbe

/-! When the probe stops. A challenge ends it, unless the message that carries it has a
key `_error`: `messages` reports a failed `recv` by that key, and the probe goes on. -/
namespace Miner.Probe

open Python Triples
open LuckyPool (Arrival isJobMethod isLinkMessage)

def Action.IsRequest : Action → Prop
  | .sends _ => True
  | .reads _ _ => False

/-- The method of a message, where it is a text. -/
def methodOf : Json → Text
  | .obj fields =>
      match Fields.get fields (text "method") (.str []) with
      | .str method => method
      | _ => []
  | _ => []

/-- A challenge signal: in the method, or a hint in the text. -/
def carriesChallenge (host : Host) (msg : Json) : Bool :=
  (text "pearl.challenge").isPrefixOf (methodOf msg) ||
    challengeHints.any fun h => isInfix h (lower (dumps host.tables msg))

def IsContainer : Json → Prop
  | .obj _ | .arr _ => True
  | _ => False

variable (host : Host)

/-- A message with a challenge signal was read. -/
def Challenged : Action → Prop
  | .reads _ (.line msg) => carriesChallenge host msg = true
  | _ => False

/-- A job with object or array params was captured. -/
def Captured : Action → Prop
  | .reads watchIds (.line (.obj fields)) =>
      isLinkMessage (.obj fields) = some false ∧
        ∃ watched, isWatched watchIds (Fields.get fields (text "id") .null) = some watched ∧
          IsContainer (jobAfter watched fields .null)
  | _ => False

/-- The connection was reported closed. -/
def ReportedClosed : Action → Prop
  | .reads _ .closed => True
  | _ => False

/-- After this no request is to be sent. -/
def Stops (a : Action) : Prop := Challenged host a ∨ Captured a ∨ ReportedClosed a

/-- A challenge that reads as a failed `recv`. -/
def Disguised : Action → Prop
  | .reads _ (.line (.obj fields)) =>
      carriesChallenge host (.obj fields) = true ∧ (Json.obj fields).contains (text "_closed") = some false ∧
        (Json.obj fields).contains (text "_error") = some true
  | _ => False

/-- No request after a stop. -/
def Silent (log : List Action) : Prop := log.Pairwise fun a b => Stops host a → ¬b.IsRequest

/-- The policy of the probe, and what it returns in its three-phase mode. -/
structure Obeys (walletOnly : Bool) (out : Except Halt Nat × World) : Prop where
  silent : Silent host out.2.log
  challenged : walletOnly = false → (∃ a ∈ out.2.log, Challenged host a) → ∀ status, out.1 = .ok status →
    status = 1
  captured : walletOnly = false → (∃ a ∈ out.2.log, Captured a) → (∀ a ∈ out.2.log, ¬Challenged host a) →
    ∀ status, out.1 = .ok status → status = 0

section Logs

variable {host} {log : List Action} {a : Action}

/-- A disguised challenge is a challenge. It is only not seen as one. -/
theorem Disguised.challenged (h : Disguised host a) : Challenged host a := by
  cases a with
  | sends r => exact h
  | reads watchIds arrival =>
      cases arrival with
      | line msg =>
          cases msg with
          | obj fields => exact h.1
          | _ => exact h.elim
      | _ => exact h

theorem forall_snoc {P : Action → Prop} (hOld : ∀ b ∈ log, P b) (hNew : P a) : ∀ b ∈ log ++ [a], P b :=
  List.forall_mem_append.mpr ⟨hOld, List.forall_mem_singleton.mpr hNew⟩

/-- What was not there before has come last, if it has come. -/
theorem exists_last {P : Action → Prop} (hOld : ∀ b ∈ log, ¬P b) (h : ∃ b ∈ log ++ [a], P b) :
    ∃ b ∈ [a], P b := by
  obtain ⟨b, hb, hP⟩ := h
  rcases List.mem_append.mp hb with hMem | hMem
  · exact absurd hP (hOld b hMem)
  · exact ⟨b, hMem, hP⟩

/-- One more action breaks the silence if it is a request and something before it has
stopped the probe. -/
theorem silent_append : Silent host (log ++ [a]) ↔
    Silent host log ∧ ∀ b ∈ log, Stops host b → ¬a.IsRequest := by
  simp [Silent, List.pairwise_append]

theorem silent_reads {watchIds : List Nat} {arrival : Arrival} :
    Silent host (log ++ [.reads watchIds arrival]) ↔ Silent host log := by
  rw [silent_append]
  exact and_iff_left fun _ _ _ h => h

theorem silent_sends {r : Request} :
    Silent host (log ++ [.sends r]) ↔ Silent host log ∧ ∀ b ∈ log, ¬Stops host b := by
  rw [silent_append]
  exact and_congr_right fun _ =>
    ⟨fun h b hb hStops => h b hb hStops trivial, fun h b hb hStops => absurd hStops (h b hb)⟩

end Logs

/-- Nothing has stopped the probe. -/
def Clear (w : World) : Prop := Silent host w.log ∧ ∀ a ∈ w.log, ¬Stops host a

/-- The policy holds so far, and nothing was missed. -/
def Good (w : World) : Prop := Silent host w.log ∧ ∀ a ∈ w.log, ¬Disguised host a

/-- A challenge was missed. -/
def Missed (w : World) : Prop := ∃ a ∈ w.log, Disguised host a

/-- A challenge was missed, and a request followed. -/
def Broken (w : World) : Prop := ¬Silent host w.log ∧ Missed host w

/-- A run that goes no further has obeyed, or had gone wrong before. -/
def Halted (w : World) : Prop := Good host w ∨ Broken host w

/-- Nothing is known that keeps the probe from sending. -/
structure Obs.Open (obs : Obs) : Prop where
  job : isNone obs.job = true
  challenge : obs.challenge = false
  closed : obs.closed = false

/-- What the observations tell of the log. -/
structure Facts (obs : Obs) (log : List Action) : Prop where
  challenged : (∃ a ∈ log, Challenged host a) → obs.challenge = true ∨ (obs.closed = true ∧ isNone obs.job = true)
  captured : (∃ a ∈ log, Captured a) → IsContainer obs.job
  closed : (∃ a ∈ log, ReportedClosed a) → obs.closed = true
  honest : obs.challenge = true → ∃ a ∈ log, Challenged host a

/-- After a loop that reads. -/
def Observed (obs : Obs) (w : World) : Prop :=
  Broken host w ∨ (Good host w ∧ Facts host obs w.log) ∨ (Missed host w ∧ obs.Open)

section Reading

variable {host} {obs obs' : Obs} {fields : Fields} {watchIds : List Nat} {log : List Action} {a : Arrival}

/-- Only `None` is `None`. -/
theorem isNone_iff {v : Json} : isNone v = true ↔ v = .null := by
  cases v <;> simp [isNone]

theorem isNone_of_container {v : Json} (h : IsContainer v) : isNone v = false := by
  cases v <;> simp_all [IsContainer, isNone]

/-- A hint is in the text where a longer one that begins with it is, so that the longer
one adds nothing to the list of hints. -/
theorem isInfix_of_prefix {short long s : Text} (hPrefix : short <+: long) (h : isInfix long s = true) :
    isInfix short s = true := by
  simp only [isInfix, List.any_eq_true, List.isPrefixOf_iff_prefix] at *
  obtain ⟨tail, hTail, hLong⟩ := h
  exact ⟨tail, hTail, hPrefix.trans hLong⟩

/-- The separate test for `challenge_response` adds nothing: a message that meets it
carries a challenge by its text already. -/
theorem challengeSignal_eq {method : Text}
    (hMethod : Fields.get fields (text "method") (.str []) = .str method) :
    challengeSignal host method (.obj fields) = carriesChallenge host (.obj fields) := by
  have hName : methodOf (.obj fields) = method := by rw [methodOf, hMethod]
  rw [challengeSignal, carriesChallenge, hName]
  cases hResponse : isInfix (text "challenge_response") (lower (dumps host.tables (.obj fields))) with
  | false => simp
  | true =>
      have hHint := isInfix_of_prefix (show text "challenge" <+: text "challenge_response" by decide) hResponse
      simp [challengeHints, hHint]

/-- What is observed of a message: whether it carries a challenge, and a job exactly if it
captures one. -/
theorem observe_spec (hOpen : obs.Open) (h : observe host watchIds fields obs = some obs')
    (hLink : isLinkMessage (.obj fields) = some false) :
    obs'.closed = false ∧ obs'.challenge = carriesChallenge host (.obj fields) ∧
      (Captured (.reads watchIds (.line (.obj fields))) ↔ IsContainer obs'.job) := by
  obtain ⟨watched, hWatched, h⟩ := Option.bind_eq_some_iff.mp h
  have hJob := isNone_iff.mp hOpen.job
  split at h
  · rename_i method hMethod
    obtain rfl := Option.some.inj h
    refine ⟨hOpen.closed, ?_, ?_⟩
    · simp only [hOpen.challenge, Bool.false_or]
      exact challengeSignal_eq hMethod
    · simp only [Captured, hLink, hWatched, true_and, Option.some.injEq, exists_eq_left', hJob]
  · cases h

/-- What one action alone makes known. -/
theorem facts_single {b : Action}
    (hChallenged : Challenged host b → obs.challenge = true ∨ (obs.closed = true ∧ isNone obs.job = true))
    (hCaptured : Captured b → IsContainer obs.job) (hClosed : ReportedClosed b → obs.closed = true)
    (hHonest : obs.challenge = true → Challenged host b) : Facts host obs [b] := by
  constructor
  · simpa using hChallenged
  · simpa using hCaptured
  · simpa using hClosed
  · simpa using hHonest

/-- What one read tells is all that is known, where nothing before it has stopped the
probe. -/
theorem facts_append (hClear : ∀ b ∈ log, ¬Stops host b) {b : Action} (h : Facts host obs [b]) :
    Facts host obs (log ++ [b]) where
  challenged := fun hRead => h.challenged (exists_last (fun c hc hOld => hClear c hc (.inl hOld)) hRead)
  captured := fun hRead => h.captured (exists_last (fun c hc hOld => hClear c hc (.inr (.inl hOld))) hRead)
  closed := fun hRead => h.closed (exists_last (fun c hc hOld => hClear c hc (.inr (.inr hOld))) hRead)
  honest := fun hSet => by
    obtain ⟨c, hc, hRead⟩ := h.honest hSet
    exact ⟨c, List.mem_append_right _ hc, hRead⟩

/-- How a loop of `_collect` goes on after a read, from observations that keep nothing
from going on. -/
def ReadSpec (host : Host) (b : Action) : Option (Obs × Bool) → Prop
  | none => ¬Disguised host b
  | some (obs, true) => (¬Disguised host b ∧ Facts host obs [b]) ∨ (Disguised host b ∧ obs.Open)
  | some (obs, false) => ¬Stops host b ∧ obs.Open

theorem not_link {msg : Json} (h : isLinkMessage msg = some false) :
    msg.contains (text "_closed") = some false ∧ msg.contains (text "_error") = some false := by
  obtain ⟨closed, hClosed, h⟩ := Option.bind_eq_some_iff.mp h
  obtain ⟨failed, hFailed, h⟩ := Option.bind_eq_some_iff.mp h
  obtain ⟨rfl, rfl⟩ := Bool.or_eq_false_iff.mp (Option.some.inj h)
  exact ⟨hClosed, hFailed⟩

/-- A disguised challenge is an object with the key `_error` and without `_closed`. -/
theorem Disguised.line {msg : Json} (h : Disguised host (.reads watchIds (.line msg))) :
    (∃ fields, msg = .obj fields) ∧ msg.contains (text "_closed") = some false ∧
      msg.contains (text "_error") = some true := by
  cases msg with
  | obj fields => exact ⟨⟨fields, rfl⟩, h.2⟩
  | _ => exact h.elim

/-- A message that is read as the state of the connection holds no captured job, and a
challenge in it shows as a connection that is closed without a job. -/
theorem facts_link {msg : Json} (hLink : isLinkMessage msg ≠ some false) (hChallenge : obs.challenge = false)
    (h : carriesChallenge host msg = true → obs.closed = true ∧ isNone obs.job = true) :
    Facts host obs [.reads watchIds (.line msg)] := by
  refine facts_single (fun hRead => .inr (h hRead)) (fun hRead => ?_) (fun hRead => hRead.elim) (by simp [hChallenge])
  cases msg with
  | obj fields => exact absurd hRead.1 hLink
  | _ => exact hRead.elim

/-- After a message that is observed, the loop ends at a job or a challenge, and goes on
otherwise. -/
theorem readSpec_observed (hPlain : ¬Disguised host (.reads watchIds (.line (.obj fields))))
    (hClosed : obs.closed = false) (hChallenge : obs.challenge = carriesChallenge host (.obj fields))
    (hCaptured : Captured (.reads watchIds (.line (.obj fields))) ↔ IsContainer obs.job) :
    ReadSpec host (.reads watchIds (.line (.obj fields))) (some (obs, !isNone obs.job || obs.challenge)) := by
  cases hStop : !isNone obs.job || obs.challenge with
  | true =>
      refine .inl ⟨hPlain, facts_single (fun hRead => .inl (hChallenge.trans hRead)) hCaptured.mp
        (fun hRead => hRead.elim) fun h => ?_⟩
      exact hChallenge.symm.trans h
  | false =>
      obtain ⟨hJob, hNone⟩ := Bool.or_eq_false_iff.mp hStop
      rw [Bool.not_eq_false'] at hJob
      refine ⟨fun hStops => ?_, hJob, hNone, hClosed⟩
      rcases hStops with hRead | hRead | hRead
      · have hSet : obs.challenge = true := hChallenge.trans hRead
        simp [hNone] at hSet
      · simp [isNone_of_container (hCaptured.mp hRead)] at hJob
      · exact hRead

/-- Whatever line is read, the loop goes on, ends with what it tells, or ends with a
disguised challenge that it does not see. -/
theorem read_line (hOpen : obs.Open) (msg : Json) :
    ReadSpec host (.reads watchIds (.line msg)) (readMessage host watchIds msg obs) := by
  unfold readMessage
  split
  · rename_i hClosed
    refine .inl ⟨fun h => ?_, facts_link (fun h => ?_) hOpen.challenge fun _ => ⟨rfl, hOpen.job⟩⟩
    · simp [h.line.2.1] at hClosed
    · simp [(not_link h).1] at hClosed
  · rename_i fields hClosed hFailed
    have hLink : isLinkMessage (.obj fields) ≠ some false := fun h => by simp [(not_link h).2] at hFailed
    cases hCarries : carriesChallenge host (.obj fields) with
    | true => exact .inr ⟨⟨hCarries, hClosed, hFailed⟩, hOpen⟩
    | false =>
        have hNot : ¬carriesChallenge host (.obj fields) = true := by simp [hCarries]
        exact .inl ⟨fun h => hNot h.1, facts_link hLink hOpen.challenge fun h => absurd h hNot⟩
  · rename_i fields hClosed hFailed
    have hLink : isLinkMessage (.obj fields) = some false := by simp [isLinkMessage, hClosed, hFailed]
    have hPlain : ¬Disguised host (.reads watchIds (.line (.obj fields))) := fun h => by
      simp [h.line.2.2] at hFailed
    cases hObserve : observe host watchIds fields obs with
    | none => exact hPlain
    | some obs' =>
        obtain ⟨hOpenStill, hChallenge, hCaptured⟩ := observe_spec hOpen hObserve hLink
        exact readSpec_observed hPlain hOpenStill hChallenge hCaptured
  · rename_i hOther _
    exact fun h => hOther _ h.line.2.1 h.line.2.2 h.line.1.choose_spec

/-- The same of everything that can arrive, the end of the connection and lines that are
not UTF-8 included. -/
theorem read_spec (hOpen : obs.Open) (a : Arrival) :
    ReadSpec host (.reads watchIds a) (a.message.bind fun msg => readMessage host watchIds msg obs) := by
  cases a with
  | undecodable => exact id
  | line msg => exact read_line hOpen msg
  | closed =>
      exact .inl ⟨id, facts_single (fun h => h.elim) (fun h => h.elim) (fun _ => rfl)
        (fun h => absurd (hOpen.challenge.symm.trans h) Bool.false_ne_true)⟩
  | failed e =>
      exact .inl ⟨id, facts_single (fun h => h.elim) (fun h => h.elim) (fun h => h.elim)
        (fun h => absurd (hOpen.challenge.symm.trans h) Bool.false_ne_true)⟩

end Reading

section Loops

variable {host} {obs : Obs} {watchIds : List Nat} {log : List Action} {lastId : Nat}

theorem good_of_clear {w : World} (h : Clear host w) : Good host w :=
  ⟨h.1, fun a ha hDisguised => h.2 a ha (.inl hDisguised.challenged)⟩

/-- Where nothing has stopped the probe, nothing is known. -/
theorem facts_of_clear {w : World} (h : Clear host w) (hOpen : obs.Open) : Facts host obs w.log where
  challenged := fun ⟨a, ha, hRead⟩ => absurd (.inl hRead) (h.2 a ha)
  captured := fun ⟨a, ha, hRead⟩ => absurd (.inr (.inl hRead)) (h.2 a ha)
  closed := fun ⟨a, ha, hRead⟩ => absurd (.inr (.inr hRead)) (h.2 a ha)
  honest := fun h => absurd (hOpen.challenge.symm.trans h) Bool.false_ne_true

/-- Reading keeps what has gone wrong: a request that was made after a challenge stays
made. -/
theorem Broken.read {w w' : World} (h : Broken host w) {reads : List Action}
    (hLog : w'.log = w.log ++ reads) : Broken host w' := by
  obtain ⟨hNoise, a, ha, hDisguised⟩ := h
  refine ⟨fun hSilent => hNoise ?_, a, hLog ▸ List.mem_append_left _ ha, hDisguised⟩
  rw [Silent, hLog] at hSilent
  exact (List.pairwise_append.mp hSilent).1

/-- Collecting reads, and sends nothing. -/
theorem collectFrom_log (host : Host) (watchIds : List Nat) (lastId : Nat) (events : List Event)
    (log : List Action) (obs : Obs) :
    ∃ reads, (collectFrom host watchIds lastId events log obs).2.log = log ++ reads := by
  induction events generalizing log obs with
  | nil => exact ⟨[], (List.append_nil log).symm⟩
  | cons e rest ih =>
      cases e with
      | windowEnds => exact ⟨[], (List.append_nil log).symm⟩
      | arrives a =>
          simp only [collectFrom]
          split
          · exact ⟨_, rfl⟩
          · exact ⟨_, rfl⟩
          · rename_i obs' _
            obtain ⟨reads, hReads⟩ := ih (log ++ [.reads watchIds a]) obs'
            exact ⟨.reads watchIds a :: reads, by rw [hReads, List.append_assoc, List.singleton_append]⟩

/-- Collecting ends with all that the messages tell, or with a disguised challenge that
was missed. By induction on what arrives. -/
theorem collectFrom_clear (watchIds : List Nat) (lastId : Nat) (events : List Event)
    (hSilent : Silent host log) (hClear : ∀ b ∈ log, ¬Stops host b) (hOpen : obs.Open) :
    Ends (Observed host) (Halted host) (collectFrom host watchIds lastId events log obs) := by
  induction events generalizing log obs with
  | nil => exact .inl (good_of_clear ⟨hSilent, hClear⟩)
  | cons e rest ih =>
      cases e with
      | windowEnds =>
          have hHere : Clear host ⟨rest, lastId, log⟩ := ⟨hSilent, hClear⟩
          exact .inr (.inl ⟨good_of_clear hHere, facts_of_clear hHere hOpen⟩)
      | arrives a =>
          have hSpec : ReadSpec host (.reads watchIds a) _ := read_spec hOpen a
          have hReads : Silent host (log ++ [.reads watchIds a]) := silent_reads.mpr hSilent
          have hGood (h : ¬Disguised host (.reads watchIds a)) :
              ∀ b ∈ log ++ [.reads watchIds a], ¬Disguised host b :=
            forall_snoc (fun b hb hDisguised => hClear b hb (.inl hDisguised.challenged)) h
          simp only [collectFrom]
          generalize (a.message.bind fun msg => readMessage host watchIds msg obs) = out at hSpec
          match out with
          | none => exact .inl ⟨hReads, hGood hSpec⟩
          | some (obs', true) =>
              rcases hSpec with ⟨hPlain, hFacts⟩ | ⟨hDisguised, hStill⟩
              · exact .inr (.inl ⟨⟨hReads, hGood hPlain⟩, facts_append hClear hFacts⟩)
              · exact .inr (.inr ⟨⟨_, List.mem_append_right _ (List.mem_singleton_self _), hDisguised⟩, hStill⟩)
          | some (obs', false) =>
              exact ih hReads (forall_snoc hClear hSpec.1) hSpec.2

/-- The same from everything that can have happened before, also where the policy has been
broken already. -/
theorem collect_spec (host : Host) (watchIds : List Nat) :
    Triple (fun w => Clear host w ∨ Broken host w) (collect host watchIds) (Observed host) (Halted host) := by
  intro w hw
  rcases hw with hClear | hBroken
  · exact collectFrom_clear watchIds w.lastId w.unread hClear.1 hClear.2 ⟨rfl, rfl, rfl⟩
  · obtain ⟨reads, hReads⟩ := collectFrom_log host watchIds w.lastId w.unread w.log .init
    have hAfter : Broken host (collect host watchIds w).2 := hBroken.read hReads
    generalize collect host watchIds w = out at hAfter
    obtain ⟨result, w'⟩ := out
    cases result with
    | ok obs => exact .inl hAfter
    | error e => exact .inr hAfter

/-- A request is in order where nothing has stopped the probe, and breaks the policy where
a challenge was missed. -/
theorem send_spec (method : String) (params : Json) :
    Triple (fun w => Clear host w ∨ Missed host w) (send host method params)
      (fun _ w => Clear host w ∨ Broken host w) (Halted host) := by
  intro w hw
  have hAfter : Clear host (send host method params w).2 ∨ Broken host (send host method params w).2 := by
    rcases hw with ⟨hSilent, hClear⟩ | ⟨a, ha, hDisguised⟩
    · refine .inl ⟨silent_sends.mpr ⟨hSilent, hClear⟩, forall_snoc hClear fun hStops => ?_⟩
      rcases hStops with hRead | hRead | hRead <;> exact hRead
    · refine .inr ⟨fun h => ?_, a, List.mem_append_left _ ha, hDisguised⟩
      exact (silent_sends.mp h).2 a ha (.inl hDisguised.challenged)
  generalize send host method params w = out at hAfter
  obtain ⟨result, w'⟩ := out
  cases result with
  | ok id => exact hAfter
  | error e => exact hAfter.imp good_of_clear id

/-- Where nothing is known against it, sending is in order or breaks the policy. -/
theorem Observed.clear {w : World} (h : Observed host obs w) (hOpen : obs.Open) : Clear host w ∨ Missed host w := by
  rcases h with hBroken | ⟨hGood, hFacts⟩ | ⟨hMissed, -⟩
  · exact .inr hBroken.2
  · refine .inl ⟨hGood.1, fun a ha hStops => ?_⟩
    rcases hStops with hRead | hRead | hRead
    · rcases hFacts.challenged ⟨a, ha, hRead⟩ with h | ⟨h, -⟩
      · exact absurd (hOpen.challenge.symm.trans h) Bool.false_ne_true
      · exact absurd (hOpen.closed.symm.trans h) Bool.false_ne_true
    · have hJob := isNone_of_container (hFacts.captured ⟨a, ha, hRead⟩)
      exact absurd (hJob.symm.trans hOpen.job) Bool.false_ne_true
    · exact absurd (hOpen.closed.symm.trans (hFacts.closed ⟨a, ha, hRead⟩)) Bool.false_ne_true
  · exact .inr hMissed

end Loops

section Merges

variable {host} {obs obs2 merged : Obs} {log : List Action} {w : World}

/-- Merged into observations that keep nothing from going on, the later ones decide. -/
structure Merges (obs2 merged : Obs) : Prop where
  challenge : merged.challenge = obs2.challenge
  closed : merged.closed = obs2.closed
  container : IsContainer obs2.job → merged.job = obs2.job
  none : isNone obs2.job = true → isNone merged.job = true

theorem isUnset_of_container {v : Json} (h : IsContainer v) : isUnset v = false := by
  cases v with
  | obj fields => rfl
  | arr items => rfl
  | _ => exact h.elim

/-- What the login phase takes over keeps what its own messages tell, -/
theorem mergeLogin_merges (hOpen : obs.Open) : Merges obs2 (obs.mergeLogin obs2) := by
  have hJob : (obs.mergeLogin obs2).job = obs2.job := by simp [Obs.mergeLogin, isUnset, hOpen.job]
  exact ⟨by simp [Obs.mergeLogin, hOpen.challenge], by simp [Obs.mergeLogin, hOpen.closed], fun _ => hJob,
    fun h => hJob ▸ h⟩

/-- and so does what each shape takes over. -/
theorem mergeShape_merges (hOpen : obs.Open) : Merges obs2 (obs.mergeShape obs2) where
  challenge := by simp [Obs.mergeShape, hOpen.challenge]
  closed := by simp [Obs.mergeShape, hOpen.closed]
  container h := by simp [Obs.mergeShape, isUnset_of_container h]
  none h := by simp [Obs.mergeShape, isUnset, h, hOpen.job]

/-- What a log tells is known after the merge, if it was before it. -/
theorem Facts.merge (h : Facts host obs2 log) (hMerge : Merges obs2 merged) : Facts host merged log where
  challenged hRead := by
    rw [hMerge.challenge, hMerge.closed]
    exact (h.challenged hRead).imp id fun h => ⟨h.1, hMerge.none h.2⟩
  captured hRead := by
    rw [hMerge.container (h.captured hRead)]
    exact h.captured hRead
  closed hRead := by
    rw [hMerge.closed]
    exact h.closed hRead
  honest hSet := h.honest (hMerge.challenge.symm.trans hSet)

theorem Observed.merge (h : Observed host obs2 w) (hMerge : Merges obs2 merged) : Observed host merged w := by
  rcases h with hBroken | ⟨hGood, hFacts⟩ | ⟨hMissed, hOpen⟩
  · exact .inl hBroken
  · exact .inr (.inl ⟨hGood, hFacts.merge hMerge⟩)
  · exact .inr (.inr ⟨hMissed, hMerge.none hOpen.job, hMerge.challenge.trans hOpen.challenge,
      hMerge.closed.trans hOpen.closed⟩)

end Merges

section Phases

variable (host : Host) {obs : Obs}

/-- One more request, and what is read after it. The rest may send more only if this
leaves it open. -/
theorem attempt_spec (method : String) (params : Json) (hOpen : obs.Open) {merge : Obs → Obs}
    (hMerge : ∀ obs2, Merges obs2 (merge obs2)) {rest : Obs → Run Obs}
    (hRest : ∀ obs2, Triple (Observed host (merge obs2)) (rest obs2) (Observed host) (Halted host)) :
    Triple (Observed host obs)
      (send host method params >>= fun id => collect host [id] >>= rest) (Observed host) (Halted host) := by
  apply triple_bind ((send_spec method params).pre fun w hw => hw.clear hOpen)
  intro id
  apply triple_bind (collect_spec host [id])
  intro obs2
  exact (hRest obs2).pre fun w hw => hw.merge (hMerge obs2)

/-- The second phase sends a login only where the first has left it open. -/
theorem loginPhase_spec (user : Text) (obs : Obs) :
    Triple (Observed host obs) (loginPhase host user obs) (Observed host) (Halted host) := by
  apply triple_ite
  · intro hPhase
    cases hClosed : obs.closed with
    | true => exact triple_pure fun w hw => hw
    | false =>
        have hOpen : obs.Open := ⟨hPhase.1, hPhase.2.1, hClosed⟩
        exact attempt_spec host _ _ hOpen (fun obs2 => mergeLogin_merges hOpen) fun obs2 =>
          triple_pure fun w hw => hw
  · intro _
    exact triple_pure fun w hw => hw

/-- The shapes are tried one after the other, until one of them is answered. -/
theorem tryShapes_spec (shapes : List Json) (hOpen : obs.Open) :
    Triple (Observed host obs) (tryShapes host shapes obs) (Observed host) (Halted host) := by
  induction shapes generalizing obs with
  | nil => exact triple_pure fun w hw => hw
  | cons shape shapes ih =>
      apply attempt_spec host _ _ hOpen (fun obs2 => mergeShape_merges hOpen)
      intro obs2
      apply triple_ite
      · intro _
        exact triple_pure fun w hw => hw
      · intro hGoesOn
        simp only [not_or, Bool.not_eq_true, Bool.not_eq_false'] at hGoesOn
        exact ih ⟨hGoesOn.1, hGoesOn.2.1, hGoesOn.2.2⟩

theorem shapePhase_spec (address worker user : Text) (obs : Obs) :
    Triple (Observed host obs) (shapePhase host address worker user obs) (Observed host) (Halted host) := by
  apply triple_ite
  · intro hPhase
    exact tryShapes_spec host _ ⟨hPhase.1, hPhase.2.1, hPhase.2.2⟩
  · intro _
    exact triple_pure fun w hw => hw

/-- The three-phase mode, from a connection on which nothing has happened. Its exit code
is that of what it has observed. -/
theorem threePhases_spec (address worker user : Text) :
    Triple (Clear host) (threePhases host address worker user)
      (fun status w => ∃ obs, Observed host obs w ∧ status = verdict obs) (Halted host) := by
  apply triple_bind ((send_spec _ _).pre fun w hw => .inl hw)
  intro subId
  apply triple_bind ((send_spec _ _).pre fun w hw => hw.imp id And.right)
  intro authId
  apply triple_bind (collect_spec host [subId, authId])
  intro obs
  apply triple_bind (loginPhase_spec host user obs)
  intro obs
  apply triple_bind (shapePhase_spec host address worker user obs)
  intro obs
  exact triple_pure fun w hw => ⟨obs, hw, rfl⟩

end Phases

section Wallet

variable {host : Host}

/-- Listening for jobs sends nothing, so that it cannot break the silence. -/
theorem listenFrom_silent (lastId : Nat) (events : List Event) {log : List Action} (hSilent : Silent host log)
    (job : Json) : Silent host (listenFrom lastId events log job).2.log := by
  induction events generalizing log job with
  | nil => exact hSilent
  | cons e rest ih =>
      cases e with
      | windowEnds => exact hSilent
      | arrives a =>
          have hReads : Silent host (log ++ [.reads [] a]) := silent_reads.mpr hSilent
          simp only [listenFrom]
          split
          · exact hReads
          · split
            · exact hReads
            · exact ih hReads _
            · exact hReads

/-- The wallet mode sends its one request before it reads, so that it never breaks the
policy. -/
theorem walletProbe_spec (address worker : Text) :
    Triple (fun w => w.log = []) (walletProbe host address worker) (fun _ w => Silent host w.log)
      (fun w => Silent host w.log) := by
  have hSend : Triple (fun w => w.log = []) (send host "mining.authorize"
      (.obj [(text "wallet", .str address), (text "worker", .str worker), (text "agent", agent)]))
      (fun _ w => Silent host w.log) (fun w => Silent host w.log) := by
    intro w hw
    apply (ends_state (P := fun w : World => Silent host w.log)).mpr
    simp [send, hw, Silent]
  apply triple_bind hSend
  intro _
  have hListen : Triple (fun w => Silent host w.log) listen (fun _ w => Silent host w.log)
      (fun w => Silent host w.log) := fun w hw =>
    (ends_state (P := fun w : World => Silent host w.log)).mpr (listenFrom_silent w.lastId w.unread hw .null)
  apply triple_bind hListen
  intro job w hw
  cases job <;> exact hw

end Wallet

section Arrivals

variable {host : Host} {events : List Event}

/-- What was read has arrived. -/
structure Heard (events : List Event) (w : World) : Prop where
  unread : w.unread ⊆ events
  reads : ∀ watchIds a, .reads watchIds a ∈ w.log → .arrives a ∈ events

/-- What is read next has arrived, and what stays unread as well. -/
theorem heard_reads {rest : List Event} {lastId : Nat} {log : List Action} {watchIds : List Nat} {a : Arrival}
    (h : Heard events ⟨.arrives a :: rest, lastId, log⟩) :
    Heard events ⟨rest, lastId, log ++ [.reads watchIds a]⟩ where
  unread := List.subset_of_cons_subset h.unread
  reads ids b hb := by
    rcases List.mem_append.mp hb with hOld | hNew
    · exact h.reads ids b hOld
    · cases List.mem_singleton.mp hNew
      exact h.unread List.mem_cons_self

theorem send_heard (method : String) (params : Json) :
    Triple (Heard events) (send host method params) (fun _ => Heard events) (Heard events) := by
  intro w hw
  refine ends_state.mpr ⟨hw.unread, fun ids a ha => hw.reads ids a ?_⟩
  simpa [send] using ha

theorem collectFrom_heard (watchIds : List Nat) {lastId : Nat} {rest : List Event} {log : List Action} {obs : Obs}
    (h : Heard events ⟨rest, lastId, log⟩) :
    Heard events (collectFrom host watchIds lastId rest log obs).2 := by
  induction rest generalizing log obs with
  | nil => exact h
  | cons e rest ih =>
      cases e with
      | windowEnds => exact ⟨List.subset_of_cons_subset h.unread, h.reads⟩
      | arrives a =>
          simp only [collectFrom]
          split
          · exact heard_reads h
          · exact heard_reads h
          · exact ih (heard_reads h)

/-- Collecting reads only what arrives. -/
theorem collect_heard (watchIds : List Nat) :
    Triple (Heard events) (collect host watchIds) (fun _ => Heard events) (Heard events) :=
  fun _ hw => ends_state.mpr (collectFrom_heard watchIds hw)

theorem loginPhase_heard (user : Text) (obs : Obs) :
    Triple (Heard events) (loginPhase host user obs) (fun _ => Heard events) (Heard events) := by
  apply triple_ite
  · intro _
    apply triple_ite
    · intro _
      exact triple_pure fun _ hw => hw
    · intro _
      exact triple_bind (send_heard _ _) fun id =>
        triple_bind (collect_heard [id]) fun _ => triple_pure fun _ hw => hw
  · intro _
    exact triple_pure fun _ hw => hw

theorem tryShapes_heard (shapes : List Json) (obs : Obs) :
    Triple (Heard events) (tryShapes host shapes obs) (fun _ => Heard events) (Heard events) := by
  induction shapes generalizing obs with
  | nil => exact triple_pure fun _ hw => hw
  | cons shape shapes ih =>
      apply triple_bind (send_heard _ _)
      intro id
      apply triple_bind (collect_heard [id])
      intro obs2
      exact triple_ite (fun _ => triple_pure fun _ hw => hw) fun _ => ih _

/-- So does the three-phase mode as a whole. -/
theorem threePhases_heard (address worker user : Text) :
    Triple (Heard events) (threePhases host address worker user) (fun _ => Heard events) (Heard events) := by
  apply triple_bind (send_heard _ _)
  intro subId
  apply triple_bind (send_heard _ _)
  intro authId
  apply triple_bind (collect_heard [subId, authId])
  intro obs
  apply triple_bind (loginPhase_heard user obs)
  intro obs
  apply triple_bind (triple_ite (fun _ => tryShapes_heard _ obs) fun _ => triple_pure fun _ hw => hw)
  intro obs
  exact triple_pure fun _ hw => hw

end Arrivals

section Policy

variable (host : Host)

theorem clear_of_nil {w : World} (h : w.log = []) : Clear host w := by
  rw [Clear, h]
  exact ⟨List.Pairwise.nil, by simp⟩

/-- How a run of the three-phase mode that ended so has kept to the policy: exactly if it
has read no disguised challenge. -/
theorem obeys_iff {out : Except Halt Nat × World}
    (h : Ends (fun status w => ∃ obs, Observed host obs w ∧ status = verdict obs) (Halted host) out) :
    Obeys host false out ↔ ∀ a ∈ out.2.log, ¬Disguised host a := by
  obtain ⟨result, w⟩ := out
  have hBroken (hBroken : Broken host w) : Obeys host false (result, w) ↔ ∀ a ∈ w.log, ¬Disguised host a := by
    obtain ⟨hNoise, a, ha, hDisguised⟩ := hBroken
    exact iff_of_false (fun h => hNoise h.silent) fun h => h a ha hDisguised
  cases result with
  | error e =>
      rcases h with hGood | h
      · refine iff_of_true ⟨hGood.1, fun _ _ status hReturn => ?_, fun _ _ _ status hReturn => ?_⟩ hGood.2
        all_goals cases hReturn
      · exact hBroken h
  | ok status =>
      obtain ⟨obs, hObserved, rfl⟩ := h
      rcases hObserved with h | ⟨hGood, hFacts⟩ | ⟨⟨a, ha, hDisguised⟩, hOpen⟩
      · exact hBroken h
      · refine iff_of_true ⟨hGood.1, fun _ hRead status hReturn => ?_, fun _ hRead hNone status hReturn => ?_⟩
          hGood.2
        · cases hReturn
          rcases hFacts.challenged hRead with h | ⟨hClosed, hJob⟩
          · simp [verdict, h]
          · cases hChallenge : obs.challenge with
            | true => simp [verdict, hChallenge]
            | false => simp [verdict, hChallenge, hJob, hClosed]
        · cases hReturn
          have hChallenge : obs.challenge = false := by
            rw [Bool.eq_false_iff]
            intro h
            obtain ⟨a, ha, hChallenged⟩ := hFacts.honest h
            exact hNone a ha hChallenged
          simp [verdict, hChallenge, isNone_of_container (hFacts.captured hRead)]
      · refine iff_of_false (fun h => ?_) fun h => h a ha hDisguised
        have hStatus := h.challenged rfl ⟨a, ha, hDisguised.challenged⟩ (verdict obs) rfl
        simp [verdict, hOpen.challenge, hOpen.job, hOpen.closed] at hStatus

/-- Without a connection nothing is sent, so that the policy holds. -/
theorem obeys_unconnected (walletOnly : Bool) (events : List Event) :
    Obeys host walletOnly (.ok 2, World.init events) := by
  refine ⟨List.Pairwise.nil, fun _ h => ?_, fun _ h => ?_⟩
  all_goals
    obtain ⟨a, ha, _⟩ := h
    exact absurd ha List.not_mem_nil

theorem obeys_wallet (address worker : Text) (events : List Event) :
    Obeys host true (walletProbe host address worker (World.init events)) where
  silent := (ends_state (P := fun w : World => Silent host w.log)).mp (walletProbe_spec address worker _ rfl)
  challenged := fun h => by cases h
  captured := fun h => by cases h

/-- How the three-phase mode ends on events, starting with none read. -/
theorem threePhases_ends (address worker user : Text) (events : List Event) :
    Ends (fun status w => ∃ obs, Observed host obs w ∧ status = verdict obs) (Halted host)
      (threePhases host address worker user (World.init events)) :=
  threePhases_spec host address worker user _ (clear_of_nil host rfl)

/-- Whatever arrives and in whatever order, in both modes: the probe keeps to the
policy if and only if it reads, in its three-phase mode, no challenge in a message
with a key `_error`. -/
theorem probe_stops_iff (walletOnly : Bool) (address worker : Text) (events : List Event) :
    Obeys host walletOnly (probe host walletOnly address worker (World.init events)) ↔
      (walletOnly = false →
        ∀ a ∈ (probe host walletOnly address worker (World.init events)).2.log, ¬Disguised host a) := by
  rw [probe]
  cases host.connects with
  | false => exact iff_of_true (obeys_unconnected host walletOnly events) fun _ a ha => absurd ha List.not_mem_nil
  | true =>
      cases walletOnly with
      | true => exact iff_of_true (obeys_wallet host address worker events) fun h => by cases h
      | false =>
          exact (obeys_iff host (threePhases_ends host address worker _ events)).trans
            ⟨fun h _ => h, fun h => h rfl⟩

/-- A host on which every request goes out. -/
def Host.plain : Host := ⟨⟨fun _ => [], fun _ => false, fun _ => none⟩, fun _ => [], true, fun _ => false⟩

/-- `{"_error": "", "method": "pearl.challenge"}` -/
def challengeWithError : Fields := [(text "_error", .str []), (text "method", .str (text "pearl.challenge"))]

/-- The third phase after it. -/
def loginLog : List Action :=
  [.sends ⟨1, text "mining.subscribe", .arr [agent]⟩,
    .sends ⟨2, text "mining.authorize", .arr [.str [], .str (text "x")]⟩,
    .reads [1, 2] (.line (.obj challengeWithError)),
    .sends ⟨3, text "login", .obj [(text "login", .str []), (text "pass", .str (text "x")), (text "agent", agent)]⟩]

/-- After this challenge the probe tries to log in, which its policy forbids. -/
theorem login_after_challenge :
    let events : List Event := [.arrives (.line (.obj challengeWithError))]
    (probe .plain false [] [] (World.init events)).2.log = loginLog ∧
      Challenged .plain (.reads [1, 2] (.line (.obj challengeWithError))) ∧
      ¬Obeys .plain false (probe .plain false [] [] (World.init events)) := by
  intro events
  have hLog : (probe .plain false [] [] (World.init events)).2.log = loginLog := rfl
  have hChallenge : Challenged .plain (.reads [1, 2] (.line (.obj challengeWithError))) :=
    Bool.or_eq_true_iff.mpr (.inl rfl)
  refine ⟨hLog, hChallenge, fun hObeys => ?_⟩
  have hSilent := hObeys.silent
  rw [hLog, Silent, loginLog] at hSilent
  simp only [List.pairwise_cons] at hSilent
  exact hSilent.2.2.1 _ (List.mem_singleton_self _) (.inl hChallenge) trivial

/-- Where no such message arrives, the policy holds. This is a condition on what the pool
sends alone. -/
theorem probe_stops_of_arrivals (walletOnly : Bool) (address worker : Text) (events : List Event)
    (h : ∀ watchIds a, .arrives a ∈ events → ¬Disguised host (.reads watchIds a)) :
    Obeys host walletOnly (probe host walletOnly address worker (World.init events)) := by
  rw [probe]
  cases host.connects with
  | false => exact obeys_unconnected host walletOnly events
  | true =>
      cases walletOnly with
      | true => exact obeys_wallet host address worker events
      | false =>
          refine (obeys_iff host (threePhases_ends host address worker _ events)).mpr fun a ha hDisguised => ?_
          have hHeard : Heard events (threePhases host address worker
              (if worker.isEmpty then address else address ++ text "." ++ worker) (World.init events)).2 :=
            ends_state.mp (threePhases_heard address worker _ _ ⟨List.Subset.refl events, by simp [World.init]⟩)
          cases a with
          | sends r => exact hDisguised
          | reads watchIds arrival => exact h watchIds arrival (hHeard.reads watchIds arrival ha) hDisguised

end Policy

end Miner.Probe
