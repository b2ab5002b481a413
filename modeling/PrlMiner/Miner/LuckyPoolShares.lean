import Mathlib.Data.Finset.Card
import PrlMiner.Miner.LuckyPoolJobs

/-! The accounting of accepted shares. The wait for a reply counts messages by their
text, and replies that `pump` reads are not counted. -/
namespace Miner.LuckyPool

open Python Runs

variable {host : Host} {natt : Nat} {s s' : Live} {e : Event} {events : List Event}

/-- The reply to the request `id` with result true. -/
def acknowledges (id : Nat) : Json → Bool
  | .obj fields =>
      (Fields.get fields (text "id") .null).eq (.int id) &&
        match Fields.get fields (text "result") .null with
        | .bool true => true
        | _ => false
  | _ => false

/-- A reply with result true was read after the request `id`. -/
def answered (history : List Reading) (id : Nat) : Bool :=
  history.any fun r => decide (id ≤ r.lastId) && acknowledges id r.msg

/-- The shares sent whose reply with result true has been read. -/
def Live.acknowledged (s : Live) : Finset Nat :=
  s.submitIds.toFinset.filter fun id => answered s.history id = true

/-- The counter of accepted shares is right. -/
structure Accounted (s : Live) : Prop where
  accepted : s.accepted = s.acknowledged.card
  bounded : s.accepted ≤ s.submitted

/-- The message is the first reply with result true to a share sent. -/
def FirstReply (s : Live) (msg : Json) : Prop :=
  ∃ id ∈ s.submitIds, acknowledges id msg = true ∧ answered s.history id = false

/-- A message is counted exactly when it is the first reply with result true to a
share sent. Only the wait for a reply counts, by the result or by the text. -/
def CountsRight (host : Host) (s : Live) : Event → Prop
  | .reads => ∀ arrival unread msg, s.unread = arrival :: unread → arrival.message = some msg →
      (s.Pumps → ¬FirstReply s msg) ∧
      (∀ sid, s.phase = .waiting sid → (countsAsAccepted host msg = true ↔ FirstReply s msg))
  | _ => True

/-- A message replies to one request, since at most one integer equals its id. -/
theorem acknowledges_inj {id id' : Nat} {msg : Json} (h : acknowledges id msg = true)
    (h' : acknowledges id' msg = true) : id = id' := by
  cases msg with
  | obj fields =>
      rw [acknowledges, Bool.and_eq_true] at h h'
      exact_mod_cast Json.eq_int_inj h.1 h'.1
  | _ => cases h

/-- A message that is read answers the requests that were made before, and no later
ones. -/
theorem answered_append (history : List Reading) (r : Reading) (id : Nat) :
    answered (history ++ [r]) id = (answered history id || decide (id ≤ r.lastId) && acknowledges id r.msg) := by
  rw [answered, List.any_append, List.any_cons, List.any_nil, Bool.or_false]
  rfl

/-- A share has an id that was given out. -/
theorem Consistent.submitId_le (h : Consistent host s) {id : Nat} (hId : id ∈ s.submitIds) :
    id ≤ s.lastId := by
  rw [h.ids, List.mem_map] at hId
  obtain ⟨i, hi, rfl⟩ := hId
  have hLess := List.mem_range.mp hi
  have hLast := h.lastId
  omega

/-- No more shares are acknowledged than were submitted, each having an id of its own. -/
theorem Consistent.card_le (h : Consistent host s) : s.acknowledged.card ≤ s.submitted := by
  have hFilter := Finset.card_filter_le s.submitIds.toFinset (answered s.history · = true)
  have hLength := s.submitIds.toFinset_card_le
  have hIds := congrArg List.length h.ids
  simp only [List.length_map, List.length_range] at hIds
  exact hFilter.trans (hIds ▸ hLength)

/-- The bound on the accepted shares follows from their count, so that only this needs to
be right. -/
theorem Consistent.accounted_iff (h : Consistent host s) :
    Accounted s ↔ s.accepted = s.acknowledged.card :=
  ⟨fun hAccounted => hAccounted.accepted, fun hCard => ⟨hCard, hCard ▸ h.card_le⟩⟩

/-- A message that is read acknowledges the share whose request it replies to, if it says
that this was accepted. -/
theorem Consistent.mem_acknowledged_logged (h : Consistent host s) (unread : List Arrival) (msg : Json)
    (pumped : Bool) (id : Nat) : id ∈ (s.logged unread msg pumped).acknowledged ↔
      id ∈ s.acknowledged ∨ id ∈ s.submitIds ∧ acknowledges id msg = true := by
  simp only [Live.acknowledged, Finset.mem_filter, List.mem_toFinset, Live.logged, Live.submitIds,
    answered_append, Bool.or_eq_true, Bool.and_eq_true, decide_eq_true_eq]
  constructor
  · rintro ⟨hId, hBefore | ⟨-, hReply⟩⟩
    · exact .inl ⟨hId, hBefore⟩
    · exact .inr ⟨hId, hReply⟩
  · rintro (⟨hId, hBefore⟩ | ⟨hId, hReply⟩)
    · exact ⟨hId, .inl hBefore⟩
    · exact ⟨hId, .inr ⟨h.submitId_le hId, hReply⟩⟩

theorem not_mem_acknowledged {id : Nat} (hNew : answered s.history id = false) :
    id ∉ s.acknowledged := by
  intro hMem
  have hOld := (Finset.mem_filter.mp hMem).2
  rw [hNew] at hOld
  cases hOld

/-- A first reply acknowledges one more share, and no other. -/
theorem Consistent.card_of_firstReply (h : Consistent host s) (unread : List Arrival) {msg : Json}
    (pumped : Bool) (hFirst : FirstReply s msg) :
    (s.logged unread msg pumped).acknowledged.card = s.acknowledged.card + 1 := by
  obtain ⟨id, hId, hReply, hNew⟩ := hFirst
  rw [← Finset.card_insert_of_notMem (not_mem_acknowledged hNew)]
  congr 1
  ext id'
  rw [h.mem_acknowledged_logged, Finset.mem_insert, or_comm]
  refine or_congr_left ⟨fun hOther => acknowledges_inj hOther.2 hReply, ?_⟩
  rintro rfl
  exact ⟨hId, hReply⟩

/-- Every other message leaves the acknowledged shares as they are, such as a second reply
to one share. -/
theorem Consistent.card_of_not_firstReply (h : Consistent host s) (unread : List Arrival) {msg : Json}
    (pumped : Bool) (hFirst : ¬FirstReply s msg) :
    (s.logged unread msg pumped).acknowledged.card = s.acknowledged.card := by
  congr 1
  ext id
  rw [h.mem_acknowledged_logged]
  refine or_iff_left_of_imp fun ⟨hId, hReply⟩ => ?_
  cases hOld : answered s.history id with
  | true => exact Finset.mem_filter.mpr ⟨List.mem_toFinset.mpr hId, hOld⟩
  | false => exact absurd ⟨id, hId, hReply, hOld⟩ hFirst

/-- A share that is sent has not been acknowledged yet. -/
theorem Consistent.acknowledged_submit (h : Consistent host s) (job : Job) (proof : Text) :
    (submit job proof s).acknowledged = s.acknowledged := by
  have hNew : answered s.history (s.lastId + 1) = false := by
    rw [answered, List.any_eq_false]
    intro r hr
    have hEarlier := h.earlier r hr
    simp [Nat.not_le.mpr (Nat.lt_succ_of_le hEarlier)]
  ext id
  simp only [Live.acknowledged, Finset.mem_filter, List.mem_toFinset, submit, Live.submitIds,
    List.map_append, List.mem_append, List.map_singleton, List.mem_singleton]
  refine and_congr_left fun hOld => or_iff_left_of_imp ?_
  rintro rfl
  rw [hNew] at hOld
  cases hOld

/-- Pumping counts no share, whatever the message says. -/
theorem pumpMessage_counts (host : Host) (msg : Json) (s : Live) :
    (pumpMessage host msg s).accepted = s.accepted ∧
      (pumpMessage host msg s).acknowledged = s.acknowledged := by
  obtain ⟨status, hEnd⟩ | ⟨_, -, -, hEnd⟩ | ⟨-, hEnd⟩ := pumpMessage_spec host msg s
  · rw [hEnd]
    exact ⟨rfl, rfl⟩
  · rw [hEnd]
    exact ⟨rfl, rfl⟩
  · rw [hEnd]
    exact ⟨rfl, rfl⟩

/-- The counter stays right in a step exactly if the message that it reads, if any, is
counted as it should be. -/
theorem accounted_step (run : LiveRun host natt events s) (hAccounted : Accounted s)
    (hStep : liveStep host natt s e = some s') : Accounted s' ↔ CountsRight host s e := by
  have hConsistent := run.consistent
  have hCard := hAccounted.accepted
  rw [(LiveRun.consistent (run.snoc e hStep)).accounted_iff]
  cases effect_of_step hStep with
  | arrives arrival => exact iff_of_true hCard trivial
  | idles _ phase hQuiet hIdle hStart hRunning =>
      refine iff_of_true hCard ?_
      cases e <;> trivial
  | garbles arrival unread hUnread hMessage =>
      refine iff_of_true hCard fun arrival' unread' msg hUnread' hMessage' => ?_
      cases hUnread.symm.trans hUnread'
      cases hMessage.symm.trans hMessage'
  | starts job hPhase hCur => exact iff_of_true hCard trivial
  | drops job proof hPhase hRolled => exact iff_of_true hCard trivial
  | submits job proof hPhase hSame =>
      refine iff_of_true ?_ trivial
      rw [hConsistent.acknowledged_submit]
      exact hCard
  | pumps arrival unread msg hPumps hUnread hMessage =>
      obtain ⟨hAccepted, hAcknowledged⟩ := pumpMessage_counts host msg (s.logged unread msg true)
      rw [hAccepted, hAcknowledged]
      change s.accepted = _ ↔ _
      by_cases hFirst : FirstReply s msg
      · rw [hConsistent.card_of_firstReply unread true hFirst, hCard]
        refine iff_of_false (Nat.succ_ne_self _).symm fun h => ?_
        exact (h arrival unread msg hUnread hMessage).1 hPumps hFirst
      · rw [hConsistent.card_of_not_firstReply unread true hFirst]
        refine iff_of_true hCard fun arrival' unread' msg' hUnread' hMessage' => ?_
        cases hUnread.symm.trans hUnread'
        cases hMessage.symm.trans hMessage'
        refine ⟨fun _ => hFirst, fun sid hPhase => ?_⟩
        rcases hPumps with hPumps | hPumps <;> cases hPumps.symm.trans hPhase
  | waits sid arrival unread msg hPhase hUnread hMessage =>
      obtain ⟨phase, hEnd, -⟩ := waitMessage_spec host sid arrival.isLast msg (s.logged unread msg false)
      rw [hEnd]
      change s.accepted + _ = (s.logged unread msg false).acknowledged.card ↔ _
      have hCounts : CountsRight host s .reads ↔ (countsAsAccepted host msg = true ↔ FirstReply s msg) := by
        constructor
        · exact fun h => (h arrival unread msg hUnread hMessage).2 sid hPhase
        · intro h arrival' unread' msg' hUnread' hMessage'
          cases hUnread.symm.trans hUnread'
          cases hMessage.symm.trans hMessage'
          refine ⟨fun hPumps => ?_, fun _ _ => h⟩
          rcases hPumps with hPumps | hPumps <;> cases hPumps.symm.trans hPhase
      rw [hCounts]
      by_cases hFirst : FirstReply s msg
      · rw [hConsistent.card_of_firstReply unread false hFirst, hCard]
        cases countsAsAccepted host msg with
        | true => exact iff_of_true rfl (iff_of_true rfl hFirst)
        | false => exact iff_of_false (Nat.succ_ne_self _).symm fun h => nomatch h.mpr hFirst
      · rw [hConsistent.card_of_not_firstReply unread false hFirst, hCard]
        cases countsAsAccepted host msg with
        | true => exact iff_of_false (Nat.succ_ne_self _) fun h => hFirst (h.mp rfl)
        | false => exact iff_of_true rfl (iff_of_false Bool.false_ne_true hFirst)

/-- A read that cannot be taken is of no reading loop, so that nothing is counted
wrong. -/
theorem countsRight_of_stuck (hStuck : liveStep host natt s e = none) : CountsRight host s e := by
  cases e with
  | reads =>
      intro arrival unread msg hUnread hMessage
      dsimp only [liveStep] at hStuck
      rw [hUnread] at hStuck
      dsimp only [readMessage] at hStuck
      rw [hMessage] at hStuck
      refine ⟨fun hPumps => ?_, fun sid hPhase => ?_⟩
      · rcases hPumps with hPhase | hPhase <;> rw [hPhase] at hStuck <;> cases hStuck
      · rw [hPhase] at hStuck
        cases hStuck
  | _ => trivial

/-- All along some events the counter of accepted shares is right exactly when every
message read is counted as it should be. -/
theorem accounting_iff (host : Host) (natt : Nat) (events : List Event) :
    EveryState (liveStep host natt) Live.init Accounted events ↔
      EveryStep (liveStep host natt) Live.init (CountsRight host) events :=
  everyState_iff_everyStep ⟨rfl, le_refl 0⟩
    (fun _ _ _ _ run hAccounted hStep => accounted_step run hAccounted hStep)
    (fun _ _ hStuck => countsRight_of_stuck hStuck) events

/-- A share that the server rejects with a text that mentions `accepted`. -/
def rejectedShare : List Event :=
  [.arrives (notify "a"), .reads, .windowEnds, .enters, .windowEnds, .searched (.confirmed []),
    .arrives (.line (.obj [(text "id", .int 2), (text "result", .bool false),
      (text "error", .str (text "share not accepted"))])), .reads]

theorem rejectedShare_ends : (rejectedShare.foldlM (liveStep plainHost 256) Live.init).map
    (fun s => (s.accepted, s.acknowledged.card)) = some (1, 0) := rfl

/-- A reply that comes after the wait for it. -/
def lateReply : List Event :=
  [.arrives (notify "a"), .reads, .windowEnds, .enters, .windowEnds, .searched (.confirmed []),
    .windowEnds, .enters, .arrives (.line (.obj [(text "id", .int 2), (text "result", .bool true)])), .reads]

theorem lateReply_ends : (lateReply.foldlM (liveStep plainHost 256) Live.init).map
    (fun s => (s.accepted, s.acknowledged.card)) = some (0, 1) := rfl

/-- A rejected share is counted, because the text of the reply mentions `accept`, and a
late reply is not, because it is pumped. -/
theorem accounting_fails :
    ¬EveryState (liveStep plainHost 256) Live.init Accounted rejectedShare ∧
      ¬EveryState (liveStep plainHost 256) Live.init Accounted lateReply := by
  constructor
  · intro h
    obtain ⟨s, hRun, hEnd⟩ := Option.map_eq_some_iff.mp rejectedShare_ends
    obtain ⟨hAccepted, hCard⟩ := Prod.mk.inj hEnd
    have hSame := (h _ [] s (List.append_nil _).symm (run_iff_foldlM.mpr hRun)).accepted
    rw [hAccepted, hCard] at hSame
    cases hSame
  · intro h
    obtain ⟨s, hRun, hEnd⟩ := Option.map_eq_some_iff.mp lateReply_ends
    obtain ⟨hAccepted, hCard⟩ := Prod.mk.inj hEnd
    have hSame := (h _ [] s (List.append_nil _).symm (run_iff_foldlM.mpr hRun)).accepted
    rw [hAccepted, hCard] at hSame
    cases hSame

end Miner.LuckyPool
