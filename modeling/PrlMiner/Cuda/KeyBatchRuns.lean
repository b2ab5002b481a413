import PrlMiner.Cuda.KeyBatch
import PrlMiner.Library.Runs

/-! Batch calls on one context, with allocations and graph calls that may fail. The
capacity is that of buffers which a failed growth has freed. -/
namespace Cuda

open FixedWidth LittleEndian ParallelWrites Runs

variable {env : CallEnv} {heap heap' : Heap} {c c' start : PrlMineCtx} {count : Nat} {ptr : Option Nat}
  {keysA32 keysB32 target32 : Buffer Byte}

structure BatchCall where
  env : CallEnv
  keysA32 : Buffer Byte
  keysB32 : Buffer Byte
  count : Int
  target32 : Buffer Byte

/-- The context after a call, also one that fails. No count below 1 gets past the check. -/
def batchStep (c : PrlMineCtx) (call : BatchCall) : Option PrlMineCtx :=
  some (prlMineCtxRunKeyedPreloadedBatch call.env call.keysA32 call.keysB32 call.count.toNat call.target32 c).2

/-- The bytes of the allocation behind a pointer. -/
def capacity (heap : Heap) (ptr : Option Nat) : Nat := ((ptr.bind heap).map Allocation.bytes).getD 0

/-- `key_batch_cap` does not exceed the capacity of either buffer. -/
def CapacityHolds (c : PrlMineCtx) : Prop :=
  c.keyBatchCap * 32 ≤ capacity c.heap c.dKeyBatch ∧ c.keyBatchCap * 32 ≤ capacity c.heap c.dKeyBBatch

/-- The graph that is launched has exactly `count` attempts on the key buffers, which
are live and large enough. -/
structure LaunchConsistent (c : PrlMineCtx) (count : Nat) : Prop where
  keysA : Live c.heap c.dKeyBatch (count * 32)
  keysB : Live c.heap c.dKeyBBatch (count * 32)
  graph : c.batchGraphExec = some ⟨c.dKeyBatch, c.dKeyBBatch, count⟩
  cap : CapacityHolds c

/-- A call that gets past the growth and the capture launches a consistent graph. -/
def LaunchesConsistently (c : PrlMineCtx) (call : BatchCall) : Prop :=
  call.count.toNat ≠ 0 → ∀ ready, prepareBatch call.env call.count.toNat c = (0, ready) →
    LaunchConsistent ready call.count.toNat

/-- A growth of buffers that have a capacity finds the room. -/
def GrowsInFull (c : PrlMineCtx) (call : BatchCall) : Prop :=
  c.keyBatchCap < call.count.toNat → 0 < c.keyBatchCap → GrowthFits call.env.allocator c call.count.toNat

def PrlMineCtx.Buffered (c : PrlMineCtx) : Prop := c.dKeyBatch.isSome ∧ c.dKeyBBatch.isSome

/-- A call within the capacity that has a graph finds both buffers. -/
def FindsBuffers (c : PrlMineCtx) (call : BatchCall) : Prop :=
  call.count.toNat ≠ 0 → call.count.toNat ≤ c.keyBatchCap →
    c.Cached call.count.toNat ∨ call.env.graphCalls.succeed → c.Buffered

/-- What every call keeps: a key buffer that is there is large enough. -/
structure PrlMineCtx.KeyBatchInv (c : PrlMineCtx) : Prop where
  graph : c.GraphInv
  keysA : c.dKeyBatch.isSome → Live c.heap c.dKeyBatch (c.keyBatchCap * 32)
  keysB : c.dKeyBBatch.isSome → Live c.heap c.dKeyBBatch (c.keyBatchCap * 32)

theorem Live.isSome {bytes : Nat} (h : Live heap ptr bytes) : ptr.isSome = true := by
  obtain ⟨p, a, rfl, -, -⟩ := h
  rfl

theorem Live.le_capacity {bytes : Nat} (h : Live heap ptr bytes) : bytes ≤ capacity heap ptr := by
  obtain ⟨p, a, rfl, hHeap, hBytes⟩ := h
  simpa [capacity, hHeap] using hBytes

theorem isSome_of_capacity (h : 0 < capacity heap ptr) : ptr.isSome = true := by
  cases ptr with
  | none => cases h
  | some p => rfl

/-- A capacity of zero needs no buffers. -/
theorem PrlMineCtx.KeyBatchInv.capacity_iff (hInv : c.KeyBatchInv) :
    CapacityHolds c ↔ (0 < c.keyBatchCap → c.Buffered) := by
  constructor
  · intro ⟨hA, hB⟩ hCap
    have hBytes : 0 < c.keyBatchCap * 32 := by omega
    exact ⟨isSome_of_capacity (hBytes.trans_le hA), isSome_of_capacity (hBytes.trans_le hB)⟩
  · intro h
    rcases Nat.eq_zero_or_pos c.keyBatchCap with hZero | hPos
    · rw [CapacityHolds, hZero]
      simp
    · exact ⟨(hInv.keysA (h hPos).1).le_capacity, (hInv.keysB (h hPos).2).le_capacity⟩

/-- What happens behind the growth leaves the key buffers alone. -/
structure SameKeys (c c' : PrlMineCtx) : Prop where
  keysA : c'.dKeyBatch = c.dKeyBatch
  keysB : c'.dKeyBBatch = c.dKeyBBatch
  cap : c'.keyBatchCap = c.keyBatchCap
  inv : c.KeyBatchInv → c'.KeyBatchInv

theorem SameKeys.refl (c : PrlMineCtx) : SameKeys c c := ⟨rfl, rfl, rfl, id⟩

theorem SameKeys.trans {c'' : PrlMineCtx} (h : SameKeys c c') (h' : SameKeys c' c'') : SameKeys c c'' :=
  ⟨h'.keysA.trans h.keysA, h'.keysB.trans h.keysB, h'.cap.trans h.cap, fun hInv => h'.inv (h.inv hInv)⟩

theorem SameKeys.buffered_iff (h : SameKeys c c') : c'.Buffered ↔ c.Buffered := by
  rw [PrlMineCtx.Buffered, PrlMineCtx.Buffered, h.keysA, h.keysB]

/-- A step that keeps the two pointers and the recorded capacity keeps the capacity
condition, since the invariant tells the sizes on both sides. -/
theorem SameKeys.capacity_iff (h : SameKeys c c') (hInv : c.KeyBatchInv) :
    CapacityHolds c' ↔ CapacityHolds c := by
  rw [hInv.capacity_iff, (h.inv hInv).capacity_iff, h.buffered_iff, h.cap]

/-- Building the graph, successful or not, leaves both key buffers and the recorded
capacity alone. -/
theorem buildBatchGraph_same (calls : GraphCalls) (c : PrlMineCtx) (count : Nat) :
    SameKeys c (prlMineCtxBuildBatchGraph calls c count).2 := by
  obtain ⟨-, hEq⟩ | ⟨-, -, graph, hEq⟩ | ⟨-, -, hEq⟩ := buildBatchGraph_cases calls c count
  all_goals rw [hEq]
  · exact SameKeys.refl c
  · exact ⟨rfl, rfl, rfl, fun h => ⟨⟨nofun, h.graph.apart⟩, h.keysA, h.keysB⟩⟩
  · exact ⟨rfl, rfl, rfl, fun h => ⟨⟨fun g hGraph => (Option.some.inj hGraph).symm, h.graph.apart⟩, h.keysA, h.keysB⟩⟩

/-- Copies change no size. -/
theorem Live.copy {ptr' : Option Nat} {src : Buffer U32} {n bytes : Nat} (h : Live heap ptr bytes)
    (hCopy : copyToHeap heap ptr' src n = some heap') : Live heap' ptr bytes := by
  obtain ⟨p, a, rfl, hHeap, hBytes⟩ := h
  obtain ⟨q, b, rfl, hOther, rfl⟩ := copyToHeap_some hCopy
  by_cases hSame : p = q
  · subst hSame
    rw [hHeap] at hOther
    cases hOther
    exact ⟨p, _, rfl, Function.update_self .., hBytes⟩
  · exact ⟨p, a, rfl, (Function.update_of_ne hSame ..).trans hHeap, hBytes⟩

theorem foldl_graphAttempt_same (d : Device) (keysA keysB : Buffer U32) (attempts : List Nat) (c : PrlMineCtx) :
    SameKeys c (attempts.foldl (graphAttempt d keysA keysB) c) := by
  induction attempts generalizing c with
  | nil => exact SameKeys.refl c
  | cons i attempts ih =>
      have hAttempt : SameKeys c (graphAttempt d keysA keysB c i) :=
        ⟨rfl, rfl, rfl, fun h => ⟨⟨h.graph.captured, h.graph.apart⟩, h.keysA, h.keysB⟩⟩
      exact hAttempt.trans (ih _)

/-- A launch overwrites the words of the key buffers but moves neither pointer and changes
no capacity. -/
theorem launchBatch_same (h : launchBatch env keysA32 keysB32 count target32 c = some c') : SameKeys c c' := by
  obtain ⟨heap, hCopyA, h⟩ := Option.bind_eq_some_iff.mp h
  obtain ⟨heap', hCopyB, h⟩ := Option.bind_eq_some_iff.mp h
  obtain ⟨g, -, h⟩ := Option.bind_eq_some_iff.mp h
  obtain ⟨keysA, -, h⟩ := Option.bind_eq_some_iff.mp h
  obtain ⟨keysB, -, rfl⟩ := Option.map_eq_some_iff.mp h
  have hReady : SameKeys c (resetOutputs { c with heap := heap', dTgt := memcpy c.dTgt (asWords target32) 8 }) :=
    ⟨rfl, rfl, rfl, fun hInv => ⟨⟨hInv.graph.captured, hInv.graph.apart⟩,
      fun hA => ((hInv.keysA hA).copy hCopyA).copy hCopyB,
      fun hB => ((hInv.keysB hB).copy hCopyA).copy hCopyB⟩⟩
  exact hReady.trans (foldl_graphAttempt_same _ _ _ _ _)

/-- A copy writes to what is live, so the same addresses are live after it. -/
theorem copyToHeap_live {src : Buffer U32} {n : Nat} (h : copyToHeap heap ptr src n = some heap') (p : Nat) :
    (heap' p).isSome = (heap p).isSome := by
  obtain ⟨q, a, -, hHeap, rfl⟩ := copyToHeap_some h
  by_cases hSame : p = q
  · rw [hSame, Function.update_self, hHeap]
    rfl
  · rw [Function.update_of_ne hSame]

theorem launchBatch_live (h : launchBatch env keysA32 keysB32 count target32 c = some c') (p : Nat) :
    (c'.heap p).isSome = (c.heap p).isSome := by
  obtain ⟨heap, hCopyA, h⟩ := Option.bind_eq_some_iff.mp h
  obtain ⟨heap', hCopyB, h⟩ := Option.bind_eq_some_iff.mp h
  obtain ⟨g, -, h⟩ := Option.bind_eq_some_iff.mp h
  obtain ⟨keysA, -, h⟩ := Option.bind_eq_some_iff.mp h
  obtain ⟨keysB, -, rfl⟩ := Option.map_eq_some_iff.mp h
  have hAttempts (attempts : List Nat) (s : PrlMineCtx) :
      (attempts.foldl (graphAttempt env.device keysA keysB) s).heap = s.heap := by
    induction attempts generalizing s with
    | nil => rfl
    | cons i attempts ih => exact ih _
  rw [hAttempts]
  exact (copyToHeap_live hCopyB p).trans (copyToHeap_live hCopyA p)

/-- Past the growth and the capture a call leaves the key buffers alone. -/
theorem batch_same (hCount : count ≠ 0) : SameKeys (prepareBatch env count c).2
    (prlMineCtxRunKeyedPreloadedBatch env keysA32 keysB32 count target32 c).2 := by
  rw [prlMineCtxRunKeyedPreloadedBatch, if_neg hCount]
  cases prepareBatch env count c with
  | mk rc ready =>
      dsimp only
      by_cases hRc : rc = 0
      · rw [if_neg (not_not.mpr hRc)]
        cases hLaunch : launchBatch env keysA32 keysB32 count target32 ready with
        | none => exact SameKeys.refl ready
        | some after => exact launchBatch_same hLaunch
      · rw [if_pos hRc]
        exact SameKeys.refl ready

/-- A call within the capacity keeps the buffers. A growth without room keeps the
capacity and one buffer at most, any other has buffers for its count. -/
theorem prepareBatch_cases (env : CallEnv) (c : PrlMineCtx) (count : Nat) :
    (count ≤ c.keyBatchCap ∧
      prepareBatch env count c = prlMineCtxBuildBatchGraph env.graphCalls c count) ∨
    (c.keyBatchCap < count ∧ ¬GrowthFits env.allocator c count ∧ ∃ ready : PrlMineCtx, ready.KeyBatchInv ∧
      ready.keyBatchCap = c.keyBatchCap ∧ ready.dKeyBBatch = none ∧ prepareBatch env count c = (4, ready)) ∨
    (c.keyBatchCap < count ∧ GrowthFits env.allocator c count ∧ ∃ grown : PrlMineCtx, grown.KeyBatchInv ∧
      grown.keyBatchCap = count ∧ grown.Buffered ∧
      prepareBatch env count c = prlMineCtxBuildBatchGraph env.graphCalls grown count) := by
  rw [prepareBatch]
  obtain ⟨hCap, hEq⟩ | ⟨hGrows, hFits, heap, ptr, hLive, hEq⟩ | ⟨hGrows, hFits, heap, p, q, hApart, hA, hB, hEq⟩ :=
    ensureKeyBatch_cases env.allocator c count
  all_goals rw [hEq]
  · exact .inl ⟨hCap, rfl⟩
  · refine .inr (.inl ⟨hGrows, hFits, { releaseKeyBatch c with heap := heap, dKeyBatch := ptr },
      ⟨⟨fun _ h => (nomatch h), fun _ _ h => (nomatch h)⟩, fun hA => ?_, fun h => (nomatch h)⟩, rfl, rfl, rfl⟩)
    exact (hLive hA).mono (Nat.mul_le_mul_right 32 hGrows.le)
  · refine .inr (.inr ⟨hGrows, hFits, { releaseKeyBatch c with
      heap := heap, dKeyBatch := some p, dKeyBBatch := some q, keyBatchCap := count },
      ⟨⟨fun _ h => (nomatch h), ?_⟩, fun _ => hA, fun _ => hB⟩, rfl, ⟨rfl, rfl⟩, rfl⟩)
    rintro _ ⟨⟩ hSame
    exact hApart (Option.some.inj hSame).symm

/-- The capacity holds after a call exactly where no growth of it failed. -/
theorem batch_capacity (env : CallEnv) (keysA32 keysB32 target32 : Buffer Byte) (count : Nat) (hInv : c.KeyBatchInv) :
    let after := (prlMineCtxRunKeyedPreloadedBatch env keysA32 keysB32 count target32 c).2
    after.KeyBatchInv ∧ (CapacityHolds c → (CapacityHolds after ↔
      (c.keyBatchCap < count → 0 < c.keyBatchCap → GrowthFits env.allocator c count))) := by
  intro after
  by_cases hZero : count = 0
  · have hAfter : after = c := congrArg Prod.snd (if_pos hZero)
    rw [hAfter]
    exact ⟨hInv, fun hCap => iff_of_true hCap fun hGrows => absurd hGrows (by omega)⟩
  have hSame : SameKeys (prepareBatch env count c).2 after := batch_same hZero
  obtain ⟨hCap, hEq⟩ | ⟨hGrows, hFits, ready, hReady, hKeptCap, hNone, hEq⟩ |
    ⟨hGrows, hFits, grown, hGrown, -, hBuffered, hEq⟩ := prepareBatch_cases env c count
  all_goals rw [hEq] at hSame
  · have hAll := (buildBatchGraph_same env.graphCalls c count).trans hSame
    refine ⟨hAll.inv hInv, fun hHolds => ?_⟩
    rw [hAll.capacity_iff hInv]
    exact iff_of_true hHolds fun hGrows => absurd hGrows (Nat.not_lt.mpr hCap)
  · refine ⟨hSame.inv hReady, fun _ => ?_⟩
    rw [hSame.capacity_iff hReady, hReady.capacity_iff, hKeptCap, PrlMineCtx.Buffered, hNone]
    simp [hGrows, hFits]
  · have hAll := (buildBatchGraph_same env.graphCalls grown count).trans hSame
    refine ⟨hAll.inv hGrown, fun _ => ?_⟩
    rw [hAll.capacity_iff hGrown, hGrown.capacity_iff]
    exact iff_of_true (fun _ => hBuffered) fun _ _ => hFits

/-- Every live allocation is one of the key buffers. -/
def PrlMineCtx.Tidy (c : PrlMineCtx) : Prop :=
  ∀ p, (c.heap p).isSome → c.dKeyBatch = some p ∨ c.dKeyBBatch = some p

/-- Once both key buffers are freed nothing is live. -/
theorem PrlMineCtx.Tidy.released (h : c.Tidy) (p : Nat) : (releaseKeyBatch c).heap p = none := by
  have hFree (heap : Heap) (ptr : Option Nat) : (ptr = some p → cudaFree heap ptr p = none) ∧
      (ptr ≠ some p → cudaFree heap ptr p = heap p) := by
    cases ptr with
    | none => exact ⟨nofun, fun _ => rfl⟩
    | some q =>
        refine ⟨?_, fun hOther => Function.update_of_ne (fun hSame => hOther (by rw [hSame])) ..⟩
        rintro ⟨⟩
        exact Function.update_self ..
  change cudaFree (cudaFree c.heap c.dKeyBatch) c.dKeyBBatch p = none
  by_cases hB : c.dKeyBBatch = some p
  · exact (hFree _ _).1 hB
  · rw [(hFree _ _).2 hB]
    by_cases hA : c.dKeyBatch = some p
    · exact (hFree _ _).1 hA
    · rw [(hFree _ _).2 hA]
      by_contra hLive
      exact (h p (Option.isSome_iff_ne_none.mpr hLive)).elim hA hB

/-- A growth keeps the pointers to all that it allocates, also one that finds no room. -/
theorem ensureKeyBatch_tidy (a : Allocator) (count : Nat) (h : c.Tidy) :
    (prlMineCtxEnsureKeyBatch a c count).2.Tidy := by
  rw [prlMineCtxEnsureKeyBatch]
  by_cases hCap : count ≤ c.keyBatchCap
  · rw [if_pos hCap]
    exact h
  rw [if_neg hCap]
  dsimp only
  have hEmpty := h.released
  cases hFirst : cudaMalloc a (releaseKeyBatch c).heap (count * 32) with
  | none =>
      intro p hLive
      rw [hEmpty p] at hLive
      cases hLive
  | some first =>
      obtain ⟨p, heap⟩ := first
      have hOnly (x : Nat) (hLive : (heap x).isSome) : x = p := by
        by_contra hOther
        rw [(cudaMalloc_some hFirst).2.2 x hOther, hEmpty x] at hLive
        cases hLive
      dsimp only
      cases hSecond : cudaMalloc a heap (count * 32) with
      | none => exact fun x hLive => .inl (congrArg some (hOnly x hLive).symm)
      | some second =>
          obtain ⟨q, heap'⟩ := second
          intro x hLive
          change (heap' x).isSome = true at hLive
          by_cases hSame : x = q
          · exact .inr (congrArg some hSame.symm)
          · rw [(cudaMalloc_some hSecond).2.2 x hSame] at hLive
            exact .inl (congrArg some (hOnly x hLive).symm)

theorem prepareBatch_tidy (env : CallEnv) (count : Nat) (h : c.Tidy) : (prepareBatch env count c).2.Tidy := by
  have hGrown := ensureKeyBatch_tidy env.allocator count h
  rw [prepareBatch]
  generalize prlMineCtxEnsureKeyBatch env.allocator c count = grown at hGrown
  obtain ⟨rc, grown⟩ := grown
  dsimp only
  split_ifs
  · exact hGrown
  · obtain ⟨-, hEq⟩ | ⟨-, -, graph, hEq⟩ | ⟨-, -, hEq⟩ := buildBatchGraph_cases env.graphCalls grown count
    all_goals
      rw [hEq]
      exact hGrown

/-- No allocation is lost in a batch, however it ends. -/
theorem batch_tidy (env : CallEnv) (keysA32 keysB32 target32 : Buffer Byte) (count : Nat) (h : c.Tidy) :
    (prlMineCtxRunKeyedPreloadedBatch env keysA32 keysB32 count target32 c).2.Tidy := by
  rw [prlMineCtxRunKeyedPreloadedBatch]
  by_cases hZero : count = 0
  · rw [if_pos hZero]
    exact h
  rw [if_neg hZero]
  have hReady := prepareBatch_tidy env count h
  generalize prepareBatch env count c = prepared at hReady
  obtain ⟨rc, ready⟩ := prepared
  dsimp only
  by_cases hRc : rc ≠ 0
  · rw [if_pos hRc]
    exact hReady
  rw [if_neg hRc]
  cases hLaunch : launchBatch env keysA32 keysB32 count target32 ready with
  | none => exact hReady
  | some after =>
      intro p hLive
      have hSame := launchBatch_same hLaunch
      rw [launchBatch_live hLaunch] at hLive
      rw [hSame.keysA, hSame.keysB]
      exact hReady p hLive

/-- A graph over the key buffers is consistent within the capacity, if there are any. -/
theorem launchConsistent_iff (hInv : c.KeyBatchInv) (hCount : count ≤ c.keyBatchCap)
    (hGraph : c.batchGraphExec = some ⟨c.dKeyBatch, c.dKeyBBatch, count⟩) :
    LaunchConsistent c count ↔ c.Buffered := by
  constructor
  · exact fun h => ⟨h.keysA.isSome, h.keysB.isSome⟩
  · intro h
    have hBytes := Nat.mul_le_mul_right 32 hCount
    exact ⟨(hInv.keysA h.1).mono hBytes, (hInv.keysB h.2).mono hBytes, hGraph, hInv.capacity_iff.mpr fun _ => h⟩

theorem build_launch_iff (calls : GraphCalls) (hInv : c.KeyBatchInv) (hCount : count ≤ c.keyBatchCap) :
    (∀ ready, prlMineCtxBuildBatchGraph calls c count = (0, ready) → LaunchConsistent ready count) ↔
      (c.Cached count ∨ calls.succeed → c.Buffered) := by
  obtain ⟨hCached, hEq⟩ | ⟨hCached, hFails, graph, hEq⟩ | ⟨hCached, hSucceed, hEq⟩ :=
    buildBatchGraph_cases calls c count
  · have hGraph : c.batchGraphExec = some ⟨c.dKeyBatch, c.dKeyBBatch, count⟩ := by
      obtain ⟨g, hSome⟩ := Option.isSome_iff_exists.mp hCached.1
      rw [hSome, hInv.graph.captured g hSome, hCached.2]
    rw [hEq, ← launchConsistent_iff hInv hCount hGraph]
    constructor
    · exact fun h _ => h c rfl
    · rintro h _ ⟨⟩
      exact h (.inl hCached)
  · refine iff_of_true (fun ready h => ?_) fun h => absurd h (not_or.mpr ⟨hCached, hFails⟩)
    rw [hEq] at h
    cases h
  · have hSame := buildBatchGraph_same calls c count
    rw [hEq] at hSame ⊢
    have hReady := launchConsistent_iff (hSame.inv hInv) hCount rfl
    rw [hSame.buffered_iff] at hReady
    rw [← hReady]
    constructor
    · exact fun h _ => h _ rfl
    · rintro h _ ⟨⟩
      exact h (.inr hSucceed)

/-- Under the invariant a call launches consistently exactly when it finds its buffers in
place: the growth and the graph cache are all that can go wrong. -/
theorem launches_iff_finds (hInv : c.KeyBatchInv) (call : BatchCall) :
    LaunchesConsistently c call ↔ FindsBuffers c call := by
  refine imp_congr_right fun _ => ?_
  obtain ⟨hCap, hEq⟩ | ⟨hGrows, -, ready, -, -, -, hEq⟩ | ⟨hGrows, -, grown, hGrown, hFull, hBuffered, hEq⟩ :=
    prepareBatch_cases call.env c call.count.toNat
  all_goals rw [hEq]
  · rw [build_launch_iff _ hInv hCap]
    exact ⟨fun h _ => h, fun h => h hCap⟩
  · refine iff_of_true (fun _ h => ?_) fun hCap => absurd hGrows (Nat.not_lt.mpr hCap)
    exact absurd (congrArg Prod.fst h) (Nat.succ_ne_zero 3)
  · refine iff_of_true ?_ fun hCap => absurd hGrows (Nat.not_lt.mpr hCap)
    exact (build_launch_iff _ hGrown hFull.ge).mpr fun _ => hBuffered

/-- A new context has null key buffers and capacity zero, where the invariant holds. -/
theorem keyBatchInv_create {d : Device} {m k n : Nat} (h : prlMineCtxCreate d m k n = some start) :
    start.KeyBatchInv ∧ start.keyBatchCap = 0 := by
  obtain ⟨-, hEq⟩ := Option.ite_none_left_eq_some.mp h
  obtain rfl := Option.some.inj hEq
  exact ⟨⟨⟨nofun, nofun⟩, nofun, nofun⟩, rfl⟩

/-- The invariant holds after every sequence of batch calls, failed allocations and failed
graph builds included. -/
theorem keyBatchInv_of_run {calls : List BatchCall} (hStart : start.KeyBatchInv)
    (run : Run batchStep start calls c) : c.KeyBatchInv := by
  refine run.invariant PrlMineCtx.KeyBatchInv hStart fun s call s' hInv hStep => ?_
  cases hStep
  exact (batch_capacity call.env call.keysA32 call.keysB32 call.target32 call.count.toNat hInv).1

/-- The capacity behind a growth, and behind one that finds no room. -/
theorem batch_grows (hGrows : c.keyBatchCap < count) :
    let after := (prlMineCtxRunKeyedPreloadedBatch env keysA32 keysB32 count target32 c).2
    (GrowthFits env.allocator c count → after.keyBatchCap = count) ∧
      (¬GrowthFits env.allocator c count → after.keyBatchCap = c.keyBatchCap ∧ after.dKeyBBatch = none) := by
  intro after
  have hSame : SameKeys (prepareBatch env count c).2 after := batch_same (by omega)
  obtain ⟨hCap, -⟩ | ⟨-, hFits, ready, -, hKeptCap, hNone, hEq⟩ | ⟨-, hFits, grown, -, hFull, -, hEq⟩ :=
    prepareBatch_cases env c count
  · omega
  · rw [hEq] at hSame
    exact ⟨fun h => absurd h hFits, fun _ => ⟨hSame.cap.trans hKeptCap, hSame.keysB.trans hNone⟩⟩
  · rw [hEq] at hSame
    have hAll := (buildBatchGraph_same env.graphCalls grown count).trans hSame
    exact ⟨fun _ => hAll.cap.trans hFull, fun h => absurd hFits h⟩

theorem tidy_create {d : Device} {m k n : Nat} (h : prlMineCtxCreate d m k n = some start) : start.Tidy := by
  obtain ⟨-, hEq⟩ := Option.ite_none_left_eq_some.mp h
  obtain rfl := Option.some.inj hEq
  exact nofun

theorem tidy_of_run {calls : List BatchCall} (hStart : start.Tidy) (run : Run batchStep start calls c) : c.Tidy := by
  refine run.invariant PrlMineCtx.Tidy hStart fun s call s' hTidy hStep => ?_
  cases hStep
  exact batch_tidy call.env call.keysA32 call.keysB32 call.target32 call.count.toNat hTidy

/-- The default allocator always has room for two buffers when nothing is live. -/
theorem growthFits_default (h : c.Tidy) (count : Nat) : GrowthFits default c count := by
  have hEmpty : (releaseKeyBatch c).heap = fun _ => none := funext h.released
  refine ⟨0, Function.update (fun _ => none) 0 (some ⟨count * 32, default⟩), ?_, rfl⟩
  rw [hEmpty]
  rfl

/-- The key buffers are what their capacity says, and nothing else is live. -/
structure PrlMineCtx.Sound (c : PrlMineCtx) : Prop where
  inv : c.KeyBatchInv
  tidy : c.Tidy
  capacity : CapacityHolds c

/-- A copy onto a live buffer of enough bytes goes through. -/
theorem Live.copied {n : Nat} (h : Live heap ptr (n * 4)) (src : Buffer U32) :
    ∃ heap', copyToHeap heap ptr src n = some heap' := by
  obtain ⟨p, a, rfl, hHeap, hBytes⟩ := h
  rw [copyToHeap, Option.bind_some, hHeap, Option.bind_some, if_pos hBytes]
  exact ⟨_, rfl⟩

/-- A live buffer of enough bytes can be read word by word. -/
theorem Live.words {n : Nat} (h : Live heap ptr (n * 4)) : ∃ words, wordsAt heap ptr n = some words := by
  obtain ⟨p, a, rfl, hHeap, hBytes⟩ := h
  rw [wordsAt, Option.bind_some, hHeap, Option.bind_some, if_pos hBytes]
  exact ⟨_, rfl⟩

/-- A consistent graph is launched. -/
theorem LaunchConsistent.launches (h : LaunchConsistent c count) (env : CallEnv)
    (keysA32 keysB32 target32 : Buffer Byte) :
    ∃ c', launchBatch env keysA32 keysB32 count target32 c = some c' := by
  have hBytes : count * 8 * 4 = count * 32 := by omega
  have hA := h.keysA
  have hB := h.keysB
  rw [← hBytes] at hA hB
  obtain ⟨heap, hCopyA⟩ := hA.copied (asWords keysA32)
  obtain ⟨heap', hCopyB⟩ := (hB.copy hCopyA).copied (asWords keysB32)
  obtain ⟨keysA, hWordsA⟩ := ((hA.copy hCopyA).copy hCopyB).words
  obtain ⟨keysB, hWordsB⟩ := ((hB.copy hCopyA).copy hCopyB).words
  rw [launchBatch, hCopyA]
  dsimp only [bind, Option.bind]
  rw [hCopyB]
  dsimp only
  rw [h.graph]
  dsimp only
  rw [cudaGraphLaunch, hWordsA, Option.bind_some, hWordsB]
  exact ⟨_, rfl⟩

/-- With the default allocator and graph calls that succeed, a batch returns its outputs. -/
theorem batch_returns (h : c.Sound) (hCount : count ≠ 0) (hAllocator : env.allocator = default)
    (hGraphCalls : env.graphCalls.succeed) (keysA32 keysB32 target32 : Buffer Byte) :
    ∃ res after, prlMineCtxRunKeyedPreloadedBatch env keysA32 keysB32 count target32 c = (.ok res, after) ∧
      after.Sound := by
  have hFits : GrowthFits env.allocator c count := hAllocator ▸ growthFits_default h.tidy count
  have hCapacity := batch_capacity env keysA32 keysB32 target32 count h.inv
  have hSound : (prlMineCtxRunKeyedPreloadedBatch env keysA32 keysB32 count target32 c).2.Sound :=
    ⟨hCapacity.1, batch_tidy env keysA32 keysB32 target32 count h.tidy,
      (hCapacity.2 h.capacity).mpr fun _ _ => hFits⟩
  obtain ⟨ready, hReady⟩ : ∃ ready, prepareBatch env count c = (0, ready) := by
    have hBuild (grown : PrlMineCtx) : ∃ ready, prlMineCtxBuildBatchGraph env.graphCalls grown count = (0, ready) := by
      obtain ⟨-, hEq⟩ | ⟨-, hFails, -⟩ | ⟨-, -, hEq⟩ := buildBatchGraph_cases env.graphCalls grown count
      · exact ⟨_, hEq⟩
      · exact absurd hGraphCalls hFails
      · exact ⟨_, hEq⟩
    obtain ⟨-, hEq⟩ | ⟨-, hNoRoom, -⟩ | ⟨-, -, grown, -, -, -, hEq⟩ := prepareBatch_cases env c count
    · exact hEq ▸ hBuild c
    · exact absurd hFits hNoRoom
    · exact hEq ▸ hBuild grown
  have hLaunches : LaunchesConsistently c ⟨env, keysA32, keysB32, count, target32⟩ :=
    (launches_iff_finds h.inv _).mpr fun _ _ _ => h.inv.capacity_iff.mp h.capacity (by dsimp only at *; omega)
  obtain ⟨c', hLaunch⟩ := (hLaunches hCount ready hReady).launches env keysA32 keysB32 target32
  rw [prlMineCtxRunKeyedPreloadedBatch, if_neg hCount, hReady] at hSound ⊢
  change launchBatch env keysA32 keysB32 count target32 ready = some c' at hLaunch
  dsimp only at hSound ⊢
  rw [if_neg (not_not.mpr rfl), hLaunch] at hSound ⊢
  exact ⟨_, _, rfl, hSound⟩
/-- A new context is sound: with no buffers and capacity zero there is nothing to fall
short of. -/
theorem sound_create {d : Device} {m k n : Nat} (h : prlMineCtxCreate d m k n = some start) : start.Sound := by
  obtain ⟨hInv, hZero⟩ := keyBatchInv_create h
  exact ⟨hInv, tidy_create h, hInv.capacity_iff.mpr fun hPos => absurd hPos (by omega)⟩

def batchOf (env : CallEnv) (count : Int) : BatchCall := ⟨env, fun _ => 5, fun _ => 6, count, fun _ => 255⟩

/-- The capacity and every launch are consistent in a run of batch calls exactly where
no growth of buffers with a capacity fails, and the launches alone exactly where no
call within the capacity finds a buffer gone. -/
theorem key_batch_consistent_iff {d : Device} {m k n : Nat} (hCreate : prlMineCtxCreate d m k n = some start)
    (calls : List BatchCall) :
    (EveryState batchStep start CapacityHolds calls ∧ EveryStep batchStep start LaunchesConsistently calls ↔
      EveryStep batchStep start GrowsInFull calls) ∧
    (EveryStep batchStep start LaunchesConsistently calls ↔ EveryStep batchStep start FindsBuffers calls) := by
  obtain ⟨hStart, hZero⟩ := keyBatchInv_create hCreate
  have hLaunch : EveryStep batchStep start LaunchesConsistently calls ↔ EveryStep batchStep start FindsBuffers calls :=
    everyStep_congr fun _ _ call run => launches_iff_finds (keyBatchInv_of_run hStart run) call
  have hCap : EveryState batchStep start CapacityHolds calls ↔ EveryStep batchStep start GrowsInFull calls := by
    refine everyState_iff_everyStep ?_ (fun _ s call s' run hHolds hStep => ?_)
      (fun _ _ hStep => absurd hStep (Option.some_ne_none _)) calls
    · exact hStart.capacity_iff.mpr fun hPos => absurd hPos (by omega)
    · cases hStep
      exact (batch_capacity call.env call.keysA32 call.keysB32 call.target32 call.count.toNat
        (keyBatchInv_of_run hStart run)).2 hHolds
  refine ⟨?_, hLaunch⟩
  rw [← hCap]
  refine and_iff_left_of_imp fun hHolds => hLaunch.mpr fun before call after s hCalls run => ?_
  -- a capacity that holds has its buffers
  intro hCount hLe _
  have hState := hHolds before (call :: after) s hCalls run
  exact (keyBatchInv_of_run hStart run).capacity_iff.mp hState (by omega)

/-- On one context: two keys, a growth to five, and three keys in the buffers of five. -/
theorem key_batch_consistent_three : ∃ c c₁ c₂, prlMineCtxCreate default 128 128 128 = some c ∧
    Run batchStep c [batchOf default 2] c₁ ∧ c₁.keyBatchCap = 2 ∧
    Run batchStep c [batchOf default 2, batchOf default 5] c₂ ∧ c₂.keyBatchCap = 5 ∧
    EveryState batchStep c CapacityHolds [batchOf default 2, batchOf default 5, batchOf default 3] ∧
    EveryStep batchStep c LaunchesConsistently [batchOf default 2, batchOf default 5, batchOf default 3] := by
  obtain ⟨c, hCreate⟩ : ∃ c, prlMineCtxCreate default 128 128 128 = some c := ⟨_, rfl⟩
  obtain ⟨c₁, hFirst⟩ : ∃ c₁, batchStep c (batchOf default 2) = some c₁ := ⟨_, rfl⟩
  obtain ⟨c₂, hSecond⟩ : ∃ c₂, batchStep c₁ (batchOf default 5) = some c₂ := ⟨_, rfl⟩
  have run₁ : Run batchStep c [batchOf default 2] c₁ := .snoc .nil _ hFirst
  have run₂ : Run batchStep c [batchOf default 2, batchOf default 5] c₂ := .snoc run₁ _ hSecond
  have hTidy := tidy_create hCreate
  have hCap₁ : c₁.keyBatchCap = 2 := by
    cases hFirst
    refine (batch_grows ?_).1 (growthFits_default hTidy 2)
    rw [(keyBatchInv_create hCreate).2]
    decide
  have hCap₂ : c₂.keyBatchCap = 5 := by
    cases hSecond
    refine (batch_grows ?_).1 (growthFits_default (tidy_of_run hTidy run₁) 5)
    rw [hCap₁]
    decide
  have hGrows : EveryStep batchStep c GrowsInFull [batchOf default 2, batchOf default 5, batchOf default 3] := by
    intro before call after s hCalls run _ _
    have hMem : call ∈ [batchOf default 2, batchOf default 5, batchOf default 3] := by simp [hCalls]
    have hEnv : call.env = default := by
      simp only [List.mem_cons, List.not_mem_nil, or_false] at hMem
      rcases hMem with rfl | rfl | rfl <;> rfl
    rw [hEnv]
    exact growthFits_default (tidy_of_run hTidy run) _
  obtain ⟨hStates, hLaunches⟩ := (key_batch_consistent_iff hCreate _).1.mpr hGrows
  exact ⟨c, c₁, c₂, hCreate, run₁, hCap₁, run₂, hCap₂, hStates, hLaunches⟩

/-- There is room for two allocations of 32 bytes, and for none of 64. -/
def oneKey : Allocator where
  malloc heap bytes := if bytes ≤ 32 then Allocator.firstFree.malloc heap bytes else none
  content := Allocator.firstFree.content
  fresh heap bytes p h := Allocator.firstFree.fresh heap bytes p (Option.ite_none_right_eq_some.mp h).2

/-- A batch of one, a batch of two that finds no room, and a batch of one. -/
def staleCalls : List BatchCall :=
  [batchOf ⟨default, oneKey, default⟩ 1, batchOf ⟨default, oneKey, default⟩ 2, batchOf ⟨default, oneKey, default⟩ 1]

/-- The second call leaves a capacity of one without a buffer for the keys of `B`, and the
third launches a graph on it. -/
theorem stale_capacity : ∃ c, prlMineCtxCreate default 128 128 128 = some c ∧
    ¬EveryState batchStep c CapacityHolds staleCalls ∧ ¬EveryStep batchStep c LaunchesConsistently staleCalls := by
  let env : CallEnv := ⟨default, oneKey, default⟩
  obtain ⟨c, hCreate⟩ : ∃ c, prlMineCtxCreate default 128 128 128 = some c := ⟨_, rfl⟩
  obtain ⟨c₁, hFirst⟩ : ∃ c₁, batchStep c (batchOf env 1) = some c₁ := ⟨_, rfl⟩
  obtain ⟨c₂, hSecond⟩ : ∃ c₂, batchStep c₁ (batchOf env 2) = some c₂ := ⟨_, rfl⟩
  have hCap₁ : c₁.keyBatchCap = 1 := by
    cases hFirst
    refine (batch_grows ?_).1 ?_
    · rw [(keyBatchInv_create hCreate).2]
      decide
    · cases Option.some.inj hCreate
      exact ⟨0, _, rfl, rfl⟩
  have hGone : c₂.keyBatchCap = c₁.keyBatchCap ∧ c₂.dKeyBBatch = none := by
    cases hSecond
    refine (batch_grows ?_).2 ?_
    · rw [hCap₁]
      decide
    · rintro ⟨p, heap, hMalloc, -⟩
      cases hMalloc
  have run : Run batchStep c [batchOf env 1, batchOf env 2] c₂ := .snoc (.snoc .nil _ hFirst) _ hSecond
  have hInv := keyBatchInv_of_run (keyBatchInv_create hCreate).1 run
  have hUnbuffered : ¬c₂.Buffered := by
    rw [PrlMineCtx.Buffered, hGone.2]
    exact fun h => nomatch h.2
  refine ⟨c, hCreate, fun h => ?_, fun h => ?_⟩
  · have hHolds := h [batchOf env 1, batchOf env 2] [batchOf env 1] c₂ rfl run
    exact hUnbuffered (hInv.capacity_iff.mp hHolds (by rw [hGone.1, hCap₁]; decide))
  · have hLaunches := h [batchOf env 1, batchOf env 2] (batchOf env 1) [] c₂ rfl run
    exact hUnbuffered ((launches_iff_finds hInv _).mp hLaunches (by decide) (hGone.1.trans hCap₁).ge
      (.inr ⟨rfl, rfl, rfl⟩))

end Cuda
