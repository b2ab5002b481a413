import PrlMiner.Cuda.ContextRuns

/-! A batch through the captured graph against single keyed runs. The latch on
`found_attempt` keeps the first winner. -/
namespace Cuda

open FixedWidth LittleEndian ParallelWrites Search Reference

/-- A scan emits a winner exactly below the number of sub-tiles. -/
theorem kPowScanEmit_found (transcripts : Buffer U32) (m n r th tw : Nat) (best : Int) (out : ScanOut) :
    (kPowScanEmit transcripts m n r th tw best out).found =
      if best ≥ totalTiles m n r th tw then 0 else 1 := by
  rw [kPowScanEmit]
  by_cases hBest : best ≥ totalTiles m n r th tw
  · rw [if_pos hBest, if_pos hBest]
  · rw [if_neg hBest, if_neg hBest]

/-- Without a winner or behind another one the emission changes nothing. Otherwise
it is that of a single run. -/
theorem kPowScanEmitBatch_eq (transcripts : Buffer U32) (m n r th tw : Nat) (best : Int) (i : Nat)
    (foundAttempt : Int) (out : ScanOut) :
    kPowScanEmitBatch transcripts m n r th tw best i foundAttempt out =
      if (kPowScanEmit transcripts m n r th tw best out).found = 1 ∧ foundAttempt = sentinel then
        ((i : Int), kPowScanEmit transcripts m n r th tw best out)
      else (foundAttempt, out) := by
  rw [kPowScanEmit_found, kPowScanEmitBatch]
  by_cases hBest : best ≥ totalTiles m n r th tw
  · rw [if_pos hBest, if_pos hBest, if_neg (fun h => by cases h.1)]
  · rw [if_neg hBest, if_neg hBest, kPowScanEmit, if_neg hBest]
    by_cases hLatch : foundAttempt = sentinel
    · rw [if_neg (fun h => h hLatch), if_pos ⟨rfl, hLatch⟩, atomicCAS, if_pos hLatch]
    · rw [if_pos hLatch, if_neg (fun h => hLatch h.2), atomicCAS, if_neg hLatch]

/-- The outputs are those of the first of `i` attempts that found something. -/
def Latched (single : Nat → MineResult) (i : Nat) (foundAttempt : Int) (res : MineResult) : Prop :=
  (∃ j < i, (single j).found = 1 ∧ (∀ x < j, (single x).found = 0) ∧ foundAttempt = j ∧ res = single j) ∨
  (∀ j < i, (single j).found = 0) ∧ foundAttempt = sentinel ∧ res.found = 0 ∧ res.aRow = -1 ∧ res.bCol = -1

theorem MineResult.Agrees.eq_of_found {a b : MineResult} (h : a.Agrees b) (hFound : a.found = 1) : a = b :=
  MineResult.ext h.found h.aRow h.bCol (h.trOut hFound)

/-- One more attempt. -/
theorem Latched.step {single : Nat → MineResult} {i : Nat} (hIndex : i ≤ sentinel)
    (hSingle : (single i).found = 0 ∨ (single i).found = 1) {foundAttempt : Int} {out : ScanOut}
    (hLatched : Latched single i foundAttempt (readBack out)) {transcripts : Buffer U32}
    {m n r th tw : Nat} {best : Int}
    (hEmit : (readBack (kPowScanEmit transcripts m n r th tw best out)).Agrees (single i)) :
    Latched single (i + 1) (kPowScanEmitBatch transcripts m n r th tw best i foundAttempt out).1
      (readBack (kPowScanEmitBatch transcripts m n r th tw best i foundAttempt out).2) := by
  have hFound : (kPowScanEmit transcripts m n r th tw best out).found = (single i).found := hEmit.found
  rw [kPowScanEmitBatch_eq, hFound]
  rcases hLatched with ⟨j, hj, hWins, hBefore, rfl, hRes⟩ | ⟨hBefore, rfl, hRes⟩
  · -- an earlier winner holds the latch
    rw [if_neg (fun h => by omega)]
    exact Or.inl ⟨j, by omega, hWins, hBefore, rfl, hRes⟩
  · rcases hSingle with hLoses | hWins
    · rw [if_neg (fun h => by omega)]
      refine Or.inr ⟨fun j hj => ?_, rfl, hRes⟩
      rcases Nat.lt_succ_iff_lt_or_eq.mp hj with hLt | rfl
      · exact hBefore j hLt
      · exact hLoses
    · rw [if_pos ⟨hWins, rfl⟩]
      exact Or.inl ⟨i, by omega, hWins, hBefore, rfl,
        hEmit.eq_of_found (hEmit.found.trans hWins)⟩

/-- An attempt reports one winner or none. -/
theorem attemptResult_found (A B : Mat I8) (key target : Buffer U32) (m k n r th tw : Nat)
    (trOut : Buffer U32) : (attemptResult A B key target m k n r th tw trOut).found = 0 ∨
      (attemptResult A B key target m k n r th tw trOut).found = 1 := by
  cases hTile : reportedTile A B key target m k n r th tw with
  | none =>
      simp only [attemptResult, hTile]
      exact Or.inl rfl
  | some x =>
      simp only [attemptResult, hTile]
      exact Or.inr rfl

/-- Key `q` of a copied batch. -/
theorem batchKey_eq {keys32 : Buffer Byte} {keys : Buffer U32} {count q : Nat} (hq : q < count)
    (hKeys : ∀ x < count * 8, keys x = asWords keys32 x) {x : Nat} (hx : x < 8) :
    offset keys (q * 8) x = asWords (offset keys32 (q * 32)) x := by
  rw [asWords_offset]
  exact hKeys _ (idx_lt hq hx)

/-- The latch over a whole batch, against single runs with its keys on any contexts that
have the same inputs loaded. -/
theorem batch_latches {m k n : Nat} {c c' : PrlMineCtx} {A B : Buffer I8}
    (history : Reached m k n c (some (A, B))) (env : CallEnv) {keysA32 keysB32 target32 : Buffer Byte}
    {count : Nat} (hCount : count ≤ sentinel + 1) {foundAttempt : Int} {res : MineResult}
    (hBatch : prlMineCtxRunKeyedPreloadedBatch env keysA32 keysB32 count target32 c =
      (.ok (foundAttempt, res), c'))
    (cs : Nat → PrlMineCtx) (envs : Nat → CallEnv)
    (histories : ∀ i < count, Reached m k n (cs i) (some (A, B))) :
    Latched (fun i => (prlMineCtxRunKeyedPreloaded (envs i) (offset keysA32 (i * 32))
      (offset keysB32 (i * 32)) target32 (cs i)).1) count foundAttempt res := by
  let single := fun i => (prlMineCtxRunKeyedPreloaded (envs i) (offset keysA32 (i * 32))
    (offset keysB32 (i * 32)) target32 (cs i)).1
  have hInputs := history.holds.1
  obtain ⟨keysA, keysB, ready, hKeysA, hKeysB, hReady, hTarget, -, rfl, rfl, rfl⟩ :=
    batch_spec env history.holds.2 hBatch
  -- after `q` attempts
  have hRun (q : Nat) (hq : q ≤ count) :
      let after := (List.range q).foldl (graphAttempt env.device keysA keysB) (resetOutputs ready)
      Latched single q after.dFoundAttempt (readBack after.out) := by
    induction q with
    | zero => exact Or.inr ⟨fun j hj => by omega, rfl, rfl, rfl, rfl⟩
    | succ q ih =>
        rw [List.range_succ, List.foldl_append]
        generalize hAfter : (List.range q).foldl (graphAttempt env.device keysA keysB) (resetOutputs ready) =
          after at ih
        have hKept := foldl_graphAttempt_kept env.device keysA keysB (List.range q) (resetOutputs ready)
        rw [hAfter] at hKept
        have hAfterInputs : after.inputs.Holds m k n (some (A, B)) := by
          rw [hKept.inputs]
          exact hReady ▸ hInputs
        have hSingle := prlMineCtxRunKeyedPreloaded_eq (envs q) (histories q (by omega)).holds.1
          (offset keysA32 (q * 32)) (offset keysB32 (q * 32)) target32
        have hAttempt := readBack_keyedAttempt (fun j => env.device.schedule (9 * q + j))
          (fun bx by' => env.device.block bx by' q) hAfterInputs (offset keysA32 (q * 32))
          (offset keysB32 (q * 32)) (fun x hx => batchKey_eq (by omega) hKeysA hx)
          (fun x hx => batchKey_eq (by omega) hKeysB hx)
          (fun x hx => (congrFun hKept.target x).trans (hTarget x hx)) after.out
        have hFound : (single q).found = 0 ∨ (single q).found = 1 := by
          rw [show single q = _ from hSingle]
          exact attemptResult_found _ _ _ _ m k n 128 16 16 _
        apply Latched.step (by omega) hFound (ih (by omega))
        rw [show single q = _ from hSingle]
        exact Eq.mpr (congrArg (fun res => MineResult.Agrees res _) hAttempt)
          (attemptResult_agrees _ _ _ _ m k n 128 16 16 _ _)
  exact hRun count (Nat.le_refl _)

/-- A batch finds what single runs with its keys find: the outputs of the first of
them that finds something, or nothing. The single runs may be on any contexts with
the same inputs loaded. The bound is for the latch, whose attempt number has to stay
below `sentinel`; `i * 8` stops being an `int` before that, from `2 ^ 28 + 1` attempts on. -/
theorem batch_eq_singles {m k n : Nat} {c c' : PrlMineCtx} {A B : Buffer I8}
    (history : Reached m k n c (some (A, B))) (env : CallEnv) {keysA32 keysB32 target32 : Buffer Byte}
    {count : Nat} (hCount : count ≤ sentinel + 1) {foundAttempt : Int} {res : MineResult}
    (hBatch : prlMineCtxRunKeyedPreloadedBatch env keysA32 keysB32 count target32 c =
      (.ok (foundAttempt, res), c'))
    (cs : Nat → PrlMineCtx) (envs : Nat → CallEnv)
    (histories : ∀ i < count, Reached m k n (cs i) (some (A, B))) :
    let single := fun i => (prlMineCtxRunKeyedPreloaded (envs i) (offset keysA32 (i * 32))
      (offset keysB32 (i * 32)) target32 (cs i)).1
    (∃ i < count, (single i).found = 1 ∧ (∀ j < i, (single j).found = 0) ∧ foundAttempt = i ∧
        res = single i) ∨
      (∀ i < count, (single i).found = 0) ∧ res.found = 0 ∧ res.aRow = -1 ∧ res.bCol = -1 := by
  rcases batch_latches history env hCount hBatch cs envs histories with hFirst | ⟨hNone, -, hNothing⟩
  · exact Or.inl hFirst
  · exact Or.inr ⟨hNone, hNothing⟩

/-- A batch of two, against single runs on the context it leaves. -/
theorem batch_eq_singles_two : ∃ c c' foundAttempt res,
    prlMineCtxRunKeyedPreloadedBatch default (fun x => BitVec.ofNat 8 x) (fun _ => 6) 2 (fun _ => 255) c =
      (.ok (foundAttempt, res), c') ∧
    (foundAttempt = 0 ∨ foundAttempt = 1 ∨ res.found = 0) := by
  obtain ⟨c₀, hCreate⟩ : ∃ c, prlMineCtxCreate default 128 128 128 = some c := ⟨_, rfl⟩
  have hLoaded : Reached 128 128 128 (prlMineCtxSetInputs (fun _ => 3) (fun _ => 4) c₀)
      (some (fun _ => 3, fun _ => 4)) :=
    .call (.create hCreate) default (.setInputs (fun _ => 3) (fun _ => 4)) rfl
  obtain ⟨foundAttempt, res, c', hBatch⟩ : ∃ foundAttempt res c', prlMineCtxRunKeyedPreloadedBatch
      default (fun x => BitVec.ofNat 8 x) (fun _ => 6) 2 (fun _ => 255)
      (prlMineCtxSetInputs (fun _ => 3) (fun _ => 4) c₀) = (.ok (foundAttempt, res), c') := by
    cases Option.some.inj hCreate
    exact ⟨_, _, _, rfl⟩
  have hAfter : Reached 128 128 128 c' (some (fun _ => 3, fun _ => 4)) :=
    .call hLoaded default (.runKeyedPreloadedBatch (fun x => BitVec.ofNat 8 x) (fun _ => 6) 2 (fun _ => 255))
      (by rw [Op.perform, hBatch])
  refine ⟨_, c', foundAttempt, res, hBatch, ?_⟩
  rcases batch_eq_singles hLoaded default (by decide) hBatch (fun _ => c') (fun _ => default)
    (fun _ _ => hAfter) with ⟨i, hi, -, -, rfl, -⟩ | ⟨-, hNone, -⟩
  · omega
  · exact Or.inr (Or.inr hNone)

end Cuda
