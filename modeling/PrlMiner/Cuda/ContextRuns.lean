import PrlMiner.Cuda.KeyBatch

/-! Runs of calls on one context. Of the calls before it, an attempt depends on
the inputs they loaded and on nothing else. -/
namespace Cuda

open FixedWidth LittleEndian ParallelWrites Search Reference

/-- The calls on a context. -/
inductive Op where
  | setInputs (A B : Buffer I8)
  | run (A B EAL EAR EBL EBR : Buffer I8) (key32 target32 : Buffer Byte)
  | runKeyed (A B : Buffer I8) (keyA32 keyB32 target32 : Buffer Byte)
  | runKeyedPreloaded (keyA32 keyB32 target32 : Buffer Byte)
  | runKeyedPreloadedBatch (keysA32 keysB32 : Buffer Byte) (count : Nat) (target32 : Buffer Byte)

/-- What a call hands out. -/
inductive Reply where
  | loaded
  | single (res : MineResult)
  | batch (foundAttempt : Int) (res : MineResult)

def Op.perform (env : CallEnv) (c : PrlMineCtx) : Op → Except Nat (Reply × PrlMineCtx)
  | .setInputs A B => .ok (.loaded, prlMineCtxSetInputs A B c)
  | .run A B EAL EAR EBL EBR key32 target32 =>
      let (res, c) := prlMineCtxRun env A B EAL EAR EBL EBR key32 target32 c
      .ok (.single res, c)
  | .runKeyed A B keyA32 keyB32 target32 =>
      let (res, c) := prlMineCtxRunKeyed env A B keyA32 keyB32 target32 c
      .ok (.single res, c)
  | .runKeyedPreloaded keyA32 keyB32 target32 =>
      let (res, c) := prlMineCtxRunKeyedPreloaded env keyA32 keyB32 target32 c
      .ok (.single res, c)
  | .runKeyedPreloadedBatch keysA32 keysB32 count target32 =>
      match prlMineCtxRunKeyedPreloadedBatch env keysA32 keysB32 count target32 c with
      | (.ok (foundAttempt, res), c) => .ok (.batch foundAttempt res, c)
      | (.error rc, _) => .error rc

/-- The inputs a call loads. -/
def Op.loads : Op → Option (Buffer I8 × Buffer I8)
  | .setInputs A B => some (A, B)
  | .run A B _ _ _ _ _ _ => some (A, B)
  | .runKeyed A B _ _ _ => some (A, B)
  | .runKeyedPreloaded _ _ _ => none
  | .runKeyedPreloadedBatch _ _ _ _ => none

/-- Contexts after a sequence of calls that all succeeded, with the inputs loaded last. -/
inductive Reached (m k n : Nat) : PrlMineCtx → Option (Buffer I8 × Buffer I8) → Prop where
  | create {d : Device} {c : PrlMineCtx} (h : prlMineCtxCreate d m k n = some c) : Reached m k n c none
  | call {c c' : PrlMineCtx} {loaded : Option (Buffer I8 × Buffer I8)} {reply : Reply}
      (prior : Reached m k n c loaded) (env : CallEnv) (op : Op)
      (h : op.perform env c = .ok (reply, c')) : Reached m k n c' (op.loads.or loaded)

/-- What an attempt reads that earlier calls left. -/
structure Inputs where
  m : Nat
  k : Nat
  n : Nat
  dA : Buffer I8
  dB : Buffer I8
  dSA : Buffer U32
  dSB : Buffer U32

def PrlMineCtx.inputs (c : PrlMineCtx) : Inputs := ⟨c.m, c.k, c.n, c.dA, c.dB, c.dSA, c.dSB⟩

/-- The sizes, the loaded matrices and the seeds are in place. -/
structure Inputs.Holds (i : Inputs) (m k n : Nat) (loaded : Option (Buffer I8 × Buffer I8)) : Prop where
  sizes : i.m = m ∧ i.k = k ∧ i.n = n
  dims : Mod128 m k n
  matrixA : ∀ A B, loaded = some (A, B) → ∀ r < m, ∀ c < k, matrixOf k i.dA r c = matrixOf k A r c
  matrixB : ∀ A B, loaded = some (A, B) → ∀ r < k, ∀ c < n, matrixOf n i.dB r c = matrixOf n B r c
  seedA : ∀ x < 8, i.dSA x = wordAt NoiseGenerator.seedA x
  seedB : ∀ x < 8, i.dSB x = wordAt NoiseGenerator.seedB x

/-- The noise of two keys in the reference, laid out as a host passes it. -/
def hostNoise (keyA keyB : Bytes 32) (m k n : Nat) : NoiseBuffers :=
  let E := referenceNoise keyA keyB m k n
  ⟨flat 128 E.E_AL, flat k E.E_AR, flat 128 E.E_BL, flat n E.E_BR⟩

/-- What the launches of a graph leave alone. -/
structure Kept (c c' : PrlMineCtx) : Prop where
  inputs : c'.inputs = c.inputs
  target : c'.dTgt = c.dTgt
  graph : c.GraphInv → c'.GraphInv

theorem Kept.refl (c : PrlMineCtx) : Kept c c := ⟨rfl, rfl, id⟩

theorem Kept.trans {c₁ c₂ c₃ : PrlMineCtx} (h : Kept c₁ c₂) (h' : Kept c₂ c₃) : Kept c₁ c₃ :=
  ⟨h'.inputs.trans h.inputs, h'.target.trans h.target, fun hInv => h'.graph (h.graph hInv)⟩

/-- One attempt of a batch writes the noise, the scratch, the latch and the outputs: the
inputs and the target stay as they were. -/
theorem graphAttempt_kept (d : Device) (keysA keysB : Buffer U32) (c : PrlMineCtx) (i : Nat) :
    Kept c (graphAttempt d keysA keysB c i) :=
  ⟨rfl, rfl, fun h => ⟨h.captured, h.apart⟩⟩

theorem foldl_graphAttempt_kept (d : Device) (keysA keysB : Buffer U32) (attempts : List Nat)
    (c : PrlMineCtx) : Kept c (attempts.foldl (graphAttempt d keysA keysB) c) := by
  induction attempts generalizing c with
  | nil => exact Kept.refl c
  | cons i attempts ih => exact (graphAttempt_kept d keysA keysB c i).trans (ih _)

/-- A batch call that gets to its copies has two key buffers and a graph over them. -/
theorem prepareBatch_spec (env : CallEnv) {c c' : PrlMineCtx} (hInv : c.GraphInv) {count : Nat}
    (h : prepareBatch env count c = (0, c')) :
    c'.GraphInv ∧ c'.inputs = c.inputs ∧
      c'.batchGraphExec = some ⟨c'.dKeyBatch, c'.dKeyBBatch, count⟩ := by
  have hEnsure : ∃ ready : PrlMineCtx, ready.GraphInv ∧ ready.inputs = c.inputs ∧
      prlMineCtxBuildBatchGraph env.graphCalls ready count = (0, c') := by
    rw [prepareBatch] at h
    obtain ⟨-, hEq⟩ | ⟨-, -, heap, ptr, -, hEq⟩ | ⟨-, -, heap, p, q, hApart, -, -, hEq⟩ :=
      ensureKeyBatch_cases env.allocator c count
    · rw [hEq] at h
      exact ⟨c, hInv, rfl, h⟩
    · rw [hEq] at h
      cases h
    · rw [hEq] at h
      refine ⟨{ releaseKeyBatch c with
        heap := heap, dKeyBatch := some p, dKeyBBatch := some q, keyBatchCap := count },
        ⟨fun _ hGraph => (nomatch hGraph), ?_⟩, rfl, h⟩
      intro x hx hSame
      exact hApart ((Option.some.inj hx).trans (Option.some.inj hSame).symm)
  obtain ⟨ready, hReady, hInputs, hBuild⟩ := hEnsure
  obtain ⟨⟨hCached, hCount⟩, hEq⟩ | ⟨-, -, graph, hEq⟩ | ⟨-, -, hEq⟩ :=
    buildBatchGraph_cases env.graphCalls ready count
  · rw [hEq] at hBuild
    obtain ⟨-, rfl⟩ := Prod.mk.inj hBuild
    obtain ⟨g, hGraph⟩ := Option.isSome_iff_exists.mp hCached
    refine ⟨hReady, hInputs, ?_⟩
    rw [hGraph, hReady.captured g hGraph, hCount]
  · rw [hEq] at hBuild
    cases hBuild
  · rw [hEq] at hBuild
    obtain ⟨-, rfl⟩ := Prod.mk.inj hBuild
    exact ⟨⟨fun g hGraph => (Option.some.inj hGraph).symm, hReady.apart⟩, hInputs, rfl⟩

/-- Words that were just copied are read back. -/
theorem wordsAt_update {heap : Heap} {p n n' : Nat} {a : Allocation} {src words : Buffer U32}
    (h : wordsAt (Function.update heap p (some { a with words := memcpy a.words src n })) (some p) n' =
      some words) {x : Nat} (hx : x < n) : words x = src x := by
  obtain ⟨_, hPtr, hAt⟩ := Option.bind_eq_some_iff.mp h
  obtain ⟨b, hLive, hIf⟩ := Option.bind_eq_some_iff.mp hAt
  obtain rfl := Option.some.inj hPtr
  rw [Function.update_self] at hLive
  obtain rfl := Option.some.inj hLive
  obtain ⟨-, hWords⟩ := Option.ite_none_right_eq_some.mp hIf
  rw [← Option.some.inj hWords]
  exact memcpy_of_lt hx

/-- A launched batch runs its attempts on the keys it was given. -/
theorem launchBatch_spec (env : CallEnv) {keysA32 keysB32 target32 : Buffer Byte} {count : Nat}
    {c c' : PrlMineCtx} (hInv : c.GraphInv)
    (hGraph : c.batchGraphExec = some ⟨c.dKeyBatch, c.dKeyBBatch, count⟩)
    (h : launchBatch env keysA32 keysB32 count target32 c = some c') :
    ∃ (keysA keysB : Buffer U32) (ready : PrlMineCtx),
      (∀ x < count * 8, keysA x = asWords keysA32 x) ∧ (∀ x < count * 8, keysB x = asWords keysB32 x) ∧
      ready.inputs = c.inputs ∧ (∀ x < 8, ready.dTgt x = asWords target32 x) ∧ ready.GraphInv ∧
      c' = (List.range count).foldl (graphAttempt env.device keysA keysB) (resetOutputs ready) := by
  obtain ⟨heap, hCopyA, h⟩ := Option.bind_eq_some_iff.mp h
  obtain ⟨heap', hCopyB, h⟩ := Option.bind_eq_some_iff.mp h
  obtain ⟨g, hExec, h⟩ := Option.bind_eq_some_iff.mp h
  obtain rfl := Option.some.inj (hGraph.symm.trans hExec)
  obtain ⟨keysA, hKeysA, h⟩ := Option.bind_eq_some_iff.mp h
  obtain ⟨keysB, hKeysB, h⟩ := Option.map_eq_some_iff.mp h
  obtain ⟨p, a, hp, -, rfl⟩ := copyToHeap_some hCopyA
  obtain ⟨q, b, hq, -, rfl⟩ := copyToHeap_some hCopyB
  have hApart : p ≠ q := fun hSame => hInv.apart p hp (hSame ▸ hq)
  refine ⟨keysA, keysB, { c with heap := _, dTgt := memcpy c.dTgt (asWords target32) 8 }, fun x hx => ?_,
    fun x hx => ?_, rfl, fun x hx => memcpy_of_lt hx, ⟨hInv.captured, hInv.apart⟩, h.symm⟩
  · rw [Function.update_comm hApart] at hKeysA
    simp only [hp] at hKeysA
    exact wordsAt_update hKeysA hx
  · simp only [hq] at hKeysB
    exact wordsAt_update hKeysB hx

/-- What a successful batch call did. -/
theorem batch_spec (env : CallEnv) {keysA32 keysB32 target32 : Buffer Byte} {count : Nat}
    {c c' : PrlMineCtx} (hInv : c.GraphInv) {foundAttempt : Int} {res : MineResult}
    (h : prlMineCtxRunKeyedPreloadedBatch env keysA32 keysB32 count target32 c =
      (.ok (foundAttempt, res), c')) :
    ∃ (keysA keysB : Buffer U32) (ready : PrlMineCtx),
      (∀ x < count * 8, keysA x = asWords keysA32 x) ∧ (∀ x < count * 8, keysB x = asWords keysB32 x) ∧
      ready.inputs = c.inputs ∧ (∀ x < 8, ready.dTgt x = asWords target32 x) ∧ ready.GraphInv ∧
      c' = (List.range count).foldl (graphAttempt env.device keysA keysB) (resetOutputs ready) ∧
      foundAttempt = c'.dFoundAttempt ∧ res = readBack c'.out := by
  rw [prlMineCtxRunKeyedPreloadedBatch] at h
  by_cases hCount : count = 0
  · rw [if_pos hCount] at h
    cases h
  rw [if_neg hCount] at h
  cases hPrepare : prepareBatch env count c with
  | mk rc ready =>
      rw [hPrepare] at h
      dsimp only at h
      by_cases hRc : rc = 0
      · rw [hRc] at hPrepare
        rw [if_neg (fun hNe => hNe hRc)] at h
        obtain ⟨hReady, hInputs, hExec⟩ := prepareBatch_spec env hInv hPrepare
        cases hLaunch : launchBatch env keysA32 keysB32 count target32 ready with
        | none =>
            rw [hLaunch] at h
            cases h
        | some after =>
            rw [hLaunch] at h
            cases h
            obtain ⟨keysA, keysB, start, hA, hB, hStart, hTarget, hGraph, hRun⟩ :=
              launchBatch_spec env hReady hExec hLaunch
            exact ⟨keysA, keysB, start, hA, hB, hStart.trans hInputs, hTarget, hGraph, hRun, rfl, rfl⟩
      · rw [if_pos hRc] at h
        cases h

/-- The 32 bytes behind a key pointer. -/
def keyBytes (key32 : Buffer Byte) : Bytes 32 := fun i => key32 i

theorem asWords_keyBytes (key32 : Buffer Byte) {x : Nat} (hx : x < 8) :
    asWords key32 x = wordAt (keyBytes key32) x :=
  leWord_congr fun i hi => (byteAt_of_lt (keyBytes key32) (show 4 * x + i < 32 by omega)).symm

/-- The words of a key or seed copied to the device. -/
theorem memcpy_keyBytes (dst : Buffer U32) (key32 : Buffer Byte) :
    ∀ x < 8, memcpy dst (asWords key32) 8 x = wordAt (keyBytes key32) x :=
  fun _ hx => (memcpy_of_lt hx).trans (asWords_keyBytes key32 hx)

/-- What an attempt on a context hands out. -/
theorem readBack_keyedAttempt (sched : Nat → Scheduler) (block : Nat → Nat → BlockEnv) {m k n : Nat}
    {c : PrlMineCtx} {A B : Buffer I8} (hInputs : c.inputs.Holds m k n (some (A, B)))
    {dKeyA dKeyB target : Buffer U32} (keyA32 keyB32 : Buffer Byte)
    (hKeyA : ∀ x < 8, dKeyA x = asWords keyA32 x) (hKeyB : ∀ x < 8, dKeyB x = asWords keyB32 x)
    (hTarget : ∀ x < 8, c.dTgt x = target x) (out : ScanOut) :
    let after := keyedAttempt sched block dKeyA dKeyB c
    let noise := hostNoise (keyBytes keyA32) (keyBytes keyB32) m k n
    readBack (kPowScanEmit after.work.dTr c.m c.n 128 16 16 (after.work.dBest 0) out) =
      attemptResult (noisedA k A noise) (noisedB n B noise) (asWords keyA32) target m k n 128 16 16
        out.trOut := by
  obtain ⟨⟨rfl, rfl, rfl⟩, dims, hA, hB, hSA, hSB⟩ := hInputs
  have hNoise := generateNoise_holds sched (keyBytes keyA32) (keyBytes keyB32) c.inputs.m c.inputs.k
    c.inputs.n c.noise c.dU (fun x hx => (hKeyA x hx).trans (asWords_keyBytes keyA32 hx))
    (fun x hx => (hKeyB x hx).trans (asWords_keyBytes keyB32 hx)) hSA hSB
  refine readBack_mineLaunches dims (fun i => sched (5 + i)) block c.dA c.dB _ c.work out
    (fun i hi j hj => ?_) (fun i hi j hj => ?_) hKeyA hTarget
  · exact addNoise_congr (hA A B rfl i hi j hj)
      (fun x hx => (hNoise.eal i hi x hx).trans (matrixOf_flat _ hx).symm)
      (fun x hx => (hNoise.ear x hx j hj).trans (matrixOf_flat _ hj).symm)
  · exact addNoise_congr (hB A B rfl i hi j hj)
      (fun x hx => (hNoise.ebl i hi x hx).trans (matrixOf_flat _ hx).symm)
      (fun x hx => (hNoise.ebr x hx j hj).trans (matrixOf_flat _ hj).symm)

/-- On a context that holds A and B the preloaded keyed entry is the attempt on these
operands under the noise of the two keys. Of the rest of the context it hands back only
the transcript memory, and that where nothing wins. -/
theorem prlMineCtxRunKeyedPreloaded_eq (env : CallEnv) {m k n : Nat} {c : PrlMineCtx} {A B : Buffer I8}
    (hInputs : c.inputs.Holds m k n (some (A, B))) (keyA32 keyB32 target32 : Buffer Byte) :
    let noise := hostNoise (keyBytes keyA32) (keyBytes keyB32) m k n
    (prlMineCtxRunKeyedPreloaded env keyA32 keyB32 target32 c).1 =
      attemptResult (noisedA k A noise) (noisedB n B noise) (asWords keyA32) (asWords target32) m k n 128
        16 16 c.out.trOut :=
  readBack_keyedAttempt env.device.schedule (fun bx by' => env.device.block bx by' 0)
    (c := { c with
      dKey := memcpy c.dKey (asWords keyA32) 8
      dKeyB := memcpy c.dKeyB (asWords keyB32) 8
      dTgt := memcpy c.dTgt (asWords target32) 8 }) hInputs keyA32 keyB32
    (fun _ hx => memcpy_of_lt hx) (fun _ hx => memcpy_of_lt hx) (fun _ hx => memcpy_of_lt hx) c.out

/-- The load of new inputs. -/
theorem setInputs_holds {m k n : Nat} {c : PrlMineCtx} {loaded : Option (Buffer I8 × Buffer I8)}
    (hInputs : c.inputs.Holds m k n loaded) (A B : Buffer I8) :
    (prlMineCtxSetInputs A B c).inputs.Holds m k n (some (A, B)) := by
  obtain ⟨⟨rfl, rfl, rfl⟩, dims, -, -, hSA, hSB⟩ := hInputs
  refine ⟨⟨rfl, rfl, rfl⟩, dims, ?_, ?_, hSA, hSB⟩
  · rintro _ _ ⟨rfl, rfl⟩ r hr x hx
    exact matrixOf_memcpy _ _ hr hx
  · rintro _ _ ⟨rfl, rfl⟩ r hr x hx
    exact matrixOf_memcpy _ _ hr hx

/-- A created context holds the seeds, and nothing is loaded. -/
theorem create_holds {d : Device} {m k n : Nat} {c : PrlMineCtx} (h : prlMineCtxCreate d m k n = some c) :
    c.inputs.Holds m k n none ∧ c.GraphInv := by
  obtain ⟨hDims, hEq⟩ := Option.ite_none_left_eq_some.mp h
  obtain rfl := Option.some.inj hEq
  refine ⟨⟨⟨rfl, rfl, rfl⟩, ⟨?_, ?_, ?_⟩, fun _ _ h => (nomatch h), fun _ _ h => (nomatch h),
    memcpy_keyBytes _ hsa, memcpy_keyBytes _ hsb⟩,
    ⟨fun _ h => (nomatch h), fun _ h => (nomatch h)⟩⟩
  all_goals omega

/-- What every sequence of calls keeps. -/
theorem Reached.holds {m k n : Nat} {c : PrlMineCtx} {loaded : Option (Buffer I8 × Buffer I8)}
    (history : Reached m k n c loaded) : c.inputs.Holds m k n loaded ∧ c.GraphInv := by
  induction history with
  | create h => exact create_holds h
  | @call c c' loaded reply prior env op h ih =>
      obtain ⟨hInputs, hGraph⟩ := ih
      cases op with
      | setInputs A B =>
          obtain ⟨-, rfl⟩ := Prod.mk.inj (Except.ok.inj h)
          exact ⟨setInputs_holds hInputs A B, hGraph.captured, hGraph.apart⟩
      | run A B EAL EAR EBL EBR key32 target32 =>
          obtain ⟨-, rfl⟩ := Prod.mk.inj (Except.ok.inj h)
          exact ⟨setInputs_holds hInputs A B, hGraph.captured, hGraph.apart⟩
      | runKeyed A B keyA32 keyB32 target32 =>
          obtain ⟨-, rfl⟩ := Prod.mk.inj (Except.ok.inj h)
          exact ⟨setInputs_holds hInputs A B, hGraph.captured, hGraph.apart⟩
      | runKeyedPreloaded keyA32 keyB32 target32 =>
          obtain ⟨-, rfl⟩ := Prod.mk.inj (Except.ok.inj h)
          exact ⟨hInputs, hGraph.captured, hGraph.apart⟩
      | runKeyedPreloadedBatch keysA32 keysB32 count target32 =>
          rw [Op.perform] at h
          cases hBatch : prlMineCtxRunKeyedPreloadedBatch env keysA32 keysB32 count target32 c with
          | mk outcome after =>
              rw [hBatch] at h
              cases outcome with
              | error rc => cases h
              | ok found =>
                  obtain ⟨-, rfl⟩ := Prod.mk.inj (Except.ok.inj h)
                  obtain ⟨keysA, keysB, ready, -, -, hReady, -, hReadyInv, rfl, -, -⟩ :=
                    batch_spec env hGraph hBatch
                  have hKept := foldl_graphAttempt_kept env.device keysA keysB (List.range count)
                    (resetOutputs ready)
                  refine ⟨?_, hKept.graph ⟨hReadyInv.captured, hReadyInv.apart⟩⟩
                  rw [hKept.inputs]
                  exact hReady ▸ hInputs

/-- The noise, key and target of a single run, as a host would pass them. -/
structure Request where
  noise : NoiseBuffers
  key32 : Buffer Byte
  target32 : Buffer Byte

def Op.request (m k n : Nat) : Op → Option Request
  | .setInputs _ _ => none
  | .run _ _ EAL EAR EBL EBR key32 target32 => some ⟨⟨EAL, EAR, EBL, EBR⟩, key32, target32⟩
  | .runKeyed _ _ keyA32 keyB32 target32 =>
      some ⟨hostNoise (keyBytes keyA32) (keyBytes keyB32) m k n, keyA32, target32⟩
  | .runKeyedPreloaded keyA32 keyB32 target32 =>
      some ⟨hostNoise (keyBytes keyA32) (keyBytes keyB32) m k n, keyA32, target32⟩
  | .runKeyedPreloadedBatch _ _ _ _ => none

/-- Results that agree, on the transcript words where one was found. -/
structure MineResult.Agrees (a b : MineResult) : Prop where
  found : a.found = b.found
  aRow : a.aRow = b.aRow
  bCol : a.bCol = b.bCol
  trOut : a.found = 1 → a.trOut = b.trOut

/-- Only the words that an attempt without a winner leaves alone can differ. -/
theorem attemptResult_agrees (A B : Mat I8) (key target : Buffer U32) (m k n r th tw : Nat)
    (trOut trOut' : Buffer U32) : (attemptResult A B key target m k n r th tw trOut).Agrees
      (attemptResult A B key target m k n r th tw trOut') := by
  cases hTile : reportedTile A B key target m k n r th tw with
  | none =>
      simp only [attemptResult, hTile]
      exact ⟨rfl, rfl, rfl, fun h => by cases h⟩
  | some x =>
      simp only [attemptResult, hTile]
      exact ⟨rfl, rfl, rfl, fun _ => rfl⟩

end Cuda
