import PrlMiner.Miner.BackendReference

/-! The naive and the fused backend against the CPU backend. -/
namespace Miner

open LittleEndian FixedWidth Cuda Reference Search EarlyExit

section Scan

variable {m k n r th tw : Nat} {A A' B B' : Mat I8} {key key' target target' : Buffer U32}

/-- The result of an attempt sees its factors in bounds only, and only eight words of its
key and of its target. -/
theorem attemptResult_eq (shape : TileShape m n r th tw) (hBound : totalTiles m n r th tw ≤ sentinel)
    (hA : ∀ i < m, ∀ c < k, A i c = A' i c) (hB : ∀ c < k, ∀ j < n, B c j = B' c j)
    (hKey : ∀ i < 8, key i = key' i) (hTarget : ∀ i < 8, target i = target' i) (trOut : Buffer U32) :
    attemptResult A B key target m k n r th tw trOut =
      match winner (transcriptsOf A' B' k n r th tw) key' target' m n r th tw with
      | none => noTile 0 trOut
      | some x => tileResult A' B' k n r th tw 1 x := by
  have hTr : HoldsTranscripts (transcriptsOf A B k n r th tw) A' B' m k n r th tw :=
    (holdsTranscripts_transcriptsOf A B m k n r th tw).congr hA hB
  rw [attemptResult, reportedTile_eq_winner hBound, winner_eq shape hTr hKey hTarget]
  cases hWinner : winner (transcriptsOf A' B' k n r th tw) key' target' m n r th tw with
  | none => rfl
  | some x =>
      have hx : x < totalTiles m n r th tw := by
        simpa using List.mem_of_find?_eq_some hWinner
      obtain ⟨hRow, hCol⟩ := powScanIndexToTile_lt shape hx
      dsimp only
      rw [tileResult, tileResult, MineResult.mk.injEq]
      refine ⟨rfl, rfl, rfl, List.map_congr_left fun s hs => ?_⟩
      rw [List.mem_range] at hs
      exact (holdsTranscripts_transcriptsOf A B m k n r th tw _ hRow _ hCol s hs).symm.trans
        (hTr _ hRow _ hCol s hs)

/-- The noise as a host passes it, in buffers of signed bytes, is the noise of the
reference once it is added to the left factor, -/
theorem noisedA_hostNoise (m k n : Nat) (A : Buffer I8) (keyA keyB : Bytes 32) (i : Nat) {c : Nat} (hc : c < k) :
    noisedA k A (hostNoise keyA keyB m k n) i c =
      NoisyGemm.addNoise 128 (matrixOf k A) (referenceNoise keyA keyB m k n).E_AL
        (referenceNoise keyA keyB m k n).E_AR i c :=
  addNoise_congr rfl (fun _ hx => matrixOf_flat (referenceNoise keyA keyB m k n).E_AL hx)
    (fun _ _ => matrixOf_flat (referenceNoise keyA keyB m k n).E_AR hc)

/-- and to the right factor. -/
theorem noisedB_hostNoise (m k n : Nat) (B : Buffer I8) (keyA keyB : Bytes 32) (c : Nat) {j : Nat} (hj : j < n) :
    noisedB n B (hostNoise keyA keyB m k n) c j =
      NoisyGemm.addNoise 128 (matrixOf n B) (referenceNoise keyA keyB m k n).E_BL
        (referenceNoise keyA keyB m k n).E_BR c j :=
  addNoise_congr rfl (fun _ hx => matrixOf_flat (referenceNoise keyA keyB m k n).E_BL hx)
    (fun _ _ => matrixOf_flat (referenceNoise keyA keyB m k n).E_BR hj)

/-- The naive kernels on the noise of the reference find the first winning tile of the
noised product, whatever is left in their scratch memory. -/
theorem prlNaiveRun_hostNoise (d : Device) (views : Nat → Nat → Nat → Naive.ScratchView)
    (shape : TileShape m n 128 th tw) (hChunks : 128 ∣ k) (A B : Buffer I8) (keyA keyB : Bytes 32)
    (powKey32 powTarget32Le : Buffer Byte) :
    let E := referenceNoise keyA keyB m k n
    let noise := hostNoise keyA keyB m k n
    ∃ out, Naive.prlNaiveRun d views A B noise.dEAL noise.dEAR noise.dEBL noise.dEBR m k n 128 th tw powKey32
        powTarget32Le = .ok out ∧
      out.toMineResult =
        match winner (transcriptsOf (NoisyGemm.addNoise 128 (matrixOf k A) E.E_AL E.E_AR)
          (NoisyGemm.addNoise 128 (matrixOf n B) E.E_BL E.E_BR) k n 128 th tw) (asWords powKey32)
          (asWords powTarget32Le) m n 128 th tw with
        | none => noTile 0 (d.mallocU32 3)
        | some x => tileResult (NoisyGemm.addNoise 128 (matrixOf k A) E.E_AL E.E_AR)
            (NoisyGemm.addNoise 128 (matrixOf n B) E.E_BL E.E_BR) k n 128 th tw 1 x := by
  intro E noise
  obtain ⟨out, hOut, hResult, -⟩ := Naive.prlNaiveRun_eq d views shape hChunks A B noise.dEAL noise.dEAR
    noise.dEBL noise.dEBR powKey32 powTarget32Le (fun i _ _ hc => noisedA_hostNoise m k n A keyA keyB i hc)
    (fun c _ _ hj => noisedB_hostNoise m k n B keyA keyB c hj)
  exact ⟨out, hOut, hResult⟩

end Scan

section Fused

open CudaMineBackend hiding init

variable {pk : Packages} {job : MiningJob} {nonce : Int}

/-- A nonce of the fused backend as the reference evaluates it. -/
def referenceAttempt (pk : Packages) (job : MiningJob) (nonce : Int) : Except Raised RunResult := do
  let (keyA, keyB) ← raising (nonceKeys pk job.incompleteHeaderBytes nonce)
  let (A, B) := matrices pk job.incompleteHeaderBytes
  ofReference (CpuBackend.evaluate A B keyA keyB job.target)

/-- What the fused kernel finds for two keys is what the reference finds for the matrices
of the header, the noise of these keys and the target. -/
theorem keyedResult_reports (hRange : pk.InRange) (hdr : List Byte) (keyA keyB : Bytes 32) {target : Nat}
    (hTarget : target < 2 ^ 256) {bytes : Buffer Byte} (hBytes : targetBytes target = .ok bytes) :
    ∃ ref, CpuBackend.evaluate (matrices pk hdr).1 (matrices pk hdr).2 keyA keyB target = .ok ref ∧
      Reports (keyedResult pk hdr keyA keyB bytes) ref := by
  obtain ⟨bytes', hBytes', hWords⟩ := targetBytes_eq hTarget
  obtain rfl : bytes = bytes' := Except.ok.inj (hBytes.symm.trans hBytes')
  have hKey (i : Nat) (_ : i < 8) : asWords (byteAt keyA) i = wordAt keyA i := rfl
  have hScan := attemptResult_eq mineDims.mineShape (by decide)
    (fun i _ _ hc => noisedA_hostNoise M K N (matrices pk hdr).1 keyA keyB i hc)
    (fun c _ _ hj => noisedB_hostNoise M K N (matrices pk hdr).2 keyA keyB c hj) hKey hWords fun _ => 0
  exact evaluate_reports (hRange _) keyA keyB hTarget hScan

/-- The attempt of a nonce on the device is that of the reference. Both derive the keys of
the nonce in the same way. -/
theorem nonceResult_reports (hRange : pk.InRange) {res : MineResult} (h : nonceResult pk job nonce = .ok res) :
    ∃ ref, referenceAttempt pk job nonce = .ok ref ∧ Reports res ref := by
  obtain ⟨⟨keyA, keyB⟩, hKeys, h⟩ := bind_eq_ok.mp h
  obtain ⟨bytes, hBytes, h⟩ := bind_eq_ok.mp h
  obtain rfl := Except.ok.inj h
  obtain ⟨hLow, hHigh⟩ := targetBytes_isOk_iff.mp ⟨bytes, hBytes⟩
  obtain ⟨target, hNat⟩ := Int.eq_ofNat_of_zero_le hLow
  rw [hNat] at hBytes hHigh
  obtain ⟨ref, hRef, hReports⟩ := keyedResult_reports hRange job.incompleteHeaderBytes keyA keyB
    (by exact_mod_cast hHigh) hBytes
  refine ⟨ref, ?_, hReports⟩
  rw [referenceAttempt, hKeys, hNat]
  dsimp only [raising, Except.mapError, bind, Except.bind]
  rw [hRef]
  rfl

end Fused

section Naive

variable {pk : Packages} {env : NaiveEnv} {job : MiningJob} {attempt : Int}

/-- The two searches found the same: nothing, or the same tile with the same
transcript. The CPU backend lists every row and column of the tile in its proof. -/
structure SameSearch (pk : Packages) (cpu : CpuResult) (naive : NaiveSearchResult) : Prop where
  found : naive.found = cpu.found
  work : naive.workUnits = cpu.workUnits
  attempt : naive.detail.attempt = cpu.detail.attempt
  missed : cpu.found = false → cpu.plainProof = none ∧ naive.plainProof = none ∧ cpu.detail.tile = none ∧
    naive.detail.tile = none
  opened : cpu.found = true → ∃ (ob : OpenedBlock) (row col : Nat),
    cpu.plainProof = some (CpuBackend.plainProof pk ob) ∧
    naive.plainProof = some (CudaNaiveBackend.plainProof pk ⟨1, row, col, ob.transcript_words⟩) ∧
    cpu.detail.tile = some ([row], [col]) ∧ naive.detail.tile = some ((row : Int), (col : Int))

/-- The draw of an attempt raises exactly where eight bytes do not hold the attempt. -/
theorem draw_isOk_iff (pk : Packages) (job : MiningJob) {attempt : Int} :
    (∃ drawn, CpuBackend.draw pk job attempt = .ok drawn) ↔ 0 ≤ attempt ∧ attempt < 2 ^ 64 := by
  have hPow : (2 ^ 64 : Int) = 256 ^ 8 := by norm_num
  rw [hPow, ← toBytesLittle_isOk_iff, CpuBackend.draw]
  cases Python.toBytesLittle 8 attempt with
  | error e => exact iff_of_false (by rintro ⟨_, h⟩; cases h) (by rintro ⟨_, h⟩; cases h)
  | ok bytes => exact iff_of_true ⟨_, rfl⟩ ⟨_, rfl⟩

theorem draw_drawn (hRange : pk.InRange) {A B : Buffer I8} {keyA keyB : Bytes 32}
    (h : CpuBackend.draw pk job attempt = .ok ((A, B), keyA, keyB)) : DrawnInRange A B := by
  obtain ⟨nonce, -, h⟩ := bind_eq_ok.mp h
  obtain ⟨hMatrices, -⟩ := Prod.mk.inj (Except.ok.inj h)
  have hDrawn := hRange (ofDigits 8 (byteAt (pk.blake3 (job.incompleteHeaderBytes ++ nonce))))
  rwa [hMatrices] at hDrawn

/-- `NaiveCuda.run` on the noise of the reference reports what an evaluation finds, where
no call to CUDA fails. -/
theorem naiveCudaRun_reports (hRc : env.cudaRc = 0) {A B : Buffer I8} (hDrawn : DrawnInRange A B)
    (keyA keyB : Bytes 32) {target : Nat} (hTarget : target < 2 ^ 256) :
    let noise := hostNoise keyA keyB 128 256 256
    ∃ ref res, CpuBackend.evaluate A B keyA keyB target = .ok ref ∧
      naiveCudaRun env 128 256 256 128 A B noise.dEAL noise.dEAR noise.dEBL noise.dEBR keyA target 16 =
        .ok res ∧ Reports res.toMineResult ref := by
  intro noise
  obtain ⟨bytes, hBytes, hWords⟩ := targetBytes_eq hTarget
  obtain ⟨res, hRes, hResult⟩ := prlNaiveRun_hostNoise env.device env.views mineDims.mineShape mineDims.depth
    A B keyA keyB (byteAt keyA) bytes
  have hWinner : winner (transcriptsOf (factorA A keyA keyB) (factorB B keyA keyB) 256 256 128 16 16)
      (asWords (byteAt keyA)) (asWords bytes) 128 256 128 16 16 = winningTile A B keyA keyB target :=
    winner_eq mineDims.mineShape (holdsTranscripts_transcriptsOf _ _ _ _ _ _ _ _) (fun _ _ => rfl) hWords
  have hTile : res.toMineResult = match winningTile A B keyA keyB target with
      | none => noTile 0 (env.device.mallocU32 3)
      | some x => tileResult (factorA A keyA keyB) (factorB B keyA keyB) 256 256 128 16 16 1 x := by
    rw [← hWinner]
    exact hResult
  obtain ⟨ref, hRef, hReports⟩ := evaluate_reports hDrawn keyA keyB hTarget hTile
  refine ⟨ref, res, hRef, ?_, hReports⟩
  rw [naiveCudaRun, hBytes]
  dsimp only [raising, Except.mapError, bind, Except.bind]
  rw [hRes]
  dsimp only
  rw [if_neg (not_not.mpr hRc)]

/-- An attempt that fits into 8 bytes, at a target that is a uint256. -/
def Searchable (job : MiningJob) (attempt : Int) : Prop :=
  (0 ≤ attempt ∧ attempt < 2 ^ 64) ∧ 0 ≤ job.target ∧ job.target < 2 ^ 256

/-- The reports of an evaluation and of a run that reports on it agree in all but the
bytes of the proof, and name the same tile. -/
theorem report_same (pk : Packages) {ref : RunResult} {res : MineResult} (hReports : Reports res ref) (attempt : Int) :
    ∃ cpu, CpuBackend.report pk attempt ref = .ok cpu ∧
      SameSearch pk cpu (CudaNaiveBackend.report pk attempt res) := by
  rw [CpuBackend.report, CudaNaiveBackend.report]
  cases hReports with
  | missed hRef hFound =>
      rw [if_pos hRef, if_pos hFound]
      exact ⟨_, rfl, ⟨rfl, rfl, rfl, fun _ => ⟨rfl, rfl, rfl, rfl⟩, nofun⟩⟩
  | opened block hRef hBlock hFound hRow hCol hWords =>
      rw [if_neg (by rw [hRef]; decide), if_neg (by rw [hFound]; decide), hBlock]
      obtain ⟨row, hHead, hRow⟩ := Option.map_eq_some_iff.mp hRow
      obtain ⟨col, hHead', hCol⟩ := Option.map_eq_some_iff.mp hCol
      have hTake {xs : List Nat} {x : Nat} (h : xs.head? = some x) : xs.take 1 = [x] := by
        rw [List.take_one, h]
        rfl
      refine ⟨_, rfl, ⟨rfl, rfl, rfl, nofun,
        fun _ => ⟨block, row, col, rfl, ?_, ?_, ?_⟩⟩⟩
      · rw [hRow, hCol, ← hWords, ← hFound]
      · dsimp only
        rw [hTake hHead, hTake hHead']
      · dsimp only
        rw [hRow, hCol]

section Drawn

variable {A B : Buffer I8} {keyA keyB : Bytes 32} (hDraw : CpuBackend.draw pk job attempt = .ok ((A, B), keyA, keyB))
include hDraw

theorem cpu_search_eq : CpuBackend.search pk job attempt =
    ofReference (CpuBackend.evaluate A B keyA keyB job.target) >>= CpuBackend.report pk attempt := by
  rw [CpuBackend.search, hDraw]
  dsimp only [raising, Except.mapError, bind, Except.bind]

theorem naive_search_eq :
    let noise := hostNoise keyA keyB 128 256 256
    CudaNaiveBackend.search pk env job attempt =
      naiveCudaRun env 128 256 256 128 A B noise.dEAL noise.dEAR noise.dEBL noise.dEBR keyA job.target 16 >>=
        fun res => .ok (CudaNaiveBackend.report pk attempt res.toMineResult) := by
  have hNoise := generate_eq keyA keyB (show 128 ≤ 128 by decide) (show 128 ≤ 256 by decide) (show 128 ≤ 256 by decide)
  rw [CudaNaiveBackend.search, hDraw]
  dsimp only [raising, Except.mapError, bind, Except.bind, hostNoise]
  rw [hNoise]
  dsimp only [ofReference, Except.mapError]

end Drawn

/-- Both backends raise on the same attempts and jobs, and otherwise find the same. They
raise where the attempt or the target does not fit in its bytes. -/
theorem searches_agree (hRange : pk.InRange) (hRc : env.cudaRc = 0) (job : MiningJob) (attempt : Int) :
    (¬Searchable job attempt ∧ (∃ text, CpuBackend.search pk job attempt = .error (.exception text)) ∧
      ∃ text, CudaNaiveBackend.search pk env job attempt = .error (.exception text)) ∨
    Searchable job attempt ∧ ∃ cpu naive, CpuBackend.search pk job attempt = .ok cpu ∧
      CudaNaiveBackend.search pk env job attempt = .ok naive ∧ SameSearch pk cpu naive := by
  cases hDraw : CpuBackend.draw pk job attempt with
  | error text =>
      refine .inl ⟨fun h => ?_, ⟨text, ?_⟩, text, ?_⟩
      · obtain ⟨drawn, hDrawn⟩ := (draw_isOk_iff pk job).mpr h.1
        rw [hDraw] at hDrawn
        cases hDrawn
      · rw [CpuBackend.search, hDraw]
        rfl
      · rw [CudaNaiveBackend.search, hDraw]
        rfl
  | ok drawn =>
      obtain ⟨⟨A, B⟩, keyA, keyB⟩ := drawn
      have hAttempt := (draw_isOk_iff pk job).mp ⟨_, hDraw⟩
      have hDrawn := draw_drawn hRange hDraw
      rw [cpu_search_eq hDraw, naive_search_eq hDraw]
      by_cases hTarget : 0 ≤ job.target ∧ job.target < 2 ^ 256
      · refine .inr ⟨⟨hAttempt, hTarget⟩, ?_⟩
        obtain ⟨target, hNat⟩ := Int.eq_ofNat_of_zero_le hTarget.1
        rw [hNat] at hTarget ⊢
        obtain ⟨ref, res, hRef, hRes, hReports⟩ := naiveCudaRun_reports hRc hDrawn keyA keyB
          (by exact_mod_cast hTarget.2)
        obtain ⟨cpu, hCpu, hSame⟩ := report_same pk hReports attempt
        rw [hRef, hRes]
        exact ⟨cpu, _, hCpu, rfl, hSame⟩
      · refine .inl ⟨fun h => hTarget h.2, ?_, ?_⟩
        · cases hRef : CpuBackend.evaluate A B keyA keyB job.target with
          | error e => exact ⟨_, rfl⟩
          | ok ref => exact absurd ((evaluate_isOk_iff hDrawn keyA keyB).mp ⟨ref, hRef⟩) hTarget
        · rw [naiveCudaRun]
          cases hBytes : CudaMineBackend.targetBytes job.target with
          | error text => exact ⟨text, rfl⟩
          | ok bytes => exact absurd (targetBytes_isOk_iff.mp ⟨bytes, hBytes⟩) hTarget

end Naive

end Miner
