import PrlMiner.Cuda.NaiveTranscript
import PrlMiner.Cuda.Outcome
import PrlMiner.Cuda.TilePipeline
import PrlMiner.Reference.Denoise

/-! The rest of `naive_sm86.cu`: its own copies of the hash tables and the noising
kernels, the plain product, the serial scan and the entry point, against the
reference. Its indices are `int`, exact while the matrices stay below `2 ^ 30` entries. -/
namespace Cuda.Naive

open FixedWidth LittleEndian ParallelWrites Reduction Search Reference

def msgSched : Vector (Vector (Fin 16) 16) 7 :=
  Array.toVector #[
    Array.toVector #[0, 1, 2, 3, 4, 5, 6, 7, 8, 9, 10, 11, 12, 13, 14, 15],
    Array.toVector #[2, 6, 3, 10, 7, 0, 4, 13, 1, 11, 12, 5, 9, 14, 15, 8],
    Array.toVector #[3, 4, 10, 12, 13, 2, 7, 14, 6, 5, 9, 0, 11, 15, 8, 1],
    Array.toVector #[10, 7, 12, 9, 14, 3, 13, 15, 4, 0, 11, 2, 5, 8, 1, 6],
    Array.toVector #[12, 13, 9, 11, 15, 10, 14, 8, 7, 2, 5, 3, 0, 1, 6, 4],
    Array.toVector #[9, 14, 11, 5, 8, 12, 15, 1, 13, 3, 0, 10, 2, 6, 4, 7],
    Array.toVector #[11, 15, 5, 0, 1, 9, 8, 6, 14, 10, 2, 12, 3, 4, 7, 13]]

def blake3Iv : Vector U32 8 :=
  Array.toVector
    #[0x6A09E667, 0xBB67AE85, 0x3C6EF372, 0xA54FF53A, 0x510E527F, 0x9B05688C, 0x1F83D9AB, 0x5BE0CD19]

/-- `blake3_keyed_block` of `naive_sm86.cu`. -/
def blake3KeyedBlock (msg key : Nat → U32) : Nat → U32 := keyedBlock msgSched blake3Iv msg key

theorem blake3KeyedBlock_eq_device (msg key : Nat → U32) :
    blake3KeyedBlock msg key = Cuda.blake3KeyedBlock msg key := rfl

def kNoiseA (A E_AL E_AR : Buffer I8) (m k r blockDim blockIdx threadIdx : Nat) : List (Write I8) :=
  noiseThread A E_AL E_AR m k r blockDim blockIdx threadIdx

def kNoiseB (B E_BL E_BR : Buffer I8) (k n r blockDim blockIdx threadIdx : Nat) : List (Write I8) :=
  noiseThread B E_BL E_BR k n r blockDim blockIdx threadIdx

def kGemmPlain (A B : Buffer I8) (m k n blockDim blockIdx threadIdx : Nat) : List (Write I32) :=
  let x := blockIdx * blockDim + threadIdx
  if x ≥ m * n then []
  else
    let i := x / n
    let j := x % n
    let acc : I32 := accumulate k fun c =>
      (A (idx i c k)).signExtend 32 * (B (idx c j n)).signExtend 32
    [store x acc]

/-- The sub-tile at which the nested loops of the scan return. -/
def firstSubtile (transcripts key target : Buffer U32) (m n r th tw : Nat) : Option (Nat × Nat) :=
  let TI := m / r
  let TJ := n / r
  let SH := r / th
  let SW := r / tw
  (List.range TI).findSome? fun ti => (List.range TJ).findSome? fun tj =>
    (List.range SH).findSome? fun hi => (List.range SW).findSome? fun wi =>
      let sr := ti * SH + hi
      let sc := tj * SW + wi
      let dig := blake3KeyedBlock (tileWords transcripts n tw sr sc) key
      if limbsLe dig target 8 then some (sr, sc) else none

def kPowScan (transcripts key target : Buffer U32) (m n r th tw : Nat) (out : ScanOut) : ScanOut :=
  match firstSubtile transcripts key target m n r th tw with
  | none => { out with found := 0, aRow := -1, bCol := -1 }
  | some (sr, sc) =>
      { found := 1
        aRow := (sr * th : Nat)
        bCol := (sc * tw : Nat)
        trOut := memcpy out.trOut (tileWords transcripts n tw sr sc) 16 }

/-- Output variables of `prl_naive_run`. -/
structure NaiveResult extends MineResult where
  C_out : Mat I32

def prlNaiveRun (d : Device) (views : Nat → Nat → Nat → ScratchView)
    (A B E_AL E_AR E_BL E_BR : Buffer I8) (m k n r th tw : Nat)
    (powKey32 powTarget32Le : Buffer Byte) : Except Nat NaiveResult :=
  if m % r ≠ 0 ∨ n % r ≠ 0 ∨ k % r ≠ 0 ∨ r % th ≠ 0 ∨ r % tw ≠ 0 then .error 2
  else
    let ST := m / th * (n / tw)
    let dTr := memset (d.mallocU32 0) 0 (ST * 16)
    let dA := memcpy (d.mallocI8 0) A (m * k)
    let dB := memcpy (d.mallocI8 1) B (k * n)
    let dEAL := memcpy (d.mallocI8 2) E_AL (m * r)
    let dEAR := memcpy (d.mallocI8 3) E_AR (r * k)
    let dEBL := memcpy (d.mallocI8 4) E_BL (k * r)
    let dEBR := memcpy (d.mallocI8 5) E_BR (r * n)
    let dKey := memcpy (d.mallocU32 1) (asWords powKey32) 8
    let dTgt := memcpy (d.mallocU32 2) (asWords powTarget32Le) 8
    let T := 256
    let dAn := launch1 (d.schedule 0) (gridFor (m * k) T) T (kNoiseA dA dEAL dEAR m k r T) (d.mallocI8 6)
    let dBn := launch1 (d.schedule 1) (gridFor (k * n) T) T (kNoiseB dB dEBL dEBR k n r T) (d.mallocI8 7)
    let dC := launch1 (d.schedule 2) (gridFor (m * n) T) T (kGemmPlain dA dB m k n T) (d.mallocI32 0)
    let dTr := launchGrid (d.schedule 3) (m / r) (n / r) 1 256
      (fun ti tj _ tid => kNoisedTranscript (views ti tj) dAn dBn (d.mallocI32 1) m k n r th tw ti tj tid)
      dTr
    let out := kPowScan dTr dKey dTgt m n r th tw
      ⟨d.mallocInt 0 0, d.mallocInt 1 0, d.mallocInt 2 0, d.mallocU32 3⟩
    .ok { toMineResult := readBack out, C_out := matrixOf n dC }

variable {m k n r th tw : Nat}

/-- The loops stop at the first winner of the flat order. -/
theorem firstSubtile_eq (dTr dKey dTgt : Buffer U32) (m n r th tw : Nat) :
    firstSubtile dTr dKey dTgt m n r th tw = (winner dTr dKey dTgt m n r th tw).map
      (powScanIndexToTile · (n / r) (r / th) (r / tw)) := by
  simp only [firstSubtile]
  rw [findSome?_range_mul, findSome?_range_mul, findSome?_range_mul, winner, ← findSome?_ite]
  rfl

/-- The outcome of the serial scan. -/
theorem readBack_kPowScan {A B : Mat I8} {dTr dKey dTgt key target : Buffer U32} (out : ScanOut)
    (shape : TileShape m n r th tw) (hTr : HoldsTranscripts dTr A B m k n r th tw)
    (hKey : ∀ i < 8, dKey i = key i) (hTarget : ∀ i < 8, dTgt i = target i) :
    readBack (kPowScan dTr dKey dTgt m n r th tw out) =
      match winner (transcriptsOf A B k n r th tw) key target m n r th tw with
      | none => noTile 0 out.trOut
      | some x => tileResult A B k n r th tw 1 x := by
  rw [kPowScan, firstSubtile_eq, winner_eq shape hTr hKey hTarget]
  cases hWinner : winner (transcriptsOf A B k n r th tw) key target m n r th tw with
  | none => rfl
  | some x =>
      have hx : x < totalTiles m n r th tw := by
        simpa using List.mem_of_find?_eq_some hWinner
      exact readBack_emitTile shape hTr hx 1 out

/-- The plain product over int32. -/
theorem launch_kGemmPlain (s : Scheduler) (A B : Buffer I8) (C : Buffer I32) {i j : Nat} (hi : i < m)
    (hj : j < n) :
    matrixOf n (launch1 s (gridFor (m * n) 256) 256 (kGemmPlain A B m k n 256) C) i j =
      prefixProduct (matrixOf k A) (matrixOf n B) k i j := by
  rw [matrixOf, launch1_store s (show 0 < 256 by decide)
    (fun x => accumulate k fun c =>
      (A (idx (x / n) c k)).signExtend 32 * (B (idx c (x % n) n)).signExtend 32)
    (fun b t => ?_) (idx_lt hi hj)]
  · rw [idx_div hj, idx_mod hj]
    rfl
  · rw [kGemmPlain]
    by_cases h : b * 256 + t < m * n
    · rw [if_pos h, if_neg (by omega)]
    · rw [if_neg h, if_pos (by omega)]

/-- The entry point scans the noised product and returns the plain one. -/
theorem prlNaiveRun_eq (d : Device) (views : Nat → Nat → Nat → ScratchView)
    (shape : TileShape m n r th tw) (hChunks : r ∣ k) (A B E_AL E_AR E_BL E_BR : Buffer I8)
    (powKey32 powTarget32Le : Buffer Byte) {NA NB : Mat I8}
    (hNA : ∀ i < m, ∀ c < k, NoisyGemm.addNoise r (matrixOf k A) (matrixOf r E_AL) (matrixOf k E_AR) i c =
      NA i c)
    (hNB : ∀ c < k, ∀ j < n, NoisyGemm.addNoise r (matrixOf n B) (matrixOf r E_BL) (matrixOf n E_BR) c j =
      NB c j) :
    ∃ out, prlNaiveRun d views A B E_AL E_AR E_BL E_BR m k n r th tw powKey32 powTarget32Le = .ok out ∧
      out.toMineResult = (match winner (transcriptsOf NA NB k n r th tw) (asWords powKey32)
          (asWords powTarget32Le) m n r th tw with
        | none => noTile 0 (d.mallocU32 3)
        | some x => tileResult NA NB k n r th tw 1 x) ∧
      ∀ i < m, ∀ j < n, out.C_out i j = prefixProduct (matrixOf k A) (matrixOf n B) k i j := by
  have hChecks : ¬ (m % r ≠ 0 ∨ n % r ≠ 0 ∨ k % r ≠ 0 ∨ r % th ≠ 0 ∨ r % tw ≠ 0) := by
    have hm := Nat.mod_eq_zero_of_dvd shape.rankRows
    have hn := Nat.mod_eq_zero_of_dvd shape.rankCols
    have hk := Nat.mod_eq_zero_of_dvd hChunks
    have hth := Nat.mod_eq_zero_of_dvd shape.tileH
    have htw := Nat.mod_eq_zero_of_dvd shape.tileW
    omega
  rw [prlNaiveRun, if_neg hChecks]
  refine ⟨_, rfl, ?_, fun i hi j hj => ?_⟩
  · exact readBack_kPowScan _ shape (HoldsTranscripts.congr (launch_kNoisedTranscript shape _ _ _ _ _ _)
      (fun i hi c hc => (launch_noise_copied _ _ _ _ _ _ _ _ hi hc).trans (hNA i hi c hc))
      (fun c hc j hj => (launch_noise_copied _ _ _ _ _ _ _ _ hc hj).trans (hNB c hc j hj)))
      (fun i hi => memcpy_of_lt hi) (fun i hi => memcpy_of_lt hi)
  · refine (launch_kGemmPlain _ _ _ _ hi hj).trans ?_
    exact prefixProduct_congr (fun c hc => matrixOf_memcpy _ _ hi hc)
      (fun c hc => matrixOf_memcpy _ _ hc hj)

/-- The naive pipeline is the reference: its search for any noise, and its product for
generated noise at range 128. What the scratch views show is left open. -/
theorem naive_eq_reference (d : Device) (views : Nat → Nat → Nat → ScratchView)
    (shape : TileShape m n r th tw) (hChunks : r ∣ k) {g : NoisyGemm} (hRank : g.noiseRank = r)
    (hTileH : g.hashTileH = th) (hTileW : g.hashTileW = tw) (hMatmulH : g.matmulTileH ≤ m)
    (hMatmulW : g.matmulTileW ≤ n) (A B : Mat I8) (E : NoiseGenerator.Noise) (powKey : Bytes 32)
    {powTarget : Nat} (hTarget : powTarget < 2 ^ 256) (hA : g.validateMatrixRange m k A = .ok ())
    (hB : g.validateMatrixRange k n B = .ok ()) :
    ∃ ref out, g.run Blake3.keyedHash m k n r A B E powKey powTarget = .ok ref ∧
      prlNaiveRun d views (flat k A) (flat n B) (flat r E.E_AL) (flat k E.E_AR) (flat r E.E_BL)
        (flat n E.E_BR) m k n r th tw (byteAt powKey) (byteAt (toBytes 32 powTarget)) = .ok out ∧
      ((∃ block, ref.found = true ∧ ref.openedBlock = some block ∧ out.found = 1 ∧
          block.A_row_indices.head?.map Nat.cast = some out.aRow ∧
          block.B_column_indices.head?.map Nat.cast = some out.bCol ∧
          out.trOut = block.transcript_words) ∨
        ref.found = false ∧ out.found = 0 ∧ out.aRow = -1 ∧ out.bCol = -1) ∧
      ∀ (gen : NoiseGenerator) (blake3 : Blake3Package) (keyA keyB : Bytes 32), gen.noiseRange = 128 →
        g.noiseRange = 128 → gen.noiseRank = r → gen.generate blake3 keyA keyB m k n = .ok E →
        ∀ i < m, ∀ j < n, out.C_out i j = ref.C i j := by
  have hAccepts : g.Accepts m k n A B powTarget :=
    shape.accepts hChunks hRank hTileH hTileW hMatmulH hMatmulW hTarget hA hB
  obtain ⟨ref, hRef, hFound, hOpened⟩ := run_reports (E := E) shape hRank hTileH hTileW hAccepts hTarget
    (fun i _ => rfl) (fun i _ => rfl)
  obtain ⟨out, hOut, hResult, hProduct⟩ := prlNaiveRun_eq d views shape hChunks (flat k A) (flat n B)
    (flat r E.E_AL) (flat k E.E_AR) (flat r E.E_BL) (flat n E.E_BR) (byteAt powKey)
    (byteAt (toBytes 32 powTarget))
    (fun i _ c hc => addNoise_congr (matrixOf_flat A hc) (fun x hx => matrixOf_flat E.E_AL hx)
      (fun x _ => matrixOf_flat E.E_AR hc))
    (fun c _ j hj => addNoise_congr (matrixOf_flat B hj) (fun x hx => matrixOf_flat E.E_BL hx)
      (fun x _ => matrixOf_flat E.E_BR hj))
  refine ⟨ref, out, hRef, hOut, ?_, ?_⟩
  · have hKey : (asWords (byteAt powKey)) = wordAt powKey := rfl
    have hTgt : (asWords (byteAt (toBytes 32 powTarget))) = wordAt (toBytes 32 powTarget) := rfl
    rw [hKey, hTgt] at hResult
    cases hWinner : winner (transcriptsOf (NoisyGemm.addNoise r A E.E_AL E.E_AR)
        (NoisyGemm.addNoise r B E.E_BL E.E_BR) k n r th tw) (wordAt powKey)
        (wordAt (toBytes 32 powTarget)) m n r th tw with
    | none =>
        simp only [hWinner] at hFound hResult
        rw [hResult]
        exact Or.inr ⟨hFound, rfl, rfl, rfl⟩
    | some x =>
        simp only [hWinner] at hFound hOpened hResult
        rw [hResult]
        exact Or.inl ⟨_, hFound, hOpened, rfl, tileResult_opened shape _ _ k 1 x⟩
  · intro gen blake3 keyA keyB hGenRange hRange hGenRank hE i hi j hj
    subst hGenRank
    rw [run_entry gen g (by omega) (by omega) hRank hE hRef hi hj, hProduct i hi j hj,
      prefixProduct_congr (fun c hc => matrixOf_flat A hc) (fun c _ => matrixOf_flat B hj)]
    exact accumulate_signExtend_mul A B k i j

/-- Constant factors under generated noise at the easiest target: both open a tile, and
both products are `A @ B`. -/
theorem naive_eq_reference_generated : ∃ (gen : NoiseGenerator) (g : NoisyGemm) (E : NoiseGenerator.Noise)
    (ref : RunResult) (out : NaiveResult) (block : OpenedBlock),
    gen.generate Blake3.keyedHash 1 2 32 32 32 = .ok E ∧
      g.run Blake3.keyedHash 32 32 32 32 (fun _ _ => 3) (fun _ _ => -4) E 5 (2 ^ 256 - 1 : Nat) = .ok ref ∧
      prlNaiveRun default default (flat 32 fun _ _ => 3) (flat 32 fun _ _ => -4) (flat 32 E.E_AL)
        (flat 32 E.E_AR) (flat 32 E.E_BL) (flat 32 E.E_BR) 32 32 32 32 16 16
        (byteAt (5 : Bytes 32)) (byteAt (toBytes 32 (2 ^ 256 - 1))) = .ok out ∧
      ref.openedBlock = some block ∧ out.found = 1 ∧
      block.A_row_indices.head?.map Nat.cast = some out.aRow ∧
      block.B_column_indices.head?.map Nat.cast = some out.bCol ∧ out.trOut = block.transcript_words ∧
      ∀ i < 32, ∀ j < 32, out.C_out i j = ref.C i j := by
  let gen : NoiseGenerator :=
    ⟨32, 128, by decide, by decide, by decide, by decide, by decide, by decide⟩
  let g : NoisyGemm := ⟨128, 32, 16, 16, 32, 32, by decide, by decide, by decide⟩
  have shape : TileShape 32 32 32 16 16 :=
    ⟨by decide, by decide, by decide, by decide, by decide, by decide, by decide⟩
  have hThree : g.rangeLow ≤ (3#8).toInt ∧ (3#8).toInt ≤ g.rangeHigh := by decide
  have hFour : g.rangeLow ≤ (-4#8).toInt ∧ (-4#8).toInt ≤ g.rangeHigh := by decide
  have hDataA : g.validateMatrixRange 32 32 (fun _ _ => 3) = .ok () :=
    (g.validateMatrixRange_ok_iff 32 32 _).mpr ⟨by decide, fun _ _ _ _ => hThree⟩
  have hDataB : g.validateMatrixRange 32 32 (fun _ _ => -4) = .ok () :=
    (g.validateMatrixRange_ok_iff 32 32 _).mpr ⟨by decide, fun _ _ _ _ => hFour⟩
  obtain ⟨E, hE⟩ : ∃ E, gen.generate Blake3.keyedHash 1 2 32 32 32 = .ok E := ⟨_, rfl⟩
  obtain ⟨ref, out, hRef, hOut, hSame, hProduct⟩ := naive_eq_reference default default shape
    (show 32 ∣ 32 by decide) (g := g) rfl rfl rfl (by decide) (by decide) (fun _ _ => 3) (fun _ _ => -4)
    E 5 (show 2 ^ 256 - 1 < 2 ^ 256 by decide) hDataA hDataB
  have hOrigin : (0, 0) ∈ hashTiles 32 32 g.noiseRank.toNat g.hashTileH g.hashTileW := by decide
  have hWins : ref.found = true := NoisyGemm.run_found_easiest (by decide) hRef hOrigin
  obtain ⟨block, -, hBlock, hFound, hRow, hCol, hWords⟩ | ⟨hMiss, -⟩ := hSame
  · exact ⟨gen, g, E, ref, out, block, hE, hRef, hOut, hBlock, hFound, hRow, hCol, hWords,
      hProduct gen Blake3.keyedHash 1 2 rfl rfl rfl hE⟩
  · rw [hWins] at hMiss
    cases hMiss

end Cuda.Naive
