import PrlMiner.Miner.FastMine
import PrlMiner.Reference.EasiestTarget

/-! A batch on the device finds what `noisy_gemm` opens first, so mining by batches is
mining by single attempts. -/
namespace Miner.FastMine

open LittleEndian FixedWidth Cuda Reference Search

/-- `noisy_gemm` is what the reference is a port of. -/
def MinerBase.Ported (base : MinerBase) : Prop :=
  ∀ (g : NoisyGemm) (m k n : Nat) (A B : Mat I8) (E : NoiseGenerator.Noise) (commitment : Commitment) (target : Int),
    base.noisyGemm g m k n A B E commitment target =
      (g.run Blake3.keyedHash m k n 128 A B E commitment.noiseSeedA target).map fun res =>
        if res.found then res.openedBlock else none

/-- The tiles that the kernels are built for. -/
structure MatmulConfig.Production (config : MatmulConfig) : Prop where
  dims : Mod128 config.matmulTileH MinerBase.K config.matmulTileW
  height : 0 < config.matmulTileH
  width : 0 < config.matmulTileW
  tileH : config.hashTileH = 2
  tileW : config.hashTileW = 64

/-- An entry that `integers(-64, 64)` draws. -/
def InRange (x : I8) : Prop := -64 ≤ x.toInt ∧ x.toInt < 64

def Draws.InRange (draws : Draws) : Prop :=
  ∀ j r c, FastMine.InRange ((draws j).1 r c) ∧ FastMine.InRange ((draws j).2 r c)

/-- What the reference opens for an attempt. -/
def opened (g : NoisyGemm) (m k n : Nat) (target : Int) (a : Attempt) : Option OpenedBlock :=
  searchTiles g Blake3.keyedHash (NoisyGemm.addNoise 128 a.A a.E.E_AL a.E.E_AR)
    (NoisyGemm.addNoise 128 a.B a.E.E_BL a.E.E_BR) m k n a.commitment.noiseSeedA target

/-- The answer of a batch: its first attempt with a block, at the place of the block, or
no attempt. -/
inductive Finds (open_ : Nat → Option OpenedBlock) (natt : Nat) : Int × Int × Int × List U32 → Prop where
  | hit {j : Nat} {block : OpenedBlock} {row col : Int} (inside : j < natt) (opens : open_ j = some block)
      (before : ∀ i < j, open_ i = none) (rowIs : block.A_row_indices.head?.map Nat.cast = some row)
      (colIs : block.B_column_indices.head?.map Nat.cast = some col) :
      Finds open_ natt (j, row, col, block.transcript_words)
  | miss (none_ : ∀ j < natt, open_ j = none) (row col : Int) (words : List U32) :
      Finds open_ natt (-1, row, col, words)

section Batches

variable {base : MinerBase} {g : NoisyGemm} {m k n natt : Nat} {target : Int}

/-- Matrices that `integers(-64, 64)` has drawn pass every check of `noisy_gemm` at the
shapes that the kernels are built for. -/
theorem accepts_of_inRange (dims : Mod128 m k n) (hSize : 0 < m ∧ 0 < k ∧ 0 < n) (hRange : g.noiseRange = 128)
    (hRank : g.noiseRank = 128) (hTileH : g.hashTileH = 2) (hTileW : g.hashTileW = 64)
    (hMatmul : g.matmulTileH ≤ m ∧ g.matmulTileW ≤ n) (hTarget : 0 ≤ target ∧ target < 2 ^ 256) {A B : Mat I8}
    (hA : ∀ r c, InRange (A r c)) (hB : ∀ r c, InRange (B r c)) : g.Accepts m k n A B target := by
  have hLow : g.rangeLow = -64 := by
    rw [NoisyGemm.rangeLow, NoisyGemm.dataRange, hRange]
    rfl
  have hHigh : g.rangeHigh = 63 := by
    rw [NoisyGemm.rangeHigh, hLow, NoisyGemm.dataRange, hRange]
    rfl
  have hData (rows cols : Nat) {x : Mat I8} (hx : ∀ r c, InRange (x r c)) (hSome : 0 < rows * cols) :
      g.validateMatrixRange rows cols x = .ok () := by
    rw [NoisyGemm.validateMatrixRange_ok_iff]
    refine ⟨hSome.ne', fun i _ j _ => ?_⟩
    obtain ⟨hx, hx'⟩ := hx i j
    omega
  obtain ⟨target, rfl⟩ := Int.eq_ofNat_of_zero_le hTarget.1
  exact dims.shape.accepts dims.depth hRank hTileH hTileW hMatmul.1 hMatmul.2 (by exact_mod_cast hTarget.2)
    (hData m k hA (Nat.mul_pos hSize.1 hSize.2.1)) (hData k n hB (Nat.mul_pos hSize.2.1 hSize.2.2))

/-- `noisy_gemm` opens what the reference opens, on everything that the reference
accepts. -/
theorem noisyGemm_eq (hPorted : base.Ported) (hRank : g.noiseRank = 128) {a : Attempt}
    (hAccepts : g.Accepts m k n a.A a.B target) :
    base.noisyGemm g m k n a.A a.B a.E a.commitment target = .ok (opened g m k n target a) := by
  obtain ⟨C, -, hRun, -⟩ := NoisyGemm.run_eq Blake3.keyedHash 128 a.E a.commitment.noiseSeedA (by omega) hAccepts
  rw [hPorted, hRun]
  change Except.ok (if (opened g m k n target a).isSome then opened g m k n target a else none) = _
  cases opened g m k n target a <;> rfl

/-- A batch hands back the first attempt whose noised product has a winning tile, with the
row and the column of that tile. -/
theorem finds_batchResult (shape : TileShape m n 128 2 64) {A B : Nat → Mat I8} {keys : Nat → Buffer U32}
    {tgt trOut : Buffer U32} {opens : Nat → Option OpenedBlock}
    (hOpens : ∀ j, opens j = (reportedTile (A j) (B j) (keys j) tgt m k n 128 2 64).map
      (openedAt (A j) (B j) k n 128 2 64)) :
    let res := batchResult A B keys tgt m k n 128 2 64 natt trOut
    Finds opens natt (res.found, res.aRow, res.bCol, res.trOut) := by
  intro res
  cases hFirst : (List.range natt).findSome? fun j =>
      (reportedTile (A j) (B j) (keys j) tgt m k n 128 2 64).map (j, ·) with
  | none =>
      have hRes : res = noTile (-1) trOut := by simp only [res, batchResult, hFirst]
      rw [hRes]
      refine .miss (fun j hj => ?_) _ _ _
      have hNone := List.findSome?_eq_none_iff.mp hFirst j (List.mem_range.mpr hj)
      rw [hOpens, Option.map_eq_none_iff.mp hNone]
      rfl
  | some jx =>
      obtain ⟨j, hj, hMap, hBefore⟩ := findSome?_range_some hFirst
      obtain ⟨x, hx, rfl⟩ := Option.map_eq_some_iff.mp hMap
      have hRes : res = tileResult (A j) (B j) k n 128 2 64 j x := by simp only [res, batchResult, hFirst]
      obtain ⟨hRow, hCol, hWords⟩ := tileResult_opened shape (A j) (B j) k j x
      rw [hRes, hWords]
      refine .hit hj ?_ (fun i hi => ?_) hRow hCol
      · rw [hOpens, hx]
        rfl
      · rw [hOpens, Option.map_eq_none_iff.mp (hBefore i hi)]
        rfl

/-- A batch finds the first attempt that the reference opens, with any device memory and
for every target of 256 bits. The keys must stay below the sentinel. -/
theorem batchSearch_finds (d : Device) (attempts : Nat → Attempt) (dims : Mod128 m k n) (hDepth : 128 ≤ k)
    (hNatt : 1 ≤ natt)
    (hBound : natt * (m / 2) * (n / 64) < sentinel) (hRank : g.noiseRank = 128) (hTileH : g.hashTileH = 2)
    (hTileW : g.hashTileW = 64) (hTarget : 0 ≤ target ∧ target < 2 ^ 256) :
    ∃ res, batchSearch d m k n natt attempts (toBytes 32 target.toNat) = .ok res ∧
      Finds (fun j => opened g m k n target (attempts j)) natt res := by
  let NA := fun j => NoisyGemm.addNoise 128 (attempts j).A (attempts j).E.E_AL (attempts j).E.E_AR
  let NB := fun j => NoisyGemm.addNoise 128 (attempts j).B (attempts j).E.E_BL (attempts j).E.E_BR
  let keys := fun j => (attempts j).commitment.noiseSeedA
  obtain ⟨target, rfl⟩ := Int.eq_ofNat_of_zero_le hTarget.1
  have hTotal : totalTiles m n 128 2 64 ≤ sentinel := by
    have hOne : 1 * (m / 2 * (n / 64)) ≤ natt * (m / 2 * (n / 64)) := Nat.mul_le_mul_right _ hNatt
    rw [dims.totalTiles_eq]
    rw [← Nat.mul_assoc natt] at hOne
    omega
  have hOpened (j : Nat) : opened g m k n target (attempts j) =
      (reportedTile (NA j) (NB j) (asWords (offset (joinKeys keys) (j * 32)))
        (asWords (byteAt (toBytes 32 target))) m k n 128 2 64).map (openedAt (NA j) (NB j) k n 128 2 64) := by
    rw [opened, searchTiles_eq_winner dims.shape hDepth hRank hTileH hTileW
      (holdsTranscripts_transcriptsOf (NA j) (NB j) m k n 128 2 64) (by exact_mod_cast hTarget.2)
      (fun i hi => asWords_joinKeys keys j hi) (fun i _ => rfl), ← reportedTile_eq_winner hTotal]
    rfl
  have hSearch := prlMine2Search_eq dims d (joinKeys keys) (byteAt (toBytes 32 target)) hNatt hBound.le
    (fun j _ i hi c hc => matrixOf_offset_stack NA j hi hc)
    (fun j _ c hc i hi => matrixOf_offset_stack NB j hc hi)
  have hBatch : batchSearch d m k n natt attempts (toBytes 32 target) = _ :=
    (if_neg (by omega)).trans (congrArg (Except.mapError Failure.exits) (gpuSearch_of_ok hSearch))
  exact ⟨_, hBatch, finds_batchResult dims.shape hOpened⟩

/-- The answer of a batch through the search for the first attempt that is opened. -/
theorem Finds.search {opens : Nat → Option OpenedBlock} {res : Int × Int × Int × List U32}
    (h : Finds opens natt res) :
    (res.1 < 0 ∧ (List.range natt).findSome? opens = none) ∨
      ∃ j block, res.1 = Nat.cast j ∧ opens j = some block ∧ (List.range natt).findSome? opens = some block := by
  cases h with
  | miss hNone row col words =>
      exact .inl ⟨show (-1 : Int) < 0 by decide,
        List.findSome?_eq_none_iff.mpr fun j hj => hNone j (List.mem_range.mp hj)⟩
  | @hit j block row col inside hOpens before rowIs colIs =>
      refine .inr ⟨j, block, rfl, hOpens, ?_⟩
      cases hFirst : (List.range natt).findSome? opens with
      | none =>
          rw [List.findSome?_eq_none_iff.mp hFirst j (List.mem_range.mpr inside)] at hOpens
          cases hOpens
      | some block' =>
          obtain ⟨i, -, hHit, hBefore⟩ := findSome?_range_some hFirst
          rcases Nat.lt_trichotomy i j with hLess | rfl | hLess
          · rw [before i hLess] at hHit
            cases hHit
          · exact hHit.symm.trans hOpens
          · rw [hBefore j hLess] at hOpens
            cases hOpens

/-- With equal rows in `A` and in its left noise all tiles have the same transcript, of
zeros, so that the key of the attempt decides. -/
theorem opened_alike (hM : 2 ≤ m) (hN : 64 ≤ n) (hDepth : 128 ≤ k) (hRank : g.noiseRank = 128)
    (hTileH : g.hashTileH = 2) (hTileW : g.hashTileW = 64) (target : Int) {a : Attempt} (hA : AlikeRows a.A)
    (hE : AlikeRows a.E.E_AL) : (opened g m k n target a).isSome = true ↔
      zeroDigest Blake3.keyedHash a.commitment.noiseSeedA ≤ target := by
  have hFull : ∃ t : HashTile, t.Full g m n := by
    rw [exists_full_iff (by omega) (by omega)]
    omega
  rw [opened, searchTiles_alike_isSome_iff (hA.addNoise hE 128 a.E.E_AR) (by rw [hTileH]; decide) (by omega)]
  exact ⟨fun h => h.2.2, fun h => ⟨hFull, by omega, h⟩⟩

end Batches

section Mining

variable {base : MinerBase} {natt : Nat} {header : List Byte} {target : Int} {draws : Draws}

/-- What is opened for an attempt of a miner. -/
def MinerBase.opens (base : MinerBase) (header : List Byte) (target : Int) (draws : Draws) (i : Nat) :
    Option OpenedBlock :=
  opened base.gemm base.M MinerBase.K base.N target (base.attempt header (draws i))

variable (hPorted : base.Ported) (hConfig : base.config.Production) (hDraws : draws.InRange)
  (hTarget : 0 ≤ target ∧ target < 2 ^ 256)

include hPorted hConfig hDraws hTarget in
/-- The confirmation of an attempt runs the reference on it, and raises on none. -/
theorem confirm_eq (header : List Byte) (i : Nat) :
    base.confirm target (base.attempt header (draws i)) = .ok (base.opens header target draws i) := by
  have hAccepts := accepts_of_inRange (g := base.gemm) hConfig.dims ⟨hConfig.height, by decide, hConfig.width⟩ rfl rfl
    (congrArg Nat.cast hConfig.tileH) (congrArg Nat.cast hConfig.tileW) ⟨le_rfl, le_rfl⟩ hTarget
    (fun r c => (hDraws i r c).1) (fun r c => (hDraws i r c).2)
  have hOpened := noisyGemm_eq hPorted rfl (a := base.attempt header (draws i)) hAccepts
  rw [MinerBase.confirm, hOpened]
  rfl

/-- How a miner ends on `count` attempts: with the proof of the first that `noisy_gemm`
opens, or with none. -/
inductive MinerBase.MinesFirst (base : MinerBase) (header : List Byte) (target : Int) (draws : Draws) (count : Nat) :
    Option Python.Text → Prop where
  | proof {i : Nat} {block : OpenedBlock} (inside : i < count)
      (opens : base.confirm target (base.attempt header (draws i)) = .ok (some block))
      (before : ∀ j < i, base.confirm target (base.attempt header (draws j)) = .ok none) :
      base.MinesFirst header target draws count (some (base.createProof block header))
  | nothing (none_ : ∀ j < count, base.confirm target (base.attempt header (draws j)) = .ok none) :
      base.MinesFirst header target draws count none

end Mining

/-- `miner_base` at the production tile, without noise. The key of an attempt tells whether
the first entry of `A` is zero, and a proof names the first row of the opened block. -/
def plainBase : MinerBase where
  config := ⟨128, 256, 2, 64, by decide, by decide⟩
  commitmentHash A _ _ := if A 0 0 = 0 then ⟨2, 0⟩ else ⟨0, 0⟩
  generateNoiseMetrices _ _ _ _ _ := ⟨fun _ _ => 0, fun _ _ => 0, fun _ _ => 0, fun _ _ => 0⟩
  noisyGemm g m k n A B E commitment target :=
    (g.run Blake3.keyedHash m k n 128 A B E commitment.noiseSeedA target).map fun res =>
      if res.found then res.openedBlock else none
  createProof block _ := Python.text "proof at row " ++ Python.digitsText (block.A_row_indices.getD 0 0)

theorem plainBase_ported : plainBase.Ported := fun _ _ _ _ _ _ _ _ _ => rfl

theorem plainBase_production : plainBase.config.Production :=
  ⟨⟨by decide, by decide, by decide⟩, by decide, by decide, rfl, rfl⟩

/-- Draws whose first four attempts lose at `middleTarget` and whose others win. -/
def lateDraws : Draws := fun j => (fun _ _ => if j < 4 then 0 else 3, fun _ _ => 5)

theorem lateDraws_inRange : lateDraws.InRange := by
  have hEntry (j : Nat) : InRange (if j < 4 then 0 else 3) := by
    split_ifs
    · exact ⟨by decide, by decide⟩
    · exact ⟨by decide, by decide⟩
  have hFive : InRange 5 := ⟨by decide, by decide⟩
  exact fun j _ _ => ⟨hEntry j, hFive⟩

/-- At this target an attempt is opened from the fifth on. -/
theorem plainBase_opens (header : List Byte) (j : Nat) :
    (plainBase.opens header middleTarget lateDraws j).isSome = true ↔ 4 ≤ j := by
  have hOpened := opened_alike (g := plainBase.gemm) (m := plainBase.M) (k := MinerBase.K) (n := plainBase.N)
    (by decide) (by decide) (by decide) rfl rfl rfl middleTarget
    (a := plainBase.attempt header (lateDraws j)) (fun _ _ => rfl) (fun _ _ => rfl)
  have hKey : (plainBase.attempt header (lateDraws j)).commitment.noiseSeedA = if 4 ≤ j then 0 else 2 := by
    by_cases hj : 4 ≤ j
    · simp [MinerBase.attempt, plainBase, lateDraws, hj, show ¬j < 4 by omega]
    · simp [MinerBase.attempt, plainBase, lateDraws, hj, show j < 4 by omega]
  refine hOpened.trans ?_
  rw [hKey]
  by_cases hj : 4 ≤ j
  · rw [if_pos hj]
    exact iff_of_true (Int.ofNat_le.mpr zeroDigest_wins) hj
  · rw [if_neg hj]
    exact iff_of_false (Int.not_le.mpr (Int.ofNat_lt.mpr zeroDigest_loses)) hj

section Offline

variable {base : MinerBase} {natt : Nat} {draws : Draws}

end Offline

end Miner.FastMine
