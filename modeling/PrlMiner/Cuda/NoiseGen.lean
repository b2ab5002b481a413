import PrlMiner.Cuda.Blake3Block
import PrlMiner.Cuda.TranscriptGrid
import PrlMiner.Library.Search
import PrlMiner.Reference.NoiseStructure

/-! Noise generation on the device. The kernels leave the matrices of the reference
generator of rank 128 and range 128, given zeroed permutation buffers. -/
namespace Cuda

open FixedWidth LittleEndian ParallelWrites Reduction Reference

/-- The generator the kernels are specialised to. -/
def productionNoise : NoiseGenerator :=
  ⟨128, 128, by decide, by decide, by decide, by decide, by decide, by decide⟩

def mulhiU32 (a b : U32) : U32 := ((a.setWidth 64 * b.setWidth 64) >>> 32).setWidth 32

/-- The message of draw `i`: eight words with `1 + i` in one slot, then the seed. -/
def ngMessage (slot i : Nat) (seed : Buffer U32) : Nat → U32 := fun j =>
  if j < 8 then (if j = slot then BitVec.ofNat 32 (1 + i) else 0) else seed (j - 8)

def kNgDense (key seed : Buffer U32) (total blockDim blockIdx threadIdx : Nat) : List (Write I8) :=
  let i := blockIdx * blockDim + threadIdx
  if i * 32 ≥ total then []
  else
    let dig := blake3KeyedBlock (ngMessage 0 i seed) key
    (List.range 32).flatMap fun b =>
      let x := i * 32 + b
      if x < total then
        let by' : Byte := (dig (b / 4) >>> (8 * (b % 4))).setWidth 8
        [store x (((by' &&& 63).setWidth 32 - 32).setWidth 8)]
      else []

def kNgPerm (key seed : Buffer U32) (required : Nat) (assignCols : Bool) (r other : Nat)
    (blockDim blockIdx threadIdx : Nat) : List (Write I8) :=
  let i := blockIdx * blockDim + threadIdx
  if i * 8 ≥ required then []
  else
    let dig := blake3KeyedBlock (ngMessage 1 i seed) key
    (List.range 8).flatMap fun kk =>
      let ai := i * 8 + kk
      -- `break` at the first line past the end: no later one is below it
      if ai < required then
        let u := dig kk
        let first := u &&& BitVec.ofNat 32 (r - 1)
        let second := first ^^^ (1 + mulhiU32 (BitVec.ofNat 32 (r - 1)) u)
        if assignCols then
          [store (idx first.toNat ai other) 1, store (idx second.toNat ai other) (-1)]
        else [store (idx ai first.toNat r) 1, store (idx ai second.toNat r) (-1)]
      else []

/-- `U[rows][cols]` to `T[cols][rows]`. -/
def kTranspose (U : Buffer I8) (rows cols blockDim blockIdx threadIdx : Nat) : List (Write I8) :=
  let x := blockIdx * blockDim + threadIdx
  if x ≥ rows * cols then [] else [store (idx (x % cols) (x / cols) rows) (U x)]

section Digest

variable {key seed : Buffer U32} {keyBytes seedBytes : Bytes 32}

/-- The message of a draw is the one the reference hashes. -/
theorem packWords_ngMessage (slot i : Nat) (hSeed : ∀ j < 8, seed j = wordAt seedBytes j) :
    packWords 64 (ngMessage slot i seed) = fun x : Fin 64 =>
      if x.val < 32 then byteAt (packWords 32 fun j => if j = slot then BitVec.ofNat 32 (1 + i) else 0) x
      else byteAt seedBytes (x - 32) := by
  funext x
  have hx := x.isLt
  by_cases hLow : x.val < 32
  · have hWord : x.val / 4 < 8 := by omega
    rw [if_pos hLow, byteAt_of_lt _ hLow]
    simp only [packWords, ngMessage, if_pos hWord]
  · have hWord : ¬ x.val / 4 < 8 := by omega
    have hByte : 4 * (x.val / 4 - 8) + x.val % 4 = x.val - 32 := by omega
    rw [if_neg hLow, packWords, ngMessage, if_neg hWord, hSeed _ (by omega), wordAt,
      wordByte_leWord _ (Nat.mod_lt _ (by decide)), hByte]

/-- The digest of a draw is the one of the reference. -/
theorem ngDigest_eq (slot i : Nat) (hKey : ∀ j < 8, key j = wordAt keyBytes j)
    (hSeed : ∀ j < 8, seed j = wordAt seedBytes j) :
    packWords 32 (blake3KeyedBlock (ngMessage slot i seed) key) =
      NoiseGenerator.randomHash Blake3.keyedHash i seedBytes keyBytes slot := by
  rw [blake3KeyedBlock_congr (fun _ _ => rfl) hKey, blake3KeyedBlock_eq,
    packWords_ngMessage slot i hSeed, NoiseGenerator.randomHash]

/-- The stores of one draw of dense entries. -/
theorem kNgDense_eq (key seed : Buffer U32) (total u : Nat) :
    kNgDense key seed total 256 (u / 256) (u % 256) =
      if u * 32 ≥ total then []
      else (List.range 32).flatMap fun b => if u * 32 + b < total then
        [store (u * 32 + b) (((wordByte (blake3KeyedBlock (ngMessage 0 u seed) key (b / 4)) (b % 4) &&&
          63).setWidth 32 - 32).setWidth 8)] else [] := by
  have hIndex : u / 256 * 256 + u % 256 = u := by omega
  rw [kNgDense, hIndex]
  rfl

/-- The arithmetic of the kernel on a byte is that of the reference. -/
theorem denseEntry_eq : ∀ b : Byte, ((b &&& 63).setWidth 32 - 32).setWidth 8 =
    productionNoise.uniformEntry b := by
  decide

/-- A draw stores in its own 32 entries. -/
theorem kNgDense_addr {total u : Nat} {w : Write I8}
    (hw : w ∈ kNgDense key seed total 256 (u / 256) (u % 256)) : w.addr / 32 = u ∧ w.addr < total := by
  rw [kNgDense_eq, List.mem_ite_nil_left] at hw
  obtain ⟨b, hb, hw⟩ := List.mem_flatMap.mp hw.2
  rw [List.mem_range] at hb
  obtain ⟨hIn, hw⟩ := List.mem_ite_nil_right.mp hw
  rw [List.mem_singleton.mp hw, store_addr]
  omega

/-- The one store of an entry, by its draw. -/
theorem updatesAt_kNgDense {total x : Nat} (hx : x < total) :
    updatesAt x (kNgDense key seed total 256 (x / 32 / 256) (x / 32 % 256)) =
      [fun _ => productionNoise.uniformEntry
        (wordByte (blake3KeyedBlock (ngMessage 0 (x / 32) seed) key (x % 32 / 4)) (x % 32 % 4))] := by
  have hSplit : x / 32 * 32 + x % 32 = x := Nat.div_add_mod' x 32
  rw [kNgDense_eq, if_neg (by omega), updatesAt_flatMap_range (i := x % 32) (Nat.mod_lt _ (by decide))]
  · rw [hSplit, if_pos hx, denseEntry_eq, updatesAt_store]
  · intro b hb hNe w hw hAddr
    rw [List.mem_singleton.mp (List.mem_ite_nil_right.mp hw).2, store_addr] at hAddr
    omega

theorem dense_thread {total x : Nat} (hx : x < total) : x / 32 < gridFor ((total + 31) / 32) 256 * 256 := by
  have := le_gridFor_mul ((total + 31) / 32) (show 0 < 256 by decide)
  omega

/-- The dense launch leaves the dense matrix of the reference. -/
theorem launch_kNgDense (s : Scheduler) (out : Buffer I8) {rows i j : Nat}
    (hKey : ∀ x < 8, key x = wordAt keyBytes x) (hSeed : ∀ x < 8, seed x = wordAt seedBytes x)
    (hi : i < rows) (hj : j < 128) :
    launch1 s (gridFor ((rows * 128 + 31) / 32) 256) 256 (kNgDense key seed (rows * 128) 256) out
        (idx i j 128) = productionNoise.uniformMatrix Blake3.keyedHash seedBytes keyBytes rows i j := by
  have hLt : idx i j 128 < rows * 128 := idx_lt hi hj
  have hMod : idx i j 128 % 32 < 32 := Nat.mod_lt _ (by decide)
  have hByte : wordByte (blake3KeyedBlock (ngMessage 0 (idx i j 128 / 32) seed) key
        (idx i j 128 % 32 / 4)) (idx i j 128 % 32 % 4) =
      byteAt (NoiseGenerator.randomHash Blake3.keyedHash (idx i j 128 / 32) seedBytes keyBytes 0)
        (idx i j 128 % 32) := by
    rw [← ngDigest_eq 0 _ hKey hSeed, byteAt_of_lt _ hMod, packWords]
  rw [launch1_of_owner s (idx i j 128 / 32) (dense_thread hLt), applyAll_apply, updatesAt_kNgDense hLt, hByte,
    productionNoise.uniformMatrix_entry _ _ _ hi hj]
  · rfl
  · intro u w hw hAddr
    rw [← (kNgDense_addr hw).1, hAddr]

/-- Where entry `t` of a line is kept, counted along the rank. -/
def lineAddr (assignCols : Bool) (other line t : Nat) : Nat :=
  if assignCols then idx t line other else idx line t 128

/-- Two lines share no address, by rows or by columns, so no store of one line can
overwrite another. -/
theorem lineAddr_inj {assignCols : Bool} {other line line' t t' : Nat} (ht : t < 128) (ht' : t' < 128)
    (hLine : assignCols = true → line < other ∧ line' < other)
    (h : lineAddr assignCols other line t = lineAddr assignCols other line' t') : line = line' ∧ t = t' := by
  cases assignCols with
  | true => exact (idx_inj (hLine rfl).1 (hLine rfl).2 h).symm
  | false => exact idx_inj ht ht' h

/-- The two stores of a line. -/
def lineStores (assignCols : Bool) (other line : Nat) (u : U32) : List (Write I8) :=
  [store (lineAddr assignCols other line (productionNoise.firstIdx u.toNat)) 1,
    store (lineAddr assignCols other line (productionNoise.secondIdx u.toNat)) (-1)]

/-- The stores of one line stay within the 128 addresses of that line. -/
theorem lineStores_addr {assignCols : Bool} {other line : Nat} {u : U32} {w : Write I8}
    (hw : w ∈ lineStores assignCols other line u) : ∃ t < 128, w.addr = lineAddr assignCols other line t := by
  rcases List.mem_cons.mp hw with rfl | hw
  · exact ⟨_, productionNoise.firstIdx_lt _, rfl⟩
  · rw [List.mem_singleton.mp hw]
    exact ⟨_, productionNoise.secondIdx_lt _, rfl⟩

/-- On zeros the two stores leave the line of the reference. -/
theorem applyAll_lineStores {assignCols : Bool} {other line t : Nat} {out : Buffer I8}
    (hOther : assignCols = true → line < other) (u : U32) (ht : t < 128)
    (hZero : out (lineAddr assignCols other line t) = 0) :
    applyAll out (lineStores assignCols other line u) (lineAddr assignCols other line t) =
      productionNoise.permLine u.toNat t := by
  have hIff {i : Nat} (hi : i < 128) :
      lineAddr assignCols other line t = lineAddr assignCols other line i ↔ t = i :=
    ⟨fun h => (lineAddr_inj ht hi (fun hc => ⟨hOther hc, hOther hc⟩) h).2, fun h => h ▸ rfl⟩
  simp only [lineStores, applyAll, List.foldl_cons, List.foldl_nil, applyWrite, store,
    NoiseGenerator.permLine, Function.update_apply, hIff (productionNoise.firstIdx_lt _),
    hIff (productionNoise.secondIdx_lt _), hZero]

/-- The device's high product `__umulhi` is the reference's, and one more than it does not
wrap. -/
theorem mulhiU32_toNat (u : U32) : (1 + mulhiU32 127 u).toNat = 1 + mulHiU32 127 u.toNat := by
  have hu := u.isLt
  have hHigh : 127 * u.toNat / 2 ^ 32 < 127 := by omega
  have hProduct : (mulhiU32 127 u).toNat = 127 * u.toNat / 2 ^ 32 := by
    have h127 : (127 : U32).toNat % 2 ^ 64 = 127 := by decide
    rw [mulhiU32, BitVec.toNat_setWidth, BitVec.toNat_ushiftRight, BitVec.toNat_mul,
      BitVec.toNat_setWidth, BitVec.toNat_setWidth, h127, Nat.shiftRight_eq_div_pow,
      Nat.mod_eq_of_lt (show u.toNat < 2 ^ 64 by omega),
      Nat.mod_eq_of_lt (show 127 * u.toNat < 2 ^ 64 by omega), Nat.mod_eq_of_lt (by omega)]
  have hOne : (1 : U32).toNat = 1 := rfl
  have hSmall : 127 % 2 ^ 32 = 127 := rfl
  rw [BitVec.toNat_add, hProduct, hOne, mulHiU32, Nat.mod_eq_of_lt hu, hSmall,
    Nat.mod_eq_of_lt (by omega : 1 + 127 * u.toNat / 2 ^ 32 < 2 ^ 32)]

/-- The indices of the kernel are those of the reference. -/
theorem indices_eq (u : U32) : (u &&& 127).toNat = productionNoise.firstIdx u.toNat ∧
    ((u &&& 127) ^^^ (1 + mulhiU32 127 u)).toNat = productionNoise.secondIdx u.toNat := by
  have hFirst : (u &&& 127).toNat = productionNoise.firstIdx u.toNat := BitVec.toNat_and _ _
  refine ⟨hFirst, ?_⟩
  rw [BitVec.toNat_xor, hFirst, mulhiU32_toNat, productionNoise.secondIdx_eq u.isLt]
  rfl

/-- The stores of one draw of lines. -/
theorem kNgPerm_eq (key seed : Buffer U32) (required : Nat) (assignCols : Bool) (other u : Nat) :
    kNgPerm key seed required assignCols 128 other 256 (u / 256) (u % 256) =
      if u * 8 ≥ required then []
      else (List.range 8).flatMap fun kk => if u * 8 + kk < required then
        lineStores assignCols other (u * 8 + kk) (blake3KeyedBlock (ngMessage 1 u seed) key kk) else [] := by
  have hIndex : u / 256 * 256 + u % 256 = u := by omega
  rw [kNgPerm, hIndex]
  by_cases hOut : u * 8 ≥ required
  · rw [if_pos hOut, if_pos hOut]
  · rw [if_neg hOut, if_neg hOut]
    apply List.flatMap_congr
    intro kk _
    obtain ⟨hFirst, hSecond⟩ := indices_eq (blake3KeyedBlock (ngMessage 1 u seed) key kk)
    simp only [lineStores, ← hFirst, ← hSecond]
    cases assignCols <;> rfl

/-- A draw stores in its own eight lines. -/
theorem kNgPerm_line {required other u : Nat} {assignCols : Bool} {w : Write I8}
    (hw : w ∈ kNgPerm key seed required assignCols 128 other 256 (u / 256) (u % 256)) :
    ∃ line < required, line / 8 = u ∧ ∃ t < 128, w.addr = lineAddr assignCols other line t := by
  rw [kNgPerm_eq, List.mem_ite_nil_left] at hw
  obtain ⟨kk, hkk, hw⟩ := List.mem_flatMap.mp hw.2
  rw [List.mem_range] at hkk
  obtain ⟨hIn, hw⟩ := List.mem_ite_nil_right.mp hw
  exact ⟨u * 8 + kk, hIn, by omega, lineStores_addr hw⟩

/-- A line is stored by its draw alone. -/
theorem kNgPerm_owner {required other u line t : Nat} {assignCols : Bool} {w : Write I8}
    (hw : w ∈ kNgPerm key seed required assignCols 128 other 256 (u / 256) (u % 256))
    (hOther : assignCols = true → required ≤ other) (hLine : line < required) (ht : t < 128)
    (hAddr : w.addr = lineAddr assignCols other line t) : u = line / 8 := by
  obtain ⟨line', hLine', rfl, t', ht', hAddr'⟩ := kNgPerm_line hw
  have hBounds (h : assignCols = true) : line' < other ∧ line < other := by
    have := hOther h
    omega
  rw [(lineAddr_inj ht' ht hBounds (hAddr'.symm.trans hAddr)).1]

/-- The permutation launch on zeroed memory leaves the lines of the reference. -/
theorem launch_kNgPerm (s : Scheduler) (out : Buffer I8) {required other line t : Nat}
    (assignCols : Bool) (hKey : ∀ x < 8, key x = wordAt keyBytes x)
    (hSeed : ∀ x < 8, seed x = wordAt seedBytes x) (hOther : assignCols = true → required ≤ other)
    (hLine : line < required) (ht : t < 128) (hZero : out (lineAddr assignCols other line t) = 0) :
    launch1 s (gridFor ((required + 7) / 8) 256) 256
        (kNgPerm key seed required assignCols 128 other 256) out (lineAddr assignCols other line t) =
      NoiseGenerator.lineEntry assignCols (productionNoise.permutationMatrix Blake3.keyedHash seedBytes
        keyBytes required assignCols) line t := by
  have hThread : line / 8 < gridFor ((required + 7) / 8) 256 * 256 := by
    have := le_gridFor_mul ((required + 7) / 8) (show 0 < 256 by decide)
    omega
  rw [launch1_of_owner s (line / 8) hThread fun _ _ hw => kNgPerm_owner hw hOther hLine ht, kNgPerm_eq,
    if_neg (by omega), applyAll_apply, updatesAt_flatMap_range (i := line % 8) (Nat.mod_lt _ (by decide)),
    ← applyAll_apply]
  · have hSplit : line / 8 * 8 + line % 8 = line := by omega
    have hWord : (blake3KeyedBlock (ngMessage 1 (line / 8) seed) key (line % 8)).toNat =
        NoiseGenerator.lineWord Blake3.keyedHash seedBytes keyBytes line := by
      rw [NoiseGenerator.lineWord, ← ngDigest_eq 1 _ hKey hSeed, wordAt_packWords _ (by omega)]
    rw [hSplit, if_pos hLine, productionNoise.permutationMatrix_line _ _ _ _ _ hLine, ← hWord]
    exact applyAll_lineStores (fun h => hOther h |> Nat.lt_of_lt_of_le hLine) _ ht hZero
  · intro kk hkk hNe w hw hAddr
    obtain ⟨hIn, hw⟩ := List.mem_ite_nil_right.mp hw
    have hBounds (h : assignCols = true) : line / 8 * 8 + kk < other ∧ line < other := by
      have := hOther h
      omega
    obtain ⟨t', ht', hAddr'⟩ := lineStores_addr hw
    obtain ⟨hSame, -⟩ := lineAddr_inj ht' ht hBounds (hAddr'.symm.trans hAddr)
    omega

end Digest

section Transpose

variable {U : Buffer I8} {rows cols : Nat}

theorem kTranspose_eq (U : Buffer I8) (rows cols u : Nat) :
    kTranspose U rows cols 256 (u / 256) (u % 256) =
      if u ≥ rows * cols then [] else [store (idx (u % cols) (u / cols) rows) (U u)] := by
  have hIndex : u / 256 * 256 + u % 256 = u := by omega
  rw [kTranspose, hIndex]

/-- The one store of a transposed entry. -/
theorem updatesAt_kTranspose {i j : Nat} (hi : i < rows) (hj : j < cols) :
    updatesAt (idx j i rows) (kTranspose U rows cols 256 (idx i j cols / 256) (idx i j cols % 256)) =
      [fun _ => matrixOf cols U i j] := by
  have hLt : idx i j cols < rows * cols := idx_lt hi hj
  rw [kTranspose_eq, if_neg (by omega), idx_mod hj, idx_div hj, updatesAt_store, matrixOf]

/-- An entry of the transpose is stored by one thread only, the one whose number is the
entry's flat index in the source matrix. -/
theorem kTranspose_owner {i j u : Nat} {w : Write I8} (hi : i < rows)
    (hw : w ∈ kTranspose U rows cols 256 (u / 256) (u % 256)) (hAddr : w.addr = idx j i rows) :
    u = idx i j cols := by
  rw [kTranspose_eq] at hw
  obtain ⟨hIn, hw⟩ := List.mem_ite_nil_left.mp hw
  rw [List.mem_singleton.mp hw, store_addr] at hAddr
  have hRow : u / cols < rows := Nat.div_lt_of_lt_mul (by rw [Nat.mul_comm]; omega)
  obtain ⟨hCol, hRow⟩ := idx_inj hRow hi hAddr
  rw [← idx_div_mod u cols, hRow, hCol]

theorem transpose_thread {i j : Nat} (hi : i < rows) (hj : j < cols) :
    idx i j cols < gridFor (rows * cols) 256 * 256 :=
  Nat.lt_of_lt_of_le (idx_lt hi hj) (le_gridFor_mul _ (by decide))

/-- The transposing launch. -/
theorem launch_kTranspose (s : Scheduler) (U out : Buffer I8) {rows cols i j : Nat} (hi : i < rows)
    (hj : j < cols) :
    matrixOf rows (launch1 s (gridFor (rows * cols) 256) 256 (kTranspose U rows cols 256) out) j i =
      matrixOf cols U i j := by
  rw [matrixOf, launch1_of_owner s (idx i j cols) (transpose_thread hi hj) fun _ _ => kTranspose_owner hi,
    applyAll_apply, updatesAt_kTranspose hi hj]
  rfl

end Transpose

/-- The four noise factors in device memory. -/
structure NoiseBuffers where
  dEAL : Buffer I8
  dEAR : Buffer I8
  dEBL : Buffer I8
  dEBR : Buffer I8

/-- The fills of the permutation factors and the noise launches of a keyed
attempt. Also the scratch buffer of the transposed factor. -/
def generateNoise (sched : Nat → Scheduler) (keyA keyB dSA dSB : Buffer U32) (m k n r : Nat)
    (noise : NoiseBuffers) (dU : Buffer I8) : NoiseBuffers × Buffer I8 :=
  let T := 256
  let dEAR := memset noise.dEAR 0 (r * k)
  let dEBL := memset noise.dEBL 0 (k * r)
  let dEAL := launch1 (sched 0) (gridFor ((m * r + 31) / 32) T) T (kNgDense keyA dSA (m * r) T) noise.dEAL
  let dEAR := launch1 (sched 1) (gridFor ((k + 7) / 8) T) T (kNgPerm keyA dSA k true r k T) dEAR
  let dEBL := launch1 (sched 2) (gridFor ((k + 7) / 8) T) T (kNgPerm keyB dSB k false r k T) dEBL
  let dU := launch1 (sched 3) (gridFor ((n * r + 31) / 32) T) T (kNgDense keyB dSB (n * r) T) dU
  let dEBR := launch1 (sched 4) (gridFor (n * r) T) T (kTranspose dU n r T) noise.dEBR
  (⟨dEAL, dEAR, dEBL, dEBR⟩, dU)

/-- The noise of two keys in the reference. -/
def referenceNoise (keyA keyB : Bytes 32) (m k n : Nat) : NoiseGenerator.Noise where
  E_AL := productionNoise.uniformMatrix Blake3.keyedHash NoiseGenerator.seedA keyA m
  E_AR := productionNoise.permutationMatrix Blake3.keyedHash NoiseGenerator.seedA keyA k true
  E_BL := productionNoise.permutationMatrix Blake3.keyedHash NoiseGenerator.seedB keyB k false
  E_BR := fun i j => productionNoise.uniformMatrix Blake3.keyedHash NoiseGenerator.seedB keyB n j i

/-- The generator returns it where it accepts the dimensions. -/
theorem generate_eq (keyA keyB : Bytes 32) {m k n : Nat} (hm : 128 ≤ m) (hk : 128 ≤ k) (hn : 128 ≤ n) :
    productionNoise.generate Blake3.keyedHash keyA keyB m k n = .ok (referenceNoise keyA keyB m k n) := by
  have hDim (name : String) {d : Nat} (hd : 128 ≤ d) : productionNoise.checkDim name d = .ok () :=
    if_neg (Nat.not_lt.mpr hd)
  rw [NoiseGenerator.generate, hDim _ hm, hDim _ hk, hDim _ hn]
  rfl

/-- Buffers with the factors of a noise. -/
structure NoiseBuffers.Holds (noise : NoiseBuffers) (E : NoiseGenerator.Noise) (m k n : Nat) : Prop where
  eal : ∀ i < m, ∀ c < 128, matrixOf 128 noise.dEAL i c = E.E_AL i c
  ear : ∀ c < 128, ∀ i < k, matrixOf k noise.dEAR c i = E.E_AR c i
  ebl : ∀ i < k, ∀ c < 128, matrixOf 128 noise.dEBL i c = E.E_BL i c
  ebr : ∀ c < 128, ∀ i < n, matrixOf n noise.dEBR c i = E.E_BR c i

/-- The launches leave the noise of the reference, whatever was in the buffers. -/
theorem generateNoise_holds (sched : Nat → Scheduler) (keyA keyB : Bytes 32)
    {dKeyA dKeyB dSA dSB : Buffer U32} (m k n : Nat) (noise : NoiseBuffers) (dU : Buffer I8)
    (hKeyA : ∀ x < 8, dKeyA x = wordAt keyA x) (hKeyB : ∀ x < 8, dKeyB x = wordAt keyB x)
    (hSA : ∀ x < 8, dSA x = wordAt NoiseGenerator.seedA x)
    (hSB : ∀ x < 8, dSB x = wordAt NoiseGenerator.seedB x) :
    (generateNoise sched dKeyA dKeyB dSA dSB m k n 128 noise dU).1.Holds (referenceNoise keyA keyB m k n)
      m k n where
  eal _ hi _ hc := launch_kNgDense (sched 0) _ hKeyA hSA hi hc
  ear _ hc _ hi := launch_kNgPerm (sched 1) _ true hKeyA hSA (fun _ => le_refl k) hi hc
    (memset_of_lt (idx_lt hc hi))
  ebl _ hi _ hc := launch_kNgPerm (sched 2) _ false hKeyB hSB (fun _ => le_refl k) hi hc
    (memset_of_lt (idx_lt hi hc))
  ebr _ hc _ hi := (launch_kTranspose (sched 4) _ _ hi hc).trans
    (launch_kNgDense (sched 3) _ hKeyB hSB hi hc)

end Cuda
