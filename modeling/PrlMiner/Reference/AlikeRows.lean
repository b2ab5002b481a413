import PrlMiner.Reference.EasiestTarget

/-! Factors whose rows are alike. Every column of a hash tile of even height then folds to
zero, so the transcript is zero whatever the other factor is, and only the key and the
target decide whether a tile wins. -/
namespace Reference

open FixedWidth LittleEndian Reduction

/-- Every row of the matrix is its first one. -/
def AlikeRows (A : Mat I8) : Prop := ∀ i c, A i c = A 0 c

theorem alikeRows_const (x : I8) : AlikeRows fun _ _ => x := fun _ _ => rfl

/-- Noise whose left factor has equal rows leaves the rows equal. -/
theorem AlikeRows.addNoise {A E_AL : Mat I8} (hA : AlikeRows A) (hE : AlikeRows E_AL) (r : Nat)
    (E_AR : Mat I8) : AlikeRows (NoisyGemm.addNoise r A E_AL E_AR) := by
  intro i c
  have hNoise : matmul r (i64 E_AL) (i64 E_AR) i c = matmul r (i64 E_AL) (i64 E_AR) 0 c :=
    accumulate_congr fun t _ => by rw [i64, hE i t]; rfl
  simp only [NoisyGemm.addNoise, narrow, hA i c, hNoise]

/-- An even number of equal words cancel. -/
theorem reduce_xor_even (x : U32) (n : Nat) : reduce (· ^^^ ·) 0 (n + n) (fun _ => x) = 0 := by
  induction n with
  | zero => rfl
  | succ n ih =>
      rw [show n + 1 + (n + 1) = n + n + 1 + 1 by omega, reduce_succ, reduce_succ, ih, BitVec.xor_assoc,
        BitVec.xor_self]
      rfl

variable {A B : Mat I8} {th tw r chunks row col : Nat}

/-- Words of equal rows cancel in pairs under exclusive or, so a tile of an even height
hashes to zero in every chunk. -/
theorem tileHash_alike (hA : AlikeRows A) (hEven : Even th) (p : Nat) : tileHash A B th tw row col p = 0 := by
  obtain ⟨half, rfl⟩ := hEven
  -- the XOR along a row is the same for every row
  have hRows (a : Nat) : reduce (· ^^^ ·) 0 tw (fun b => prefixProduct A B p (row + a) (col + b)) =
      reduce (· ^^^ ·) 0 tw (fun b => prefixProduct A B p row (col + b)) :=
    reduce_congr fun b _ => accumulate_congr fun c _ => by rw [hA (row + a) c, hA row c]
  rw [tileHash, innerHashTile_eq_nested, reduce_congr fun a _ => hRows a]
  exact reduce_xor_even _ half

/-- The transcript of every tile of even height is zero. -/
theorem transcript_alike (hA : AlikeRows A) (hEven : Even th) (s : Nat) :
    transcript A B r th tw chunks row col s = 0 := by
  rw [transcript]
  simp only [tileHash_alike hA hEven]
  induction chunks with
  | zero => rfl
  | succ chunks ih =>
      rw [foldChunks_succ, ih]
      split_ifs <;> rfl

/-- The digest that decides: that of sixteen zero words under the key. -/
def zeroDigest (blake3 : Blake3Package) (powKey : Bytes 32) : Nat :=
  fromBytes (blake3 (packWords 64 fun _ => 0) powKey)

section Search

variable {g : NoisyGemm} {blake3 : Blake3Package} {m k n : Nat} {powKey : Bytes 32} {powTarget : Int}

/-- With rows all alike every full tile has the zero transcript, so whether a tile wins is
a question about one digest. -/
theorem wins_alike_iff (hA : AlikeRows A) (hEven : Even g.hashTileH.toNat) (t : HashTile) :
    t.Wins g blake3 A B m k n powKey powTarget ↔
      t.Full g m n ∧ g.noiseRank.toNat ≤ k ∧ zeroDigest blake3 powKey ≤ powTarget := by
  have hWords : t.words g A B k = fun _ => 0 := funext fun s => transcript_alike hA hEven s
  constructor
  · rintro ⟨hFull, hChunk, hDigest⟩
    rw [hWords] at hDigest
    exact ⟨hFull, hChunk, hDigest⟩
  · rintro ⟨hFull, hChunk, hDigest⟩
    exact ⟨hFull, hChunk, by rw [hWords]; exact hDigest⟩

/-- The search opens a tile exactly when there is one to hash and its digest meets the target. -/
theorem searchTiles_alike_isSome_iff (hA : AlikeRows A) (hEven : Even g.hashTileH.toNat)
    (hRank : 0 < g.noiseRank.toNat) : (searchTiles g blake3 A B m k n powKey powTarget).isSome = true ↔
      (∃ t : HashTile, t.Full g m n) ∧ g.noiseRank.toNat ≤ k ∧ zeroDigest blake3 powKey ≤ powTarget := by
  rw [searchTiles_isSome_iff hRank]
  simp only [wins_alike_iff hA hEven, exists_and_right]

/-- On factors with equal rows a run finds a tile exactly when the digest of the zero
transcript meets the target. -/
theorem run_found_alike {r : Nat} {E : NoiseGenerator.Noise} {res : RunResult} (hA : AlikeRows A)
    (hE : AlikeRows E.E_AL) (hEven : Even g.hashTileH.toNat) (hRank : 0 < g.noiseRank)
    (hTiles : (1 ≤ g.hashTileH ∧ g.hashTileH ≤ g.noiseRank) ∧ 1 ≤ g.hashTileW ∧ g.hashTileW ≤ g.noiseRank)
    (hRun : g.run blake3 m k n r A B E powKey powTarget = .ok res) :
    res.found = true ↔ zeroDigest blake3 powKey ≤ powTarget := by
  have hAccepts := NoisyGemm.accepts_of_run hRank hRun
  obtain ⟨hM, hK, hN⟩ := hAccepts.shape
  have hFitsH := g.tileHFits
  have hFitsW := g.tileWFits
  obtain ⟨C, noised, hEq, -, -⟩ := NoisyGemm.run_eq blake3 r E powKey hRank hAccepts
  obtain rfl : _ = res := Except.ok.inj (hEq.symm.trans hRun)
  refine (searchTiles_alike_isSome_iff (hA.addNoise hE r E.E_AR) hEven (by omega)).trans ?_
  rw [exists_full_iff (by omega) (by omega)]
  exact ⟨fun h => h.2.2, fun h => ⟨hTiles, by omega, h⟩⟩

end Search

/-- A target between the digests of the zero transcript under two keys. -/
def middleTarget : Nat := 10 ^ 76

/-- Under the key of zero bytes the zero transcript wins at `middleTarget`. -/
theorem zeroDigest_wins : zeroDigest Blake3.keyedHash 0 ≤ middleTarget := by decide +kernel

/-- Under the key whose bytes are 2 it does not. -/
theorem zeroDigest_loses : middleTarget < zeroDigest Blake3.keyedHash 2 := by decide +kernel

end Reference
