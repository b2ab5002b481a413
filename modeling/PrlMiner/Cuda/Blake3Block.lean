import PrlMiner.Cuda.Device
import PrlMiner.Library.Blake3

/-! The device hash of one 64-byte block and its agreement with keyed BLAKE3.
Two sources carry a copy of it, each with its own tables. -/
namespace Cuda

open FixedWidth LittleEndian

def rotr32 (x : U32) (n : Nat) : U32 := (x >>> n) ||| (x <<< (32 - n))

/-- `gmix` on the state array. -/
def gmix (s : Vector U32 16) (a b c d : Fin 16) (mx my : U32) : Vector U32 16 :=
  let s := s.set a (s[a] + s[b] + mx)
  let s := s.set d (rotr32 (s[d] ^^^ s[a]) 16)
  let s := s.set c (s[c] + s[d])
  let s := s.set b (rotr32 (s[b] ^^^ s[c]) 12)
  let s := s.set a (s[a] + s[b] + my)
  let s := s.set d (rotr32 (s[d] ^^^ s[a]) 8)
  let s := s.set c (s[c] + s[d])
  s.set b (rotr32 (s[b] ^^^ s[c]) 7)

def msgSched : Vector (Vector (Fin 16) 16) 7 :=
  #v[#v[0, 1, 2, 3, 4, 5, 6, 7, 8, 9, 10, 11, 12, 13, 14, 15],
    #v[2, 6, 3, 10, 7, 0, 4, 13, 1, 11, 12, 5, 9, 14, 15, 8],
    #v[3, 4, 10, 12, 13, 2, 7, 14, 6, 5, 9, 0, 11, 15, 8, 1],
    #v[10, 7, 12, 9, 14, 3, 13, 15, 4, 0, 11, 2, 5, 8, 1, 6],
    #v[12, 13, 9, 11, 15, 10, 14, 8, 7, 2, 5, 3, 0, 1, 6, 4],
    #v[9, 14, 11, 5, 8, 12, 15, 1, 13, 3, 0, 10, 2, 6, 4, 7],
    #v[11, 15, 5, 0, 1, 9, 8, 6, 14, 10, 2, 12, 3, 4, 7, 13]]

def b3iv : Vector U32 8 :=
  #v[0x6A09E667, 0xBB67AE85, 0x3C6EF372, 0xA54FF53A, 0x510E527F, 0x9B05688C, 0x1F83D9AB, 0x5BE0CD19]

/-- The body of the round loop. -/
def blake3Round (msg : Nat → U32) (s : Vector U32 16) (sc : Vector (Fin 16) 16) : Vector U32 16 :=
  let s := gmix s 0 4 8 12 (msg sc[0]) (msg sc[1])
  let s := gmix s 1 5 9 13 (msg sc[2]) (msg sc[3])
  let s := gmix s 2 6 10 14 (msg sc[4]) (msg sc[5])
  let s := gmix s 3 7 11 15 (msg sc[6]) (msg sc[7])
  let s := gmix s 0 5 10 15 (msg sc[8]) (msg sc[9])
  let s := gmix s 1 6 11 12 (msg sc[10]) (msg sc[11])
  let s := gmix s 2 7 8 13 (msg sc[12]) (msg sc[13])
  gmix s 3 4 9 14 (msg sc[14]) (msg sc[15])

/-- The body of `blake3_keyed_block`, given its two tables: eight output words. -/
def keyedBlock (sched : Vector (Vector (Fin 16) 16) 7) (iv : Vector U32 8) (msg key : Nat → U32) :
    Nat → U32 :=
  let s : Vector U32 16 := #v[key 0, key 1, key 2, key 3, key 4, key 5, key 6, key 7,
    iv[0], iv[1], iv[2], iv[3], 0, 0, 64, 1 ||| 2 ||| 8 ||| 16]
  let s := sched.toList.foldl (blake3Round msg) s
  fun i => if h : i < 8 then s[i] ^^^ s[i + 8] else 0

/-- `blake3_keyed_block` of `mine_sm86.cu`. -/
def blake3KeyedBlock (msg key : Nat → U32) : Nat → U32 := keyedBlock msgSched b3iv msg key

/-- The message words in the order of one round. -/
def gather (msg : Nat → U32) (sc : Vector (Fin 16) 16) : Blake3.Block := Vector.ofFn fun i => msg sc[i]

theorem gather_get (msg : Nat → U32) (sc : Vector (Fin 16) 16) (i : Fin 16) :
    (gather msg sc).get i = msg sc[i] := Vector.getElem_ofFn i.isLt

/-- The row that takes the words in permuted order. -/
def permuteRow (sc : Vector (Fin 16) 16) : Vector (Fin 16) 16 :=
  Vector.ofFn fun i => sc.get (Blake3.msgPermutation.get i)

theorem permute_gather (msg : Nat → U32) (sc : Vector (Fin 16) 16) :
    Blake3.permute (gather msg sc) = gather msg (permuteRow sc) := by
  apply Vector.ext
  intro i hi
  simp only [Blake3.permute, Vector.getElem_ofFn, gather_get]
  simp only [gather, permuteRow, Vector.getElem_ofFn, Fin.getElem_fin]
  rfl

theorem gmix_eq (s : Vector U32 16) (a b c d : Fin 16) (mx my : U32) :
    gmix s a b c d mx my = Blake3.mix s a b c d mx my := rfl

/-- One unrolled round of the kernel is the round of the hash on the words that the
schedule row picks out. -/
theorem blake3Round_eq (msg : Nat → U32) (s : Vector U32 16) (sc : Vector (Fin 16) 16) :
    blake3Round msg s sc = Blake3.round s (gather msg sc) := by
  simp only [blake3Round, Blake3.round, gmix_eq, gather_get]
  rfl

/-- Sixteen message words and eight key words are read. -/
theorem blake3KeyedBlock_congr {msg msg' key key' : Nat → U32} (hMsg : ∀ i < 16, msg i = msg' i)
    (hKey : ∀ i < 8, key i = key' i) : blake3KeyedBlock msg key = blake3KeyedBlock msg' key' := by
  have hRound : blake3Round msg = blake3Round msg' := by
    funext s sc
    have hGather : gather msg sc = gather msg' sc := by
      apply Vector.ext
      intro i hi
      simp only [gather, Vector.getElem_ofFn]
      exact hMsg _ (Fin.isLt _)
    rw [blake3Round_eq, blake3Round_eq, hGather]
  simp only [blake3KeyedBlock, keyedBlock, hRound, hKey 0 (by omega), hKey 1 (by omega),
    hKey 2 (by omega), hKey 3 (by omega), hKey 4 (by omega), hKey 5 (by omega), hKey 6 (by omega),
    hKey 7 (by omega)]

/-- A schedule in which each row is the one before it, permuted, makes the rounds with
the message permuted in between. -/
theorem foldl_scheduled (msg : Nat → U32) {sc : Vector (Fin 16) 16} {rows : List (Vector (Fin 16) 16)}
    (hRows : (sc :: rows).IsChain fun sc next => next = permuteRow sc) (s : Vector U32 16) :
    (sc :: rows).foldl (blake3Round msg) s = Blake3.rounds (rows.length + 1) s (gather msg sc) := by
  induction rows generalizing sc s with
  | nil => exact blake3Round_eq msg s sc
  | cons next rows ih =>
      obtain ⟨hNext, hRest⟩ := List.isChain_cons_cons.mp hRows
      rw [List.foldl_cons, ih hRest, blake3Round_eq, hNext, ← permute_gather]
      rfl

/-- Each row of the schedule table is the permutation of the row before it, so the table
replaces the permuting of the message. -/
theorem msgSched_chain : msgSched.toList.IsChain fun sc next => next = permuteRow sc := by
  decide

/-- The seven rows of the table are the seven rounds of the compression. -/
theorem foldl_blake3Round (msg : Nat → U32) (s : Vector U32 16) :
    msgSched.toList.foldl (blake3Round msg) s = Blake3.rounds 7 s (gather msg msgSched[0]) :=
  foldl_scheduled msg msgSched_chain s

theorem msgSched_zero : ∀ i : Fin 16, msgSched[0][i] = i := by
  decide

/-- The device hash is keyed BLAKE3 of the packed message. -/
theorem blake3KeyedBlock_eq (msg : Nat → U32) (key : Bytes 32) :
    packWords 32 (blake3KeyedBlock msg (wordAt key)) = Blake3.keyedHash (packWords 64 msg) key := by
  have hMsg : (Vector.ofFn fun i : Fin 16 => wordAt (packWords 64 msg) i) = gather msg msgSched[0] := by
    apply Vector.ext
    intro i hi
    rw [gather, Vector.getElem_ofFn, Vector.getElem_ofFn, wordAt_packWords msg (by omega)]
    rw [msgSched_zero]
  rw [Blake3.keyedHash, hMsg]
  apply packWords_congr
  intro i hi
  have h8 : i < 8 := by omega
  have h16 : i < 16 := by omega
  simp only [blake3KeyedBlock, keyedBlock, dif_pos h8, dif_pos h16, Blake3.compress, Vector.getElem_ofFn,
    foldl_blake3Round, Blake3.initial]
  rfl

/-- The same for a key that is given by its words. -/
theorem blake3KeyedBlock_words (msg key : Nat → U32) :
    packWords 32 (blake3KeyedBlock msg key) = Blake3.keyedHash (packWords 64 msg) (packWords 32 key) := by
  have hKey : blake3KeyedBlock msg key = blake3KeyedBlock msg (wordAt (packWords 32 key)) :=
    blake3KeyedBlock_congr (fun _ _ => rfl) fun i hi => (wordAt_packWords key (by omega)).symm
  rw [hKey, blake3KeyedBlock_eq]

end Cuda
