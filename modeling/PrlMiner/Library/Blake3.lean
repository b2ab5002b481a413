import PrlMiner.Library.LittleEndian

/-! The BLAKE3 compression function and the keyed hash of one 64-byte block:
seven rounds with the message permuted between them. A message of one block is
a single chunk, so its compression is the root and no tree is built. -/
namespace Blake3

open FixedWidth LittleEndian

/-- The sixteen working words. -/
abbrev State := Vector U32 16

/-- The sixteen words of a message block. -/
abbrev Block := Vector U32 16

/-- Word numbers are literals of `Fin 16`. -/
instance word_neZero : NeZero 16 := ⟨by decide⟩

def iv : Vector U32 8 :=
  Array.toVector
    #[0x6A09E667, 0xBB67AE85, 0x3C6EF372, 0xA54FF53A, 0x510E527F, 0x9B05688C, 0x1F83D9AB, 0x5BE0CD19]

def msgPermutation : Vector (Fin 16) 16 :=
  Array.toVector #[2, 6, 3, 10, 7, 0, 4, 13, 1, 11, 12, 5, 9, 14, 15, 8]

def rotateRight (x : U32) (n : Nat) : U32 := (x >>> n) ||| (x <<< (32 - n))

/-- Domain separation flags of a block. -/
def chunkStart : U32 := 1
def chunkEnd : U32 := 2
def root : U32 := 8
def keyedHashFlag : U32 := 16

def put {n : Nat} (v : Vector U32 n) (i : Fin n) (x : U32) : Vector U32 n := v.set i x

/-- The quarter round on words `a b c d` with two message words. -/
def mix (s : State) (a b c d : Fin 16) (mx my : U32) : State :=
  let s := put s a (s.get a + s.get b + mx)
  let s := put s d (rotateRight (s.get d ^^^ s.get a) 16)
  let s := put s c (s.get c + s.get d)
  let s := put s b (rotateRight (s.get b ^^^ s.get c) 12)
  let s := put s a (s.get a + s.get b + my)
  let s := put s d (rotateRight (s.get d ^^^ s.get a) 8)
  let s := put s c (s.get c + s.get d)
  put s b (rotateRight (s.get b ^^^ s.get c) 7)

/-- Columns, then diagonals. -/
def round (s : State) (m : Block) : State :=
  let s := mix s 0 4 8 12 (m.get 0) (m.get 1)
  let s := mix s 1 5 9 13 (m.get 2) (m.get 3)
  let s := mix s 2 6 10 14 (m.get 4) (m.get 5)
  let s := mix s 3 7 11 15 (m.get 6) (m.get 7)
  let s := mix s 0 5 10 15 (m.get 8) (m.get 9)
  let s := mix s 1 6 11 12 (m.get 10) (m.get 11)
  let s := mix s 2 7 8 13 (m.get 12) (m.get 13)
  mix s 3 4 9 14 (m.get 14) (m.get 15)

def permute (m : Block) : Block := Vector.ofFn fun i => m.get (msgPermutation.get i)

/-- `n` rounds, the message permuted after each. -/
def rounds : Nat → State → Block → State
  | 0, s, _ => s
  | n + 1, s, m => rounds n (round s m) (permute m)

/-- The state a block is compressed from. -/
def initial (cv : Vector U32 8) (counter : BitVec 64) (blockLen flags : U32) : State :=
  #v[cv.get 0, cv.get 1, cv.get 2, cv.get 3, cv.get 4, cv.get 5, cv.get 6, cv.get 7, iv.get 0, iv.get 1,
    iv.get 2, iv.get 3, counter.setWidth 32, (counter >>> 32).setWidth 32, blockLen, flags]

/-- The sixteen output words. -/
def compress (cv : Vector U32 8) (m : Block) (counter : BitVec 64) (blockLen flags : U32) : State :=
  let s := rounds 7 (initial cv counter blockLen flags) m
  Vector.ofFn fun i => if h : i.val < 8 then s.get i ^^^ s[i.val + 8] else s.get i ^^^ cv[i.val - 8]

/-- The keyed hash of a 64-byte message. -/
def keyedHash (msg : Bytes 64) (key : Bytes 32) : Bytes 32 :=
  let out := compress (Vector.ofFn fun i => wordAt key i) (Vector.ofFn fun i => wordAt msg i) 0 64
    (chunkStart ||| chunkEnd ||| root ||| keyedHashFlag)
  packWords 32 (fun i => if h : i < 16 then out[i] else 0)

end Blake3
