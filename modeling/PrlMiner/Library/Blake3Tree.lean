import Mathlib.Data.Nat.Log
import PrlMiner.Library.Blake3

/-! The keyed hash of a message of any length: blocks are chained to chunks of 1024
bytes, and chunks are joined in a tree whose left parts are full. A message of one
block is hashed by one compression. -/
namespace Blake3

open FixedWidth LittleEndian

def parentFlag : U32 := 4

/-- A compression still to be made. At the root it gets one more flag. -/
structure Output where
  cv : Vector U32 8
  block : Block
  counter : Nat
  blockLen : Nat
  flags : U32

def Output.words (o : Output) (flags : U32) : State :=
  compress o.cv o.block (BitVec.ofNat 64 o.counter) (BitVec.ofNat 32 o.blockLen) (o.flags ||| flags)

/-- The value that goes into the next compression. -/
def Output.chain (o : Output) : Vector U32 8 := Vector.ofFn fun i => (o.words 0)[i.val]

def Output.digest (o : Output) : Bytes 32 := packWords 32 fun i => if h : i < 16 then (o.words root)[i] else 0

/-- At most 64 bytes as a block, padded with zeros. -/
def loadBlock (bytes : List Byte) : Block := Vector.ofFn fun i => leWord fun x => bytes.getD (4 * i + x) 0

/-- A chunk from a block on after which there are `n` more. -/
def chunkFrom (mode : U32) (counter : Nat) : Nat → U32 → Vector U32 8 → List Byte → Output
  | 0, start, cv, bytes => ⟨cv, loadBlock bytes, counter, bytes.length, mode ||| start ||| chunkEnd⟩
  | n + 1, start, cv, bytes =>
      let first : Output := ⟨cv, loadBlock (bytes.take 64), counter, 64, mode ||| start⟩
      chunkFrom mode counter n 0 first.chain (bytes.drop 64)

def chunk (mode : U32) (key : Vector U32 8) (counter : Nat) (bytes : List Byte) : Output :=
  chunkFrom mode counter ((bytes.length - 1) / 64) chunkStart key bytes

def parent (mode : U32) (key : Vector U32 8) (left right : Output) : Output :=
  ⟨key, left.chain ++ right.chain, 0, 64, mode ||| parentFlag⟩

/-- At most `2 ^ height` chunks, the first of number `counter`. -/
def subtree (mode : U32) (key : Vector U32 8) : Nat → Nat → List Byte → Output
  | 0, counter, bytes => chunk mode key counter bytes
  | height + 1, counter, bytes =>
      if bytes.length ≤ 1024 * 2 ^ height then subtree mode key height counter bytes
      else parent mode key (subtree mode key height counter (bytes.take (1024 * 2 ^ height)))
        (subtree mode key height (counter + 2 ^ height) (bytes.drop (1024 * 2 ^ height)))

def hash (mode : U32) (key : Vector U32 8) (bytes : List Byte) : Bytes 32 :=
  (subtree mode key (Nat.clog 2 ((bytes.length + 1023) / 1024)) 0 bytes).digest

/-- The words of a key. -/
def keyWords (key : Bytes 32) : Vector U32 8 := Vector.ofFn fun i => wordAt key i

/-- `blake3(bytes, key=key).digest()` -/
def keyed (key : Bytes 32) (bytes : List Byte) : Bytes 32 := hash keyedHashFlag (keyWords key) bytes

/-- A full block is loaded word by word, without the zeros that fill up a shorter one. -/
theorem loadBlock_ofFn (msg : Bytes 64) : loadBlock (List.ofFn msg) = Vector.ofFn fun i => wordAt msg i := by
  apply Vector.ext
  intro i hi
  simp only [loadBlock, Vector.getElem_ofFn, wordAt]
  apply leWord_congr
  intro x hx
  have hLt : 4 * i + x < 64 := by omega
  rw [byteAt_of_lt msg hLt, List.getD_eq_getElem?_getD, List.getElem?_ofFn, dif_pos hLt, Option.getD_some]

/-- One block is the only one of the only chunk. It has the flags of a first and of a last
block, and its compression is the root. -/
theorem hash_block (mode : U32) (key : Vector U32 8) {bytes : List Byte} (hLength : bytes.length ≤ 64) :
    hash mode key bytes =
      (Output.mk key (loadBlock bytes) 0 bytes.length (mode ||| chunkStart ||| chunkEnd)).digest := by
  have hHeight : Nat.clog 2 ((bytes.length + 1023) / 1024) = 0 := Nat.clog_of_right_le_one (by omega) 2
  have hBlocks : (bytes.length - 1) / 64 = 0 := Nat.div_eq_of_lt (by omega)
  rw [hash, hHeight, subtree, chunk, hBlocks, chunkFrom]

/-- The keyed hash of any message agrees on one block with the keyed hash that compresses
a block alone. -/
theorem keyed_block (msg : Bytes 64) (key : Bytes 32) : keyed key (List.ofFn msg) = keyedHash msg key := by
  have hLength : (List.ofFn msg).length = 64 := List.length_ofFn
  have hFlags : keyedHashFlag ||| chunkStart ||| chunkEnd ||| root =
      chunkStart ||| chunkEnd ||| root ||| keyedHashFlag := rfl
  rw [keyed, hash_block _ _ hLength.le, hLength, loadBlock_ofFn, Output.digest, Output.words, hFlags]
  rfl

/-- The empty message under the key of the published test vectors. -/
example :
    let key : List Byte :=
      [0x77, 0x68, 0x61, 0x74, 0x73, 0x20, 0x74, 0x68, 0x65, 0x20, 0x45, 0x6c, 0x76, 0x69, 0x73, 0x68,
        0x20, 0x77, 0x6f, 0x72, 0x64, 0x20, 0x66, 0x6f, 0x72, 0x20, 0x66, 0x72, 0x69, 0x65, 0x6e, 0x64]
    List.ofFn (keyed (fun i => key.getD i 0) []) =
      [0x92, 0xb2, 0xb7, 0x56, 0x04, 0xed, 0x3c, 0x76, 0x1f, 0x9d, 0x6f, 0x62, 0x39, 0x2c, 0x8a, 0x92,
        0x27, 0xad, 0x0e, 0xa3, 0xf0, 0x95, 0x73, 0xe7, 0x83, 0xf1, 0x49, 0x8a, 0x4e, 0xd6, 0x0d, 0x26] := by
  decide +kernel

end Blake3
