import PrlMiner.Cuda.NaiveRun
import PrlMiner.Library.Blake3Tree

/-! The device hash as BLAKE3 of bytes: both copies of it, and the entry point that
hashes one block. -/
namespace Cuda

open FixedWidth LittleEndian ParallelWrites

namespace Naive

def kBlake3One (msg key : Buffer U32) (threadIdx : Nat) : List (Write U32) :=
  if threadIdx = 0 then (List.range 8).map fun i => store i (blake3KeyedBlock msg key i) else []

/-- The bytes of `out32`. -/
def prlBlake364 (d : Device) (msg64 key32 out32 : Buffer Byte) : Buffer Byte :=
  let dmsg := memcpy (d.mallocU32 0) (asWords msg64) 16
  let dkey := memcpy (d.mallocU32 1) (asWords key32) 8
  let dout := launch1 (d.schedule 0) 1 1 (fun _ threadIdx => kBlake3One dmsg dkey threadIdx) (d.mallocU32 2)
  memcpy out32 (fun i => wordByte (dout (i / 4)) (i % 4)) 32

end Naive

/-- Both copies of the device hash return the words of the keyed BLAKE3 hash of the
message bytes. -/
theorem device_hash_is_blake3 (msg key : Nat → U32) (i : Fin 8) :
    blake3KeyedBlock msg key i = wordAt (Blake3.keyed (packWords 32 key) (List.ofFn (packWords 64 msg))) i ∧
      Naive.blake3KeyedBlock msg key i =
        wordAt (Blake3.keyed (packWords 32 key) (List.ofFn (packWords 64 msg))) i := by
  have hWord : blake3KeyedBlock msg key i =
      wordAt (Blake3.keyed (packWords 32 key) (List.ofFn (packWords 64 msg))) i := by
    rw [Blake3.keyed_block, ← blake3KeyedBlock_words, wordAt_packWords _ (by omega)]
  exact ⟨hWord, Naive.blake3KeyedBlock_eq_device msg key ▸ hWord⟩

/-- The kernel of one thread stores the eight words. -/
theorem launch_kBlake3One (s : Scheduler) (msg key mem : Buffer U32) {i : Nat} (hi : i < 8) :
    launch1 s 1 1 (fun _ threadIdx => Naive.kBlake3One msg key threadIdx) mem i =
      blake3KeyedBlock msg key i := by
  have hKernel : (fun t => Naive.kBlake3One msg key (t % 1)) =
      fun _ => (List.range 8).map fun j => store j (blake3KeyedBlock msg key j) := by
    funext t
    rw [Naive.kBlake3One, if_pos (Nat.mod_one t), Naive.blake3KeyedBlock_eq_device]
  rw [launch1, hKernel]
  exact launch_stores s (fun _ j => j) (fun _ => blake3KeyedBlock msg key) mem Nat.one_pos hi
    fun u hu j _ h => ⟨Nat.lt_one_iff.mp hu, h⟩

/-- The entry point hashes its message under its key. -/
theorem prlBlake364_eq (d : Device) (msg : Bytes 64) (key : Bytes 32) (out : Buffer Byte) (i : Fin 32) :
    Naive.prlBlake364 d (byteAt msg) (byteAt key) out i = Blake3.keyed key (List.ofFn msg) i := by
  have hWords : blake3KeyedBlock (memcpy (d.mallocU32 0) (asWords (byteAt msg)) 16)
      (memcpy (d.mallocU32 1) (asWords (byteAt key)) 8) = blake3KeyedBlock (wordAt msg) (wordAt key) :=
    blake3KeyedBlock_congr (fun _ hi => memcpy_of_lt hi) fun _ hi => memcpy_of_lt hi
  rw [Naive.prlBlake364, memcpy_of_lt i.isLt, launch_kBlake3One _ _ _ _ (by omega), hWords, Blake3.keyed_block]
  have hDigest := blake3KeyedBlock_eq (wordAt msg) key
  rw [packWords_wordAt] at hDigest
  exact congrFun hDigest i

end Cuda
