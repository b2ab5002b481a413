import PrlMiner.Cuda.Noising
import PrlMiner.Cuda.ReferenceScan
import PrlMiner.Cuda.TranscriptGrid

/-! `k_noised_transcript` of `naive_sm86.cu`: a block of 256 threads for each
`r x r` tile of the output, with the running product in global scratch memory. -/
namespace Cuda.Naive

open FixedWidth LittleEndian ParallelWrites Reduction Reference

/-- `for (e = tid; e < size; e += 256)`. -/
def strided (size tid : Nat) : List Nat := (List.range ((size + 255 - tid) / 256)).map (tid + · * 256)

/-- The accesses of one thread while its block zeroes the tile. -/
def zeroTile (n r ti tj tid : Nat) : List (Write I32) :=
  (strided (r * r) tid).map fun e => store (idx (ti * r + e / r) (tj * r + e % r) n) 0

/-- The accesses of one thread while its block adds chunk `pc`. -/
def addChunk (An Bn : Buffer I8) (k n r ti tj tid pc : Nat) : List (Write I32) :=
  (strided (r * r) tid).map fun e =>
    let a := e / r
    let b := e % r
    let acc : I32 := accumulate r fun c =>
      (An (idx (ti * r + a) (pc * r + c) k)).signExtend 32 *
        (Bn (idx (pc * r + c) (tj * r + b) n)).signExtend 32
    ⟨idx (ti * r + a) (tj * r + b) n, (· + acc)⟩

/-- All scratch accesses of one thread up to a number of chunks. -/
def scratchAccesses (An Bn : Buffer I8) (k n r ti tj tid chunks : Nat) : List (Write I32) :=
  zeroTile n r ti tj tid ++ (List.range chunks).flatMap (addChunk An Bn k n r ti tj tid)

/-- What is left open while a block hashes: how many accesses the threads of the
other blocks have made, and the order of all accesses so far. -/
structure ScratchView where
  progress : Nat → Nat → Nat → Nat
  schedule : Scheduler
  deriving Inhabited

/-- The scratch memory that block `(ti, tj)` reads between the barriers of chunk `pc`. -/
def scratchAt (view : ScratchView) (Cscr : Buffer I32) (An Bn : Buffer I8) (m k n r ti tj pc : Nat) :
    Buffer I32 :=
  launchGrid view.schedule (m / r) (n / r) 1 256 (fun x y _ tid =>
    if x = ti ∧ y = tj then scratchAccesses An Bn k n r x y tid (pc + 1)
    else (scratchAccesses An Bn k n r x y tid (k / r)).take (view.progress x y tid)) Cscr

/-- The accesses of one thread while its block hashes chunk `pc`. -/
def hashChunk (Cscr : Buffer I32) (n r th tw ti tj tid pc : Nat) : List (Write U32) :=
  let nsub_h := r / th
  let nsub_w := r / tw
  let ST_cols := n / tw
  (strided (nsub_h * nsub_w) tid).map fun st =>
    let hi := st / nsub_w
    let wi := st % nsub_w
    let h : U32 := reduce (· ^^^ ·) 0 (th * tw) fun x =>
      Cscr (idx (ti * r + hi * th + x / tw) (tj * r + wi * tw + x % tw) n)
    let sr := (ti * r + hi * th) / th
    let sc := (tj * r + wi * tw) / tw
    ⟨(sr * ST_cols + sc) * 16 + pc % 16, foldWord h⟩

def kNoisedTranscript (views : Nat → ScratchView) (An Bn : Buffer I8) (Cscr : Buffer I32)
    (m k n r th tw ti tj tid : Nat) : List (Write U32) :=
  (List.range (k / r)).flatMap fun pc =>
    hashChunk (scratchAt (views pc) Cscr An Bn m k n r ti tj pc) n r th tw ti tj tid pc

section Strided

variable {α : Type}

theorem mem_strided {size tid e : Nat} (htid : tid < 256) (he : e ∈ strided size tid) :
    e < size ∧ e % 256 = tid := by
  obtain ⟨i, hi, rfl⟩ := List.mem_map.mp he
  rw [List.mem_range] at hi
  omega

/-- The round of a strided loop that reaches an address of its own. -/
theorem updatesAt_strided {size e : Nat} {w : Nat → Write α} (he : e < size)
    (hOnly : ∀ x < size, (w x).addr = (w e).addr → x = e) :
    updatesAt (w e).addr ((strided size (e % 256)).map w) = [(w e).update] := by
  have hIndex : e % 256 + e / 256 * 256 = e := by omega
  rw [strided, List.map_map, updatesAt_map_range (i := e / 256) (by omega)]
  · rw [Function.comp_apply, hIndex]
  · rw [Function.comp_apply, hIndex]
  · intro j hj hAddr
    have hSame := hOnly (e % 256 + j * 256) (by omega) hAddr
    omega

end Strided

section Scratch

variable {m k n r : Nat} {An Bn : Buffer I8}

/-- A thread touches the scratch words whose place in the tile is its own number modulo
256, and no others. -/
theorem scratchAccesses_addr {ti tj tid chunks : Nat} {w : Write I32}
    (htid : tid < 256) (hw : w ∈ scratchAccesses An Bn k n r ti tj tid chunks) :
    ∃ e < r * r, e % 256 = tid ∧ w.addr = idx (ti * r + e / r) (tj * r + e % r) n := by
  rw [scratchAccesses, List.mem_append] at hw
  obtain hw | hw := hw
  · obtain ⟨e, he, rfl⟩ := List.mem_map.mp hw
    exact ⟨e, (mem_strided htid he).1, (mem_strided htid he).2, rfl⟩
  · obtain ⟨pc, -, hw⟩ := List.mem_flatMap.mp hw
    obtain ⟨e, he, rfl⟩ := List.mem_map.mp hw
    exact ⟨e, (mem_strided htid he).1, (mem_strided htid he).2, rfl⟩

/-- Scratch addresses tell tiles and entries apart. -/
theorem scratchAddr_inj {ti tj ti' tj' e e' : Nat} (hn : r ∣ n) (htj : tj < n / r) (htj' : tj' < n / r)
    (he : e < r * r) (he' : e' < r * r)
    (h : idx (ti * r + e / r) (tj * r + e % r) n = idx (ti' * r + e' / r) (tj' * r + e' % r) n) :
    ti = ti' ∧ tj = tj' ∧ e = e' := by
  have hr : 0 < r := Nat.pos_of_ne_zero (fun h => by simp [h] at he)
  have hCol (t x : Nat) (ht : t < n / r) : t * r + x % r < n := by
    rw [← Nat.div_mul_cancel hn]
    exact idx_lt ht (Nat.mod_lt x hr)
  obtain ⟨hRows, hCols⟩ := idx_inj (hCol tj e htj) (hCol tj' e' htj') h
  obtain ⟨rfl, hDiv⟩ := idx_inj (Nat.div_lt_of_lt_mul he) (Nat.div_lt_of_lt_mul he') hRows
  obtain ⟨rfl, hMod⟩ := idx_inj (Nat.mod_lt e hr) (Nat.mod_lt e' hr) hCols
  refine ⟨rfl, rfl, ?_⟩
  rw [← Nat.div_add_mod e r, ← Nat.div_add_mod e' r, hDiv, hMod]

/-- The owner of an entry leaves the product so far there. -/
theorem applyAll_scratch (An Bn : Buffer I8) (k ti : Nat) (mem : Buffer I32) {tj e : Nat} (hn : r ∣ n)
    (htj : tj < n / r) (he : e < r * r) (chunks : Nat) :
    applyAll mem (scratchAccesses An Bn k n r ti tj (e % 256) chunks)
        (idx (ti * r + e / r) (tj * r + e % r) n) =
      prefixProduct (matrixOf k An) (matrixOf n Bn) (r * chunks) (ti * r + e / r) (tj * r + e % r) := by
  induction chunks with
  | zero =>
      have hZero := updatesAt_strided (w := fun e =>
          store (idx (ti * r + e / r) (tj * r + e % r) n) (0 : I32)) he
        (fun x hx h => (scratchAddr_inj hn htj htj hx he h).2.2)
      rw [scratchAccesses, List.range_zero, List.flatMap_nil, List.append_nil, applyAll_apply]
      exact congrArg (List.foldl _ _) hZero
  | succ chunks ih =>
      have hAdd := updatesAt_strided (w := fun e => ⟨idx (ti * r + e / r) (tj * r + e % r) n,
          (· + accumulate r fun c => (An (idx (ti * r + e / r) (chunks * r + c) k)).signExtend 32 *
            (Bn (idx (chunks * r + c) (tj * r + e % r) n)).signExtend 32)⟩) he
        (fun x hx h => (scratchAddr_inj hn htj htj hx he h).2.2)
      rw [scratchAccesses, List.range_succ, List.flatMap_append, List.flatMap_singleton,
        ← List.append_assoc, ← scratchAccesses, applyAll_append, applyAll_apply, ih, Nat.mul_succ,
        prefixProduct_add, Nat.mul_comm r chunks]
      exact congrArg (List.foldl _ _) hAdd

/-- Between the barriers of a chunk a block reads its own part of the product,
however far the other blocks are. -/
theorem scratchAt_eq (view : ScratchView) (Cscr : Buffer I32) {ti tj a b : Nat} (hn : r ∣ n)
    (hti : ti < m / r) (htj : tj < n / r) (ha : a < r) (hb : b < r) (pc : Nat) :
    scratchAt view Cscr An Bn m k n r ti tj pc (idx (ti * r + a) (tj * r + b) n) =
      prefixProduct (matrixOf k An) (matrixOf n Bn) (r * (pc + 1)) (ti * r + a) (tj * r + b) := by
  have he : idx a b r < r * r := idx_lt ha hb
  have hOwn := applyAll_scratch An Bn k ti Cscr hn htj he (pc + 1)
  rw [idx_div hb, idx_mod hb] at hOwn
  rw [scratchAt, launchGrid_of_owner view.schedule ti tj 0 (idx a b r % 256) hti htj (by decide)
    (Nat.mod_lt _ (by decide)), if_pos ⟨rfl, rfl⟩]
  · exact hOwn
  · intro x _ y hy z hz tid htid w hw hAddr
    have hMem : ∃ chunks, w ∈ scratchAccesses An Bn k n r x y tid chunks := by
      by_cases h : x = ti ∧ y = tj
      · rw [if_pos h] at hw
        exact ⟨_, hw⟩
      · rw [if_neg h] at hw
        exact ⟨_, List.mem_of_mem_take hw⟩
    obtain ⟨chunks, hMem⟩ := hMem
    obtain ⟨e, he', rfl, hEq⟩ := scratchAccesses_addr htid hMem
    have hEntry : idx (ti * r + a) (tj * r + b) n =
        idx (ti * r + idx a b r / r) (tj * r + idx a b r % r) n := by
      rw [idx_div hb, idx_mod hb]
    obtain ⟨rfl, rfl, rfl⟩ := scratchAddr_inj hn hy htj he' he (hEq.symm.trans (hAddr.trans hEntry))
    exact ⟨rfl, rfl, by omega, rfl⟩

end Scratch

section Transcripts

variable {m k n r th tw : Nat} (shape : TileShape m n r th tw)

/-- The access of one round of the hashing loop. -/
def foldAccess (A B : Mat I8) (n r th tw ti tj pc st : Nat) : Write U32 :=
  let sr := idx ti (st / (r / tw)) (r / th)
  let sc := idx tj (st % (r / tw)) (r / tw)
  ⟨idx (idx sr sc (n / tw)) (pc % 16) 16, foldWord (tileHash A B th tw (sr * th) (sc * tw) (r * (pc + 1)))⟩

include shape

/-- A sub-tile lies inside its block. -/
theorem subtile_entry_lt {st x : Nat} (hst : st < r / th * (r / tw)) (hx : x < th * tw) :
    st / (r / tw) * th + x / tw < r ∧ st % (r / tw) * tw + x % tw < r := by
  have hRow : st / (r / tw) * th + x / tw < r / th * th :=
    idx_lt (Nat.div_lt_of_lt_mul (by rwa [Nat.mul_comm])) (Nat.div_lt_of_lt_mul (by rwa [Nat.mul_comm]))
  have hCol : st % (r / tw) * tw + x % tw < r / tw * tw :=
    idx_lt (Nat.mod_lt st shape.tilesWPos) (Nat.mod_lt x shape.tileWPos)
  rw [Nat.div_mul_cancel shape.tileH] at hRow
  rw [Nat.div_mul_cancel shape.tileW] at hCol
  exact ⟨hRow, hCol⟩

/-- What a block hashes are the prefix products of its sub-tiles. -/
theorem hashChunk_eq (view : ScratchView) (Cscr : Buffer I32) (An Bn : Buffer I8) {ti tj : Nat}
    (hti : ti < m / r) (htj : tj < n / r) {tid : Nat} (htid : tid < 256) (pc : Nat) :
    hashChunk (scratchAt view Cscr An Bn m k n r ti tj pc) n r th tw ti tj tid pc =
      (strided (r / th * (r / tw)) tid).map
        (foldAccess (matrixOf k An) (matrixOf n Bn) n r th tw ti tj pc) := by
  apply List.map_congr_left
  intro st hMem
  have hst := (mem_strided htid hMem).1
  have hRow : (ti * r + st / (r / tw) * th) = idx ti (st / (r / tw)) (r / th) * th := by
    rw [idx, Nat.add_mul, Nat.mul_assoc, Nat.div_mul_cancel shape.tileH]
  have hCol : (tj * r + st % (r / tw) * tw) = idx tj (st % (r / tw)) (r / tw) * tw := by
    rw [idx, Nat.add_mul, Nat.mul_assoc, Nat.div_mul_cancel shape.tileW]
  have hHash : reduce (· ^^^ ·) 0 (th * tw) (fun x => scratchAt view Cscr An Bn m k n r ti tj pc
        (idx (ti * r + st / (r / tw) * th + x / tw) (tj * r + st % (r / tw) * tw + x % tw) n)) =
      tileHash (matrixOf k An) (matrixOf n Bn) th tw (idx ti (st / (r / tw)) (r / th) * th)
        (idx tj (st % (r / tw)) (r / tw) * tw) (r * (pc + 1)) := by
    apply reduce_congr
    intro x hx
    obtain ⟨ha, hb⟩ := subtile_entry_lt shape hst hx
    rw [Nat.add_assoc, Nat.add_assoc, scratchAt_eq view Cscr shape.rankCols hti htj ha hb, ← Nat.add_assoc,
      ← Nat.add_assoc, hRow, hCol]
  simp only [foldAccess, hHash]
  simp only [hRow, hCol, Nat.mul_div_cancel _ shape.tileHPos, Nat.mul_div_cancel _ shape.tileWPos]
  rfl

/-- Transcript addresses tell sub-tiles and slots apart. -/
theorem foldAccess_inj {A B A' B' : Mat I8} {ti tj st pc ti' tj' st' pc' : Nat} (htj : tj < n / r)
    (htj' : tj' < n / r) (hst : st < r / th * (r / tw)) (hst' : st' < r / th * (r / tw))
    (h : (foldAccess A B n r th tw ti tj pc st).addr = (foldAccess A' B' n r th tw ti' tj' pc' st').addr) :
    ti = ti' ∧ tj = tj' ∧ st = st' ∧ pc % 16 = pc' % 16 := by
  have hDiv (x : Nat) (hx : x < r / th * (r / tw)) : x / (r / tw) < r / th :=
    Nat.div_lt_of_lt_mul (by rwa [Nat.mul_comm])
  have hCol (t x : Nat) (ht : t < n / r) : idx t (x % (r / tw)) (r / tw) < n / tw := by
    rw [← shape.cols]
    exact idx_lt ht (Nat.mod_lt x shape.tilesWPos)
  obtain ⟨hTile, hSlot⟩ := idx_inj (Nat.mod_lt pc (by decide)) (Nat.mod_lt pc' (by decide)) h
  obtain ⟨hRow, hColEq⟩ := idx_inj (hCol tj st htj) (hCol tj' st' htj') hTile
  obtain ⟨rfl, hQuot⟩ := idx_inj (hDiv st hst) (hDiv st' hst') hRow
  obtain ⟨rfl, hRem⟩ := idx_inj (Nat.mod_lt st shape.tilesWPos) (Nat.mod_lt st' shape.tilesWPos) hColEq
  refine ⟨rfl, rfl, ?_, hSlot⟩
  rw [← Nat.div_add_mod st (r / tw), ← Nat.div_add_mod st' (r / tw), hQuot, hRem]

/-- The folds of one thread do not depend on what the scratch held before or on the other
threads: it reads only the sums that it stored itself. -/
theorem kNoisedTranscript_eq (views : Nat → ScratchView) (An Bn : Buffer I8) (Cscr : Buffer I32)
    {ti tj : Nat} (hti : ti < m / r) (htj : tj < n / r) {tid : Nat} (htid : tid < 256) :
    kNoisedTranscript views An Bn Cscr m k n r th tw ti tj tid =
      (List.range (k / r)).flatMap fun pc => (strided (r / th * (r / tw)) tid).map
        (foldAccess (matrixOf k An) (matrixOf n Bn) n r th tw ti tj pc) :=
  List.flatMap_congr (fun pc _ => hashChunk_eq shape (views pc) Cscr An Bn hti htj htid pc)

/-- The sub-tile `(sr, sc)` within its block. -/
def localTile (r th tw sr sc : Nat) : Nat := idx (sr % (r / th)) (sc % (r / tw)) (r / tw)

theorem localTile_lt (sr sc : Nat) : localTile r th tw sr sc < r / th * (r / tw) :=
  idx_lt (Nat.mod_lt sr shape.tilesHPos) (Nat.mod_lt sc shape.tilesWPos)

/-- The round that folds into sub-tile `(sr, sc)`. -/
theorem foldAccess_localTile (A B : Mat I8) (sr sc pc : Nat) :
    foldAccess A B n r th tw (sr / (r / th)) (sc / (r / tw)) pc (localTile r th tw sr sc) =
      ⟨idx (idx sr sc (n / tw)) (pc % 16) 16,
        foldWord (tileHash A B th tw (sr * th) (sc * tw) (r * (pc + 1)))⟩ := by
  have hCol : sc % (r / tw) < r / tw := Nat.mod_lt sc shape.tilesWPos
  simp only [foldAccess, localTile, idx_div hCol, idx_mod hCol, idx_div_mod]

/-- The block of a sub-tile. -/
theorem subtile_block_lt {sr sc : Nat} (hsr : sr < m / th) (hsc : sc < n / tw) :
    sr / (r / th) < m / r ∧ sc / (r / tw) < n / r := by
  rw [← shape.rows, Nat.mul_comm] at hsr
  rw [← shape.cols, Nat.mul_comm] at hsc
  exact ⟨Nat.div_lt_of_lt_mul hsr, Nat.div_lt_of_lt_mul hsc⟩

/-- Who reaches word `s` of sub-tile `(sr, sc)`, and in which chunks. -/
theorem foldAccess_owner (A B : Mat I8) {sr sc s ti tj st pc : Nat} (hsr : sr < m / th)
    (hsc : sc < n / tw) (hs : s < 16) (htj : tj < n / r) (hst : st < r / th * (r / tw))
    (hAddr : (foldAccess A B n r th tw ti tj pc st).addr = idx (idx sr sc (n / tw)) s 16) :
    ti = sr / (r / th) ∧ tj = sc / (r / tw) ∧ st = localTile r th tw sr sc ∧ pc % 16 = s := by
  have hSlot : s % 16 = s := Nat.mod_eq_of_lt hs
  have hWord : (foldAccess A B n r th tw (sr / (r / th)) (sc / (r / tw)) s (localTile r th tw sr sc)).addr =
      idx (idx sr sc (n / tw)) s 16 := by
    rw [foldAccess_localTile shape, hSlot]
  obtain ⟨h1, h2, h3, h4⟩ := foldAccess_inj shape htj (subtile_block_lt shape hsr hsc).2 hst
    (localTile_lt shape sr sc) (hAddr.trans hWord.symm)
  exact ⟨h1, h2, h3, h4.trans hSlot⟩

/-- What the owner of a word does to it in one chunk. -/
theorem updatesAt_foldAccess (A B : Mat I8) {sr sc s : Nat} (hsr : sr < m / th) (hsc : sc < n / tw)
    (hs : s < 16) (pc : Nat) :
    updatesAt (idx (idx sr sc (n / tw)) s 16)
        ((strided (r / th * (r / tw)) (localTile r th tw sr sc % 256)).map
          (foldAccess A B n r th tw (sr / (r / th)) (sc / (r / tw)) pc)) =
      if pc % 16 = s then [foldWord (tileHash A B th tw (sr * th) (sc * tw) (r * (pc + 1)))] else [] := by
  have hBlock := subtile_block_lt shape hsr hsc
  by_cases hSlot : pc % 16 = s
  · have hOne := updatesAt_strided
      (w := foldAccess A B n r th tw (sr / (r / th)) (sc / (r / tw)) pc) (localTile_lt shape sr sc)
      (fun x hx h => (foldAccess_inj shape hBlock.2 hBlock.2 hx (localTile_lt shape sr sc) h).2.2.1)
    rw [foldAccess_localTile shape, hSlot] at hOne
    rw [if_pos hSlot]
    exact hOne
  · rw [if_neg hSlot]
    apply updatesAt_eq_nil
    intro w hw hAddr
    obtain ⟨st, hSt, rfl⟩ := List.mem_map.mp hw
    have hLt := (mem_strided (Nat.mod_lt _ (by decide)) hSt).1
    exact hSlot (foldAccess_owner shape A B hsr hsc hs hBlock.2 hLt hAddr).2.2.2

/-- The launch leaves the reference transcripts, however its blocks and threads
overtake one another. -/
theorem launch_kNoisedTranscript (s : Scheduler) (views : Nat → Nat → Nat → ScratchView)
    (An Bn : Buffer I8) (Cscr : Buffer I32) (dTr : Buffer U32) :
    HoldsTranscripts (launchGrid s (m / r) (n / r) 1 256 (fun ti tj _ tid =>
        kNoisedTranscript (views ti tj) An Bn Cscr m k n r th tw ti tj tid)
        (memset dTr 0 (m / th * (n / tw) * 16)))
      (matrixOf k An) (matrixOf n Bn) m k n r th tw := by
  intro sr hsr sc hsc w hw
  have hBlock := subtile_block_lt shape hsr hsc
  have hAddr : (sr * (n / tw) + sc) * 16 + w = idx (idx sr sc (n / tw)) w 16 := rfl
  rw [hAddr, launchGrid_of_owner s (sr / (r / th)) (sc / (r / tw)) 0 (localTile r th tw sr sc % 256)
    hBlock.1 hBlock.2 (by decide) (Nat.mod_lt _ (by decide)),
    kNoisedTranscript_eq shape _ _ _ _ hBlock.1 hBlock.2 (Nat.mod_lt _ (by decide)),
    applyAll_chunks (memset_of_lt (idx_lt (idx_lt hsr hsc) hw))
      (fun c _ => updatesAt_foldAccess shape _ _ hsr hsc hw c)]
  · rfl
  · intro ti hti tj htj _ hz tid htid a ha hEq
    rw [kNoisedTranscript_eq shape _ _ _ _ hti htj htid] at ha
    obtain ⟨pc, -, hMem⟩ := List.mem_flatMap.mp ha
    obtain ⟨st, hSt, rfl⟩ := List.mem_map.mp hMem
    obtain ⟨hLt, rfl⟩ := mem_strided htid hSt
    obtain ⟨h1, h2, h3, -⟩ := foldAccess_owner shape _ _ hsr hsc hw htj hLt hEq
    exact ⟨h1, h2, by omega, by rw [h3]⟩

end Transcripts

end Cuda.Naive
