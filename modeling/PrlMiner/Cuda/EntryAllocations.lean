import PrlMiner.Cuda.ContextOwnership

/-! The device buffers of the entry points without a context. Each allocates its buffers
one after the other, copies, launches and frees at its end, and `CK` leaves it with
status 4 at the first call that fails. Contents are left to the models of the entry points. -/
namespace Cuda.Entry

open Lifetime Runs

/-- Device pointers of the entry points. -/
inductive DevPtr where
  | dA | dB | dEAL | dEAR | dEBL | dEBR | dAn | dBn | dU | dTr | dKey | dKeys | dTgt | dTrOut
  | dF | dFAtt | dAR | dBC | dBest | dKA | dKB | dSA | dSB
  | dC | dCscr | dFound | dARow | dBCol | dmsg | dkey | dout
  deriving DecidableEq

/-- `call` is any other call under `CK`: a copy, a `cudaMemset`, `cudaGetLastError` or
`cudaDeviceSynchronize`. -/
inductive Op where
  | malloc (p : DevPtr) (bytes : SizeT)
  | call
  | free (p : DevPtr)
  deriving DecidableEq

/-- The statements of an entry point from statement `i` on. There is no result where a
pointer without a buffer is freed. -/
def exec (rt : Runtime) (i : Nat) : List Op → (DevPtr → Option Nat) → Multiset Handle → Option (Int × Multiset Handle)
  | [], _, live => some (0, live)
  | .malloc p bytes :: rest, ptr, live =>
      if rt.fails i then some (4, live)
      else
        let q := rt.address live .device bytes
        exec rt (i + 1) rest (Function.update ptr p (some q)) (⟨.device, q⟩ ::ₘ live)
  | .call :: rest, ptr, live => if rt.fails i then some (4, live) else exec rt (i + 1) rest ptr live
  | .free p :: rest, ptr, live =>
      match ptr p with
      | none => none
      | some q => (Lifetime.free live .device (some q)).bind fun live => exec rt (i + 1) rest ptr live

section Entries

variable (m k n r th tw natt : Int)

/-- `(size_t)x*y` -/
def area (x y : Int) : SizeT := sizeT x * sizeT y

def calls (count : Nat) : List Op := List.replicate count .call

/-- The buffers, the calls up to the frees, and the frees. -/
structure Body where
  ops : List Op
  frees : List DevPtr

/-- `prl_mine_run` and `prl_mine2_run`, with hash tiles of `th` times `tw`. -/
def mineBody : Body where
  ops := [.malloc .dA (area m k), .malloc .dB (area k n), .malloc .dEAL (area m 128), .malloc .dEAR (area 128 k),
      .malloc .dEBL (area k 128), .malloc .dEBR (area 128 n), .malloc .dAn (area m k), .malloc .dBn (area k n),
      .malloc .dTr (area (m.tdiv th) (n.tdiv tw) * 16 * 4), .call,
      .malloc .dKey 32, .malloc .dTgt 32, .malloc .dTrOut 64,
      .malloc .dF 4, .malloc .dAR 4, .malloc .dBC 4, .malloc .dBest 4] ++ calls 8 ++ calls 1 ++ calls 2 ++ calls 4
  frees := [.dA, .dB, .dEAL, .dEAR, .dEBL, .dEBR, .dAn, .dBn, .dTr, .dKey, .dTgt, .dTrOut, .dF, .dAR, .dBC, .dBest]

def mine2BatchBody : Body where
  ops := [.malloc .dA (area m k), .malloc .dB (area k n),
      .malloc .dEAL (area natt m * 128), .malloc .dEAR (area natt 128 * sizeT k),
      .malloc .dEBL (area natt k * 128), .malloc .dEBR (area natt 128 * sizeT n),
      .malloc .dAn (area natt m * sizeT k), .malloc .dBn (area natt k * sizeT n),
      .malloc .dTr (sizeT natt * area (m.tdiv 2) (n.tdiv 64) * 16 * 4), .call,
      .malloc .dKeys (area natt 32), .malloc .dTgt 32, .malloc .dTrOut 64,
      .malloc .dAR 4, .malloc .dBC 4, .malloc .dBest 4, .malloc .dFAtt 4] ++ calls 8 ++ calls 1 ++ calls 2 ++ calls 4
  frees := [.dA, .dB, .dEAL, .dEAR, .dEBL, .dEBR, .dAn, .dBn, .dTr, .dKeys, .dTgt, .dTrOut, .dAR, .dBC, .dBest, .dFAtt]

def mine2SearchBody : Body where
  ops := [.malloc .dAn (area natt m * sizeT k), .malloc .dBn (area natt k * sizeT n),
      .malloc .dTr (sizeT natt * area (m.tdiv 2) (n.tdiv 64) * 16 * 4), .call,
      .malloc .dKeys (area natt 32), .malloc .dTgt 32, .malloc .dTrOut 64,
      .malloc .dAR 4, .malloc .dBC 4, .malloc .dBest 4, .malloc .dFAtt 4] ++ calls 4 ++ calls 1 ++ calls 2 ++ calls 4
  frees := [.dAn, .dBn, .dTr, .dKeys, .dTgt, .dTrOut, .dAR, .dBC, .dBest, .dFAtt]

def noisegenBody : Body where
  ops := [.malloc .dKA 32, .malloc .dKB 32, .malloc .dSA 32, .malloc .dSB 32,
      .malloc .dEAL (area m 128), .malloc .dEAR (area 128 k), .malloc .dEBL (area k 128), .malloc .dEBR (area 128 n),
      .malloc .dU (area n 128)] ++ calls 4 ++ calls 2 ++ calls 2 ++ calls 4
  frees := [.dKA, .dKB, .dSA, .dSB, .dEAL, .dEAR, .dEBL, .dEBR, .dU]

def blake364Body : Body where
  ops := [.malloc .dmsg 64, .malloc .dkey 32, .malloc .dout 32] ++ calls 2 ++ calls 2 ++ calls 1
  frees := [.dmsg, .dkey, .dout]

/-- Its products are of type `int` where `sizeof` is not a factor. -/
def naiveBody : Body where
  ops := [.malloc .dA (sizeT (m * k)), .malloc .dB (sizeT (k * n)), .malloc .dEAL (sizeT (m * r)),
      .malloc .dEAR (sizeT (r * k)), .malloc .dEBL (sizeT (k * r)), .malloc .dEBR (sizeT (r * n)),
      .malloc .dAn (sizeT (m * k)), .malloc .dBn (sizeT (k * n)),
      .malloc .dC (sizeT (m * n) * 4), .malloc .dCscr (sizeT (m * n) * 4),
      .malloc .dTr (area (m.tdiv th) (n.tdiv tw) * 16 * 4), .call,
      .malloc .dKey 32, .malloc .dTgt 32, .malloc .dTrOut 64, .malloc .dFound 4, .malloc .dARow 4, .malloc .dBCol 4] ++
    calls 8 ++ calls 2 ++ calls 5
  frees := [.dA, .dB, .dEAL, .dEAR, .dEBL, .dEBR, .dAn, .dBn, .dC, .dCscr, .dTr, .dKey, .dTgt, .dTrOut,
    .dFound, .dARow, .dBCol]

def gemmBody : Body where
  ops := [.malloc .dA (area m k), .malloc .dB (area k n), .malloc .dC (area m n * 4)] ++ calls 2 ++ calls 2 ++ calls 1
  frees := [.dA, .dB, .dC]

/-- The entry points, with the arguments that decide their sizes. -/
inductive EntryPoint where
  | mineRun (m k n : Int)
  | mine2Run (m k n : Int)
  | mine2BatchRun (m k n natt : Int)
  | mine2Search (m k n natt : Int)
  | noisegen (m k n : Int)
  | blake364
  /-- Shapes are divided by these three. -/
  | naiveRun (m k n r th tw : Int) (hRank : r ≠ 0) (hHeight : th ≠ 0) (hWidth : tw ≠ 0)
  | mmaGemm (m k n : Int)
  | mmaGemmSmem (m k n : Int)
  | mmaGemmCpasync (m k n : Int)

/-- `x % y` as a condition. -/
def Uneven (x y : Int) : Prop := x.tmod y ≠ 0

instance (x y : Int) : Decidable (Uneven x y) := inferInstanceAs (Decidable (_ ≠ _))

/-- What runs behind the check of the shape. -/
def EntryPoint.body : EntryPoint → Option Body
  | .mineRun m k n => if Uneven m 128 ∨ Uneven n 128 ∨ Uneven k 128 then none else some (mineBody m k n 16 16)
  | .mine2Run m k n => if Uneven m 128 ∨ Uneven n 128 ∨ Uneven k 128 then none else some (mineBody m k n 2 64)
  | .mine2BatchRun m k n natt =>
      if Uneven m 128 ∨ Uneven n 128 ∨ Uneven k 128 then none
      else some (mine2BatchBody m k n (if natt < 1 then 1 else natt))
  | .mine2Search m k n natt =>
      if Uneven m 128 ∨ Uneven n 128 ∨ Uneven k 128 then none
      else some (mine2SearchBody m k n (if natt < 1 then 1 else natt))
  | .noisegen m k n => some (noisegenBody m k n)
  | .blake364 => some blake364Body
  | .naiveRun m k n r th tw _ _ _ =>
      if Uneven m r ∨ Uneven n r ∨ Uneven k r ∨ Uneven r th ∨ Uneven r tw then none
      else some (naiveBody m k n r th tw)
  | .mmaGemm m k n => if Uneven m 16 ∨ Uneven n 8 ∨ Uneven k 32 then none else some (gemmBody m k n)
  | .mmaGemmSmem m k n => if Uneven m 64 ∨ Uneven n 64 ∨ Uneven k 32 then none else some (gemmBody m k n)
  | .mmaGemmCpasync m k n => if Uneven m 128 ∨ Uneven n 128 ∨ Uneven k 32 then none else some (gemmBody m k n)

/-- A call of an entry point. `rt` says which of its statements fail. -/
structure EntryCall where
  entry : EntryPoint
  rt : Runtime

/-- The status of a call, and what is live after it. The pointers are not initialized. -/
def EntryCall.perform (live : Multiset Handle) (call : EntryCall) : Option (Int × Multiset Handle) :=
  match call.entry.body with
  | none => some (2, live)
  | some body => exec call.rt 0 (body.ops ++ body.frees.map .free) (fun _ => none) live

def step (live : Multiset Handle) (call : EntryCall) : Option (Multiset Handle) := (call.perform live).map Prod.snd

end Entries

section Leaks

/-- Buffers that the statements allocate. -/
def mallocs : List Op → List DevPtr
  | [] => []
  | .malloc p _ :: rest => p :: mallocs rest
  | .call :: rest => mallocs rest
  | .free _ :: rest => mallocs rest

/-- How many buffers are obtained before a statement fails. None are lost if none fails. -/
def obtained (rt : Runtime) (i : Nat) : List Op → Option Nat
  | [] => none
  | op :: rest =>
      if rt.fails i then some 0
      else (obtained rt (i + 1) rest).map fun count =>
        match op with
        | .malloc _ _ => count + 1
        | _ => count

/-- What a call leaves behind. -/
def EntryCall.leaked (call : EntryCall) : Nat :=
  match call.entry.body with
  | none => 0
  | some body => (obtained call.rt 0 body.ops).getD 0

/-- The frees are those of the buffers, each once, and come last. -/
structure Body.Frees (body : Body) : Prop where
  last : ∀ p, .free p ∉ body.ops
  once : (mallocs body.ops).Nodup
  all : body.frees = mallocs body.ops

theorem mineBody_frees (m k n th tw : Int) : (mineBody m k n th tw).Frees :=
  ⟨by simp [mineBody, calls], by simp [mineBody, calls, mallocs], rfl⟩

theorem mine2BatchBody_frees (m k n natt : Int) : (mine2BatchBody m k n natt).Frees :=
  ⟨by simp [mine2BatchBody, calls], by simp [mine2BatchBody, calls, mallocs], rfl⟩

theorem mine2SearchBody_frees (m k n natt : Int) : (mine2SearchBody m k n natt).Frees :=
  ⟨by simp [mine2SearchBody, calls], by simp [mine2SearchBody, calls, mallocs], rfl⟩

theorem noisegenBody_frees (m k n : Int) : (noisegenBody m k n).Frees :=
  ⟨by simp [noisegenBody, calls], by simp [noisegenBody, calls, mallocs], rfl⟩

theorem blake364Body_frees : blake364Body.Frees :=
  ⟨by simp [blake364Body, calls], by simp [blake364Body, calls, mallocs], rfl⟩

theorem naiveBody_frees (m k n r th tw : Int) : (naiveBody m k n r th tw).Frees :=
  ⟨by simp [naiveBody, calls], by simp [naiveBody, calls, mallocs], rfl⟩

theorem gemmBody_frees (m k n : Int) : (gemmBody m k n).Frees :=
  ⟨by simp [gemmBody, calls], by simp [gemmBody, calls, mallocs], rfl⟩

/-- Each entry point with a body frees every pointer that it obtained, once each and in
the order of the source, when none of its calls fails. -/
theorem body_frees {entry : EntryPoint} {body : Body} (h : entry.body = some body) : body.Frees := by
  cases entry with
  | mineRun m k n =>
      obtain ⟨-, ⟨⟩⟩ := Option.ite_none_left_eq_some.mp h
      exact mineBody_frees m k n 16 16
  | mine2Run m k n =>
      obtain ⟨-, ⟨⟩⟩ := Option.ite_none_left_eq_some.mp h
      exact mineBody_frees m k n 2 64
  | mine2BatchRun m k n natt =>
      obtain ⟨-, ⟨⟩⟩ := Option.ite_none_left_eq_some.mp h
      exact mine2BatchBody_frees m k n _
  | mine2Search m k n natt =>
      obtain ⟨-, ⟨⟩⟩ := Option.ite_none_left_eq_some.mp h
      exact mine2SearchBody_frees m k n _
  | noisegen m k n =>
      cases h
      exact noisegenBody_frees m k n
  | blake364 =>
      cases h
      exact blake364Body_frees
  | naiveRun m k n r th tw =>
      obtain ⟨-, ⟨⟩⟩ := Option.ite_none_left_eq_some.mp h
      exact naiveBody_frees m k n r th tw
  | mmaGemm m k n =>
      obtain ⟨-, ⟨⟩⟩ := Option.ite_none_left_eq_some.mp h
      exact gemmBody_frees m k n
  | mmaGemmSmem m k n =>
      obtain ⟨-, ⟨⟩⟩ := Option.ite_none_left_eq_some.mp h
      exact gemmBody_frees m k n
  | mmaGemmCpasync m k n =>
      obtain ⟨-, ⟨⟩⟩ := Option.ite_none_left_eq_some.mp h
      exact gemmBody_frees m k n

variable {rt : Runtime} {ptr : DevPtr → Option Nat} {got : List (DevPtr × Nat)} {base live : Multiset Handle}

/-- The buffers behind some pointers. -/
def handles (got : List (DevPtr × Nat)) : Multiset Handle := (got.map fun x => Handle.mk .device x.2 : List Handle)

/-- One more obtained pointer adds one handle. -/
theorem handles_snoc (got : List (DevPtr × Nat)) (p : DevPtr) (q : Nat) :
    handles (got ++ [(p, q)]) = ⟨.device, q⟩ ::ₘ handles got := by
  simp [handles, ← Multiset.singleton_add, ← Multiset.coe_add, add_comm]

/-- The frees at the end of a body succeed and leave what was live before the entry, since
each pointer holds the handle it was given. -/
theorem exec_frees (i : Nat) (hPtr : ∀ x ∈ got, ptr x.1 = some x.2) :
    exec rt i ((got.map Prod.fst).map .free) ptr (handles got + base) = some (0, base) := by
  induction got generalizing i with
  | nil => simp [exec, handles]
  | cons x got ih =>
      have hHead : ptr x.1 = some x.2 := hPtr x List.mem_cons_self
      have hFirst : handles (x :: got) + base = pointee .device (some x.2) + (handles got + base) := by
        simp [handles, pointee, ← Multiset.cons_coe]
      rw [List.map_cons, List.map_cons, exec, hHead]
      dsimp only
      rw [hFirst, free_add]
      exact ih (i + 1) fun y hy => hPtr y (List.mem_cons_of_mem x hy)

/-- Either no statement fails and every buffer is freed, or the buffers that were obtained until
then are lost. -/
theorem exec_ops (ops : List Op) (i : Nat) (hPtr : ∀ x ∈ got, ptr x.1 = some x.2)
    (hOnce : (got.map Prod.fst ++ mallocs ops).Nodup) (hLast : ∀ p, .free p ∉ ops) :
    (obtained rt i ops = none ∧
      exec rt i (ops ++ (got.map Prod.fst ++ mallocs ops).map .free) ptr (handles got + base) = some (0, base)) ∨
    ∃ count lost, obtained rt i ops = some count ∧
      exec rt i (ops ++ (got.map Prod.fst ++ mallocs ops).map .free) ptr (handles got + base) =
        some (4, lost + base) ∧
      lost.card = got.length + count := by
  induction ops generalizing i ptr got with
  | nil =>
      left
      rw [mallocs, List.append_nil, List.nil_append]
      exact ⟨rfl, exec_frees i hPtr⟩
  | cons op ops ih =>
      have hRest : ∀ p, .free p ∉ ops := fun p hp => hLast p (List.mem_cons_of_mem op hp)
      by_cases hFails : rt.fails i = true
      · refine .inr ⟨0, handles got, by rw [obtained, if_pos hFails], ?_, by simp [handles]⟩
        cases op with
        | malloc p bytes => rw [List.cons_append, exec, if_pos hFails]
        | call => rw [List.cons_append, exec, if_pos hFails]
        | free p => exact absurd List.mem_cons_self (hLast p)
      · cases op with
        | malloc p bytes =>
            let q := rt.address (handles got + base) .device bytes
            have hSame : got.map Prod.fst ++ mallocs (.malloc p bytes :: ops) =
                (got ++ [(p, q)]).map Prod.fst ++ mallocs ops := by
              simp [mallocs]
            rw [hSame] at hOnce ⊢
            have hNew : ∀ x ∈ got, x.1 ≠ p := by
              intro x hx hEq
              have hDistinct := (List.nodup_append.mp hOnce).1
              rw [List.map_append] at hDistinct
              exact (List.nodup_append.mp hDistinct).2.2 x.1 (List.mem_map_of_mem hx) p (by simp) hEq
            have hStored : ∀ x ∈ got ++ [(p, q)], Function.update ptr p (some q) x.1 = some x.2 := by
              intro x hx
              rcases List.mem_append.mp hx with hOld | hMem
              · rw [Function.update_of_ne (hNew x hOld), hPtr x hOld]
              · rw [List.mem_singleton.mp hMem, Function.update_self]
            have hNext := ih (i + 1) hStored hOnce hRest
            rw [handles_snoc, Multiset.cons_add] at hNext
            rw [List.cons_append, exec, obtained, if_neg hFails, if_neg hFails]
            rcases hNext with ⟨hNone, hExec⟩ | ⟨count, lost, hCount, hExec, hLost⟩
            · exact .inl ⟨by rw [hNone, Option.map_none], hExec⟩
            · refine .inr ⟨count + 1, lost, by rw [hCount, Option.map_some], hExec, ?_⟩
              rw [hLost, List.length_append, List.length_singleton]
              omega
        | call =>
            rw [mallocs] at hOnce ⊢
            rw [List.cons_append, exec, obtained, if_neg hFails, if_neg hFails]
            rcases ih (i + 1) hPtr hOnce hRest with ⟨hNone, hExec⟩ | ⟨count, lost, hCount, hExec, hLost⟩
            · exact .inl ⟨by rw [hNone, Option.map_none], hExec⟩
            · exact .inr ⟨count, lost, by rw [hCount, Option.map_some], hExec, hLost⟩
        | free p => exact absurd List.mem_cons_self (hLast p)

/-- Running a body never makes a handle live twice, failed calls and early returns
included. -/
theorem exec_nodup {ops : List Op} {i : Nat} {out : Int × Multiset Handle}
    (hOut : exec rt i ops ptr live = some out) (hLive : live.Nodup) : out.2.Nodup := by
  induction ops generalizing i ptr live with
  | nil =>
      cases hOut
      exact hLive
  | cons op ops ih =>
      cases op with
      | malloc p bytes =>
          rw [exec] at hOut
          split_ifs at hOut with hFails
          · cases hOut
            exact hLive
          · exact ih hOut (Multiset.nodup_cons.mpr ⟨rt.fresh live .device bytes, hLive⟩)
      | call =>
          rw [exec] at hOut
          split_ifs at hOut with hFails
          · cases hOut
            exact hLive
          · exact ih hOut hLive
      | free p =>
          rw [exec] at hOut
          split at hOut
          · cases hOut
          · obtain ⟨freed, hFree, hRest⟩ := Option.bind_eq_some_iff.mp hOut
            rw [Lifetime.free] at hFree
            split_ifs at hFree with hMem
            cases hFree
            exact ih hRest (hLive.erase _)

/-- How a call ends. -/
theorem perform_spec (live : Multiset Handle) (call : EntryCall) :
    ∃ rc lost, call.perform live = some (rc, lost + live) ∧ lost.card = call.leaked ∧
      (rc = 0 ∨ rc = 2 ∨ rc = 4) ∧ (rc ≠ 4 → lost = 0) := by
  rw [EntryCall.perform, EntryCall.leaked]
  cases hBody : call.entry.body with
  | none => exact ⟨2, 0, by simp, rfl, by simp, fun _ => rfl⟩
  | some body =>
      have hFrees := body_frees hBody
      have hExec := @exec_ops call.rt (fun _ => none) [] live body.ops 0 (by simp) hFrees.once hFrees.last
      rw [← hFrees.all] at hExec
      rcases hExec with ⟨hNone, hExec⟩ | ⟨count, lost, hCount, hExec, hLost⟩
      · exact ⟨0, 0, by simpa [handles] using hExec, by simp [hNone], by simp, fun _ => rfl⟩
      · refine ⟨4, lost, by simpa [handles] using hExec, by simpa [hCount] using hLost, by simp, by simp⟩

/-- Over every run of calls, whatever fails in them, no buffer is freed that is not live,
and what stays live are the buffers that failing calls had obtained: nothing if and only
if no call fails after its first allocation. -/
theorem entries_lose_what_failed_calls_obtained (calls : List EntryCall) (live : Multiset Handle)
    (run : Run step 0 calls live) :
    (∀ call : EntryCall, ∃ rc lost, call.perform live = some (rc, lost + live) ∧ (rc = 0 ∨ rc = 2 ∨ rc = 4) ∧
      (rc ≠ 4 → lost = 0)) ∧
    live.Nodup ∧ live.card = (calls.map EntryCall.leaked).sum ∧ (live = 0 ↔ ∀ call ∈ calls, call.leaked = 0) := by
  have hStep (live : Multiset Handle) (call : EntryCall) (live' : Multiset Handle) (h : step live call = some live') :
      live'.card = live.card + call.leaked := by
    obtain ⟨rc, lost, hPerform, hLost, -⟩ := perform_spec live call
    rw [step, hPerform] at h
    cases h
    rw [Multiset.card_add, hLost, add_comm]
  have hCard : live.card = (calls.map EntryCall.leaked).sum := by
    induction run with
    | nil => rfl
    | snoc prior call last ih => rw [hStep _ call _ last, ih, List.map_append, List.sum_append, List.map_singleton,
        List.sum_singleton]
  refine ⟨fun call => ?_, ?_, hCard, ?_⟩
  · obtain ⟨rc, lost, hPerform, -, hStatus, hOk⟩ := perform_spec live call
    exact ⟨rc, lost, hPerform, hStatus, hOk⟩
  · refine run.invariant (fun live => live.Nodup) Multiset.nodup_zero fun live call live' hLive h => ?_
    obtain ⟨out, hOut, rfl⟩ := Option.map_eq_some_iff.mp h
    rw [EntryCall.perform] at hOut
    cases hBody : call.entry.body with
    | none =>
        rw [hBody] at hOut
        cases hOut
        exact hLive
    | some body =>
        rw [hBody] at hOut
        exact exec_nodup hOut hLive
  · rw [← Multiset.card_eq_zero, hCard, List.sum_eq_zero_iff]
    simp

/-- A hash, a product that fails to allocate its third buffer, and the same in full. -/
def threeCalls : List EntryCall :=
  [⟨.blake364, .above fun _ => false⟩, ⟨.mmaGemm 16 32 8, .above fun i => i == 2⟩,
    ⟨.mmaGemm 16 32 8, .above fun _ => false⟩]

/-- Three calls, of which the second fails in its third allocation, lose the two buffers
that this call had obtained. -/
theorem entries_lose_what_failed_calls_obtained_three : ∃ live, Run step 0 threeCalls live ∧ live.card = 2 := by
  have hRuns : (threeCalls.foldlM step 0).isSome := by decide +kernel
  obtain ⟨live, hEnd⟩ := Option.isSome_iff_exists.mp hRuns
  have run := run_iff_foldlM.mpr hEnd
  exact ⟨live, run, (entries_lose_what_failed_calls_obtained threeCalls live run).2.2.1⟩

end Leaks

end Cuda.Entry
