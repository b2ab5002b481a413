import Mathlib.Algebra.BigOperators.Group.Finset.Basic
import Mathlib.Data.Fintype.OfMap
import PrlMiner.Cuda.Context
import PrlMiner.Library.Ownership
import PrlMiner.Library.Runs

/-! What a persistent context holds: the struct, its buffers and its stream, as
`prl_mine_ctx_create` obtains them one after the other and `prl_mine_ctx_destroy`
gives them back. Contents are left to the model of the context. -/
namespace Cuda.Lifetime

open Ownership Runs

/-- The heaps and the objects of the CUDA runtime. -/
inductive Space where
  | host | device | stream | graph | graphExec
  deriving DecidableEq

structure Handle where
  space : Space
  address : Nat
  deriving DecidableEq

abbrev SizeT : Type := BitVec 64

def sizeT (x : Int) : SizeT := BitVec.ofInt 64 x

/-- Pointers of `PrlMineCtx`. -/
inductive CtxField where
  | dA | dB | dEAL | dEAR | dEBL | dEBR | dAn | dBn | dU
  | dTr | dKey | dKeyB | dKeyBatch | dKeyBBatch | dTgt | dTrOut | dSA | dSB
  | dF | dAR | dBC | dBest | dFoundAttempt
  | batchGraph | batchGraphExec | stream
  deriving DecidableEq

instance CtxField.fintype : Fintype CtxField :=
  Fintype.ofList [.dA, .dB, .dEAL, .dEAR, .dEBL, .dEBR, .dAn, .dBn, .dU,
    .dTr, .dKey, .dKeyB, .dKeyBatch, .dKeyBBatch, .dTgt, .dTrOut, .dSA, .dSB,
    .dF, .dAR, .dBC, .dBest, .dFoundAttempt, .batchGraph, .batchGraphExec, .stream] fun field => by
      cases field <;> decide

def CtxField.space : CtxField → Space
  | .batchGraph => .graph
  | .batchGraphExec => .graphExec
  | .stream => .stream
  | _ => .device

structure PrlMineCtx where
  /-- Where `calloc` put the struct. -/
  self : Nat
  m : Int
  k : Int
  n : Int
  ST : SizeT
  ptr : CtxField → Option Nat

/-- `cudaMalloc(&c->field, ..)` that succeeds. -/
def PrlMineCtx.store (c : PrlMineCtx) (field : CtxField) (p : Nat) : PrlMineCtx :=
  { c with ptr := Function.update c.ptr field (some p) }

@[simp] theorem PrlMineCtx.store_ptr_self (c : PrlMineCtx) (field : CtxField) (p : Nat) :
    (c.store field p).ptr field = some p := Function.update_self ..

theorem PrlMineCtx.store_ptr_of_ne (c : PrlMineCtx) {field f : CtxField} (h : f ≠ field) (p : Nat) :
    (c.store field p).ptr f = c.ptr f := Function.update_of_ne h ..

/-- The runtime over one call: which of its acquisitions fail, counted from zero, and
the addresses of the others. -/
structure Runtime where
  fails : Nat → Bool
  address : Multiset Handle → Space → SizeT → Nat
  fresh : ∀ live space bytes, Handle.mk space (address live space bytes) ∉ live

/-- Addresses above all in use. -/
def Runtime.above (fails : Nat → Bool) : Runtime where
  fails := fails
  address live _ _ := (live.map Handle.address).sup + 1
  fresh live space bytes hMem := by
    have hLe := Multiset.le_sup (Multiset.mem_map_of_mem Handle.address hMem)
    exact absurd hLe (Nat.not_succ_le_self _)

/-- The operands of `&&` in `prl_mine_ctx_create`, with the bytes they ask for. -/
def acquisitions (m k n : Int) : List (CtxField × SizeT) :=
  let r := 128
  let ST := sizeT (m.tdiv 16) * sizeT (n.tdiv 16)
  [(.dA, sizeT m * sizeT k), (.dB, sizeT k * sizeT n),
    (.dEAL, sizeT m * r), (.dEAR, r * sizeT k),
    (.dEBL, sizeT k * r), (.dEBR, r * sizeT n),
    (.dAn, sizeT m * sizeT k), (.dBn, sizeT k * sizeT n),
    (.dTr, ST * 64), (.dKey, 32),
    (.dTgt, 32), (.dTrOut, 64),
    (.dF, 4), (.dAR, 4),
    (.dBC, 4), (.dBest, 4),
    (.dFoundAttempt, 4),
    (.dKeyB, 32), (.dSA, 32),
    (.dSB, 32), (.dU, sizeT n * r),
    (.stream, 0)]

/-- Evaluate the operands up to the first failure, the next one being acquisition `i`. -/
def acquireAll (rt : Runtime) (i : Nat) :
    List (CtxField × SizeT) → PrlMineCtx → Multiset Handle → Bool × PrlMineCtx × Multiset Handle
  | [], c, live => (true, c, live)
  | (field, bytes) :: rest, c, live =>
      if rt.fails i then (false, c, live)
      else
        let p := rt.address live field.space bytes
        acquireAll rt (i + 1) rest (c.store field p) (⟨field.space, p⟩ ::ₘ live)

/-- How a call ends. `calloc` is not checked: if it fails, `c->m = m` is a store
through a null pointer. -/
inductive Created where
  | crashed
  | returned (c : Option PrlMineCtx)

def prlMineCtxCreate (rt : Runtime) (live : Multiset Handle) (m k n : Int) : Created × Multiset Handle :=
  if m.tmod 128 ≠ 0 ∨ n.tmod 128 ≠ 0 ∨ k.tmod 128 ≠ 0 then (.returned none, live)
  else if rt.fails 0 then (.crashed, live)
  else
    -- `sizeof(PrlMineCtx)`
    let self := rt.address live .host 248
    let c : PrlMineCtx := ⟨self, m, k, n, sizeT (m.tdiv 16) * sizeT (n.tdiv 16), fun _ => none⟩
    match acquireAll rt 1 (acquisitions m k n) c (⟨.host, self⟩ ::ₘ live) with
    | (false, _, live) => (.returned none, live)
    | (true, c, live) => (.returned (some c), live)

/-- `cudaFree` and its like. A null pointer is ignored. -/
def release (live : Multiset Handle) (space : Space) : Option Nat → Multiset Handle
  | none => live
  | some p => live.erase ⟨space, p⟩

/-- The calls of `prl_mine_ctx_destroy`, those of `prl_mine_ctx_destroy_batch_graph` first. -/
def destroyed : List CtxField :=
  [.batchGraphExec, .batchGraph,
    .dA, .dB, .dEAL, .dEAR, .dEBL, .dEBR, .dAn, .dBn, .dU,
    .dTr, .dKey, .dKeyB, .dTgt, .dTrOut, .dKeyBatch, .dKeyBBatch, .dSA, .dSB,
    .dF, .dAR, .dBC, .dBest, .dFoundAttempt, .stream]

def prlMineCtxDestroy (live : Multiset Handle) (c : PrlMineCtx) : Multiset Handle :=
  release (destroyed.foldl (fun live field => release live field.space (c.ptr field)) live) .host (some c.self)

/-- What a pointer refers to. -/
def pointee (space : Space) : Option Nat → Multiset Handle
  | none => 0
  | some p => {⟨space, p⟩}

namespace PrlMineCtx

/-- The struct, and what its pointers refer to. -/
def held (c : PrlMineCtx) : Multiset Handle :=
  pointee .host (some c.self) + ∑ field, pointee field.space (c.ptr field)

/-- Every buffer and the stream were obtained. -/
def Complete (c : PrlMineCtx) : Prop :=
  ∀ request ∈ acquisitions c.m c.k c.n, (c.ptr request.1).isSome

end PrlMineCtx

/-- All or nothing, for a call made with `live`. -/
def AllOrNothing (live : Multiset Handle) : Created × Multiset Handle → Prop
  | (.crashed, _) => False
  | (.returned none, live') => live' = live
  | (.returned (some c), live') => c.Complete ∧ live' = c.held + live

section Accounts

variable {rt : Runtime} {live : Multiset Handle} {c : PrlMineCtx}

/-- `cudaFree` and `free` on a possibly null pointer take away exactly the pointee:
nothing at all for a null pointer. -/
theorem release_eq (space : Space) (ptr : Option Nat) : release live space ptr = live - pointee space ptr := by
  cases ptr with
  | none => simp [release, pointee]
  | some p => simp [release, pointee]

/-- Releasing the fields one after the other takes away the sum of their pointees,
whatever the order of the list. -/
theorem foldl_release (fields : List CtxField) :
    fields.foldl (fun live field => release live field.space (c.ptr field)) live =
      live - (fields.map fun field => pointee field.space (c.ptr field)).sum := by
  induction fields generalizing live with
  | nil => simp
  | cons field fields ih =>
      rw [List.foldl_cons, ih, release_eq, List.map_cons, List.sum_cons, tsub_tsub]

/-- Everything that a context holds is given back. -/
theorem prlMineCtxDestroy_eq (live : Multiset Handle) (c : PrlMineCtx) :
    prlMineCtxDestroy live c = live - c.held := by
  have hAll : (Finset.univ : Finset CtxField) = destroyed.toFinset := by decide
  have hNodup : destroyed.Nodup := by decide
  rw [prlMineCtxDestroy, foldl_release, release_eq, tsub_tsub, PrlMineCtx.held, hAll,
    List.sum_toFinset _ hNodup, add_comm]

/-- Filling an empty pointer field adds one handle to what the context holds, and no other
handle changes. -/
theorem held_store {field : CtxField} {p : Nat} (hNull : c.ptr field = none) :
    (c.store field p).held = ⟨field.space, p⟩ ::ₘ c.held := by
  have hOthers : ∑ f ∈ Finset.univ.erase field, pointee f.space ((c.store field p).ptr f) =
      ∑ f ∈ Finset.univ.erase field, pointee f.space (c.ptr f) := by
    apply Finset.sum_congr rfl
    intro f hf
    rw [c.store_ptr_of_ne (Finset.ne_of_mem_erase hf)]
  rw [PrlMineCtx.held, PrlMineCtx.held, ← Finset.add_sum_erase _ _ (Finset.mem_univ field), hOthers, c.store_ptr_self,
    ← Finset.add_sum_erase _ (fun f => pointee f.space (c.ptr f)) (Finset.mem_univ field), hNull]
  simp only [pointee, zero_add, ← Multiset.singleton_add]
  exact add_left_comm ..

theorem store_isSome {field : CtxField} {p : Nat} (f : CtxField) :
    ((c.store field p).ptr f).isSome ↔ f = field ∨ (c.ptr f).isSome := by
  by_cases h : f = field
  · simp [h]
  · simp [c.store_ptr_of_ne h, h]

/-- What the chain leaves: it stops at a failure, and what it has obtained until then is
both live and in the context. -/
structure Acquired (rt : Runtime) (i : Nat) (requests : List (CtxField × SizeT)) (c : PrlMineCtx)
    (live : Multiset Handle) (out : Bool × PrlMineCtx × Multiset Handle) : Prop where
  ok_iff : out.1 = true ↔ ∀ j < requests.length, rt.fails (i + j) = false
  accounts : ∃ got, out.2.2 = got + live ∧ out.2.1.held = got + c.held
  shape : out.2.1.m = c.m ∧ out.2.1.k = c.k ∧ out.2.1.n = c.n
  obtained : out.1 = true → ∀ field, field ∈ requests.map Prod.fst ∨ (c.ptr field).isSome →
    (out.2.1.ptr field).isSome

/-- A run of acquisitions over distinct empty fields either fills all of them or stops at
the first that fails, with what was obtained before still live. -/
theorem acquireAll_spec (rt : Runtime) (i : Nat) (requests : List (CtxField × SizeT)) (c : PrlMineCtx)
    (live : Multiset Handle) (hNodup : (requests.map Prod.fst).Nodup)
    (hNull : ∀ field ∈ requests.map Prod.fst, c.ptr field = none) :
    Acquired rt i requests c live (acquireAll rt i requests c live) := by
  induction requests generalizing i c live with
  | nil => exact ⟨by simp [acquireAll], ⟨0, by simp [acquireAll]⟩, ⟨rfl, rfl, rfl⟩, by simp [acquireAll]⟩
  | cons request rest ih =>
      obtain ⟨field, bytes⟩ := request
      obtain ⟨hNew, hRest⟩ := List.nodup_cons.mp hNodup
      rw [acquireAll]
      split_ifs with hFails
      · refine ⟨?_, ⟨0, by simp⟩, ⟨rfl, rfl, rfl⟩, by simp⟩
        refine iff_of_false Bool.false_ne_true fun h => ?_
        simpa [hFails] using h 0 (by simp)
      · let p := rt.address live field.space bytes
        have hNullRest : ∀ f ∈ rest.map Prod.fst, (c.store field p).ptr f = none := by
          intro f hf
          have hNe : f ≠ field := fun h => hNew (h ▸ hf)
          rw [c.store_ptr_of_ne hNe]
          exact hNull f (List.mem_cons_of_mem _ hf)
        have hNext := ih (i + 1) (c.store field p) (⟨field.space, p⟩ ::ₘ live) hRest hNullRest
        obtain ⟨got, hLive, hHeld⟩ := hNext.accounts
        constructor
        · rw [hNext.ok_iff]
          constructor
          · intro h j hj
            cases j with
            | zero => simpa using hFails
            | succ j =>
                have hStep := h j (by simpa using hj)
                rwa [Nat.add_right_comm] at hStep
          · intro h j hj
            have hStep := h (j + 1) (by simpa using hj)
            rwa [← Nat.add_assoc, Nat.add_right_comm] at hStep
        · refine ⟨⟨field.space, p⟩ ::ₘ got, ?_, ?_⟩
          · rw [hLive, Multiset.cons_add, Multiset.add_cons]
          · rw [hHeld, held_store (hNull field (by simp)), Multiset.cons_add, Multiset.add_cons]
        · exact hNext.shape
        · intro hOk f hf
          apply hNext.obtained hOk
          rw [store_isSome]
          simp only [List.map_cons, List.mem_cons] at hf
          tauto

/-- Addresses are fresh, so nothing is handed out twice. -/
theorem acquireAll_nodup {requests : List (CtxField × SizeT)} {i : Nat} {out : Bool × PrlMineCtx × Multiset Handle}
    (hOut : acquireAll rt i requests c live = out) (hLive : live.Nodup) : out.2.2.Nodup := by
  induction requests generalizing i c live with
  | nil =>
      cases hOut
      exact hLive
  | cons request rest ih =>
      rw [acquireAll] at hOut
      split_ifs at hOut with hFails
      · cases hOut
        exact hLive
      · exact ih hOut (Multiset.nodup_cons.mpr ⟨rt.fresh live request.1.space request.2, hLive⟩)

end Accounts

section Create

variable (rt : Runtime) (live : Multiset Handle) (m k n : Int)

/-- Shapes that pass the check. -/
def Admitted (m k n : Int) : Prop := ¬(m.tmod 128 ≠ 0 ∨ n.tmod 128 ≠ 0 ∨ k.tmod 128 ≠ 0)

/-- No acquisition of the call fails: neither that of the struct nor one of the chain. -/
def NoneFails (rt : Runtime) (m k n : Int) : Prop := ∀ i ≤ (acquisitions m k n).length, rt.fails i = false

theorem acquisitions_nodup : ((acquisitions m k n).map Prod.fst).Nodup := by
  simp [acquisitions]

/-- What a call can do. -/
inductive Creates : Created × Multiset Handle → Prop where
  | refused (hShape : ¬Admitted m k n) : Creates (.returned none, live)
  | crashed (hShape : Admitted m k n) (hFails : rt.fails 0 = true) : Creates (.crashed, live)
  | gaveUp (hShape : Admitted m k n) (hFails : ¬NoneFails rt m k n) {got : Multiset Handle} (hGot : got ≠ 0) :
      Creates (.returned none, got + live)
  | created (hShape : Admitted m k n) (hNone : NoneFails rt m k n) {c : PrlMineCtx} (hComplete : c.Complete) :
      Creates (.returned (some c), c.held + live)

/-- What `prl_mine_ctx_create` does, said once: it refuses the shape, crashes, gives up
with some of the allocations still live, or returns a complete context. -/
theorem prlMineCtxCreate_creates : Creates rt live m k n (prlMineCtxCreate rt live m k n) := by
  rw [prlMineCtxCreate]
  split_ifs with hShape hCalloc
  · exact .refused (not_not.mpr hShape)
  · exact .crashed hShape hCalloc
  · let self := rt.address live .host 248
    let c : PrlMineCtx := ⟨self, m, k, n, sizeT (m.tdiv 16) * sizeT (n.tdiv 16), fun _ => none⟩
    have hChain := acquireAll_spec rt 1 (acquisitions m k n) c (⟨.host, self⟩ ::ₘ live)
      (acquisitions_nodup m k n) (fun _ _ => rfl)
    have hNone : NoneFails rt m k n ↔ ∀ j < (acquisitions m k n).length, rt.fails (1 + j) = false := by
      constructor
      · exact fun h j hj => h (1 + j) (by omega)
      · intro h i hi
        cases i with
        | zero => simpa using hCalloc
        | succ i =>
            rw [Nat.add_comm]
            exact h i (by omega)
    rw [← hChain.ok_iff] at hNone
    have hSelf : c.held = {⟨.host, self⟩} := by simp [c, PrlMineCtx.held, pointee]
    change Creates rt live m k n (match acquireAll rt 1 (acquisitions m k n) c (⟨.host, self⟩ ::ₘ live) with
      | (false, _, live) => (.returned none, live)
      | (true, c, live) => (.returned (some c), live))
    generalize acquireAll rt 1 (acquisitions m k n) c (⟨.host, self⟩ ::ₘ live) = out at hChain hNone
    obtain ⟨ok, c', live'⟩ := out
    obtain ⟨got, hLive, hHeld⟩ := hChain.accounts
    simp only at hLive hHeld
    rw [hSelf, add_comm, Multiset.singleton_add] at hHeld
    rw [Multiset.add_cons, ← Multiset.cons_add, ← hHeld] at hLive
    subst hLive
    cases ok with
    | false => exact .gaveUp hShape (by simp [hNone]) (by simp [hHeld])
    | true =>
        apply Creates.created hShape (hNone.mpr rfl)
        intro request hRequest
        obtain ⟨hm, hk, hn⟩ := hChain.shape
        simp only at hm hk hn
        rw [hm, hk, hn] at hRequest
        exact hChain.obtained rfl _ (.inl (List.mem_map_of_mem hRequest))

/-- The allocators hand out fresh handles only, so no handle is live twice after the call
when none was before it. -/
theorem prlMineCtxCreate_nodup (hLive : live.Nodup) : (prlMineCtxCreate rt live m k n).2.Nodup := by
  have hSelf : (⟨.host, rt.address live .host 248⟩ ::ₘ live).Nodup :=
    Multiset.nodup_cons.mpr ⟨rt.fresh live .host 248, hLive⟩
  rw [prlMineCtxCreate]
  split_ifs
  · exact hLive
  · exact hLive
  · simp only
    split
    · rename_i hOut
      exact acquireAll_nodup hOut hSelf
    · rename_i hOut
      exact acquireAll_nodup hOut hSelf

/-- Without failures a shape gets a context here when it gets one in the model of its contents. -/
theorem create_isSome_iff (d : Device) (m k n : Nat) (hNone : NoneFails rt m k n) :
    (∃ c live', prlMineCtxCreate rt live m k n = (.returned (some c), live')) ↔
      (Cuda.prlMineCtxCreate d m k n).isSome := by
  have hShape : Admitted m k n ↔ (Cuda.prlMineCtxCreate d m k n).isSome := by
    have hMod (x : Nat) : (x : Int).tmod 128 = 0 ↔ x % 128 = 0 := by
      rw [Int.tmod_eq_emod_of_nonneg (Int.natCast_nonneg x)]
      omega
    rw [Admitted, ne_eq, ne_eq, ne_eq, hMod, hMod, hMod, Cuda.prlMineCtxCreate]
    split_ifs with h
    · exact iff_of_false (not_not.mpr h) (by simp)
    · exact iff_of_true h rfl
  rw [← hShape]
  have hCreates := prlMineCtxCreate_creates rt live m k n
  generalize prlMineCtxCreate rt live m k n = out at hCreates
  cases hCreates with
  | refused hRefused => exact iff_of_false (by simp) hRefused
  | crashed hAdmitted hFails => simp [hNone 0 (Nat.zero_le _)] at hFails
  | gaveUp hAdmitted hFails hGot => exact absurd hNone hFails
  | created hAdmitted hNone hComplete => exact iff_of_true ⟨_, _, rfl⟩ hAdmitted

/-- A call is all or nothing if and only if it refuses the shape or nothing fails. -/
theorem allOrNothing_iff : AllOrNothing live (prlMineCtxCreate rt live m k n) ↔
    (Admitted m k n → NoneFails rt m k n) := by
  have hCreates := prlMineCtxCreate_creates rt live m k n
  generalize prlMineCtxCreate rt live m k n = out at hCreates
  cases hCreates with
  | refused hShape => exact iff_of_true rfl fun h => absurd h hShape
  | crashed hShape hFails =>
      refine iff_of_false id fun h => ?_
      simpa [hFails] using h hShape 0 (Nat.zero_le _)
  | gaveUp hShape hFails hGot => exact iff_of_false (by simpa [AllOrNothing] using hGot) fun h => hFails (h hShape)
  | created hShape hNone hComplete => exact iff_of_true ⟨hComplete, rfl⟩ fun _ => hNone

end Create

section Process

/-- The contexts that were returned and not destroyed, and what is live. -/
structure Process where
  live : Multiset Handle
  contexts : List PrlMineCtx

inductive Call where
  | create (rt : Runtime) (m k n : Int)
  | destroy (h : Option Nat)

namespace Process

def start : Process := ⟨0, []⟩

/-- What the contexts own. -/
def owned (s : Process) : Multiset Handle := holdings PrlMineCtx.held s.contexts

/-- One call. A crash, and a pointer that is no context, end the process. -/
def step (s : Process) : Call → Option Process
  | .create rt m k n =>
      match prlMineCtxCreate rt s.live m k n with
      | (.crashed, _) => none
      | (.returned none, live) => some { s with live := live }
      | (.returned (some c), live) => some ⟨live, c :: s.contexts⟩
  | .destroy none => some s
  | .destroy (some h) =>
      (s.contexts.find? fun c => c.self == h).map fun c =>
        ⟨prlMineCtxDestroy s.live c, s.contexts.eraseP fun c => c.self == h⟩

end Process

/-- A call to create refuses the shape, or none of its acquisitions fails. -/
def Call.Clean : Call → Prop
  | .create rt m k n => Admitted m k n → NoneFails rt m k n
  | .destroy _ => True

variable {s s' : Process} {call : Call} {calls : List Call} {lost : Multiset Handle}

/-- A step loses something exactly when a call to create is not clean. -/
theorem step_balanced (h : Balanced PrlMineCtx.held s.contexts lost s.live) (hStep : s.step call = some s') :
    ∃ got, Balanced PrlMineCtx.held s'.contexts (got + lost) s'.live ∧ (got = 0 ↔ call.Clean) := by
  cases call with
  | create rt m k n =>
      have hCreates := prlMineCtxCreate_creates rt s.live m k n
      simp only [Process.step] at hStep
      generalize prlMineCtxCreate rt s.live m k n = out at hCreates hStep
      cases hCreates with
      | refused hShape =>
          cases hStep
          exact ⟨0, by simpa using h, iff_of_true rfl fun hAdmitted => absurd hAdmitted hShape⟩
      | crashed hShape hFails => cases hStep
      | @gaveUp hShape hFails got hGot =>
          cases hStep
          exact ⟨got, h.lose, iff_of_false hGot fun hClean => hFails (hClean hShape)⟩
      | created hShape hNone hComplete =>
          cases hStep
          exact ⟨0, by simpa using h.acquire, iff_of_true rfl fun _ => hNone⟩
  | destroy ptr =>
      refine ⟨0, ?_, iff_of_true rfl trivial⟩
      rw [zero_add]
      cases ptr with
      | none =>
          cases hStep
          exact h
      | some p =>
          obtain ⟨c, hFind, rfl⟩ := Option.map_eq_some_iff.mp hStep
          obtain ⟨hSelf, before, after, hContexts, hBefore⟩ := List.find?_eq_some_iff_append.mp hFind
          have hErased : s.contexts.eraseP (fun c => c.self == p) = before ++ after := by
            have hHead : (c :: after).eraseP (fun c => c.self == p) = after := List.eraseP_cons_of_pos hSelf
            rw [hContexts, List.eraseP_append_right _ (by simpa using hBefore), hHead]
          rw [hContexts] at h
          simp only [hErased, prlMineCtxDestroy_eq]
          exact h.release

/-- Over a run, what is lost is what the calls that were not clean have lost. -/
theorem run_balanced (run : Run Process.step .start calls s) :
    ∃ lost, Balanced PrlMineCtx.held s.contexts lost s.live ∧ (lost = 0 ↔ ∀ call ∈ calls, call.Clean) := by
  induction run with
  | nil => exact ⟨0, balanced_nil, by simp⟩
  | snoc prior call last ih =>
      obtain ⟨lost, hBalanced, hLost⟩ := ih
      obtain ⟨got, hNext, hGot⟩ := step_balanced hBalanced last
      refine ⟨got + lost, hNext, ?_⟩
      rw [add_eq_zero, hLost, hGot]
      simp only [List.mem_append, List.mem_singleton, or_imp, forall_and, forall_eq]
      exact and_comm

/-- Nothing live is counted twice. -/
theorem run_nodup (run : Run Process.step .start calls s) : s.live.Nodup := by
  refine run.invariant (fun s => s.live.Nodup) Multiset.nodup_zero fun s call s' hLive hStep => ?_
  cases call with
  | create rt m k n =>
      have hCreate := prlMineCtxCreate_nodup rt s.live m k n hLive
      simp only [Process.step] at hStep
      split at hStep
      · cases hStep
      · rename_i hOut
        cases hStep
        simpa [hOut] using hCreate
      · rename_i hOut
        cases hStep
        simpa [hOut] using hCreate
  | destroy ptr =>
      cases ptr with
      | none =>
          cases hStep
          exact hLive
      | some p =>
          obtain ⟨c, -, rfl⟩ := Option.map_eq_some_iff.mp hStep
          simp only [prlMineCtxDestroy_eq]
          exact Multiset.nodup_of_le tsub_le_self hLive

theorem self_mem_held (c : PrlMineCtx) : ⟨.host, c.self⟩ ∈ c.held := by
  simp [PrlMineCtx.held, pointee]

/-- So a pointer belongs to one context only, the one that `prl_mine_ctx_destroy` gets. -/
theorem run_distinct (run : Run Process.step .start calls s) : (s.contexts.map PrlMineCtx.self).Nodup := by
  obtain ⟨lost, hBalanced, -⟩ := run_balanced run
  have hLive := run_nodup run
  rw [hBalanced] at hLive
  have hOwned : (holdings PrlMineCtx.held s.contexts).Nodup := (Multiset.nodup_add.mp hLive).1
  generalize s.contexts = contexts at hOwned
  induction contexts with
  | nil => exact List.nodup_nil
  | cons c contexts ih =>
      rw [holdings_cons, Multiset.nodup_add] at hOwned
      obtain ⟨-, hRest, hDisjoint⟩ := hOwned
      rw [List.map_cons, List.nodup_cons]
      refine ⟨fun hMem => ?_, ih hRest⟩
      obtain ⟨c', hContext, hSame⟩ := List.mem_map.mp hMem
      have hHeld : ⟨.host, c.self⟩ ∈ holdings PrlMineCtx.held contexts := by
        rw [← hSame]
        exact Multiset.mem_of_le (List.single_le_sum (fun _ _ => Multiset.zero_le _) _
          (List.mem_map_of_mem hContext)) (self_mem_held c')
      exact Multiset.disjoint_left.mp hDisjoint (self_mem_held c) hHeld

/-- A call to create is all or nothing, and what is live is what the contexts own, if
and only if no call gives up halfway: nothing is ever given back then. -/
theorem ctx_create_all_or_nothing_iff (rt : Runtime) (live : Multiset Handle) (m k n : Int) (calls : List Call)
    (s : Process) (run : Run Process.step .start calls s) :
    (AllOrNothing live (prlMineCtxCreate rt live m k n) ↔ (Call.create rt m k n).Clean) ∧
      (s.live = s.owned ↔ ∀ call ∈ calls, call.Clean) := by
  refine ⟨allOrNothing_iff rt live m k n, ?_⟩
  obtain ⟨lost, hBalanced, hLost⟩ := run_balanced run
  rw [← hLost]
  exact hBalanced.exact_iff

/-- A run that creates a context and destroys it. -/
theorem ctx_create_all_or_nothing_iff_pair : ∃ s,
    Run Process.step .start [.create (.above fun _ => false) 128 128 128, .destroy (some 1)] s ∧
      s.live = s.owned := by
  have hRuns : (([.create (.above fun _ => false) 128 128 128, .destroy (some 1)] : List Call).foldlM
    Process.step .start).isSome := by decide
  obtain ⟨s, hEnd⟩ := Option.isSome_iff_exists.mp hRuns
  have run := run_iff_foldlM.mpr hEnd
  refine ⟨s, run, (ctx_create_all_or_nothing_iff (.above fun _ => false) 0 128 128 128 _ s run).2.mpr ?_⟩
  simp [Call.Clean, NoneFails, Runtime.above]

/-- One device allocation fails: the call returns no context, and the struct is never
freed. -/
theorem struct_leaks : prlMineCtxCreate (.above fun i => i == 1) 0 128 128 128 = (.returned none, {⟨.host, 1⟩}) ∧
    ¬AllOrNothing 0 (prlMineCtxCreate (.above fun i => i == 1) 0 128 128 128) := by
  have hCreate : prlMineCtxCreate (.above fun i => i == 1) 0 128 128 128 = (.returned none, {⟨.host, 1⟩}) := by
    simp [prlMineCtxCreate, acquisitions, acquireAll, Runtime.above]
  refine ⟨hCreate, ?_⟩
  rw [hCreate, AllOrNothing]
  exact Multiset.singleton_ne_zero _

end Process

section Retries

/-- `_ctx` of `MineCuda`, in the process that holds its contexts. -/
structure MineCuda where
  process : Process
  ctx : Int × Int × Int → Option Nat

/-- `_ctx_for`. No result is a crash. -/
def MineCuda.ctxFor (rt : Runtime) (lastError : String) (m k n : Int) (s : MineCuda) :
    Option (Except String Nat × MineCuda) :=
  match s.ctx (m, k, n) with
  | some h => some (.ok h, s)
  | none =>
      match prlMineCtxCreate rt s.process.live m k n with
      | (.crashed, _) => none
      | (.returned none, live) =>
          some (.error s!"ctx_create failed: {lastError}", { s with process := { s.process with live := live } })
      | (.returned (some c), live) =>
          some (.ok c.self, ⟨⟨live, c :: s.process.contexts⟩, Function.update s.ctx (m, k, n) (some c.self)⟩)

variable {rt : Runtime} {lastError : String} {m k n : Int} {s s' : MineCuda} {out : Except String Nat}

/-- Its attempts are calls to create, so they are accounted for as those are. -/
theorem ctxFor_step (h : s.ctxFor rt lastError m k n = some (out, s')) :
    s'.process = s.process ∨ s.process.step (.create rt m k n) = some s'.process := by
  rw [MineCuda.ctxFor] at h
  split at h
  · cases h
    exact .inl rfl
  · simp only [Process.step]
    split at h
    · cases h
    · cases h
      simp
    · cases h
      simp

/-- An attempt that raises leaves no entry behind. The next one asks for everything
again, and what this one had obtained stays live. -/
theorem ctxFor_error {e : String} (hShape : Admitted m k n)
    (h : s.ctxFor rt lastError m k n = some (.error e, s')) :
    s'.ctx = s.ctx ∧ s.process.live < s'.process.live := by
  rw [MineCuda.ctxFor] at h
  split at h
  · cases h
  · have hCreates := prlMineCtxCreate_creates rt s.process.live m k n
    generalize prlMineCtxCreate rt s.process.live m k n = created at hCreates h
    cases hCreates with
    | refused hRefused => exact absurd hShape hRefused
    | crashed hAdmitted hFails => cases h
    | gaveUp hAdmitted hFails hGot =>
        cases h
        exact ⟨rfl, lt_add_of_pos_left _ (pos_iff_ne_zero.mpr hGot)⟩
    | created hAdmitted hNone hComplete => cases h

end Retries

end Cuda.Lifetime
