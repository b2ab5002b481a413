import PrlMiner.Cuda.ContextLifetime

/-! Who owns what over the life of a `MineCuda` object: its contexts, the key buffers
and the graph that a batch replaces in them, and what `__del__` gives back. Frees are
checked here: one of something that is not live has no result. -/
namespace Cuda.Lifetime

open Ownership Runs

/-- `cudaFree` and its like. A null pointer is ignored. -/
def free (live : Multiset Handle) (space : Space) : Option Nat → Option (Multiset Handle)
  | none => some live
  | some p => if ⟨space, p⟩ ∈ live then some (live.erase ⟨space, p⟩) else none

/-- The struct with what a batch looks at. -/
structure BatchCtx extends PrlMineCtx where
  keyBatchCap : Int
  batchGraphCount : Int

namespace BatchCtx

def held (c : BatchCtx) : Multiset Handle := c.toPrlMineCtx.held

/-- `c->field = nullptr` -/
def clear (c : BatchCtx) (field : CtxField) : BatchCtx := { c with ptr := Function.update c.ptr field none }

/-- `c->field` is set to something new. -/
def acquire (c : BatchCtx) (field : CtxField) (p : Nat) : BatchCtx :=
  { c with toPrlMineCtx := c.toPrlMineCtx.store field p }

end BatchCtx

section Batch

variable (rt : Runtime) (graphCalls : GraphCalls) (live : Multiset Handle) (c : BatchCtx) (count : Int)

def prlMineCtxDestroyBatchGraph : Option (BatchCtx × Multiset Handle) :=
  ((free live .graphExec (c.ptr .batchGraphExec)).bind fun live => free live .graph (c.ptr .batchGraph)).map fun live =>
    ({ (c.clear .batchGraphExec).clear .batchGraph with batchGraphCount := 0 }, live)

/-- The two allocations, the first of which is acquisition 0 of the call. -/
def prlMineCtxEnsureKeyBatch : Option (Int × BatchCtx × Multiset Handle) :=
  if count ≤ c.keyBatchCap then some (0, c, live)
  else
    (prlMineCtxDestroyBatchGraph live c).bind fun (c, live) =>
      ((free live .device (c.ptr .dKeyBatch)).bind fun live => free live .device (c.ptr .dKeyBBatch)).map fun live =>
        let c := (c.clear .dKeyBatch).clear .dKeyBBatch
        let bytes := sizeT count * 32
        if rt.fails 0 then (4, c, live)
        else
          let p := rt.address live .device bytes
          let c := c.acquire .dKeyBatch p
          let live := ⟨.device, p⟩ ::ₘ live
          if rt.fails 1 then (4, c, live)
          else
            let q := rt.address live .device bytes
            let c := c.acquire .dKeyBBatch q
            (0, { c with keyBatchCap := count }, ⟨.device, q⟩ ::ₘ live)

/-- A capture that fails leaves a null graph. -/
def prlMineCtxBuildBatchGraph : Option (Int × BatchCtx × Multiset Handle) :=
  if (c.ptr .batchGraphExec).isSome ∧ c.batchGraphCount = count then some (0, c, live)
  else
    (prlMineCtxDestroyBatchGraph live c).map fun (c, live) =>
      if !graphCalls.beginCapture then (4, c, live)
      else if !graphCalls.endCapture then (4, c, live)
      else
        let p := rt.address live .graph 0
        let c := c.acquire .batchGraph p
        let live := ⟨.graph, p⟩ ::ₘ live
        if !graphCalls.instantiate then (4, c, live)
        else
          let q := rt.address live .graphExec 0
          let c := c.acquire .batchGraphExec q
          (0, { c with batchGraphCount := count }, ⟨.graphExec, q⟩ ::ₘ live)

/-- The copies and the launch own nothing. `launched` is whether `cudaGetLastError`
finds no error after them. -/
def prlMineCtxRunKeyedPreloadedBatch (launched : Bool) : Option (Int × BatchCtx × Multiset Handle) :=
  if count ≤ 0 then some (2, c, live)
  else
    (prlMineCtxEnsureKeyBatch rt live c count).bind fun (rc, c, live) =>
      if rc ≠ 0 then some (rc, c, live)
      else
        (prlMineCtxBuildBatchGraph rt graphCalls live c count).map fun (rc, c, live) =>
          if rc ≠ 0 then (rc, c, live) else (if launched then 0 else 4, c, live)

/-- `prl_mine_ctx_destroy` of a context. -/
def BatchCtx.destroy : Option (Multiset Handle) :=
  (destroyed.foldlM (fun live field => free live field.space (c.ptr field)) live).bind fun live =>
    free live .host (some c.self)

end Batch

section Spec

variable {rt : Runtime} {graphCalls : GraphCalls} {live live' live'' : Multiset Handle} {c c' c'' : BatchCtx}
  {count : Int}

/-- A call replaces what the context holds and nothing else. The struct stays where it is. -/
structure Keeps (c c' : BatchCtx) (live live' : Multiset Handle) : Prop where
  exchange : Exchange BatchCtx.held c c' live live'
  nodup : live.Nodup → live'.Nodup
  self : c'.self = c.self

theorem Keeps.refl (h : c.held ≤ live) : Keeps c c live live := ⟨.refl h, id, rfl⟩

theorem Keeps.trans (h : Keeps c c' live live') (h' : Keeps c' c'' live' live'') : Keeps c c'' live live'' where
  exchange := h.exchange.trans h'.exchange
  nodup hLive := h'.nodup (h.nodup hLive)
  self := h'.self.trans h.self

theorem Keeps.held_le (h : Keeps c c' live live') : c'.held ≤ live' := by
  obtain ⟨rest, -, hLive'⟩ := h.exchange
  exact hLive' ▸ Multiset.le_add_right _ _

theorem free_add (space : Space) (ptr : Option Nat) (rest : Multiset Handle) :
    free (pointee space ptr + rest) space ptr = some rest := by
  cases ptr with
  | none => simp [free, pointee]
  | some p => simp [free, pointee]

theorem held_clear (c : BatchCtx) (field : CtxField) :
    c.held = pointee field.space (c.ptr field) + (c.clear field).held := by
  cases hPtr : c.ptr field with
  | none =>
      have hSame : c.clear field = c := by
        rw [BatchCtx.clear, ← hPtr, Function.update_eq_self]
      rw [hSame, pointee, zero_add]
  | some p =>
      have hNull : (c.clear field).ptr field = none := Function.update_self ..
      have hStored : ((c.clear field).toPrlMineCtx.store field p) = c.toPrlMineCtx := by
        simp [BatchCtx.clear, PrlMineCtx.store, ← hPtr]
      rw [BatchCtx.held, ← hStored, held_store hNull, pointee, Multiset.singleton_add, BatchCtx.held]

theorem held_acquire {field : CtxField} (hNull : c.ptr field = none) (p : Nat) :
    (c.acquire field p).held = ⟨field.space, p⟩ ::ₘ c.held := held_store hNull

/-- Two pointers are freed and set to null. -/
theorem free_two {f g : CtxField} (hApart : g ≠ f) (rest : Multiset Handle) :
    ((free (c.held + rest) f.space (c.ptr f)).bind fun live => free live g.space (c.ptr g)) =
      some (((c.clear f).clear g).held + rest) := by
  have hOther : (c.clear f).ptr g = c.ptr g := Function.update_of_ne hApart ..
  rw [held_clear c f, held_clear (c.clear f) g, hOther, add_assoc, free_add, Option.bind_some, add_assoc, free_add]

/-- Freeing two pointers of a context and clearing their fields is accounted: the frees
succeed, and the rest of the context and of the heap stays. -/
theorem keeps_clear {f g : CtxField} (hApart : g ≠ f) (h : c.held ≤ live) :
    ∃ live', ((free live f.space (c.ptr f)).bind fun live => free live g.space (c.ptr g)) = some live' ∧
      Keeps c ((c.clear f).clear g) live live' := by
  obtain ⟨rest, rfl⟩ := Multiset.le_iff_exists_add.mp h
  refine ⟨_, free_two hApart rest, ⟨rest, rfl, rfl⟩, fun hLive => Multiset.nodup_of_le ?_ hLive, rfl⟩
  rw [held_clear c f, held_clear (c.clear f) g, ← add_assoc, add_assoc]
  exact Multiset.le_add_left _ _

/-- Filling an empty field with a fresh allocation is accounted: the heap and the context
grow by the same handle. -/
theorem keeps_acquire (rt : Runtime) (field : CtxField) (bytes : SizeT) (hNull : c.ptr field = none)
    (h : c.held ≤ live) :
    Keeps c (c.acquire field (rt.address live field.space bytes)) live
      (⟨field.space, rt.address live field.space bytes⟩ ::ₘ live) := by
  obtain ⟨rest, rfl⟩ := Multiset.le_iff_exists_add.mp h
  refine ⟨⟨rest, rfl, ?_⟩, fun hLive => Multiset.nodup_cons.mpr ⟨rt.fresh _ _ _, hLive⟩, rfl⟩
  rw [held_acquire hNull, Multiset.cons_add]

/-- The context after `prl_mine_ctx_destroy_batch_graph`. -/
def BatchCtx.withoutGraph (c : BatchCtx) : BatchCtx :=
  { (c.clear .batchGraphExec).clear .batchGraph with batchGraphCount := 0 }

/-- Destroying the batch graph frees the handles of its two fields, each once, and nothing
else. -/
theorem destroyBatchGraph_keeps (h : c.held ≤ live) :
    ∃ live', prlMineCtxDestroyBatchGraph live c = some (c.withoutGraph, live') ∧
      Keeps c c.withoutGraph live live' := by
  obtain ⟨live', hBoth, hKeeps⟩ := @keeps_clear _ c .batchGraphExec .batchGraph (by decide) h
  have hFreed : ((free live .graphExec (c.ptr .batchGraphExec)).bind fun live =>
      free live .graph (c.ptr .batchGraph)) = some live' := hBoth
  refine ⟨live', ?_, ⟨hKeeps.exchange, hKeeps.nodup, hKeeps.self⟩⟩
  rw [prlMineCtxDestroyBatchGraph, hFreed]
  rfl

/-- The context once the graph and both key buffers are dropped. -/
def BatchCtx.withoutKeys (c : BatchCtx) : BatchCtx := (c.withoutGraph.clear .dKeyBatch).clear .dKeyBBatch

/-- A growth frees the graph and the key buffers first. What follows are the two allocations. -/
theorem ensureKeyBatch_frees (rt : Runtime) (hCap : ¬count ≤ c.keyBatchCap) (h : c.held ≤ live) :
    ∃ freed, Keeps c c.withoutKeys live freed ∧ prlMineCtxEnsureKeyBatch rt live c count = some (
      let bytes := sizeT count * 32
      if rt.fails 0 then (4, c.withoutKeys, freed)
      else
        let p := rt.address freed .device bytes
        let c := c.withoutKeys.acquire .dKeyBatch p
        let live := ⟨.device, p⟩ ::ₘ freed
        if rt.fails 1 then (4, c, live)
        else
          let q := rt.address live .device bytes
          let c := c.acquire .dKeyBBatch q
          (0, { c with keyBatchCap := count }, ⟨.device, q⟩ ::ₘ live)) := by
  obtain ⟨graphless, hDestroy, hGraph⟩ := destroyBatchGraph_keeps h
  obtain ⟨freed, hBoth, hKeys⟩ := @keeps_clear _ c.withoutGraph .dKeyBatch .dKeyBBatch (by decide) hGraph.held_le
  have hFreed : ((free graphless .device (c.withoutGraph.ptr .dKeyBatch)).bind fun live =>
      free live .device (c.withoutGraph.ptr .dKeyBBatch)) = some freed := hBoth
  refine ⟨freed, hGraph.trans hKeys, ?_⟩
  rw [prlMineCtxEnsureKeyBatch, if_neg hCap, hDestroy, Option.bind_some]
  dsimp only
  rw [hFreed]
  rfl

/-- `prl_mine_ctx_ensure_key_batch` frees the old key buffers before it obtains the new
ones, in every outcome of its allocations. -/
theorem ensureKeyBatch_keeps (rt : Runtime) (count : Int) (h : c.held ≤ live) :
    ∃ rc c' live', prlMineCtxEnsureKeyBatch rt live c count = some (rc, c', live') ∧ Keeps c c' live live' := by
  by_cases hCap : count ≤ c.keyBatchCap
  · exact ⟨_, _, _, if_pos hCap, .refl h⟩
  · obtain ⟨freed, hEmpty, hEq⟩ := ensureKeyBatch_frees rt hCap h
    rw [hEq]
    dsimp only
    split_ifs
    · exact ⟨_, _, _, rfl, hEmpty⟩
    · exact ⟨_, _, _, rfl, hEmpty.trans (keeps_acquire rt .dKeyBatch _ (by rfl) hEmpty.held_le)⟩
    · have hFirst := hEmpty.trans (keeps_acquire rt .dKeyBatch (sizeT count * 32) (by rfl) hEmpty.held_le)
      have hSecond := hFirst.trans (keeps_acquire rt .dKeyBBatch (sizeT count * 32) (by rfl) hFirst.held_le)
      exact ⟨_, _, _, rfl, hSecond.exchange, hSecond.nodup, hSecond.self⟩

/-- Building the batch graph is accounted in all its outcomes, also where the captured
graph fails to instantiate and stays in the context. -/
theorem buildBatchGraph_keeps (rt : Runtime) (graphCalls : GraphCalls) (count : Int) (h : c.held ≤ live) :
    ∃ rc c' live', prlMineCtxBuildBatchGraph rt graphCalls live c count = some (rc, c', live') ∧
      Keeps c c' live live' := by
  rw [prlMineCtxBuildBatchGraph]
  by_cases hCached : (c.ptr .batchGraphExec).isSome ∧ c.batchGraphCount = count
  · rw [if_pos hCached]
    exact ⟨_, _, _, rfl, .refl h⟩
  · rw [if_neg hCached]
    obtain ⟨freed, hDestroy, hGraph⟩ := destroyBatchGraph_keeps h
    rw [hDestroy, Option.map_some]
    dsimp only
    split_ifs
    · exact ⟨_, _, _, rfl, hGraph⟩
    · exact ⟨_, _, _, rfl, hGraph⟩
    · exact ⟨_, _, _, rfl, hGraph.trans (keeps_acquire rt .batchGraph _ (by rfl) hGraph.held_le)⟩
    · have hFirst := hGraph.trans (keeps_acquire rt .batchGraph 0 (by rfl) hGraph.held_le)
      have hSecond := hFirst.trans (keeps_acquire rt .batchGraphExec 0 (by rfl) hFirst.held_le)
      exact ⟨_, _, _, rfl, hSecond.exchange, hSecond.nodup, hSecond.self⟩

/-- Whatever fails in it, a batch frees what is live and loses nothing. -/
theorem batch_keeps (rt : Runtime) (graphCalls : GraphCalls) (count : Int) (launched : Bool) (h : c.held ≤ live) :
    ∃ rc c' live', prlMineCtxRunKeyedPreloadedBatch rt graphCalls live c count launched = some (rc, c', live') ∧
      Keeps c c' live live' := by
  rw [prlMineCtxRunKeyedPreloadedBatch]
  by_cases hCount : count ≤ 0
  · rw [if_pos hCount]
    exact ⟨_, _, _, rfl, .refl h⟩
  · rw [if_neg hCount]
    obtain ⟨rc, grown, live', hEnsure, hGrown⟩ := ensureKeyBatch_keeps rt count h
    rw [hEnsure, Option.bind_some]
    dsimp only
    by_cases hFailed : rc ≠ 0
    · rw [if_pos hFailed]
      exact ⟨_, _, _, rfl, hGrown⟩
    · rw [if_neg hFailed]
      obtain ⟨rc', built, live'', hBuild, hBuilt⟩ := buildBatchGraph_keeps rt graphCalls count hGrown.held_le
      rw [hBuild, Option.map_some]
      dsimp only
      split_ifs <;> exact ⟨_, _, _, rfl, hGrown.trans hBuilt⟩

/-- The one crash of the constructor: the `calloc` of the struct fails for a shape the
checks admit, and the null struct is written through. -/
theorem prlMineCtxCreate_crashed_iff (rt : Runtime) (live : Multiset Handle) (m k n : Int) :
    (prlMineCtxCreate rt live m k n).1 = .crashed ↔ Admitted m k n ∧ rt.fails 0 = true := by
  rw [Admitted, prlMineCtxCreate]
  split_ifs with hShape hFails
  · simp [hShape]
  · simp [hShape, hFails]
  · dsimp only
    split
    · simp [hFails]
    · simp [hFails]

/-- A list of frees succeeds where the heap is the sum of the pointees and a rest, and it
leaves the rest. -/
theorem foldlM_free (fields : List CtxField) (rest : Multiset Handle) :
    fields.foldlM (fun live field => free live field.space (c.ptr field))
      ((fields.map fun field => pointee field.space (c.ptr field)).sum + rest) = some rest := by
  induction fields with
  | nil => simp
  | cons field fields ih =>
      rw [List.foldlM_cons, List.map_cons, List.sum_cons, add_assoc, free_add]
      exact ih

/-- Everything that a context holds is freed, and once. -/
theorem destroy_eq (c : BatchCtx) (rest : Multiset Handle) : c.destroy (c.held + rest) = some rest := by
  have hAll : (Finset.univ : Finset CtxField) = destroyed.toFinset := by decide
  have hNodup : destroyed.Nodup := by decide
  have hHeld : c.held = (destroyed.map fun field => pointee field.space (c.ptr field)).sum +
      pointee .host (some c.self) := by
    rw [BatchCtx.held, PrlMineCtx.held, hAll, List.sum_toFinset _ hNodup, add_comm]
  rw [BatchCtx.destroy, hHeld, add_assoc, foldlM_free, Option.bind_some, free_add]

end Spec

section Object

/-- A Python integer as `ctypes.c_int`. -/
def cInt (x : Int) : Int := (BitVec.ofInt 32 x).toInt

abbrev Shape : Type := Int × Int × Int

/-- A `MineCuda` object in its process. The entries of `_ctx` are in the order of their insertion. -/
structure Session where
  live : Multiset Handle
  structs : List BatchCtx
  ctx : List (Shape × Nat)

/-- How a call of a method ends. A call that crashes or frees what is not live does not return. -/
inductive Outcome (α : Type) where
  | crashed
  | dangling
  | returned (result : α) (s : Session)

inductive Raised where
  | valueError
  | ctxCreate
  | rc (rc : Int)

/-- `run`, `run_keyed`, `preload_inputs` and `run_keyed_preloaded` are single. A batch
has so many keys in its two lists. -/
inductive Method where
  | single
  | batch (keysA keysB : Nat)

/-- A call, with what the runtime does to the two calls into the library that it makes. -/
structure MethodCall where
  shape : Shape
  method : Method
  create : Runtime
  batch : Runtime
  graphCalls : GraphCalls
  launched : Bool

namespace MethodCall

/-- `len(keys_A) != len(keys_B) or not keys_A` -/
def refused (call : MethodCall) : Bool :=
  match call.method with
  | .single => false
  | .batch keysA keysB => keysA != keysB || keysA == 0

/-- What the call does to its context. -/
def work (call : MethodCall) (live : Multiset Handle) (c : BatchCtx) : Option (Int × BatchCtx × Multiset Handle) :=
  match call.method with
  | .single => some (if call.launched then 0 else 4, c, live)
  | .batch keysA _ => prlMineCtxRunKeyedPreloadedBatch call.batch call.graphCalls live c (cInt keysA) call.launched

end MethodCall

namespace Session

def new : Session := ⟨0, [], []⟩

/-- `_ctx_for` -/
def ctxFor (s : Session) (rt : Runtime) (shape : Shape) : Outcome (Option Nat) :=
  match s.ctx.lookup shape with
  | some h => .returned (some h) s
  | none =>
      match prlMineCtxCreate rt s.live (cInt shape.1) (cInt shape.2.1) (cInt shape.2.2) with
      | (.crashed, _) => .crashed
      | (.returned none, live) => .returned none { s with live := live }
      | (.returned (some c), live) =>
          .returned (some c.self) ⟨live, s.structs ++ [⟨c, 0, 0⟩], s.ctx ++ [(shape, c.self)]⟩

/-- A call into the library with the handle `h`. -/
def enter (s : Session) (h : Nat) (work : BatchCtx → Option (Int × BatchCtx × Multiset Handle)) :
    Outcome (Except Raised Unit) :=
  match (s.structs.find? fun c => c.self == h).bind work with
  | none => .dangling
  | some (rc, c, live) =>
      .returned (if rc ≠ 0 then .error (.rc rc) else .ok ())
        { s with live := live, structs := s.structs.map fun d => if d.self = h then c else d }

def perform (s : Session) (call : MethodCall) : Outcome (Except Raised Unit) :=
  if call.refused then .returned (.error .valueError) s
  else
    match s.ctxFor call.create call.shape with
    | .crashed => .crashed
    | .dangling => .dangling
    | .returned none s => .returned (.error .ctxCreate) s
    | .returned (some h) s => s.enter h (call.work s.live)

def step (s : Session) (call : MethodCall) : Option Session :=
  match s.perform call with
  | .returned _ s => some s
  | _ => none

/-- `prl_mine_ctx_destroy` with a handle of `_ctx`. -/
def destroy (s : Multiset Handle × List BatchCtx) (h : Nat) : Option (Multiset Handle × List BatchCtx) :=
  (s.2.find? fun c => c.self == h).bind fun c =>
    (c.destroy s.1).map fun live => (live, s.2.filter fun d => d.self != h)

/-- What is live after `__del__`. -/
def del (s : Session) : Option (Multiset Handle) :=
  ((s.ctx.map Prod.snd).foldlM destroy (s.live, s.structs)).map Prod.fst

/-- The call asks for a new context of an admitted shape. -/
def Creates (s : Session) (call : MethodCall) : Prop :=
  call.refused = false ∧ s.ctx.lookup call.shape = none ∧
    Admitted (cInt call.shape.1) (cInt call.shape.2.1) (cInt call.shape.2.2)

/-- If it does, it gets all of it. -/
def CreatesInFull (s : Session) (call : MethodCall) : Prop :=
  s.Creates call → NoneFails call.create (cInt call.shape.1) (cInt call.shape.2.1) (cInt call.shape.2.2)

/-- The contexts of the object own what is live but for what was lost, and `_ctx` has their handles. -/
structure Owns (s : Session) (lost : Multiset Handle) : Prop where
  balanced : Balanced BatchCtx.held s.structs lost s.live
  nodup : s.live.Nodup
  handles : s.ctx.map Prod.snd = s.structs.map fun c => c.self

variable {s s' : Session} {lost : Multiset Handle} {h : Nat}

theorem owns_new : new.Owns 0 := ⟨balanced_nil, Multiset.nodup_zero, rfl⟩

/-- The handles of a session are distinct. -/
theorem Owns.distinct (owns : s.Owns lost) : (s.structs.map fun c => c.self).Nodup :=
  owns.balanced.nodup_map owns.nodup _ (Handle.mk .host) fun c => self_mem_held c.toPrlMineCtx

/-- A handle of `_ctx` leads to its struct. -/
theorem Owns.find (owns : s.Owns lost) (hHandle : h ∈ s.ctx.map Prod.snd) :
    ∃ before c after, s.structs = before ++ c :: after ∧ c.self = h ∧
      (s.structs.find? fun c => c.self == h) = some c := by
  rw [owns.handles] at hHandle
  obtain ⟨c, hMem, hSelf⟩ := List.mem_map.mp hHandle
  obtain ⟨d, hFind⟩ := Option.isSome_iff_exists.mp
    (List.find?_isSome.mpr ⟨c, hMem, by simpa using hSelf⟩ : (s.structs.find? fun c => c.self == h).isSome)
  obtain ⟨hFound, before, after, hStructs, -⟩ := List.find?_eq_some_iff_append.mp hFind
  exact ⟨before, d, after, hStructs, by simpa using hFound, hFind⟩

/-- Only the struct of the handle is written. -/
theorem map_replace {before after : List BatchCtx} {c c' : BatchCtx}
    (hDistinct : ((before ++ c :: after).map fun c => c.self).Nodup) :
    ((before ++ c :: after).map fun d => if d.self = c.self then c' else d) = before ++ c' :: after := by
  rw [List.map_append, List.map_cons, List.nodup_append, List.nodup_cons] at hDistinct
  obtain ⟨-, ⟨hAfter, -⟩, hBefore⟩ := hDistinct
  have hKeep (structs : List BatchCtx) (h : ∀ d ∈ structs, d.self ≠ c.self) :
      (structs.map fun d => if d.self = c.self then c' else d) = structs := by
    induction structs with
    | nil => rfl
    | cons d structs ih =>
        rw [List.map_cons, if_neg (h d List.mem_cons_self), ih fun e he => h e (List.mem_cons_of_mem d he)]
  rw [List.map_append, List.map_cons, if_pos rfl, hKeep before, hKeep after]
  · intro d hd hSame
    exact hAfter (List.mem_map.mpr ⟨d, hd, hSame⟩)
  · intro d hd
    exact hBefore _ (List.mem_map_of_mem hd) _ List.mem_cons_self

/-- Work that keeps a context's account keeps that of the object. -/
theorem Owns.enter (owns : s.Owns lost) (hHandle : h ∈ s.ctx.map Prod.snd)
    {work : BatchCtx → Option (Int × BatchCtx × Multiset Handle)}
    (hWork : ∀ c : BatchCtx, c.held ≤ s.live →
      ∃ rc c' live', work c = some (rc, c', live') ∧ Keeps c c' s.live live') :
    ∃ result s', s.enter h work = .returned result s' ∧ s'.Owns lost := by
  obtain ⟨before, c, after, hStructs, rfl, hFind⟩ := owns.find hHandle
  have hBalanced := owns.balanced
  have hDistinct := owns.distinct
  rw [hStructs] at hBalanced hDistinct
  obtain ⟨rc, c', live', hDone, hKeeps⟩ := hWork c hBalanced.held_le
  rw [Session.enter, hFind, Option.bind_some, hDone, hStructs]
  dsimp only
  rw [map_replace hDistinct]
  refine ⟨_, _, rfl, hBalanced.exchange hKeeps.exchange, hKeeps.nodup owns.nodup, ?_⟩
  rw [owns.handles, hStructs]
  simp [hKeeps.self]

/-- Every method of the backend that works on a context keeps the account of that context,
whatever the device answers. -/
theorem work_keeps (call : MethodCall) {live : Multiset Handle} {c : BatchCtx} (h : c.held ≤ live) :
    ∃ rc c' live', call.work live c = some (rc, c', live') ∧ Keeps c c' live live' := by
  rw [MethodCall.work]
  cases call.method with
  | single => exact ⟨_, _, _, rfl, .refl h⟩
  | batch keysA keysB => exact batch_keeps call.batch call.graphCalls (cInt keysA) call.launched h

/-- What `_ctx_for` can do. Only a context that is not made in full loses something. -/
theorem Owns.ctxFor (owns : s.Owns lost) (rt : Runtime) (shape : Shape) :
    s.ctxFor rt shape = .crashed ∨
    ∃ result s' got, s.ctxFor rt shape = .returned result s' ∧ s'.Owns (got + lost) ∧
      (got = 0 ↔ (s.ctx.lookup shape = none → Admitted (cInt shape.1) (cInt shape.2.1) (cInt shape.2.2) →
        NoneFails rt (cInt shape.1) (cInt shape.2.1) (cInt shape.2.2))) ∧
      ∀ h, result = some h → h ∈ s'.ctx.map Prod.snd := by
  rw [Session.ctxFor]
  cases hLookup : s.ctx.lookup shape with
  | some h =>
      refine .inr ⟨some h, s, 0, rfl, by rwa [zero_add], by simp, fun h' hSame => ?_⟩
      cases hSame
      obtain ⟨before, after, hCtx, -⟩ := List.lookup_eq_some_iff.mp hLookup
      simp [hCtx]
  | none =>
      have hNew := prlMineCtxCreate_creates rt s.live (cInt shape.1) (cInt shape.2.1) (cInt shape.2.2)
      have hNodup := prlMineCtxCreate_nodup rt s.live (cInt shape.1) (cInt shape.2.1) (cInt shape.2.2) owns.nodup
      generalize prlMineCtxCreate rt s.live (cInt shape.1) (cInt shape.2.1) (cInt shape.2.2) = out at hNew hNodup
      cases hNew with
      | refused hShape =>
          refine .inr ⟨none, s, 0, rfl, by rwa [zero_add], ?_, by simp⟩
          exact iff_of_true rfl fun _ hAdmitted => absurd hAdmitted hShape
      | crashed hShape hFails => exact .inl rfl
      | @gaveUp hShape hFails got hGot =>
          refine .inr ⟨none, _, got, rfl, ⟨owns.balanced.lose, hNodup, owns.handles⟩, ?_, by simp⟩
          exact iff_of_false hGot fun h => hFails (h rfl hShape)
      | @created hShape hNone c hComplete =>
          have hBefore : Balanced BatchCtx.held (s.structs ++ []) lost s.live := by
            simpa using owns.balanced
          refine .inr ⟨some c.self, _, 0, rfl, ⟨?_, hNodup, ?_⟩, ?_, ?_⟩
          · rw [zero_add]
            exact hBefore.insert
          · simp [owns.handles]
          · exact iff_of_true rfl fun _ _ => hNone
          · simp

/-- It crashes for want of memory for the struct. -/
theorem ctxFor_crashed_iff (s : Session) (rt : Runtime) (shape : Shape) :
    s.ctxFor rt shape = .crashed ↔ s.ctx.lookup shape = none ∧
      Admitted (cInt shape.1) (cInt shape.2.1) (cInt shape.2.2) ∧ rt.fails 0 = true := by
  rw [Session.ctxFor]
  cases hLookup : s.ctx.lookup shape with
  | some h => simp
  | none =>
      rw [← prlMineCtxCreate_crashed_iff rt s.live]
      rcases prlMineCtxCreate rt s.live (cInt shape.1) (cInt shape.2.1) (cInt shape.2.2) with ⟨_ | ⟨_ | c⟩, live⟩
      · simp
      · simp
      · simp

/-- What a call can do. -/
theorem Owns.perform (owns : s.Owns lost) (call : MethodCall) :
    s.perform call = .crashed ∨ ∃ result s' got, s.perform call = .returned result s' ∧
      s'.Owns (got + lost) ∧ (got = 0 ↔ s.CreatesInFull call) := by
  rw [Session.perform, CreatesInFull, Creates]
  cases hRefused : call.refused with
  | true => exact .inr ⟨_, s, 0, rfl, by rwa [zero_add], by simp⟩
  | false =>
      rcases owns.ctxFor call.create call.shape with hCrashed | ⟨result, s', got, hCtx, hOwns, hGot, hHandle⟩
      · simp [hCrashed]
      · have hFull : got = 0 ↔ (false = false ∧ s.ctx.lookup call.shape = none ∧
            Admitted (cInt call.shape.1) (cInt call.shape.2.1) (cInt call.shape.2.2) →
          NoneFails call.create (cInt call.shape.1) (cInt call.shape.2.1) (cInt call.shape.2.2)) := by
          simpa using hGot
        rw [hCtx]
        cases result with
        | none => exact .inr ⟨_, s', got, rfl, hOwns, hFull⟩
        | some h =>
            have hWork (c : BatchCtx) (hc : c.held ≤ s'.live) := work_keeps call hc
            obtain ⟨result, s'', hEnter, hOwns'⟩ := hOwns.enter (hHandle h rfl) hWork
            exact .inr ⟨result, s'', got, hEnter, hOwns', hFull⟩

/-- A backend whose account is right crashes in one way only, in the `calloc` of a context
that the call is about to create. -/
theorem perform_crashed_iff (owns : s.Owns lost) (call : MethodCall) :
    s.perform call = .crashed ↔ s.Creates call ∧ call.create.fails 0 = true := by
  rw [Session.perform, Creates]
  cases hRefused : call.refused with
  | true => simp
  | false =>
      have hCrashed := ctxFor_crashed_iff s call.create call.shape
      rw [and_assoc, and_assoc, ← hCrashed]
      rcases owns.ctxFor call.create call.shape with hCtx | ⟨result, s', got, hCtx, hOwns, -, hHandle⟩
      · simp [hCtx]
      · rw [hCtx]
        cases result with
        | none => simp
        | some h =>
            have hWork (c : BatchCtx) (hc : c.held ≤ s'.live) := work_keeps call hc
            obtain ⟨result, s'', hEnter, -⟩ := hOwns.enter (hHandle h rfl) hWork
            simp [hEnter]

/-- What a run of an object has lost is what contexts that were not made in full have lost. -/
theorem run_owns {calls : List MethodCall} (run : Run step new calls s) :
    ∃ lost, s.Owns lost ∧ (lost = 0 ↔ EveryStep step new CreatesInFull calls) := by
  induction run with
  | nil => exact ⟨0, owns_new, iff_of_true rfl everyStep_nil⟩
  | @snoc calls s s' prior call last ih =>
      obtain ⟨lost, hOwns, hLost⟩ := ih
      rw [everyStep_snoc prior, ← hLost]
      rw [step] at last
      rcases hOwns.perform call with hCrashed | ⟨result, t, got, hReturned, hNext, hGot⟩
      · rw [hCrashed] at last
        cases last
      · rw [hReturned] at last
        cases last
        refine ⟨got + lost, hNext, ?_⟩
        rw [add_eq_zero, hGot, and_comm]

/-- Destroying the distinct contexts of a balanced heap one by one succeeds and leaves
what earlier failures had lost. -/
theorem foldlM_destroy {structs : List BatchCtx} {live : Multiset Handle}
    (hDistinct : (structs.map fun c => c.self).Nodup) (hBalanced : Balanced BatchCtx.held structs lost live) :
    (structs.map fun c => c.self).foldlM destroy (live, structs) = some (lost, []) := by
  induction structs generalizing live with
  | nil =>
      have hLive : live = lost := by simpa [Ownership.Balanced, holdings] using hBalanced
      simp [hLive]
  | cons c structs ih =>
      obtain ⟨hNew, hRest⟩ := List.nodup_cons.mp hDistinct
      have hOthers : (structs.filter fun d => d.self != c.self) = structs := by
        rw [List.filter_eq_self]
        intro d hd
        simpa using fun hSame : d.self = c.self => hNew (List.mem_map.mpr ⟨d, hd, hSame⟩)
      have hStep : destroy (live, c :: structs) c.self = some (holdings BatchCtx.held structs + lost, structs) := by
        rw [hBalanced, holdings_cons, add_assoc, destroy]
        simp [destroy_eq, hOthers]
      rw [List.map_cons, List.foldlM_cons, hStep]
      exact ih hRest rfl

/-- `__del__` frees all that the contexts own. -/
theorem Owns.del_eq (owns : s.Owns lost) : s.del = some lost := by
  rw [del, owns.handles, foldlM_destroy owns.distinct owns.balanced, Option.map_some]

/-- Over the life of a `MineCuda` object, whatever shapes and batches it is called with
and whatever fails in them, only what is live is freed, and a call crashes only for want of
a struct. What `__del__` leaves behind is what calls to create a context lost halfway:
nothing if and only if there were none. Batches that fail to grow or to capture lose nothing. -/
theorem mine_cuda_frees_once (calls : List MethodCall) (s : Session) (run : Run step new calls s) :
    (∀ call, s.perform call ≠ .dangling ∧
      (s.perform call = .crashed ↔ s.Creates call ∧ call.create.fails 0 = true)) ∧
    s.live.Nodup ∧ ∃ lost, s.del = some lost ∧ (lost = 0 ↔ EveryStep step new CreatesInFull calls) := by
  obtain ⟨lost, hOwns, hLost⟩ := run_owns run
  refine ⟨fun call => ⟨?_, perform_crashed_iff hOwns call⟩, hOwns.nodup, lost, hOwns.del_eq, hLost⟩
  rcases hOwns.perform call with hCrashed | ⟨result, t, got, hReturned, -⟩
  · simp [hCrashed]
  · simp [hReturned]

/-- A batch of two keys whose second buffer fails, then one of three whose graph fails
to instantiate, then one of two in full. -/
def failingBatches : List MethodCall :=
  [⟨(128, 128, 128), .batch 2 2, .above fun _ => false, .above fun i => i == 1, default, true⟩,
    ⟨(128, 128, 128), .batch 3 3, .above fun _ => false, .above fun _ => false, ⟨true, true, false⟩, true⟩,
    ⟨(128, 128, 128), .batch 2 2, .above fun _ => false, .above fun _ => false, default, true⟩]

/-- Batches in which an allocation and then a graph fail end with nothing on the heap once
the backend is deleted. -/
theorem mine_cuda_frees_once_batches : ∃ s, Run step new failingBatches s ∧ s.del = some 0 := by
  have hRuns : (failingBatches.foldlM step new).isSome := by decide +kernel
  obtain ⟨s, hEnd⟩ := Option.isSome_iff_exists.mp hRuns
  have run := run_iff_foldlM.mpr hEnd
  obtain ⟨-, -, lost, hDel, hLost⟩ := mine_cuda_frees_once failingBatches s run
  have hFull : EveryStep step new CreatesInFull failingBatches := by
    intro before call after t hCalls run' hCreates i hi
    have hMem : call ∈ failingBatches := by simp [hCalls]
    simp only [failingBatches, List.mem_cons, List.not_mem_nil, or_false] at hMem
    rcases hMem with rfl | rfl | rfl <;> rfl
  exact ⟨s, run, hLost.mpr hFull ▸ hDel⟩

end Session

end Object

end Cuda.Lifetime
