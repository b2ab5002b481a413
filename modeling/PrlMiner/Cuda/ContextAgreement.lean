import PrlMiner.Cuda.ContextOwnership
import PrlMiner.Cuda.KeyBatchRuns

/-! The growth of the key buffers and the capture of the graph stand in two models: that
of what a call computes on a context, and that of what the context owns. Every call of the
second is one of the first, on the same addresses, and so is every run of an object. -/
namespace Cuda.Lifetime

open FixedWidth LittleEndian ParallelWrites Runs

/-- The two models of one context: the same shape, the same key buffers at the same
addresses, the same capacity, and a graph, if there is one, for the same count. -/
structure Agrees (c : Cuda.PrlMineCtx) (b : BatchCtx) : Prop where
  m : b.m = c.m
  k : b.k = c.k
  n : b.n = c.n
  keysA : b.ptr .dKeyBatch = c.dKeyBatch
  keysB : b.ptr .dKeyBBatch = c.dKeyBBatch
  cap : b.keyBatchCap = c.keyBatchCap
  graph : (b.ptr .batchGraph).isSome = c.batchGraph.isSome
  exec : (b.ptr .batchGraphExec).isSome = c.batchGraphExec.isSome
  count : b.batchGraphCount = c.batchGraphCount

/-- What the runtime hands out to a growth, as an allocator of the context model: the
first address while none of the two buffers is there, and then the second one. -/
def Runtime.allocator (rt : Runtime) (live : Multiset Handle) : Allocator where
  malloc heap bytes :=
    let size : SizeT := BitVec.ofNat 64 bytes
    let p := rt.address live .device size
    if (heap p).isNone then
      if rt.fails 0 then none else some p
    else
      let q := rt.address (⟨.device, p⟩ ::ₘ live) .device size
      if rt.fails 1 ∨ (heap q).isSome then none else some q
  content _ := default
  fresh heap bytes p h := by
    dsimp only at h
    split_ifs at h with hFree hFails hTaken
    · cases h
      exact Option.isNone_iff_eq_none.mp hFree
    · cases h
      exact Option.not_isSome_iff_eq_none.mp (not_or.mp hTaken).2

variable {rt : Runtime} {graphCalls : GraphCalls} {live : Multiset Handle} {c c' : Cuda.PrlMineCtx} {b : BatchCtx}
  {count : Int}

/-- Both models ask for the same number of bytes, as a `size_t`. -/
theorem sizeT_keys (h : 0 ≤ count) : BitVec.ofNat 64 (count.toNat * 32) = sizeT count * 32 := by
  obtain ⟨n, rfl⟩ := Int.eq_ofNat_of_zero_le h
  rw [sizeT, Int.toNat_natCast, BitVec.ofNat_mul, BitVec.ofInt_natCast]
  rfl

/-- The first allocation of a growth fails if acquisition 0 does, -/
theorem allocator_first (rt : Runtime) (live : Multiset Handle) {heap : Heap} (hEmpty : ∀ p, heap p = none)
    (bytes : Nat) : (rt.allocator live).malloc heap bytes =
      if rt.fails 0 then none else some (rt.address live .device (BitVec.ofNat 64 bytes)) :=
  if_pos (by rw [hEmpty]; rfl)

/-- and the second one if acquisition 1 does. It never gets the address of the first. -/
theorem allocator_second (rt : Runtime) (live : Multiset Handle) {heap : Heap} (hEmpty : ∀ p, heap p = none)
    (bytes : Nat) (x : Allocation) :
    let p := rt.address live .device (BitVec.ofNat 64 bytes)
    (rt.allocator live).malloc (Function.update heap p (some x)) bytes =
      if rt.fails 1 then none else some (rt.address (⟨.device, p⟩ ::ₘ live) .device (BitVec.ofNat 64 bytes)) := by
  intro p
  have hApart : rt.address (⟨.device, p⟩ ::ₘ live) .device (BitVec.ofNat 64 bytes) ≠ p := by
    intro hSame
    refine rt.fresh (⟨.device, p⟩ ::ₘ live) .device (BitVec.ofNat 64 bytes) ?_
    rw [hSame]
    exact Multiset.mem_cons_self _ _
  rw [Runtime.allocator]
  dsimp only
  rw [if_neg (by rw [Function.update_self]; exact Bool.false_ne_true), Function.update_of_ne hApart, hEmpty]
  simp only [Option.isSome_none, Bool.false_eq_true, or_false]
  rfl

/-- A growth that starts drops the graph and both key buffers in either model. -/
theorem Agrees.withoutKeys (h : Agrees c b) : Agrees (releaseKeyBatch c) b.withoutKeys :=
  ⟨h.m, h.k, h.n, rfl, rfl, h.cap, rfl, rfl, rfl⟩

/-- A capture drops the old graph in either model. -/
theorem Agrees.withoutGraph (h : Agrees c b) : Agrees (Cuda.prlMineCtxDestroyBatchGraph c) b.withoutGraph :=
  ⟨h.m, h.k, h.n, h.keysA, h.keysB, h.cap, rfl, rfl, rfl⟩

/-- A growth of the ownership model is one of the context model, under the allocator that
hands out the same addresses. Where it fails, both stop at the same allocation. -/
theorem ensureKeyBatch_agrees (rt : Runtime) (count : Int) (h : Agrees c b) (hTidy : c.Tidy) (hHeld : b.held ≤ live) :
    ∃ (a : Allocator) (rc : Nat) (c' : Cuda.PrlMineCtx) (b' : BatchCtx) (live' : Multiset Handle),
      prlMineCtxEnsureKeyBatch rt live b count = some ((rc : Int), b', live') ∧
      Cuda.prlMineCtxEnsureKeyBatch a c count.toNat = (rc, c') ∧ Agrees c' b' := by
  by_cases hCap : count ≤ b.keyBatchCap
  · have hSame : count.toNat ≤ c.keyBatchCap := by
      have := h.cap
      omega
    exact ⟨default, 0, c, b, live, if_pos hCap, if_pos hSame, h⟩
  · have hGrows : ¬count.toNat ≤ c.keyBatchCap := by
      have := h.cap
      omega
    obtain ⟨freed, -, hEq⟩ := ensureKeyBatch_frees rt hCap hHeld
    have hBytes : BitVec.ofNat 64 (count.toNat * 32) = sizeT count * 32 := sizeT_keys (by have := h.cap; omega)
    rw [hEq]
    refine ⟨rt.allocator freed, ?_⟩
    have hFirst := allocator_first rt freed hTidy.released (count.toNat * 32)
    have hSecond := allocator_second rt freed hTidy.released (count.toNat * 32)
    rw [hBytes] at hFirst hSecond
    rw [Cuda.prlMineCtxEnsureKeyBatch, if_neg hGrows]
    dsimp only [cudaMalloc]
    rw [hFirst]
    by_cases hFails : rt.fails 0
    · rw [if_pos hFails, if_pos hFails]
      exact ⟨4, _, _, _, rfl, rfl, h.withoutKeys⟩
    rw [if_neg hFails, if_neg hFails]
    dsimp only [Option.map_some]
    rw [hSecond]
    by_cases hFails' : rt.fails 1
    · rw [if_pos hFails', if_pos hFails']
      have hEmpty := h.withoutKeys
      exact ⟨4, _, _, _, rfl, rfl, hEmpty.m, hEmpty.k, hEmpty.n, rfl, rfl, hEmpty.cap, rfl, rfl, rfl⟩
    · rw [if_neg hFails', if_neg hFails']
      have hEmpty := h.withoutKeys
      have hCount : count = (count.toNat : Int) := by
        have := h.cap
        omega
      exact ⟨0, _, _, _, rfl, rfl, hEmpty.m, hEmpty.k, hEmpty.n, rfl, rfl, hCount, rfl, rfl, rfl⟩

/-- A capture of the ownership model is one of the context model. A graph for the same
count is used again in both. -/
theorem buildBatchGraph_agrees (rt : Runtime) (graphCalls : GraphCalls) (hCount : 0 ≤ count) (h : Agrees c b)
    (hHeld : b.held ≤ live) :
    ∃ (rc : Nat) (c' : Cuda.PrlMineCtx) (b' : BatchCtx) (live' : Multiset Handle),
      prlMineCtxBuildBatchGraph rt graphCalls live b count = some ((rc : Int), b', live') ∧
      Cuda.prlMineCtxBuildBatchGraph graphCalls c count.toNat = (rc, c') ∧ Agrees c' b' := by
  have hCached : (c.batchGraphExec.isSome ∧ c.batchGraphCount = count.toNat) ↔
      ((b.ptr .batchGraphExec).isSome ∧ b.batchGraphCount = count) := by
    rw [h.exec, h.count]
    refine and_congr_right fun _ => ?_
    omega
  rw [prlMineCtxBuildBatchGraph, Cuda.prlMineCtxBuildBatchGraph]
  by_cases hSame : (b.ptr .batchGraphExec).isSome ∧ b.batchGraphCount = count
  · rw [if_pos hSame, if_pos (hCached.mpr hSame)]
    exact ⟨0, c, b, live, rfl, rfl, h⟩
  obtain ⟨freed, hDestroy, -⟩ := destroyBatchGraph_keeps hHeld
  have hDropped := h.withoutGraph
  rw [if_neg hSame, if_neg (mt hCached.mp hSame), hDestroy, Option.map_some]
  obtain ⟨begins, ends, instantiates⟩ := graphCalls
  cases begins with
  | false => exact ⟨4, _, _, _, rfl, rfl, hDropped⟩
  | true =>
      cases ends with
      | false => exact ⟨4, _, _, _, rfl, rfl, hDropped⟩
      | true =>
          cases instantiates with
          | false =>
              exact ⟨4, _, _, _, rfl, rfl, h.m, h.k, h.n, h.keysA, h.keysB, h.cap, rfl, rfl, rfl⟩
          | true =>
              exact ⟨0, _, _, _, rfl, rfl, h.m, h.k, h.n, h.keysA, h.keysB, h.cap, rfl, rfl,
                (Int.toNat_of_nonneg hCount).symm⟩

/-- The copies and the launch change the contents of the buffers, and nothing on which
the two models have to agree. -/
theorem launchBatch_agrees {env : CallEnv} {keysA32 keysB32 target32 : Buffer Byte} {count : Nat} (h : Agrees c b)
    (hLaunch : launchBatch env keysA32 keysB32 count target32 c = some c') : Agrees c' b := by
  obtain ⟨heap, -, hLaunch⟩ := Option.bind_eq_some_iff.mp hLaunch
  obtain ⟨heap', -, hLaunch⟩ := Option.bind_eq_some_iff.mp hLaunch
  obtain ⟨g, -, hLaunch⟩ := Option.bind_eq_some_iff.mp hLaunch
  obtain ⟨keysA, -, hLaunch⟩ := Option.bind_eq_some_iff.mp hLaunch
  obtain ⟨keysB, -, rfl⟩ := Option.map_eq_some_iff.mp hLaunch
  have hAttempts (attempts : List Nat) (s : Cuda.PrlMineCtx) (hs : Agrees s b) :
      Agrees (attempts.foldl (graphAttempt env.device keysA keysB) s) b := by
    induction attempts generalizing s with
    | nil => exact hs
    | cons i attempts ih =>
        exact ih _ ⟨hs.m, hs.k, hs.n, hs.keysA, hs.keysB, hs.cap, hs.graph, hs.exec, hs.count⟩
  exact hAttempts _ _ ⟨h.m, h.k, h.n, h.keysA, h.keysB, h.cap, h.graph, h.exec, h.count⟩

/-- What a batch call of the context model returns to its caller in C. -/
def returnCode : Except Nat (Int × MineResult) → Int
  | .ok _ => 0
  | .error rc => rc

/-- Every batch call of the ownership model is one of the context model. They return the
same where `launched` says whether the copies and the launch there succeed. -/
theorem runBatch_agrees (d : Device) (rt : Runtime) (graphCalls : GraphCalls) (count : Int) (launched : Bool)
    (keysA32 keysB32 target32 : Buffer Byte) (h : Agrees c b) (hTidy : c.Tidy) (hHeld : b.held ≤ live) :
    ∃ (a : Allocator) (rc : Int) (b' : BatchCtx) (live' : Multiset Handle),
      let env : CallEnv := ⟨d, a, graphCalls⟩
      let ready := (prepareBatch env count.toNat c).2
      let out := Cuda.prlMineCtxRunKeyedPreloadedBatch env keysA32 keysB32 count.toNat target32 c
      prlMineCtxRunKeyedPreloadedBatch rt graphCalls live b count launched = some (rc, b', live') ∧
      Agrees out.2 b' ∧
      (launched = (launchBatch env keysA32 keysB32 count.toNat target32 ready).isSome → returnCode out.1 = rc) := by
  rw [prlMineCtxRunKeyedPreloadedBatch]
  by_cases hNone : count ≤ 0
  · rw [if_pos hNone, Int.toNat_of_nonpos hNone]
    exact ⟨default, 2, b, live, rfl, h, fun _ => rfl⟩
  obtain ⟨a, rc, grown, b₁, live₁, hEnsure, hGrow, hGrown⟩ := ensureKeyBatch_agrees rt count h hTidy hHeld
  obtain ⟨_, _, _, hSame, hKeeps⟩ := ensureKeyBatch_keeps rt count hHeld
  cases hEnsure.symm.trans hSame
  refine ⟨a, ?_⟩
  have hCount : count.toNat ≠ 0 := by omega
  rw [if_neg hNone, hEnsure, Option.bind_some]
  dsimp only
  rw [Cuda.prlMineCtxRunKeyedPreloadedBatch, if_neg hCount, prepareBatch, hGrow]
  dsimp only
  by_cases hRc : rc ≠ 0
  · rw [if_pos hRc, if_pos (by exact_mod_cast hRc)]
    dsimp only
    rw [if_pos hRc]
    exact ⟨rc, b₁, live₁, rfl, hGrown, fun _ => rfl⟩
  rw [if_neg hRc, if_neg (by exact_mod_cast hRc)]
  obtain ⟨rc', built, b₂, live₂, hBuild, hBuilds, hBuilt⟩ :=
    buildBatchGraph_agrees rt graphCalls (by omega : 0 ≤ count) hGrown hKeeps.held_le
  rw [hBuild, hBuilds]
  dsimp only [Option.map_some]
  by_cases hRc' : rc' ≠ 0
  · rw [if_pos hRc', if_pos (by exact_mod_cast hRc')]
    exact ⟨rc', b₂, live₂, rfl, hBuilt, fun _ => rfl⟩
  rw [if_neg hRc', if_neg (by exact_mod_cast hRc')]
  refine ⟨_, _, _, rfl, ?_⟩
  cases hLaunch : launchBatch ⟨d, a, graphCalls⟩ keysA32 keysB32 count.toNat target32 built with
  | none => exact ⟨hBuilt, fun hLaunched => by rw [hLaunched]; rfl⟩
  | some after => exact ⟨launchBatch_agrees hBuilt hLaunch, fun hLaunched => by rw [hLaunched]; rfl⟩

section Object

/-- A context of a `MineCuda` object as the context model has it: created, and taken
through some batch calls. -/
def Modelled (d : Device) (b : BatchCtx) : Prop :=
  ∃ (m k n : Nat) (start c : Cuda.PrlMineCtx) (calls : List BatchCall),
    Cuda.prlMineCtxCreate d m k n = some start ∧ Run batchStep start calls c ∧ Agrees c b

/-- The chain of `prl_mine_ctx_create` leaves the other pointers alone. -/
theorem acquireAll_untouched (rt : Runtime) (i : Nat) (requests : List (CtxField × SizeT)) (c : PrlMineCtx)
    (live : Multiset Handle) (f : CtxField) (hOther : f ∉ requests.map Prod.fst) :
    (acquireAll rt i requests c live).2.1.ptr f = c.ptr f := by
  induction requests generalizing i c live with
  | nil => rfl
  | cons request rest ih =>
      obtain ⟨hNe, hRest⟩ := not_or.mp (mt List.mem_cons.mpr hOther)
      rw [acquireAll]
      split_ifs
      · rfl
      · exact (ih _ _ _ hRest).trans (c.store_ptr_of_ne hNe _)

/-- A context that was just created has no key buffers and no graph in either model, and
the context model admits its shape. -/
theorem create_agrees (d : Device) {rt : Runtime} {live live' : Multiset Handle} {m k n : Int} {c : PrlMineCtx}
    (hShape : 0 ≤ m ∧ 0 ≤ k ∧ 0 ≤ n) (h : prlMineCtxCreate rt live m k n = (.returned (some c), live')) :
    ∃ start, Cuda.prlMineCtxCreate d m.toNat k.toNat n.toNat = some start ∧ Agrees start ⟨c, 0, 0⟩ := by
  obtain ⟨m, rfl⟩ := Int.eq_ofNat_of_zero_le hShape.1
  obtain ⟨k, rfl⟩ := Int.eq_ofNat_of_zero_le hShape.2.1
  obtain ⟨n, rfl⟩ := Int.eq_ofNat_of_zero_le hShape.2.2
  have hCast (x : Nat) : (x : Int).tmod 128 ≠ 0 ↔ x % 128 ≠ 0 := by
    rw [show (128 : Int) = ((128 : Nat) : Int) from rfl, ← Int.ofNat_tmod]
    exact_mod_cast Iff.rfl
  rw [prlMineCtxCreate] at h
  by_cases hRefused : (m : Int).tmod 128 ≠ 0 ∨ (n : Int).tmod 128 ≠ 0 ∨ (k : Int).tmod 128 ≠ 0
  · rw [if_pos hRefused] at h
    cases h
  rw [if_neg hRefused] at h
  by_cases hFails : rt.fails 0
  · rw [if_pos hFails] at h
    cases h
  rw [if_neg hFails] at h
  dsimp only at h
  have hPtr (field : CtxField) := acquireAll_untouched rt 1 (acquisitions m k n)
    ⟨rt.address live .host 248, m, k, n, sizeT ((m : Int).tdiv 16) * sizeT ((n : Int).tdiv 16), fun _ => none⟩
    (⟨.host, rt.address live .host 248⟩ ::ₘ live) field
  have hSpec := acquireAll_spec rt 1 (acquisitions m k n)
    ⟨rt.address live .host 248, m, k, n, sizeT ((m : Int).tdiv 16) * sizeT ((n : Int).tdiv 16), fun _ => none⟩
    (⟨.host, rt.address live .host 248⟩ ::ₘ live) (acquisitions_nodup m k n) (fun _ _ => rfl)
  generalize acquireAll rt 1 (acquisitions m k n) _ _ = out at h hPtr hSpec
  obtain ⟨_ | _, made, obtained⟩ := out
  · cases h
  cases h
  have hNull (field : CtxField) (hOther : field ∉ (acquisitions m k n).map Prod.fst) : c.ptr field = none :=
    hPtr field hOther
  obtain ⟨hm, hk, hn⟩ := hSpec.shape
  rw [hCast, hCast, hCast] at hRefused
  refine ⟨_, if_neg hRefused, hm, hk, hn, ?_, ?_, rfl, ?_, ?_, rfl⟩
  · exact hNull .dKeyBatch (by simp [acquisitions])
  · exact hNull .dKeyBBatch (by simp [acquisitions])
  · exact congrArg Option.isSome (hNull .batchGraph (by simp [acquisitions]))
  · exact congrArg Option.isSome (hNull .batchGraphExec (by simp [acquisitions]))

/-- A method of the object keeps its context modelled: it makes a batch call, or it looks
at nothing on which the two models have to agree. -/
theorem work_modelled {d : Device} (call : MethodCall) {rc : Int} {b' : BatchCtx} {live' : Multiset Handle}
    (h : Modelled d b) (hHeld : b.held ≤ live) (hWork : call.work live b = some (rc, b', live')) : Modelled d b' := by
  rw [MethodCall.work] at hWork
  cases hMethod : call.method with
  | single =>
      rw [hMethod] at hWork
      cases hWork
      exact h
  | batch keysA keysB =>
      rw [hMethod] at hWork
      obtain ⟨m, k, n, start, c, calls, hCreate, run, hAgrees⟩ := h
      have hTidy := tidy_of_run (tidy_create hCreate) run
      obtain ⟨a, rc', b₁, live₁, hBatch, hNext, -⟩ := runBatch_agrees d call.batch call.graphCalls (cInt keysA)
        call.launched default default default hAgrees hTidy hHeld
      cases hBatch.symm.trans hWork
      let event : BatchCall := ⟨⟨d, a, call.graphCalls⟩, default, default, cInt keysA, default⟩
      exact ⟨m, k, n, start, _, _, hCreate, run.snoc event rfl, hNext⟩

namespace Session

variable {s s' : Session} {d : Device} {lost : Multiset Handle}

/-- All contexts of the object are modelled on a device. -/
def AllModelled (d : Device) (s : Session) : Prop := ∀ b ∈ s.structs, Modelled d b

/-- A call with a handle writes one struct, and leaves the others as they are. -/
theorem enter_modelled (call : MethodCall) {h : Nat} {result : Except Raised Unit} (owns : s.Owns lost)
    (hAll : s.AllModelled d) (hEnter : s.enter h (call.work s.live) = .returned result s') : s'.AllModelled d := by
  rw [Session.enter] at hEnter
  cases hFind : s.structs.find? (fun c => c.self == h) with
  | none =>
      rw [hFind] at hEnter
      cases hEnter
  | some b =>
      have hMem := List.mem_of_find?_eq_some hFind
      obtain ⟨before, after, hStructs⟩ := List.append_of_mem hMem
      have hBalanced := owns.balanced
      rw [hStructs] at hBalanced
      rw [hFind, Option.bind_some] at hEnter
      cases hWork : call.work s.live b with
      | none =>
          rw [hWork] at hEnter
          cases hEnter
      | some out =>
          obtain ⟨rc, b', live'⟩ := out
          rw [hWork] at hEnter
          cases hEnter
          intro c hc
          obtain ⟨c₀, hc₀, rfl⟩ := List.mem_map.mp hc
          split_ifs
          · exact work_modelled call (hAll b hMem) hBalanced.held_le hWork
          · exact hAll c₀ hc₀

/-- `_ctx_for` adds a context that was just created, or none. -/
theorem ctxFor_modelled {rt : Runtime} {shape : Shape} {result : Option Nat}
    (hShape : 0 ≤ cInt shape.1 ∧ 0 ≤ cInt shape.2.1 ∧ 0 ≤ cInt shape.2.2) (hAll : s.AllModelled d)
    (hCtx : s.ctxFor rt shape = .returned result s') : s'.AllModelled d := by
  rw [Session.ctxFor] at hCtx
  cases hLookup : s.ctx.lookup shape with
  | some h =>
      rw [hLookup] at hCtx
      cases hCtx
      exact hAll
  | none =>
      rw [hLookup] at hCtx
      dsimp only at hCtx
      cases hCreate : prlMineCtxCreate rt s.live (cInt shape.1) (cInt shape.2.1) (cInt shape.2.2) with
      | mk created live =>
          rw [hCreate] at hCtx
          cases created with
          | crashed => cases hCtx
          | returned made =>
              cases made with
              | none =>
                  cases hCtx
                  exact hAll
              | some c =>
                  cases hCtx
                  obtain ⟨start, hStart, hAgrees⟩ := create_agrees d hShape hCreate
                  intro b hMem
                  rcases List.mem_append.mp hMem with hMem | hMem
                  · exact hAll b hMem
                  · obtain rfl := List.mem_singleton.mp hMem
                    exact ⟨_, _, _, start, start, [], hStart, .nil, hAgrees⟩

/-- A call keeps the contexts modelled: refused it changes nothing, and otherwise it adds
a context or works on one. -/
theorem perform_modelled (call : MethodCall)
    (hShape : 0 ≤ cInt call.shape.1 ∧ 0 ≤ cInt call.shape.2.1 ∧ 0 ≤ cInt call.shape.2.2) (owns : s.Owns lost)
    (hAll : s.AllModelled d) {result : Except Raised Unit} (hCall : s.perform call = .returned result s') :
    s'.AllModelled d := by
  rw [Session.perform] at hCall
  cases hRefused : call.refused with
  | true =>
      rw [hRefused] at hCall
      cases hCall
      exact hAll
  | false =>
      rw [hRefused, if_neg Bool.false_ne_true] at hCall
      rcases owns.ctxFor call.create call.shape with hCrashed | ⟨made, s₁, got, hCtx, hOwns, -, hHandle⟩
      · rw [hCrashed] at hCall
        cases hCall
      · have hMade := ctxFor_modelled hShape hAll hCtx
        rw [hCtx] at hCall
        cases made with
        | none =>
            cases hCall
            exact hMade
        | some h =>
            dsimp only at hCall
            cases hEnter : s₁.enter h (call.work s₁.live) with
            | crashed =>
                rw [hEnter] at hCall
                cases hCall
            | dangling =>
                rw [hEnter] at hCall
                cases hCall
            | returned result s₂ =>
                rw [hEnter] at hCall
                cases hCall
                exact enter_modelled call hOwns hMade hEnter

/-- Every context of a `MineCuda` object, whatever the object is called with and whatever
fails, is one of the context model after a run of batch calls, with the same addresses. -/
theorem contexts_modelled (d : Device) {calls : List MethodCall} (run : Run step new calls s)
    (hShapes : ∀ call ∈ calls, 0 ≤ cInt call.shape.1 ∧ 0 ≤ cInt call.shape.2.1 ∧ 0 ≤ cInt call.shape.2.2) :
    s.AllModelled d := by
  induction run with
  | nil => exact fun b hMem => absurd hMem List.not_mem_nil
  | @snoc calls s s' prior call last ih =>
      have hBefore := ih fun call hMem => hShapes call (List.mem_append_left _ hMem)
      obtain ⟨lost, owns, -⟩ := run_owns prior
      rw [step] at last
      cases hCall : s.perform call with
      | crashed =>
          rw [hCall] at last
          cases last
      | dangling =>
          rw [hCall] at last
          cases last
      | returned result s₁ =>
          rw [hCall] at last
          cases last
          exact perform_modelled call (hShapes call (by simp)) owns hBefore hCall

/-- A graph that is instantiated reads the key buffers that its context owns: no growth
leaves one behind that was captured over buffers it has freed. -/
theorem graph_reads_own_keys (d : Device) {calls : List MethodCall} (run : Run step new calls s)
    (hShapes : ∀ call ∈ calls, 0 ≤ cInt call.shape.1 ∧ 0 ≤ cInt call.shape.2.1 ∧ 0 ≤ cInt call.shape.2.2)
    {b : BatchCtx} (hMem : b ∈ s.structs) (hExec : (b.ptr .batchGraphExec).isSome) :
    ∃ c, Agrees c b ∧ c.batchGraphExec = some ⟨b.ptr .dKeyBatch, b.ptr .dKeyBBatch, b.batchGraphCount.toNat⟩ := by
  obtain ⟨m, k, n, start, c, batches, hCreate, batchRun, hAgrees⟩ := contexts_modelled d run hShapes b hMem
  obtain ⟨g, hGraph⟩ := Option.isSome_iff_exists.mp (hAgrees.exec ▸ hExec)
  have hInv := keyBatchInv_of_run (keyBatchInv_create hCreate).1 batchRun
  refine ⟨c, hAgrees, ?_⟩
  rw [hGraph, hInv.graph.captured g hGraph, hAgrees.keysA, hAgrees.keysB, hAgrees.count, Int.toNat_natCast]

end Session

end Object

end Cuda.Lifetime
