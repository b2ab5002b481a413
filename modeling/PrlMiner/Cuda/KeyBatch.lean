import PrlMiner.Cuda.Context

/-! The key buffers of a batch and the cached graph: everything that their growth and
the capture can do. -/
namespace Cuda

open FixedWidth LittleEndian ParallelWrites

variable {a : Allocator} {heap heap' : Heap} {c c' : PrlMineCtx} {bytes count p q : Nat} {ptr : Option Nat}

/-- A cached graph was captured with the key buffers of the context, which are two. -/
structure PrlMineCtx.GraphInv (c : PrlMineCtx) : Prop where
  captured : ∀ g, c.batchGraphExec = some g → g = ⟨c.dKeyBatch, c.dKeyBBatch, c.batchGraphCount⟩
  apart : ∀ p, c.dKeyBatch = some p → c.dKeyBBatch ≠ some p

/-- The pointer is to an allocation of at least so many bytes. -/
def Live (heap : Heap) (ptr : Option Nat) (bytes : Nat) : Prop :=
  ∃ p a, ptr = some p ∧ heap p = some a ∧ bytes ≤ a.bytes

theorem Live.mono {bytes' : Nat} (h : Live heap ptr bytes) (hLe : bytes' ≤ bytes) : Live heap ptr bytes' := by
  obtain ⟨p, a, hPtr, hHeap, hBytes⟩ := h
  exact ⟨p, a, hPtr, hHeap, hLe.trans hBytes⟩

/-- A successful `cudaMalloc` returns an address that was not live, with the size asked
for, and leaves every other allocation alone. -/
theorem cudaMalloc_some (h : cudaMalloc a heap bytes = some (p, heap')) :
    heap p = none ∧ Live heap' (some p) bytes ∧ ∀ q ≠ p, heap' q = heap q := by
  obtain ⟨p', hMalloc, hSame⟩ := Option.map_eq_some_iff.mp h
  obtain ⟨rfl, rfl⟩ := Prod.mk.inj hSame
  refine ⟨a.fresh _ _ _ hMalloc, ⟨p', _, rfl, Function.update_self .., Nat.le_refl _⟩, fun q hq => ?_⟩
  exact Function.update_of_ne hq ..

/-- What is live is at another address than what is allocated next, and stays. -/
theorem Live.malloc (h : Live heap (some q) bytes) {bytes' : Nat}
    (hMalloc : cudaMalloc a heap bytes' = some (p, heap')) : q ≠ p ∧ Live heap' (some q) bytes := by
  obtain ⟨hFree, -, hOthers⟩ := cudaMalloc_some hMalloc
  obtain ⟨_, b, ⟨⟩, hHeap, hBytes⟩ := h
  have hApart : q ≠ p := by
    rintro rfl
    rw [hFree] at hHeap
    cases hHeap
  exact ⟨hApart, q, b, rfl, (hOthers q hApart).trans hHeap, hBytes⟩

/-- There is room for both key buffers, once the old ones are freed. -/
def GrowthFits (a : Allocator) (c : PrlMineCtx) (count : Nat) : Prop :=
  ∃ p heap, cudaMalloc a (releaseKeyBatch c).heap (count * 32) = some (p, heap) ∧
    (cudaMalloc a heap (count * 32)).isSome

/-- What the growth of the key buffers can do. -/
theorem ensureKeyBatch_cases (a : Allocator) (c : PrlMineCtx) (count : Nat) :
    (count ≤ c.keyBatchCap ∧ prlMineCtxEnsureKeyBatch a c count = (0, c)) ∨
    (c.keyBatchCap < count ∧ ¬GrowthFits a c count ∧ ∃ heap ptr,
      (ptr.isSome → Live heap ptr (count * 32)) ∧
      prlMineCtxEnsureKeyBatch a c count = (4, { releaseKeyBatch c with heap := heap, dKeyBatch := ptr })) ∨
    (c.keyBatchCap < count ∧ GrowthFits a c count ∧ ∃ heap p q, p ≠ q ∧
      Live heap (some p) (count * 32) ∧ Live heap (some q) (count * 32) ∧
      prlMineCtxEnsureKeyBatch a c count = (0, { releaseKeyBatch c with
        heap := heap, dKeyBatch := some p, dKeyBBatch := some q, keyBatchCap := count })) := by
  by_cases hCap : count ≤ c.keyBatchCap
  · exact .inl ⟨hCap, if_pos hCap⟩
  rw [prlMineCtxEnsureKeyBatch, if_neg hCap]
  dsimp only
  have hGrows := Nat.lt_of_not_le hCap
  cases hFirst : cudaMalloc a (releaseKeyBatch c).heap (count * 32) with
  | none =>
      have hNoRoom : ¬GrowthFits a c count := by
        rintro ⟨p, heap, hSome, -⟩
        rw [hFirst] at hSome
        cases hSome
      exact .inr (.inl ⟨hGrows, hNoRoom, (releaseKeyBatch c).heap, none, nofun, rfl⟩)
  | some first =>
      obtain ⟨p, heap⟩ := first
      have hLive := (cudaMalloc_some hFirst).2.1
      dsimp only
      cases hSecond : cudaMalloc a heap (count * 32) with
      | none =>
          have hNoRoom : ¬GrowthFits a c count := by
            rintro ⟨p', heap', hSome, hRoom⟩
            rw [hFirst] at hSome
            cases hSome
            rw [hSecond] at hRoom
            cases hRoom
          exact .inr (.inl ⟨hGrows, hNoRoom, heap, some p, fun _ => hLive, rfl⟩)
      | some second =>
          obtain ⟨q, heap'⟩ := second
          obtain ⟨hApart, hKept⟩ := hLive.malloc hSecond
          have hRoom : GrowthFits a c count := ⟨p, heap, hFirst, by rw [hSecond]; rfl⟩
          exact .inr (.inr ⟨hGrows, hRoom, heap', p, q, hApart, hKept, (cudaMalloc_some hSecond).2.1, rfl⟩)

/-- All the graph calls succeed. -/
def GraphCalls.succeed (calls : GraphCalls) : Prop :=
  calls.beginCapture = true ∧ calls.endCapture = true ∧ calls.instantiate = true

/-- The graph of an earlier call is used again. -/
def PrlMineCtx.Cached (c : PrlMineCtx) (count : Nat) : Prop :=
  c.batchGraphExec.isSome ∧ c.batchGraphCount = count

/-- What the building of the graph can do. -/
theorem buildBatchGraph_cases (calls : GraphCalls) (c : PrlMineCtx) (count : Nat) :
    (c.Cached count ∧ prlMineCtxBuildBatchGraph calls c count = (0, c)) ∨
    (¬c.Cached count ∧ ¬calls.succeed ∧ ∃ graph, prlMineCtxBuildBatchGraph calls c count =
      (4, { prlMineCtxDestroyBatchGraph c with batchGraph := graph })) ∨
    (¬c.Cached count ∧ calls.succeed ∧ prlMineCtxBuildBatchGraph calls c count = (0, { c with
      batchGraph := some ⟨c.dKeyBatch, c.dKeyBBatch, count⟩
      batchGraphExec := some ⟨c.dKeyBatch, c.dKeyBBatch, count⟩
      batchGraphCount := count })) := by
  by_cases hCached : c.Cached count
  · exact .inl ⟨hCached, if_pos hCached⟩
  rw [prlMineCtxBuildBatchGraph,
    if_neg (show ¬(c.batchGraphExec.isSome ∧ c.batchGraphCount = count) from hCached)]
  obtain ⟨begins, ends, instantiates⟩ := calls
  cases begins with
  | false => exact .inr (.inl ⟨hCached, nofun, none, rfl⟩)
  | true =>
      cases ends with
      | false => exact .inr (.inl ⟨hCached, nofun, none, rfl⟩)
      | true =>
          cases instantiates with
          | false => exact .inr (.inl ⟨hCached, nofun, some ⟨c.dKeyBatch, c.dKeyBBatch, count⟩, rfl⟩)
          | true => exact .inr (.inr ⟨hCached, ⟨rfl, rfl, rfl⟩, rfl⟩)

/-- A copy to the device succeeds only on a live pointer, and it replaces the words of
that one allocation. -/
theorem copyToHeap_some {src : Buffer U32} {n : Nat} (h : copyToHeap heap ptr src n = some heap') :
    ∃ (p : Nat) (a : Allocation), ptr = some p ∧ heap p = some a ∧
      heap' = Function.update heap p (some { a with words := memcpy a.words src n }) := by
  obtain ⟨p, rfl, hAt⟩ := Option.bind_eq_some_iff.mp h
  obtain ⟨a, hHeap, hIf⟩ := Option.bind_eq_some_iff.mp hAt
  exact ⟨p, a, rfl, hHeap, (Option.some.inj (Option.ite_none_right_eq_some.mp hIf).2).symm⟩

end Cuda
