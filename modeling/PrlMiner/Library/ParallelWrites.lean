import Mathlib.Logic.Function.Basic
import Mathlib.Data.List.Perm.Basic
import Mathlib.Tactic

/-! Threads that access one memory, their accesses merged in an unspecified
order. An address that a single thread accesses holds what that thread alone
would have left there, and updates that commute can be counted in any order. -/
namespace ParallelWrites

variable {α : Type*}

/-- One access: the new content of an address in terms of the old. -/
structure Write (α : Type*) where
  addr : Nat
  update : α → α

/-- A plain store. -/
def store (addr : Nat) (value : α) : Write α := ⟨addr, fun _ => value⟩

@[simp] theorem store_addr (addr : Nat) (value : α) : (store addr value).addr = addr := rfl

def applyWrite (mem : Nat → α) (w : Write α) : Nat → α :=
  Function.update mem w.addr (w.update (mem w.addr))

/-- The accesses of a list, first to last. -/
def applyAll (mem : Nat → α) (ws : List (Write α)) : Nat → α := ws.foldl applyWrite mem

/-- The updates that reach one address, first to last. -/
def updatesAt (a : Nat) (ws : List (Write α)) : List (α → α) :=
  (ws.filter (·.addr = a)).map (·.update)

@[simp] theorem updatesAt_nil (a : Nat) : updatesAt a ([] : List (Write α)) = [] := rfl

theorem updatesAt_cons (a : Nat) (w : Write α) (ws : List (Write α)) :
    updatesAt a (w :: ws) = if w.addr = a then w.update :: updatesAt a ws else updatesAt a ws := by
  by_cases h : w.addr = a <;> simp [updatesAt, h]

theorem updatesAt_store (a : Nat) (value : α) : updatesAt a [store a value] = [fun _ => value] := by
  rw [updatesAt_cons, store_addr, if_pos rfl]
  rfl

/-- What a list of accesses does to one address is what its two parts do there, in their
order. -/
theorem updatesAt_append (a : Nat) (ws us : List (Write α)) :
    updatesAt a (ws ++ us) = updatesAt a ws ++ updatesAt a us := by
  simp [updatesAt]

/-- Accesses elsewhere do not count. -/
theorem updatesAt_eq_nil {a : Nat} {ws : List (Write α)} (h : ∀ w ∈ ws, w.addr ≠ a) :
    updatesAt a ws = [] := by
  rw [updatesAt, List.map_eq_nil_iff, List.filter_eq_nil_iff]
  simpa using h

/-- A family of accesses only one of which reaches the address updates it once. -/
theorem updatesAt_map_range {a c i : Nat} {w : Nat → Write α} (hi : i < c) (hAddr : (w i).addr = a)
    (hOnly : ∀ j < c, (w j).addr = a → j = i) :
    updatesAt a ((List.range c).map w) = [(w i).update] := by
  have hFilter : ((List.range c).map w).filter (·.addr = a) = ((List.range c).filter (· = i)).map w := by
    rw [List.filter_map]
    congr 1
    apply List.filter_congr
    intro j hj
    rw [Function.comp_apply, decide_eq_decide]
    exact ⟨hOnly j (List.mem_range.mp hj), fun h => h ▸ hAddr⟩
  have hOne : (List.range c).filter (· = i) = [i] := by
    rw [List.filter_eq, List.count_range, if_pos hi]
    rfl
  rw [updatesAt, hFilter, hOne]
  rfl

/-- A loop only one round of which reaches the address has the effect of this round
there. -/
theorem updatesAt_flatMap_range {a c i : Nat} {w : Nat → List (Write α)} (hi : i < c)
    (hOnly : ∀ j < c, j ≠ i → ∀ x ∈ w j, x.addr ≠ a) :
    updatesAt a ((List.range c).flatMap w) = updatesAt a (w i) := by
  induction c with
  | zero => omega
  | succ c ih =>
      rw [List.range_succ, List.flatMap_append, List.flatMap_singleton, updatesAt_append]
      by_cases hLast : i = c
      · have hBefore : updatesAt a ((List.range c).flatMap w) = [] := by
          apply updatesAt_eq_nil
          intro x hx
          obtain ⟨j, hj, hMem⟩ := List.mem_flatMap.mp hx
          rw [List.mem_range] at hj
          exact hOnly j (by omega) (by omega) x hMem
        rw [hBefore, hLast, List.nil_append]
      · rw [ih (by omega) (fun j hj => hOnly j (by omega)),
          updatesAt_eq_nil (hOnly c (by omega) (Ne.symm hLast)), List.append_nil]

/-- An address sees only its own updates, so that memory can be followed address by
address. -/
theorem applyAll_apply (mem : Nat → α) (ws : List (Write α)) (a : Nat) :
    applyAll mem ws a = (updatesAt a ws).foldl (fun x f => f x) (mem a) := by
  induction ws generalizing mem with
  | nil => rfl
  | cons w ws ih =>
      change applyAll (applyWrite mem w) ws a = _
      rw [ih, updatesAt_cons]
      by_cases h : w.addr = a
      · subst h
        simp [applyWrite]
      · simp [applyWrite, h, Function.update_of_ne (Ne.symm h)]

/-- Accesses are made first to last, and those of a second list start from the memory
after the first. -/
theorem applyAll_append (mem : Nat → α) (ws us : List (Write α)) :
    applyAll mem (ws ++ us) = applyAll (applyAll mem ws) us := List.foldl_append

/-- One thread alone accesses the address, and that once. -/
def UpdatedOnce {ι : Type*} (a : Nat) (active : ι → Prop) (kernel : ι → List (Write α)) : Prop :=
  ∃ t, active t ∧ (updatesAt a (kernel t)).length = 1 ∧
    ∀ u, active u → ∀ w ∈ kernel u, w.addr = a → u = t

/-- All accesses, each step running the next one of the thread it names. -/
def interleave : List Nat → (Nat → List (Write α)) → List (Write α)
  | [], _ => []
  | t :: order, kernel =>
      match kernel t with
      | [] => interleave order kernel
      | w :: rest => w :: interleave order (Function.update kernel t rest)

/-- How the threads `0, ..., n - 1` are merged, given how often each accesses memory. -/
structure Scheduler where
  order : Nat → (Nat → Nat) → List Nat
  fair : ∀ n lengths t, (order n lengths).count t = if t < n then lengths t else 0

/-- One thread after the other. -/
def Scheduler.inOrder : Scheduler where
  order n lengths := (List.range n).flatMap fun t => List.replicate (lengths t) t
  fair n lengths t := by
    induction n with
    | zero => simp
    | succ n ih =>
        rw [List.range_succ, List.flatMap_append, List.count_append, ih]
        by_cases hEq : n = t
        · subst hEq
          simp
        · by_cases hLt : t < n
          · simp [List.count_replicate, hEq, hLt, Nat.lt_succ_of_lt hLt]
          · have hNot : ¬ t < n + 1 := by omega
            simp [List.count_replicate, hEq, hLt, hNot]

instance : Inhabited Scheduler := ⟨Scheduler.inOrder⟩

/-- `n` threads make their accesses. -/
def launch (s : Scheduler) (n : Nat) (kernel : Nat → List (Write α)) (mem : Nat → α) : Nat → α :=
  applyAll mem (interleave (s.order n fun t => (kernel t).length) kernel)

/-- The owner of an address makes its updates there, in its own order, however the
accesses of all threads are merged. -/
theorem updatesAt_interleave {a t : Nat} (order : List Nat) (kernel : Nat → List (Write α))
    (hCount : (kernel t).length ≤ order.count t)
    (hOwner : ∀ u ∈ order, u ≠ t → ∀ w ∈ kernel u, w.addr ≠ a) :
    updatesAt a (interleave order kernel) = updatesAt a (kernel t) := by
  induction order generalizing kernel with
  | nil =>
      have hNil : kernel t = [] := List.eq_nil_of_length_eq_zero (by simpa using hCount)
      rw [interleave, hNil]
  | cons u order ih =>
      rw [interleave]
      cases hKernel : kernel u with
      | nil =>
          apply ih
          · by_cases hEq : u = t
            · subst hEq
              simp [hKernel]
            · simpa [List.count_cons, hEq] using hCount
          · exact fun v hv => hOwner v (by simp [hv])
      | cons w rest =>
          rw [updatesAt_cons]
          by_cases hEq : u = t
          · subst hEq
            rw [ih, Function.update_self, hKernel, updatesAt_cons]
            · simpa [hKernel, List.count_cons] using hCount
            · intro v hv hNe x hx
              rw [Function.update_of_ne hNe] at hx
              exact hOwner v (by simp [hv]) hNe x hx
          · have hMiss : w.addr ≠ a := hOwner u (by simp) hEq w (by simp [hKernel])
            rw [if_neg hMiss, ih, Function.update_of_ne (Ne.symm hEq)]
            · simpa [Function.update_of_ne (Ne.symm hEq), List.count_cons, hEq] using hCount
            · intro v hv hNe x hx
              by_cases hSame : v = u
              · subst hSame
                rw [Function.update_self] at hx
                exact hOwner v (by simp) hNe x (by simp [hKernel, hx])
              · rw [Function.update_of_ne hSame] at hx
                exact hOwner v (by simp [hv]) hNe x hx

/-- Only threads of the launch are scheduled. -/
theorem Scheduler.lt_of_mem (s : Scheduler) {n t : Nat} {lengths : Nat → Nat}
    (h : t ∈ s.order n lengths) : t < n := by
  by_contra hGe
  have hCount := s.fair n lengths t
  rw [if_neg hGe, List.count_eq_zero] at hCount
  exact hCount h

/-- An address that is accessed by one thread only holds what this thread alone leaves
there, under every scheduler. -/
theorem launch_of_owner (s : Scheduler) {n : Nat} {kernel : Nat → List (Write α)} {mem : Nat → α}
    {a t : Nat} (ht : t < n) (hOwner : ∀ u < n, u ≠ t → ∀ w ∈ kernel u, w.addr ≠ a) :
    launch s n kernel mem a = applyAll mem (kernel t) a := by
  rw [launch, applyAll_apply, applyAll_apply, updatesAt_interleave _ kernel (t := t)]
  · rw [s.fair, if_pos ht]
  · exact fun u hu => hOwner u (s.lt_of_mem hu)

/-- Merging only changes the order of the accesses: each access of each thread is made
once. -/
theorem interleave_perm (order : List Nat) (n : Nat) (kernel : Nat → List (Write α))
    (hCount : ∀ t, order.count t = if t < n then (kernel t).length else 0) :
    (interleave order kernel).Perm ((List.range n).flatMap kernel) := by
  induction order generalizing kernel with
  | nil =>
      have hNil : (List.range n).flatMap kernel = [] := by
        rw [List.flatMap_eq_nil_iff]
        intro t ht
        have := hCount t
        rw [if_pos (List.mem_range.mp ht)] at this
        exact List.eq_nil_of_length_eq_zero (by simpa using this.symm)
      rw [interleave, hNil]
  | cons u order ih =>
      have hu : u < n := by
        by_contra hGe
        have := hCount u
        simp [hGe] at this
      have hLength := hCount u
      rw [if_pos hu, List.count_cons_self] at hLength
      rw [interleave]
      cases hKernel : kernel u with
      | nil => simp [hKernel] at hLength
      | cons w rest =>
          have hRest := ih (Function.update kernel u rest) (fun t => by
            by_cases hEq : t = u
            · subst hEq
              rw [Function.update_self, if_pos hu]
              simpa [hKernel] using hLength
            · have := hCount t
              rw [List.count_cons_of_ne (Ne.symm hEq)] at this
              rw [this, Function.update_of_ne hEq])
          -- one access of thread `u` moves from its place to the front
          obtain ⟨before, after, hRange⟩ := List.append_of_mem (List.mem_range.mpr hu)
          have hNodup : (before ++ u :: after).Nodup := hRange ▸ List.nodup_range
          have hBefore : ∀ t ∈ before, t ≠ u := by
            rintro t ht rfl
            exact (List.nodup_append.mp hNodup).2.2 t ht t (by simp) rfl
          have hAfter : ∀ t ∈ after, t ≠ u := by
            rintro t ht rfl
            exact (List.nodup_cons.mp (List.nodup_append.mp hNodup).2.1).1 ht
          have hSame (part : List Nat) (hPart : ∀ t ∈ part, t ≠ u) :
              part.flatMap (Function.update kernel u rest) = part.flatMap kernel := by
            rw [List.flatMap_def, List.flatMap_def, List.map_congr_left]
            exact fun t ht => Function.update_of_ne (hPart t ht) _ _
          rw [hRange, List.flatMap_append, List.flatMap_cons, Function.update_self,
            hSame before hBefore, hSame after hAfter] at hRest
          rw [hRange, List.flatMap_append, List.flatMap_cons, hKernel]
          exact (hRest.cons w).trans List.perm_middle.symm

/-- An address all of whose updates commute. It holds what the threads leave there one
after the other, however they were merged. -/
theorem launch_of_commute (s : Scheduler) {n : Nat} {kernel : Nat → List (Write α)} {mem : Nat → α}
    {a : Nat} (hComm : ∀ t < n, ∀ u < n, ∀ w ∈ kernel t, ∀ x ∈ kernel u,
      w.update ∘ x.update = x.update ∘ w.update) :
    launch s n kernel mem a = applyAll mem ((List.range n).flatMap kernel) a := by
  have hPerm := interleave_perm _ n kernel (s.fair n fun t => (kernel t).length)
  have hUpdates : (updatesAt a (interleave (s.order n fun t => (kernel t).length) kernel)).Perm
      (updatesAt a ((List.range n).flatMap kernel)) := (hPerm.filter _).map _
  have hMem (f : α → α) (hf : f ∈ updatesAt a (interleave (s.order n fun t => (kernel t).length) kernel)) :
      ∃ t < n, ∃ w ∈ kernel t, w.update = f := by
    have hf' := hUpdates.subset hf
    simp only [updatesAt, List.mem_map, List.mem_filter, List.mem_flatMap, List.mem_range] at hf'
    obtain ⟨w, ⟨⟨t, ht, hw⟩, -⟩, rfl⟩ := hf'
    exact ⟨t, ht, w, hw, rfl⟩
  rw [launch, applyAll_apply, applyAll_apply]
  apply hUpdates.foldl_eq'
  intro f hf g hg x
  obtain ⟨t, ht, w, hw, rfl⟩ := hMem f hf
  obtain ⟨u, hu, y, hy, rfl⟩ := hMem g hg
  exact congrFun (hComm u hu t ht y hy w hw) x

/-- An address that no thread accesses keeps its content. -/
theorem launch_of_untouched (s : Scheduler) {n : Nat} {kernel : Nat → List (Write α)}
    {mem : Nat → α} {a : Nat} (h : ∀ u < n, ∀ w ∈ kernel u, w.addr ≠ a) :
    launch s n kernel mem a = mem a := by
  have hPerm := interleave_perm _ n kernel (s.fair n fun t => (kernel t).length)
  rw [launch, applyAll_apply, updatesAt_eq_nil]
  · rfl
  · intro w hw
    obtain ⟨u, hu, hw⟩ := List.mem_flatMap.mp (hPerm.subset hw)
    exact h u (List.mem_range.mp hu) w hw

/-- The same access through a pointer into the memory. -/
def Write.shift (start : Nat) (w : Write α) : Write α := ⟨start + w.addr, w.update⟩

/-- Changing every access of every thread and merging them can be done in either order. -/
theorem interleave_map (f : Write α → Write α) (order : List Nat) (kernel : Nat → List (Write α)) :
    interleave order (fun t => (kernel t).map f) = (interleave order kernel).map f := by
  induction order generalizing kernel with
  | nil => rfl
  | cons u order ih =>
      rw [interleave, interleave]
      cases hKernel : kernel u with
      | nil => exact ih kernel
      | cons w rest =>
          have hUpdate : Function.update (fun t => (kernel t).map f) u (rest.map f) =
              fun t => (Function.update kernel u rest t).map f := by
            funext t
            by_cases h : t = u
            · rw [h, Function.update_self, Function.update_self]
            · rw [Function.update_of_ne h, Function.update_of_ne h]
          rw [List.map_cons]
          simp only [hUpdate, ih, List.map_cons]

/-- A launch on a part of the memory that begins at some address is a launch on memory of
its own, with the addresses shifted. -/
theorem launch_shift (s : Scheduler) (n : Nat) (kernel : Nat → List (Write α)) (mem : Nat → α)
    (start a : Nat) : launch s n (fun t => (kernel t).map (Write.shift start)) mem (start + a) =
      launch s n kernel (fun i => mem (start + i)) a := by
  have hUpdates (ws : List (Write α)) :
      updatesAt (start + a) (ws.map (Write.shift start)) = updatesAt a ws := by
    induction ws with
    | nil => rfl
    | cons w ws ih =>
        rw [List.map_cons, updatesAt_cons, updatesAt_cons, ih]
        simp only [Write.shift, Nat.add_left_cancel_iff]
  rw [launch, launch, interleave_map, applyAll_apply, applyAll_apply, hUpdates]
  simp only [List.length_map]

/-- One store per thread, each to an address of its own: the address holds the value of
its thread. Threads that are not active store nothing. -/
theorem launch_store (s : Scheduler) {n : Nat} (addr : Nat → Nat) {value : Nat → α}
    {active : Nat → Prop} [DecidablePred active] {mem : Nat → α} {t : Nat} (ht : t < n)
    (hActive : active t) (hInj : ∀ u < n, active u → addr u = addr t → u = t) :
    launch s n (fun u => if active u then [store (addr u) (value u)] else []) mem (addr t) =
      value t := by
  rw [launch_of_owner s ht]
  · simp [hActive, applyAll, applyWrite, store]
  · intro u hu hNe w hw
    by_cases h : active u
    · simp only [h, if_true, List.mem_singleton] at hw
      subst hw
      exact fun hAddr => hNe (hInj u hu h hAddr)
    · simp [h] at hw

/-- Stores to addresses of their own: each address holds its value at the end, whatever
was there before. -/
theorem applyAll_stores {c : Nat} {addr : Nat → Nat} {value : Nat → α} (mem : Nat → α) {i : Nat}
    (hi : i < c) (hInj : ∀ j < c, addr j = addr i → j = i) :
    applyAll mem ((List.range c).map fun j => store (addr j) (value j)) (addr i) = value i := by
  induction c with
  | zero => omega
  | succ c ih =>
      rw [List.range_succ, List.map_append, applyAll_append, List.map_singleton]
      change applyWrite _ (store (addr c) (value c)) (addr i) = value i
      by_cases hLast : i = c
      · rw [applyWrite, hLast, store_addr, Function.update_self]
        rfl
      · have hNe : addr i ≠ addr c := fun h => hLast (hInj c (by omega) h.symm).symm
        rw [applyWrite, store_addr, Function.update_of_ne hNe]
        exact ih (by omega) (fun j hj => hInj j (by omega))

/-- Several stores per thread, each to an address of its own. No two stores of a thread
may share one, and no two threads. -/
theorem launch_stores (s : Scheduler) {n c : Nat} (addr : Nat → Nat → Nat) (value : Nat → Nat → α)
    (mem : Nat → α) {t i : Nat} (ht : t < n) (hi : i < c)
    (hInj : ∀ u < n, ∀ j < c, addr u j = addr t i → u = t ∧ j = i) :
    launch s n (fun u => (List.range c).map fun j => store (addr u j) (value u j)) mem (addr t i) =
      value t i := by
  rw [launch_of_owner s ht]
  · exact applyAll_stores mem hi (fun j hj h => (hInj t ht j hj h).2)
  · intro u hu hNe w hw hAddr
    obtain ⟨j, hj, rfl⟩ := List.mem_map.mp hw
    exact hNe (hInj u hu j (List.mem_range.mp hj) hAddr).1

end ParallelWrites
