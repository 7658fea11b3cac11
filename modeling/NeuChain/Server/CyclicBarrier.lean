/-
  `CyclicBarrier::await` (`cyclic_barrier.cpp`), by which the buffers of the client proxies and the
  receivers of the aggregation keep in step.

  Any number of threads call `await` without a timeout. A thread that gets the mutex counts itself.
  The last one of a generation keeps the mutex, runs the callback, resets the counter and wakes the
  others. The wait has no predicate: a thread that has been woken gets the mutex again and returns,
  whoever has woken it. `std::condition_variable` may wake a thread for no reason. Whether it does
  is the parameter `spurious`.

  A generation is what comes between two releases; the calls of `await`, of the callback and the
  returns are recorded with the generation they belong to (`trace`). With no parties at all every
  call is a generation of its own.

  * `releases_full_iff`: calls return from full generations only, and the callback runs once for
    each, if and only if there are no spurious wake-ups or nobody ever waits.
  * `barrier_inv_of_run`: without spurious wake-ups this is the `Lib.Barrier` that the proxies and
    the aggregation are modelled with.

  Left out: `reset`, which nobody calls, and timeouts.
-/
import NeuChain.Lib.Barrier
import NeuChain.Lib.Log
import NeuChain.Lib.Run

namespace NeuChain.Server

open NeuChain.Lib

/-! ## The model -/

/-- Where a thread is in `await`. -/
inductive AwaitPc where
  | outside
  /-- The last of its generation, before the callback. It has the mutex. -/
  | closing
  /-- After the callback. -/
  | notifying
  /-- In `cv.wait`, called in this generation. -/
  | waiting (generation : Nat)
  /-- Woken, but without the mutex. -/
  | woken (generation : Nat)
deriving DecidableEq, Repr

inductive BarrierEvent where
  | called (thread generation : Nat)
  | callback (generation : Nat)
  | returned (thread generation : Nat)
deriving DecidableEq, Repr

structure CyclicBarrier where
  /-- The thread that has the mutex. -/
  mutex : Option Nat := none
  currentWaits : Nat := 0
  pc : Nat → AwaitPc := fun _ => .outside
  generation : Nat := 0
  trace : List BarrierEvent := []

inductive BarrierAction where
  /-- The thread gets the mutex and counts itself. -/
  | await (thread : Nat)
  | callback (thread : Nat)
  /-- The rest of the last call of a generation. -/
  | notifyAll (thread : Nat)
  | spuriousWake (thread : Nat)
  /-- A thread that was woken gets the mutex and returns. -/
  | resume (thread : Nat)
deriving DecidableEq, Repr

/-- What `notify_all` does to a thread. -/
def AwaitPc.notify : AwaitPc → AwaitPc
  | .waiting g => .woken g
  | pc => pc

namespace CyclicBarrier

def setPc (s : CyclicBarrier) (t : Nat) (pc : AwaitPc) : CyclicBarrier :=
  { s with pc := Function.update s.pc t pc }

def record (s : CyclicBarrier) (e : BarrierEvent) : CyclicBarrier :=
  { s with trace := s.trace ++ [e] }

def await (parties : Nat) (s : CyclicBarrier) (t : Nat) : CyclicBarrier :=
  let s := s.record (.called t s.generation)
  let s := if s.currentWaits < parties then { s with currentWaits := s.currentWaits + 1 } else s
  if parties ≤ s.currentWaits then { s.setPc t .closing with mutex := some t }
  else s.setPc t (.waiting s.generation)

def notifyAll (s : CyclicBarrier) (t : Nat) : CyclicBarrier :=
  { (s.record (.returned t s.generation)) with
    mutex := none
    currentWaits := 0
    pc := Function.update (fun u => (s.pc u).notify) t .outside
    generation := s.generation + 1 }

def step (parties : Nat) (spurious : Bool) (s : CyclicBarrier) :
    BarrierAction → Option CyclicBarrier
  | .await t => if s.pc t = .outside ∧ s.mutex = none then some (s.await parties t) else none
  | .callback t =>
      if s.pc t = .closing then some ((s.record (.callback s.generation)).setPc t .notifying)
      else none
  | .notifyAll t => if s.pc t = .notifying then some (s.notifyAll t) else none
  | .spuriousWake t =>
      match s.pc t with
      | .waiting g => if spurious then some (s.setPc t (.woken g)) else none
      | _ => none
  | .resume t =>
      match s.pc t with
      | .woken g =>
          if s.mutex = none then some ((s.record (.returned t g)).setPc t .outside) else none
      | _ => none

/-! ## Full generations -/

/-- The caller, if the event is a call in generation `g`. -/
def callerOf (g : Nat) : BarrierEvent → Option Nat
  | .called t g' => if g' = g then some t else none
  | _ => none

/-- The threads that have called `await` in generation `g`. -/
def callers (g : Nat) (evs : List BarrierEvent) : List Nat := evs.filterMap (callerOf g)

/-- How often the callback has run in generation `g`. -/
def callbacks (g : Nat) (evs : List BarrierEvent) : Nat := evs.count (.callback g)

/-- All parties of generation `g` have called, each once. -/
def Full (parties g : Nat) (evs : List BarrierEvent) : Prop :=
  max parties 1 ≤ (callers g evs).length ∧ (callers g evs).Nodup

/-- A call returns only when its generation is full. -/
def ReturnsFull (parties : Nat) (evs : List BarrierEvent) : Prop :=
  ∀ k t g, evs[k]? = some (.returned t g) → Full parties g (evs.take k)

/-- The callback runs once for each full generation, unless the last thread is about to run it, and
    for no other. -/
structure ReleasesFull (parties : Nat) (s : CyclicBarrier) : Prop where
  returns : ReturnsFull parties s.trace
  once : ∀ g, callbacks g s.trace ≤ 1
  only : ∀ g, 0 < callbacks g s.trace → Full parties g s.trace
  each : ∀ g, Full parties g s.trace →
    callbacks g s.trace = 1 ∨ g = s.generation ∧ ∃ t, s.pc t = .closing

/-! ## What has been recorded -/

section Trace

variable {n g g' t : Nat} {evs : List BarrierEvent} {e : BarrierEvent}

@[simp] theorem callers_called :
    callers g (evs ++ [.called t g']) = callers g evs ++ if g' = g then [t] else [] := by
  by_cases hg : g' = g <;> simp [callers, callerOf, hg]

@[simp] theorem callers_callback : callers g (evs ++ [.callback g']) = callers g evs := by
  simp [callers, callerOf]

@[simp] theorem callers_returned : callers g (evs ++ [.returned t g']) = callers g evs := by
  simp [callers, callerOf]

@[simp] theorem callbacks_called : callbacks g (evs ++ [.called t g']) = callbacks g evs := by
  simp [callbacks, List.count_append]

@[simp] theorem callbacks_callback :
    callbacks g (evs ++ [.callback g']) = callbacks g evs + if g' = g then 1 else 0 := by
  by_cases hg : g' = g <;> simp [callbacks, List.count_append, hg]

@[simp] theorem callbacks_returned : callbacks g (evs ++ [.returned t g']) = callbacks g evs := by
  simp [callbacks, List.count_append]

theorem ReturnsFull.snoc (h : ReturnsFull n evs)
    (hnew : ∀ t g, e = .returned t g → Full n g evs) : ReturnsFull n (evs ++ [e]) := by
  intro k t g hk
  rcases getElem?_snoc hk with hk | ⟨rfl, hnow⟩
  · have hlt := (List.getElem?_eq_some_iff.mp hk).1
    rw [List.take_append_of_le_length (Nat.le_of_lt hlt)]
    exact h k t g hk
  · rw [List.take_left]
    exact hnew t g hnow.symm

/-- With `g` generations released: each of them was full and had its callback, and nothing is
    recorded for a later one than `g`. -/
structure Counts (n g : Nat) (evs : List BarrierEvent) : Prop where
  past : ∀ k < g, (callers k evs).length = max n 1 ∧ callbacks k evs = 1
  future : ∀ k, g < k → callers k evs = [] ∧ callbacks k evs = 0
  nodup : ∀ k, (callers k evs).Nodup
  returns : ReturnsFull n evs

theorem counts_nil (n : Nat) : Counts n 0 [] := by
  refine ⟨fun k hk => absurd hk (Nat.not_lt_zero k), fun k _ => ⟨rfl, rfl⟩,
    fun k => List.nodup_nil, ?_⟩
  intro k t g hk
  cases hk

theorem Counts.called (h : Counts n g evs) (hnot : t ∉ callers g evs) :
    Counts n g (evs ++ [.called t g]) := by
  refine ⟨fun k hk => ?_, fun k hk => ?_, fun k => ?_, h.returns.snoc fun _ _ heq => by cases heq⟩
  · rw [callers_called, if_neg (Nat.ne_of_gt hk), List.append_nil, callbacks_called]
    exact h.past k hk
  · rw [callers_called, if_neg (Nat.ne_of_lt hk), List.append_nil, callbacks_called]
    exact h.future k hk
  · rw [callers_called]
    split
    · rename_i hk
      subst hk
      rw [← List.concat_eq_append]
      exact (h.nodup g).concat hnot
    · rw [List.append_nil]
      exact h.nodup k

theorem Counts.callback (h : Counts n g evs) : Counts n g (evs ++ [.callback g]) := by
  refine ⟨fun k hk => ?_, fun k hk => ?_, fun k => ?_, h.returns.snoc fun _ _ heq => by cases heq⟩
  · rw [callers_callback, callbacks_callback, if_neg (Nat.ne_of_gt hk)]
    exact h.past k hk
  · rw [callers_callback, callbacks_callback, if_neg (Nat.ne_of_lt hk)]
    exact h.future k hk
  · rw [callers_callback]
    exact h.nodup k

theorem Counts.returned (h : Counts n g evs) (t : Nat) (hfull : Full n g' evs) :
    Counts n g (evs ++ [.returned t g']) := by
  refine ⟨fun k hk => ?_, fun k hk => ?_, fun k => ?_, h.returns.snoc fun u k heq => ?_⟩
  · rw [callers_returned, callbacks_returned]
    exact h.past k hk
  · rw [callers_returned, callbacks_returned]
    exact h.future k hk
  · rw [callers_returned]
    exact h.nodup k
  · cases heq
    exact hfull

theorem Counts.release (h : Counts n g evs) (hlen : (callers g evs).length = max n 1)
    (hcb : callbacks g evs = 1) : Counts n (g + 1) evs := by
  refine ⟨fun k hk => ?_, fun k hk => h.future k (Nat.lt_of_succ_lt hk), h.nodup, h.returns⟩
  rcases Nat.lt_succ_iff_lt_or_eq.mp hk with hlt | rfl
  · exact h.past k hlt
  · exact ⟨hlen, hcb⟩

/-- A generation that has been released was full. -/
theorem Counts.full_past (h : Counts n g evs) (hg : g' < g) : Full n g' evs :=
  ⟨Nat.le_of_eq (h.past g' hg).1.symm, h.nodup g'⟩

end Trace

/-! ## Where the threads are -/

variable {n g t : Nat} {spurious : Bool} {mutex mutex' : Option Nat} {pc : Nat → AwaitPc}
  {inside inside' : List Nat} {s s' : CyclicBarrier} {a : BarrierAction}

/-- What the place `p` of thread `t` says in generation `g`, which has been joined by `inside`. -/
structure Placed (n g : Nat) (mutex : Option Nat) (inside : List Nat) (t : Nat) (p : AwaitPc) :
    Prop where
  mutex : mutex = some t ↔ p = .closing ∨ p = .notifying
  inside : t ∈ inside → p = .waiting g ∨ p = .closing ∨ p = .notifying
  waiting : ∀ k, p = .waiting k → k = g ∧ 1 < n
  woken : ∀ k, p = .woken k → k < g

/-- Every thread is placed, also after thread `t` has moved. -/
theorem placed_update {p : AwaitPc} (h : ∀ u, Placed n g mutex inside u (pc u))
    (ht : Placed n g mutex' inside' t p) (hm : ∀ u ≠ t, mutex' = some u ↔ mutex = some u)
    (hin : ∀ u ≠ t, u ∈ inside' → u ∈ inside) (u : Nat) :
    Placed n g mutex' inside' u (Function.update pc t p u) := by
  by_cases hu : u = t
  · subst hu
    rw [Function.update_self]
    exact ht
  · rw [Function.update_of_ne hu]
    exact ⟨(hm u hu).trans (h u).mutex, fun hmem => (h u).inside (hin u hu hmem), (h u).waiting,
      (h u).woken⟩

/-- How often a thread that has the mutex has run the callback. -/
def calledBack : AwaitPc → Nat
  | .notifying => 1
  | _ => 0

structure Inv (n : Nat) (s : CyclicBarrier) : Prop where
  counts : Counts n s.generation s.trace
  placed : ∀ t, Placed n s.generation s.mutex (callers s.generation s.trace) t (s.pc t)
  waits : s.currentWaits = min n (callers s.generation s.trace).length
  free : s.mutex = none →
    (callers s.generation s.trace).length < max n 1 ∧ callbacks s.generation s.trace = 0
  held : ∀ t, s.mutex = some t → (callers s.generation s.trace).length = max n 1 ∧
    callbacks s.generation s.trace = calledBack (s.pc t)

theorem inv_start (n : Nat) : Inv n {} where
  counts := counts_nil n
  placed t := ⟨by simp, by simp [callers], by simp, by simp⟩
  waits := by simp [callers]
  free _ := ⟨by simp [callers], rfl⟩
  held t h := by cases h

theorem Inv.full_held (h : Inv n s) (ht : s.mutex = some t) : Full n s.generation s.trace :=
  ⟨Nat.le_of_eq (h.held t ht).1.symm, h.counts.nodup _⟩

/-- A generation is full and had its callback, or neither, or its last thread is about to run the
    callback. -/
theorem Inv.full_cases (h : Inv n s) (g : Nat) :
    (callbacks g s.trace = 1 ∧ Full n g s.trace) ∨
    (callbacks g s.trace = 0 ∧ ¬ Full n g s.trace) ∨
    (callbacks g s.trace = 0 ∧ Full n g s.trace ∧ g = s.generation ∧ ∃ t, s.pc t = .closing) := by
  rcases Nat.lt_trichotomy g s.generation with hlt | rfl | hgt
  · exact Or.inl ⟨(h.counts.past g hlt).2, h.counts.full_past hlt⟩
  · cases hm : s.mutex with
    | none =>
        obtain ⟨hlt, hcb⟩ := h.free hm
        exact Or.inr (Or.inl ⟨hcb, fun hfull => Nat.not_le_of_lt hlt hfull.1⟩)
    | some t =>
        obtain ⟨-, hcb⟩ := h.held t hm
        rcases (h.placed t).mutex.mp hm with hpc | hpc
        · rw [hpc] at hcb
          exact Or.inr (Or.inr ⟨hcb, h.full_held hm, rfl, t, hpc⟩)
        · rw [hpc] at hcb
          exact Or.inl ⟨hcb, h.full_held hm⟩
  · obtain ⟨hnone, hcb⟩ := h.counts.future g hgt
    refine Or.inr (Or.inl ⟨hcb, fun hfull => ?_⟩)
    have hle := hfull.1
    rw [hnone, List.length_nil] at hle
    omega

theorem Inv.releasesFull (h : Inv n s) : ReleasesFull n s := by
  refine ⟨h.counts.returns, fun g => ?_, fun g hg => ?_, fun g hg => ?_⟩
  · rcases h.full_cases g with ⟨hcb, -⟩ | ⟨hcb, -⟩ | ⟨hcb, -⟩ <;> omega
  · rcases h.full_cases g with ⟨-, hfull⟩ | ⟨hcb, -⟩ | ⟨-, hfull, -⟩
    · exact hfull
    · omega
    · exact hfull
  · rcases h.full_cases g with ⟨hcb, -⟩ | ⟨-, hnot⟩ | ⟨-, -, hclosing⟩
    · exact Or.inl hcb
    · exact absurd hg hnot
    · exact Or.inr hclosing

/-! ## The steps keep it -/

/-- The generation is not full when a thread gets the mutex. The thread is the last one if the
    generation is full with it. -/
theorem await_eq (h : Inv n s) (hm : s.mutex = none) (t : Nat) :
    s.await n t =
      { mutex := if (callers s.generation s.trace).length + 1 = max n 1 then some t else none
        currentWaits := min n ((callers s.generation s.trace).length + 1)
        pc := Function.update s.pc t
          (if (callers s.generation s.trace).length + 1 = max n 1 then .closing
          else .waiting s.generation)
        generation := s.generation
        trace := s.trace ++ [.called t s.generation] } := by
  have hlt := (h.free hm).1
  have hwaits := h.waits
  unfold CyclicBarrier.await record setPc
  dsimp only
  generalize (callers s.generation s.trace).length = k at *
  by_cases hfull : k + 1 = max n 1
  · by_cases hn : s.currentWaits < n
    · simp only [hn, if_true]
      rw [if_pos (by omega), if_pos hfull, if_pos hfull]
      congr 1
      omega
    · simp only [hn, if_false]
      rw [if_pos (by omega), if_pos hfull, if_pos hfull]
      congr 1
      omega
  · have hn : s.currentWaits < n := by omega
    simp only [hn, if_true]
    rw [if_neg (by omega), if_neg hfull, if_neg hfull, hm]
    congr 1
    omega

theorem Inv.await (h : Inv n s) (hpc : s.pc t = .outside) (hm : s.mutex = none) :
    Inv n (s.await n t) := by
  obtain ⟨hlt, hcb⟩ := h.free hm
  have hnot : t ∉ callers s.generation s.trace := by
    intro hmem
    rcases (h.placed t).inside hmem with hin | hin | hin <;> rw [hpc] at hin <;> cases hin
  have hlen : (callers s.generation (s.trace ++ [.called t s.generation])).length =
      (callers s.generation s.trace).length + 1 := by simp
  rw [await_eq h hm]
  refine ⟨h.counts.called hnot, ?_, by dsimp only; rw [hlen], fun hfree => ?_, fun u hu => ?_⟩
  · refine placed_update h.placed ?_ (fun u hu => ?_) fun u hu hmem => ?_
    · split
      · exact ⟨by simp, by simp, by simp, by simp⟩
      · refine ⟨by simp, by simp, fun k hk => ?_, by simp⟩
        cases hk
        exact ⟨rfl, by omega⟩
    · rw [hm]
      split
      · simp [Ne.symm hu]
      · simp
    · rw [callers_called, if_pos rfl] at hmem
      rcases List.mem_append.mp hmem with hmem | hmem
      · exact hmem
      · exact absurd (List.mem_singleton.mp hmem) hu
  · dsimp only at hfree ⊢
    split at hfree
    · cases hfree
    · rw [hlen, callbacks_called]
      exact ⟨by omega, hcb⟩
  · dsimp only at hu ⊢
    split at hu
    · rename_i hfull
      obtain rfl := Option.some.inj hu
      rw [hlen, callbacks_called, Function.update_self, if_pos hfull]
      exact ⟨hfull, hcb⟩
    · cases hu

theorem Inv.callback (h : Inv n s) (hpc : s.pc t = .closing) :
    Inv n ((s.record (.callback s.generation)).setPc t .notifying) := by
  have hm := (h.placed t).mutex.mpr (Or.inl hpc)
  obtain ⟨hlen, hcb⟩ := h.held t hm
  rw [hpc] at hcb
  unfold record setPc
  refine ⟨h.counts.callback, ?_, ?_, fun hfree => ?_, fun u hu => ?_⟩
  · refine placed_update h.placed ?_ (fun _ _ => Iff.rfl) fun u _ hmem => ?_
    · exact ⟨iff_of_true hm (Or.inr rfl), by simp, by simp, by simp⟩
    · simpa using hmem
  · simpa using h.waits
  · dsimp only at hfree
    rw [hm] at hfree
    cases hfree
  · obtain rfl : t = u := Option.some.inj (hm.symm.trans hu)
    dsimp only
    rw [callers_callback, callbacks_callback, hcb, Function.update_self, if_pos rfl]
    exact ⟨hlen, rfl⟩

theorem Inv.notifyAll (h : Inv n s) (hpc : s.pc t = .notifying) : Inv n (s.notifyAll t) := by
  have hm := (h.placed t).mutex.mpr (Or.inr hpc)
  obtain ⟨hlen, hcb⟩ := h.held t hm
  rw [hpc] at hcb
  have hcounts : Counts n (s.generation + 1) (s.trace ++ [.returned t s.generation]) :=
    (h.counts.returned t (h.full_held hm)).release (by simpa using hlen)
      (by simpa [calledBack] using hcb)
  obtain ⟨hnext, hnextcb⟩ := h.counts.future (s.generation + 1) (Nat.lt_succ_self _)
  unfold CyclicBarrier.notifyAll record
  refine ⟨hcounts, fun u => ?_, ?_, fun _ => ?_, fun u hu => by cases hu⟩
  · dsimp only
    rw [callers_returned, hnext]
    by_cases hu : u = t
    · subst hu
      rw [Function.update_self]
      exact ⟨by simp, by simp, by simp, by simp⟩
    · rw [Function.update_of_ne hu]
      have hplace := h.placed u
      have hclosing : ¬ (s.pc u = .closing ∨ s.pc u = .notifying) := by
        intro hc
        have := hplace.mutex.mpr hc
        rw [hm] at this
        exact hu (Option.some.inj this).symm
      cases hpcu : s.pc u with
      | outside => exact ⟨by simp [AwaitPc.notify], by simp, by simp [AwaitPc.notify],
          by simp [AwaitPc.notify]⟩
      | closing => exact absurd (Or.inl hpcu) hclosing
      | notifying => exact absurd (Or.inr hpcu) hclosing
      | waiting g =>
          -- the threads that wait are those of this generation
          refine ⟨by simp [AwaitPc.notify], by simp, by simp [AwaitPc.notify], fun k hk => ?_⟩
          cases hk
          rw [(hplace.waiting g hpcu).1]
          exact Nat.lt_succ_self _
      | woken g =>
          refine ⟨by simp [AwaitPc.notify], by simp, by simp [AwaitPc.notify], fun k hk => ?_⟩
          cases hk
          exact Nat.lt_succ_of_lt (hplace.woken g hpcu)
  · simp [hnext]
  · dsimp only
    rw [callers_returned, callbacks_returned, hnext]
    exact ⟨by simp, hnextcb⟩

theorem Inv.resume (h : Inv n s) (hpc : s.pc t = .woken g) :
    Inv n ((s.record (.returned t g)).setPc t .outside) := by
  have hmt : s.mutex ≠ some t := by
    intro hm
    rcases (h.placed t).mutex.mp hm with hc | hc <;> rw [hpc] at hc <;> cases hc
  have hnot : t ∉ callers s.generation s.trace := by
    intro hmem
    rcases (h.placed t).inside hmem with hin | hin | hin <;> rw [hpc] at hin <;> cases hin
  unfold record setPc
  have hfull := h.counts.full_past ((h.placed t).woken g hpc)
  refine ⟨h.counts.returned t hfull, ?_, ?_, fun hfree => ?_, fun u hu => ?_⟩
  · refine placed_update h.placed ?_ (fun _ _ => Iff.rfl) fun u _ hmem => ?_
    · exact ⟨iff_of_false hmt (by simp), by simpa using hnot, by simp, by simp⟩
    · simpa using hmem
  · simpa using h.waits
  · simpa using h.free hfree
  · have hut : u ≠ t := fun heq => hmt (heq ▸ hu)
    dsimp only
    rw [callers_returned, callbacks_returned, Function.update_of_ne hut]
    exact h.held u hu

/-- What a step can be. -/
inductive Step (n : Nat) (spurious : Bool) (s : CyclicBarrier) :
    BarrierAction → CyclicBarrier → Prop
  | await {t : Nat} (hpc : s.pc t = .outside) (hm : s.mutex = none) :
      Step n spurious s (.await t) (s.await n t)
  | callback {t : Nat} (hpc : s.pc t = .closing) :
      Step n spurious s (.callback t) ((s.record (.callback s.generation)).setPc t .notifying)
  | notifyAll {t : Nat} (hpc : s.pc t = .notifying) :
      Step n spurious s (.notifyAll t) (s.notifyAll t)
  | spuriousWake {t g : Nat} (hpc : s.pc t = .waiting g) (hs : spurious = true) :
      Step n spurious s (.spuriousWake t) (s.setPc t (.woken g))
  | resume {t g : Nat} (hpc : s.pc t = .woken g) (hm : s.mutex = none) :
      Step n spurious s (.resume t) ((s.record (.returned t g)).setPc t .outside)

theorem step_cases (h : step n spurious s a = some s') : Step n spurious s a s' := by
  cases a with
  | await t =>
      obtain ⟨⟨hpc, hm⟩, hs⟩ := Option.ite_none_right_eq_some.mp h
      cases hs
      exact .await hpc hm
  | callback t =>
      obtain ⟨hpc, hs⟩ := Option.ite_none_right_eq_some.mp h
      cases hs
      exact .callback hpc
  | notifyAll t =>
      obtain ⟨hpc, hs⟩ := Option.ite_none_right_eq_some.mp h
      cases hs
      exact .notifyAll hpc
  | spuriousWake t =>
      rw [step] at h
      split at h
      · rename_i g hpc
        obtain ⟨hspur, hs⟩ := Option.ite_none_right_eq_some.mp h
        cases hs
        exact .spuriousWake hpc hspur
      · cases h
  | resume t =>
      rw [step] at h
      split at h
      · rename_i g hpc
        obtain ⟨hm, hs⟩ := Option.ite_none_right_eq_some.mp h
        cases hs
        exact .resume hpc hm
      · cases h

theorem Inv.step (hok : spurious = false ∨ n ≤ 1) (h : Inv n s)
    (hs : CyclicBarrier.step n spurious s a = some s') : Inv n s' := by
  cases step_cases hs with
  | await hpc hm => exact h.await hpc hm
  | callback hpc => exact h.callback hpc
  | notifyAll hpc => exact h.notifyAll hpc
  | spuriousWake hpc hspur =>
      -- with one party nobody waits
      have hn := ((h.placed _).waiting _ hpc).2
      rcases hok with hfalse | hle
      · rw [hfalse] at hspur
        cases hspur
      · omega
  | resume hpc hm => exact h.resume hpc

/-! ## When the barrier keeps its promise -/

/-- A thread that waits is woken for no reason, and goes on. -/
def wokenAlone : List BarrierAction := [.await 0, .spuriousWake 0, .resume 0]

theorem run_wokenAlone (hn : 1 < n) : ∃ s, run (step n true) {} wokenAlone = some s ∧
    s.trace = [.called 0 0, .returned 0 0] := by
  obtain ⟨m, rfl⟩ : ∃ m, n = m + 2 := ⟨n - 2, by omega⟩
  simp [wokenAlone, run, step, CyclicBarrier.await, record, setPc]

theorem releases_full_iff (parties : Nat) (spurious : Bool) :
    (∀ actions s, run (step parties spurious) {} actions = some s → ReleasesFull parties s) ↔
      spurious = false ∨ parties ≤ 1 := by
  constructor
  · intro hall
    by_contra hnot
    push Not at hnot
    obtain ⟨hspur, hn⟩ := hnot
    obtain rfl : spurious = true := by simpa using hspur
    obtain ⟨s, hs, htrace⟩ := run_wokenAlone hn
    have hfull := (hall wokenAlone s hs).returns 1 0 0 (by rw [htrace]; rfl)
    rw [htrace] at hfull
    have hle : max parties 1 ≤ 1 := hfull.1
    omega
  · intro hok actions s hs
    have hinv := run_invariant (Inv parties) (fun _ _ _ hi => hi.step hok) hs (inv_start parties)
    exact hinv.releasesFull

/-- Two parties: the first to call returns before the second has called. -/
theorem returns_early : ∃ s, run (step 2 true) {} wokenAlone = some s ∧
    s.trace = [.called 0 0, .returned 0 0] ∧ ¬ ReleasesFull 2 s := by
  refine ⟨_, rfl, rfl, fun h => ?_⟩
  have hle : 2 ≤ 1 := (h.returns 1 0 0 rfl).1
  omega

/-! ## The barrier of the library -/

def returnsOf (t : Nat) : BarrierEvent → Bool
  | .returned u _ => u = t
  | _ => false

/-- How often thread `t` has been through. -/
def rounds (t : Nat) (evs : List BarrierEvent) : Nat := evs.countP (returnsOf t)

/-- A thread that has been woken still waits for its turn. -/
def partyOf (rounds : Nat) : AwaitPc → Party
  | .outside => .outside rounds
  | .closing => .closing rounds
  | .notifying => .closing rounds
  | .waiting g => .waiting rounds g
  | .woken g => .waiting rounds g

def toBarrier (s : CyclicBarrier) : Barrier where
  waits := s.currentWaits
  generation := s.generation
  party t := partyOf (rounds t s.trace) (s.pc t)

section Simulation

variable {evs : List BarrierEvent} {u : Nat}

theorem rounds_snoc (e : BarrierEvent) :
    rounds t (evs ++ [e]) = rounds t evs + if returnsOf t e then 1 else 0 := by
  simp [rounds]

theorem partyOf_notify (r : Nat) (p : AwaitPc) : partyOf r p.notify = partyOf r p := by
  cases p <;> rfl

/-- The parties after an event that counts for thread `t` only, which has moved to `p`. -/
theorem party_snoc (e : BarrierEvent) (p : AwaitPc) (he : ∀ u ≠ t, returnsOf u e = false) :
    (fun u => partyOf (rounds u (evs ++ [e])) (Function.update pc t p u)) =
      Function.update (fun u => partyOf (rounds u evs) (pc u)) t
        (partyOf (rounds t (evs ++ [e])) p) := by
  funext u
  by_cases hu : u = t
  · subst hu
    rw [Function.update_self, Function.update_self]
  · rw [Function.update_of_ne hu, Function.update_of_ne hu, rounds_snoc, he u hu]
    rfl

theorem toBarrier_await (t : Nat) :
    (s.await n t).toBarrier = s.toBarrier.arrive n t (rounds t s.trace) := by
  have hparty : ∀ p, (fun u => partyOf (rounds u (s.trace ++ [.called t s.generation]))
      (Function.update s.pc t p u)) =
      Function.update s.toBarrier.party t (partyOf (rounds t s.trace) p) := by
    intro p
    rw [party_snoc _ p fun _ _ => rfl, rounds_snoc]
    rfl
  unfold CyclicBarrier.await record setPc Barrier.arrive
  dsimp only
  by_cases hlt : s.currentWaits < n
  · by_cases hn : n ≤ s.currentWaits + 1
    · simp only [toBarrier, hlt, hn, if_true, Barrier.mk.injEq, true_and]
      exact hparty .closing
    · simp only [toBarrier, hlt, hn, if_true, if_false, Barrier.mk.injEq, true_and]
      exact hparty (.waiting s.generation)
  · simp only [toBarrier, hlt, Nat.le_of_not_lt hlt, if_true, if_false, Barrier.mk.injEq, true_and]
    exact hparty .closing

theorem toBarrier_callback (hpc : s.pc t = .closing) :
    ((s.record (.callback s.generation)).setPc t .notifying).toBarrier = s.toBarrier := by
  unfold toBarrier record setPc
  dsimp only
  congr 1
  rw [party_snoc _ _ fun _ _ => rfl, rounds_snoc, Function.update_eq_self_iff, hpc]
  rfl

theorem returnsOf_of_ne {u : Nat} (hu : u ≠ t) : returnsOf u (.returned t g) = false :=
  decide_eq_false (Ne.symm hu)

theorem rounds_returned : rounds t (evs ++ [.returned t g]) = rounds t evs + 1 := by
  simp [rounds_snoc, returnsOf]

theorem toBarrier_notifyAll (t : Nat) :
    (s.notifyAll t).toBarrier = s.toBarrier.release t (rounds t s.trace) := by
  unfold toBarrier CyclicBarrier.notifyAll record Barrier.release
  dsimp only
  congr 1
  rw [party_snoc _ _ fun _ hu => returnsOf_of_ne hu, rounds_returned]
  congr 1
  funext u
  exact partyOf_notify _ _

theorem toBarrier_resume (t g : Nat) :
    ((s.record (.returned t g)).setPc t .outside).toBarrier =
      s.toBarrier.leave t (rounds t s.trace) := by
  unfold toBarrier record setPc Barrier.leave
  dsimp only
  rw [party_snoc _ _ fun _ hu => returnsOf_of_ne hu, rounds_returned]
  rfl

end Simulation

/-- The thread that takes a step. -/
def actor : BarrierAction → Nat
  | .await t => t
  | .callback t => t
  | .notifyAll t => t
  | .spuriousWake t => t
  | .resume t => t

theorem barrier_inv_step (h : Inv n s) (hb : s.toBarrier.Inv n) (ha : actor a < n)
    (hs : step n false s a = some s') : s'.toBarrier.Inv n := by
  have hparty : ∀ {t p}, s.pc t = p → s.toBarrier.party t = partyOf (rounds t s.trace) p :=
    fun hpc => congrArg (partyOf _) hpc
  cases step_cases hs with
  | await hpc hm =>
      rw [toBarrier_await]
      exact hb.arrive ha (hparty hpc)
  | callback hpc =>
      rw [toBarrier_callback hpc]
      exact hb
  | notifyAll hpc =>
      rw [toBarrier_notifyAll]
      exact hb.release ha (hparty hpc)
  | spuriousWake hpc hspur => cases hspur
  | resume hpc hm =>
      rw [toBarrier_resume]
      exact hb.leave ha (hparty hpc) ((h.placed _).woken _ hpc)

/-- With as many threads as parties, and no spurious wake-ups. -/
theorem barrier_inv_of_run {actions : List BarrierAction} (hactor : ∀ a ∈ actions, actor a < n)
    (h : run (step n false) {} actions = some s) : s.toBarrier.Inv n := by
  have hboth := run_invariant_of_mem (fun s => Inv n s ∧ s.toBarrier.Inv n)
    (fun s a s' ha hi hs =>
      ⟨hi.1.step (Or.inl rfl) hs, barrier_inv_step hi.1 hi.2 (hactor a ha) hs⟩)
    h ⟨inv_start n, Barrier.inv_start n⟩
  exact hboth.2

/-- Threads stay within one round of each other, and while the last one to arrive is about to
    release them, all the others wait. -/
theorem rounds_in_step {actions : List BarrierAction} (hactor : ∀ a ∈ actions, actor a < n)
    (h : run (step n false) {} actions = some s) :
    (∀ t < n, ∀ u < n, rounds t s.trace ≤ rounds u s.trace + 1) ∧
    ∀ t < n, s.pc t = .closing ∨ s.pc t = .notifying → ∀ u < n, u ≠ t →
      rounds u s.trace = s.generation ∧
        (s.pc u = .waiting s.generation ∨ s.pc u = .woken s.generation) := by
  have hinv := barrier_inv_of_run hactor h
  have hround : ∀ t < n, rounds t s.trace = s.generation ∨ rounds t s.trace + 1 = s.generation := by
    intro t ht
    have hat : Barrier.AtRound s.generation (partyOf (rounds t s.trace) (s.pc t)) :=
      hinv.rounds t ht
    cases hpc : s.pc t <;> rw [hpc] at hat
    case outside | closing | notifying => exact Or.inl hat
    case waiting | woken => exact hat.2
  refine ⟨fun t ht u hu => ?_, fun t ht hpc u hu hne => ?_⟩
  · rcases hround t ht with htr | htr <;> rcases hround u hu with hur | hur <;> omega
  · have hparty : s.toBarrier.party t = .closing (rounds t s.trace) := by
      show partyOf _ (s.pc t) = _
      rcases hpc with hpc | hpc <;> rw [hpc] <;> rfl
    have hwaits : partyOf (rounds u s.trace) (s.pc u) = .waiting s.generation s.generation :=
      hinv.closing t ht _ hparty u hu hne
    cases hpu : s.pc u <;> rw [hpu] at hwaits <;>
      simp only [partyOf, Party.waiting.injEq, reduceCtorEq] at hwaits
    case waiting => exact ⟨hwaits.1, Or.inl (by rw [hwaits.2])⟩
    case woken => exact ⟨hwaits.1, Or.inr (by rw [hwaits.2])⟩

theorem rounds_in_step_two :
    ∃ s, run (step 2 false) {} [.await 0, .await 1] = some s ∧ s.pc 1 = .closing ∧
      (s.pc 0 = .waiting s.generation ∨ s.pc 0 = .woken s.generation) := by
  obtain ⟨s, hrun, hpc⟩ : ∃ s, run (step 2 false) {} [.await 0, .await 1] = some s ∧
      s.pc 1 = .closing := ⟨_, rfl, rfl⟩
  have hstep := (rounds_in_step (by decide) hrun).2 1 (by decide) (Or.inl hpc) 0 (by decide)
    (by decide)
  exact ⟨s, hrun, hpc, hstep.2⟩

end CyclicBarrier

end NeuChain.Server
