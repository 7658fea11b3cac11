/-
  `moodycamel::LightweightSemaphore`, a semaphore that asks the kernel only if it has to.

  `m_count` is the number of tokens, or, below zero, how many calls wait for one. A call that finds
  none spins, then takes one on credit (`fetch_sub`) and waits for the kernel's semaphore `m_sema`.
  `signal` adds to `m_count` and posts to the kernel for as many calls as were in debt. A wait that
  has timed out gives its debt back, unless it is to be woken already: then it has to take the
  token.

  Calls interleave at every access to `m_count` and `m_sema`. The compare-exchange of `tryWait` is
  weak; a timed wait may time out at any moment. `Bool` stands for these choices. Returned is the
  number of tokens a call got: `tryWait` and `wait` ask for one, and 0 is `false`; `signal` gets
  none.

  * `semaphore_conserves`: every token that was there or has been signalled is somewhere: returned,
    in the hands of a call, in `m_count`, in the kernel, or about to be posted. So no token is given
    twice.
  * `semaphore_no_lost_wakeup`: if no call under way can move, all of them sleep in the kernel
    without a timeout, and there is no token left that any of them could have had.

  Left out: `int` as the type of what is posted at once, errors of the kernel's calls, and
  `availableApprox`.
-/
import NeuChain.Lib.Calls

namespace NeuChain.Common

open NeuChain.Lib

/-! ## The model -/

structure LightweightSemaphore where
  /-- `m_count`. -/
  count : Int
  /-- `m_sema`. -/
  sema : Nat := 0
  /-- What the calls of `signal` have added. -/
  signalled : Nat := 0
deriving DecidableEq, Repr

/-- For whom `tryWaitMany` runs. -/
inductive TryGoal where
  /-- For a caller of `tryWait` or `tryWaitMany`. -/
  | only (max : Nat)
  /-- For `wait` or `waitMany`, which go on to wait if it gets nothing. -/
  | first (max : Nat) (timeoutUsecs : Int)
  /-- At the end of `waitMany`, which has got one. -/
  | more (max : Nat)
deriving DecidableEq, Repr

def TryGoal.max : TryGoal → Nat
  | only max | first max _ | more max => max

/-- Where a call of the semaphore is. `max` is how many tokens it would take. -/
inductive SemInstr where
  | tryLoad (goal : TryGoal)
  | tryLoop (goal : TryGoal) (oldCount : Int)
  /-- `spin` more iterations. -/
  | spin (max : Nat) (timeoutUsecs : Int) (spin : Nat)
  | spinCas (max : Nat) (timeoutUsecs : Int) (spin : Nat) (oldCount : Int)
  | semaWait (max : Nat) (timeoutUsecs : Int)
  | adjust (max : Nat)
  | adjustTryWait (max : Nat)
  | adjustCas (max : Nat) (oldCount : Int)
  | signal (count : Nat)
  | post (count : Nat)
deriving DecidableEq, Repr

namespace LightweightSemaphore

/-- What is left of `oldCount` for someone who would take `max`. -/
def newCount (oldCount : Int) (max : Nat) : Int := if oldCount > max then oldCount - max else 0

/-- For how many calls in debt `signal` posts. -/
def toRelease (oldCount : Int) (count : Nat) : Int :=
  if -oldCount < count then -oldCount else count

/-- `tryWaitMany` returns. -/
def afterTry (maxSpins : Nat) (goal : TryGoal) (result : Nat) : Outcome SemInstr Nat :=
  match goal with
  | .only _ => .done result
  | .first max timeoutUsecs =>
      if result = 0 ∧ max > 0 then .next (.spin max timeoutUsecs maxSpins) else .done result
  | .more _ => .done (1 + result)

/-- `waitManyWithPartialSpinning` has got its token. -/
def afterWait (max : Nat) : Outcome SemInstr Nat :=
  if max > 1 then .next (.tryLoad (.more (max - 1))) else .done 1

def exec (maxSpins : Nat) (s : LightweightSemaphore) (i : SemInstr) (choice : Bool) :
    Option (LightweightSemaphore × Outcome SemInstr Nat) :=
  match i with
  | .tryLoad goal => some (s, .next (.tryLoop goal s.count))
  | .tryLoop goal oldCount =>
      if oldCount > 0 then
        if s.count = oldCount ∧ choice then
          some ({ s with count := newCount oldCount goal.max },
            afterTry maxSpins goal (oldCount - newCount oldCount goal.max).toNat)
        else some (s, .next (.tryLoop goal s.count))
      else some (s, afterTry maxSpins goal 0)
  | .spin max timeoutUsecs (spin + 1) =>
      some (s, .next (if s.count > 0 then .spinCas max timeoutUsecs spin s.count
        else .spin max timeoutUsecs spin))
  | .spinCas max timeoutUsecs spin oldCount =>
      if s.count = oldCount then
        some ({ s with count := newCount oldCount max },
          .done (oldCount - newCount oldCount max).toNat)
      else some (s, .next (.spin max timeoutUsecs spin))
  -- the loop is over: `fetch_sub`
  | .spin max timeoutUsecs 0 =>
      some ({ s with count := s.count - 1 },
        if s.count > 0 then afterWait max else .next (.semaWait max timeoutUsecs))
  | .semaWait max timeoutUsecs =>
      if timeoutUsecs = 0 ∨ (timeoutUsecs > 0 ∧ choice) then some (s, .next (.adjust max))
      else if s.sema > 0 then some ({ s with sema := s.sema - 1 }, afterWait max)
      else none
  | .adjust max =>
      some (s, .next (if s.count ≥ 0 then .adjustTryWait max else .adjustCas max s.count))
  | .adjustTryWait max =>
      if s.sema > 0 then some ({ s with sema := s.sema - 1 }, afterWait max)
      else some (s, .next (.adjust max))
  | .adjustCas max oldCount =>
      if s.count = oldCount then some ({ s with count := oldCount + 1 }, .done 0)
      else some (s, .next (.adjust max))
  | .signal count =>
      some ({ s with count := s.count + count, signalled := s.signalled + count },
        if toRelease s.count count > 0 then .next (.post (toRelease s.count count).toNat)
        else .done 0)
  | .post 0 => some (s, .done 0)
  | .post (count + 1) =>
      some ({ s with sema := s.sema + 1 }, if count = 0 then .done 0 else .next (.post count))

end LightweightSemaphore

inductive SemCall where
  | tryWait
  | wait (timeoutUsecs : Int)
  | tryWaitMany (max : Nat)
  | waitMany (max : Nat) (timeoutUsecs : Int)
  | signal (count : Nat)
deriving DecidableEq, Repr

def SemCall.enter : SemCall → SemInstr
  | .tryWait => .tryLoad (.only 1)
  | .wait timeoutUsecs => .tryLoad (.first 1 timeoutUsecs)
  | .tryWaitMany max => .tryLoad (.only max)
  | .waitMany max timeoutUsecs => .tryLoad (.first max timeoutUsecs)
  | .signal count => .signal count

def semaphoreRoutine (maxSpins : Nat) :
    Routine LightweightSemaphore SemInstr Bool SemCall Nat where
  enter := SemCall.enter
  exec s i choice := s.exec maxSpins i choice

/-! ## Where the tokens are -/

namespace SemInstr

/-- The call is in debt. -/
def waits : SemInstr → Nat
  | semaWait _ _ | adjust _ | adjustTryWait _ | adjustCas _ _ => 1
  | _ => 0

/-- The call has got a token and asks for more. -/
def holds : SemInstr → Nat
  | tryLoad (.more _) | tryLoop (.more _) _ => 1
  | _ => 0

/-- What the call is going to post. -/
def posts : SemInstr → Nat
  | post count => count
  | _ => 0

/-- What the call has seen. -/
def Ready : SemInstr → Prop
  | spinCas _ _ _ oldCount => 0 < oldCount
  | adjustCas _ oldCount => oldCount < 0
  | _ => True

end SemInstr

open SemInstr

namespace LightweightSemaphore

variable {maxSpins : Nat} {initial : Nat} {s s' : LightweightSemaphore} {i : SemInstr}
  {l l' : List SemInstr} {granted : Nat} {choice : Bool} {out : Outcome SemInstr Nat}

structure Inv (initial : Nat) (s : LightweightSemaphore) (l : List SemInstr) (granted : Nat) :
    Prop where
  count : s.count + total waits l + total holds l + granted = initial + s.signalled
  sema : (s.sema : Int) + total posts l = total waits l + min s.count 0
  ready : ∀ i ∈ l, i.Ready

theorem Inv.perm (h : Inv initial s l granted) (hp : l.Perm l') : Inv initial s l' granted := by
  refine ⟨?_, ?_, fun i hi => h.ready i (hp.mem_iff.mpr hi)⟩
  · rw [← total_perm waits hp, ← total_perm holds hp]
    exact h.count
  · rw [← total_perm posts hp, ← total_perm waits hp]
    exact h.sema

/-- A new call has and owes nothing. -/
theorem Inv.enter (h : Inv initial s l granted) (hw : i.waits = 0) (hh : i.holds = 0)
    (hp : i.posts = 0) (hready : i.Ready) : Inv initial s (i :: l) granted := by
  refine ⟨?_, ?_, List.forall_mem_cons.mpr ⟨hready, h.ready⟩⟩
  · simpa [hw, hh] using h.count
  · simpa [hw, hp] using h.sema

theorem newCount_bounds (hpos : 0 < s.count) (max : Nat) :
    0 ≤ newCount s.count max ∧ newCount s.count max ≤ s.count := by
  unfold newCount
  split <;> omega

/-- The totals after an instruction whose call goes on with `out`. -/
theorem Inv.after (h : Inv initial s (i :: l) granted)
    (hcount : s'.count + total waits out.rest + total holds out.rest + out.results.sum +
      s.signalled = s.count + i.waits + i.holds + s'.signalled)
    (hsema : s'.sema + total posts out.rest + i.waits + min s.count 0 =
      s.sema + i.posts + total waits out.rest + min s'.count 0)
    (hready : ∀ j ∈ out.rest, j.Ready) :
    Inv initial s' (out.rest ++ l) (out.results.sum + granted) := by
  have hc := h.count
  have hs := h.sema
  rw [total_cons, total_cons] at hc
  rw [total_cons, total_cons] at hs
  refine ⟨?_, ?_, fun j hj => ?_⟩
  · rw [total_append, total_append]
    push_cast at hc hcount ⊢
    omega
  · rw [total_append, total_append]
    push_cast at hs hsema ⊢
    omega
  · exact (List.mem_append.mp hj).elim (hready j) fun hl => h.ready j (List.mem_cons_of_mem _ hl)

/-- What a call that was in debt, or has just taken a token, goes on with is one token. -/
theorem afterWait_total (max : Nat) :
    total waits (afterWait max).rest = 0 ∧ total posts (afterWait max).rest = 0 ∧
      total holds (afterWait max).rest + (afterWait max).results.sum = 1 ∧
      ∀ j ∈ (afterWait max).rest, j.Ready := by
  unfold afterWait
  split <;> simp [waits, posts, holds, Ready]

/-- `tryWaitMany` hands on the tokens it has got. -/
theorem afterTry_total (maxSpins : Nat) (goal : TryGoal) (oldCount : Int) (result : Nat) :
    total waits (afterTry maxSpins goal result).rest = 0 ∧
      total posts (afterTry maxSpins goal result).rest = 0 ∧
      total holds (afterTry maxSpins goal result).rest +
          (afterTry maxSpins goal result).results.sum =
        holds (.tryLoop goal oldCount) + result ∧
      ∀ j ∈ (afterTry maxSpins goal result).rest, j.Ready := by
  unfold afterTry
  cases goal with
  | only max => simp [holds]
  | first max timeoutUsecs =>
      dsimp only
      split
      · rename_i h
        simp [waits, posts, holds, Ready, h.1]
      · simp [holds]
  | more max => simp [holds]

/-- The call has only looked. -/
theorem Inv.look (h : Inv initial s (i :: l) granted) {j : SemInstr} (hw : j.waits = i.waits)
    (hh : j.holds = i.holds) (hp : j.posts = i.posts) (hready : j.Ready) :
    Inv initial s ((Outcome.next j : Outcome SemInstr Nat).rest ++ l)
      ((Outcome.next j : Outcome SemInstr Nat).results.sum + granted) := by
  refine h.after ?_ ?_ (by simpa using hready)
  · simp [hw, hh]
  · simp [hw, hp]

/-- A call in debt takes a token from the kernel. -/
theorem Inv.wake (h : Inv initial s (i :: l) granted) (hw : i.waits = 1) (hh : i.holds = 0)
    (hp : i.posts = 0) (hpos : s.sema > 0) (max : Nat) :
    Inv initial { s with sema := s.sema - 1 } ((afterWait max).rest ++ l)
      ((afterWait max).results.sum + granted) := by
  obtain ⟨hw', hp', hh', hready⟩ := afterWait_total max
  refine h.after ?_ ?_ hready
  · rw [hw', hw, hh]
    dsimp only
    omega
  · rw [hw', hp', hw, hp]
    dsimp only
    omega

theorem Inv.tryLoop {goal : TryGoal} {oldCount : Int}
    (h : Inv initial s (.tryLoop goal oldCount :: l) granted)
    (hexec : s.exec maxSpins (.tryLoop goal oldCount) choice = some (s', out)) :
    Inv initial s' (out.rest ++ l) (out.results.sum + granted) := by
  simp only [LightweightSemaphore.exec] at hexec
  split at hexec
  · rename_i hpos
    split at hexec
    · rename_i hcas
      cases hexec
      obtain ⟨rfl, -⟩ := hcas
      obtain ⟨hw, hp, hh, hready⟩ := afterTry_total maxSpins goal s.count
        (s.count - newCount s.count goal.max).toNat
      obtain ⟨hlow, hhigh⟩ := newCount_bounds hpos goal.max
      refine h.after ?_ ?_ hready
      · rw [hw]
        simp only [waits]
        omega
      · rw [hw, hp]
        simp only [waits, posts]
        omega
    · cases hexec
      exact h.look rfl (by cases goal <;> rfl) rfl trivial
  · cases hexec
    obtain ⟨hw, hp, hh, hready⟩ := afterTry_total maxSpins goal oldCount 0
    refine h.after ?_ ?_ hready
    · rw [hw]
      simp only [waits]
      omega
    · rw [hw, hp]
      simp only [waits, posts]

/-- `fetch_sub`. -/
theorem Inv.fetchSub {max : Nat} {timeoutUsecs : Int}
    (h : Inv initial s (.spin max timeoutUsecs 0 :: l) granted)
    (hexec : s.exec maxSpins (.spin max timeoutUsecs 0) choice = some (s', out)) :
    Inv initial s' (out.rest ++ l) (out.results.sum + granted) := by
  cases hexec
  obtain ⟨hw, hp, hh, hready⟩ := afterWait_total max
  split
  · rename_i hpos
    refine h.after ?_ ?_ hready
    · rw [hw]
      simp only [waits, holds]
      omega
    · rw [hw, hp]
      simp only [waits, posts]
      omega
  · rename_i hpos
    refine h.after ?_ ?_ (by simp [Ready])
    · simp [waits, holds]
    · simp only [Outcome.rest_next, total_cons, total_nil, waits, posts]
      omega

theorem toRelease_eq (oldCount : Int) (count : Nat) :
    toRelease oldCount count = min (-oldCount) count := by
  unfold toRelease
  split <;> omega

theorem Inv.signal {count : Nat} (h : Inv initial s (.signal count :: l) granted)
    (hexec : s.exec maxSpins (.signal count) choice = some (s', out)) :
    Inv initial s' (out.rest ++ l) (out.results.sum + granted) := by
  cases hexec
  have hrelease := toRelease_eq s.count count
  split
  · rename_i hpos
    refine h.after ?_ ?_ (by simp [Ready])
    · simp only [Outcome.rest_next, Outcome.results_next, total_cons, total_nil, List.sum_nil,
        waits, holds]
      omega
    · simp only [Outcome.rest_next, total_cons, total_nil, waits, posts]
      omega
  · rename_i hpos
    refine h.after ?_ ?_ (by simp)
    · simp only [Outcome.rest_done, Outcome.results_done, total_nil, List.sum_singleton, waits,
        holds]
      omega
    · simp only [Outcome.rest_done, total_nil, waits, posts]
      omega

theorem Inv.exec (h : Inv initial s (i :: l) granted)
    (hexec : s.exec maxSpins i choice = some (s', out)) :
    Inv initial s' (out.rest ++ l) (out.results.sum + granted) := by
  have hready := h.ready i List.mem_cons_self
  cases i with
  | tryLoad goal =>
      cases hexec
      exact h.look rfl (by cases goal <;> rfl) rfl trivial
  | tryLoop goal oldCount => exact h.tryLoop hexec
  | spin max timeoutUsecs spin =>
      cases spin with
      | succ spin =>
          cases hexec
          split
          · rename_i hpos
            exact h.look rfl rfl rfl hpos
          · exact h.look rfl rfl rfl trivial
      | zero => exact h.fetchSub hexec
  | spinCas max timeoutUsecs spin oldCount =>
      simp only [LightweightSemaphore.exec] at hexec
      split at hexec
      · rename_i hcas
        cases hexec
        subst hcas
        obtain ⟨hlow, hhigh⟩ := newCount_bounds hready max
        have hpos : 0 < s.count := hready
        refine h.after ?_ ?_ (by simp)
        · simp [waits, holds]
          omega
        · simp only [Outcome.rest_done, total_nil, waits, posts]
          omega
      · cases hexec
        exact h.look rfl rfl rfl trivial
  | semaWait max timeoutUsecs =>
      simp only [LightweightSemaphore.exec] at hexec
      split at hexec
      · cases hexec
        exact h.look rfl rfl rfl trivial
      · split at hexec
        · rename_i hpos
          cases hexec
          exact h.wake rfl rfl rfl hpos max
        · cases hexec
  | adjust max =>
      cases hexec
      split
      · exact h.look rfl rfl rfl trivial
      · rename_i hneg
        exact h.look rfl rfl rfl (Int.not_le.mp hneg)
  | adjustTryWait max =>
      simp only [LightweightSemaphore.exec] at hexec
      split at hexec
      · rename_i hpos
        cases hexec
        exact h.wake rfl rfl rfl hpos max
      · cases hexec
        exact h.look rfl rfl rfl trivial
  | adjustCas max oldCount =>
      simp only [LightweightSemaphore.exec] at hexec
      split at hexec
      · rename_i hcas
        cases hexec
        have hneg : s.count < 0 := hcas ▸ hready
        refine h.after ?_ ?_ (by simp)
        · simp [waits, holds]
          omega
        · simp only [Outcome.rest_done, total_nil, waits, posts]
          omega
      · cases hexec
        exact h.look rfl rfl rfl trivial
  | signal count => exact h.signal hexec
  | post count =>
      cases count with
      | zero =>
          cases hexec
          refine h.after ?_ ?_ (by simp) <;> simp [waits, holds, posts]
      | succ count =>
          cases hexec
          split
          · rename_i hzero
            refine h.after ?_ ?_ (by simp) <;> simp [waits, holds, posts, hzero]
          · refine h.after ?_ ?_ (by simp [Ready])
            · simp [waits, holds]
            · simp only [Outcome.rest_next, total_cons, total_nil, waits, posts]
              omega

/-! ## Runs -/

theorem inv_run {p : Calls LightweightSemaphore SemInstr Nat}
    {as : List (CallAction Bool SemCall)}
    (hrun : run (Calls.step (semaphoreRoutine maxSpins)) { shared := { count := initial } } as =
      some p) : Inv initial p.shared p.active p.returned.sum := by
  refine run_invariant_calls (fun s l rs => Inv initial s l rs.sum) ?_ ?_ ?_ hrun
    ⟨by simp, by simp, by simp⟩
  · intro s l l' rs hp h
    exact h.perm hp
  · intro s l rs c h
    cases c <;> exact h.enter rfl rfl rfl trivial
  · intro s i choice s' out l rs h hexec
    rw [List.sum_append]
    exact h.exec hexec

/-- Every token is in one place. -/
theorem semaphore_conserves {p : Calls LightweightSemaphore SemInstr Nat}
    {as : List (CallAction Bool SemCall)}
    (hrun : run (Calls.step (semaphoreRoutine maxSpins)) { shared := { count := initial } } as =
      some p) :
    initial + p.shared.signalled = p.returned.sum + total holds p.active + p.shared.count.toNat +
      p.shared.sema + total posts p.active := by
  obtain ⟨hcount, hsema, -⟩ := inv_run hrun
  omega

/-- A call of `wait` that goes to sleep after one turn of its loop. -/
def goToSleep : List (CallAction Bool SemCall) :=
  [.call (.wait (-1)), .move 0 true, .move 0 true, .move 0 true, .move 0 true]

theorem semaphore_conserves_wake :
    ∃ p, run (Calls.step (semaphoreRoutine 1)) { shared := { count := (0 : Nat) } }
        (goToSleep ++ [.call (.signal 2), .move 0 true]) = some p ∧
      p.shared.count = 1 ∧ total posts p.active = 1 ∧
      0 + p.shared.signalled = p.returned.sum + total holds p.active + p.shared.count.toNat +
        p.shared.sema + total posts p.active := by
  have hany : (run (Calls.step (semaphoreRoutine 1)) { shared := { count := (0 : Nat) } }
      (goToSleep ++ [.call (.signal 2), .move 0 true])).any
        (fun p => p.shared.count = 1 ∧ total posts p.active = 1) = true := by decide
  obtain ⟨p, hrun, hcount, hposts⟩ := exists_of_any hany
  exact ⟨p, hrun, hcount, hposts, semaphore_conserves hrun⟩

/-- A call that cannot move sleeps in the kernel, with no timeout. -/
theorem asleep_iff : (∀ choice, s.exec maxSpins i choice = none) ↔
    ∃ max timeoutUsecs, i = .semaWait max timeoutUsecs ∧ timeoutUsecs < 0 ∧ s.sema = 0 := by
  constructor
  · intro h
    have h := h true
    cases i with
    | semaWait max timeoutUsecs =>
        simp only [LightweightSemaphore.exec] at h
        split_ifs at h with htimeout hsema
        simp only [and_true] at htimeout
        exact ⟨max, timeoutUsecs, rfl, by omega, by omega⟩
    | tryLoop goal oldCount =>
        simp only [LightweightSemaphore.exec] at h
        split_ifs at h
    | spin max timeoutUsecs spin => cases spin <;> cases h
    | spinCas max timeoutUsecs spin oldCount =>
        simp only [LightweightSemaphore.exec] at h
        split_ifs at h
    | adjustTryWait max =>
        simp only [LightweightSemaphore.exec] at h
        split_ifs at h
    | adjustCas max oldCount =>
        simp only [LightweightSemaphore.exec] at h
        split_ifs at h
    | post count => cases count <;> cases h
    | _ => cases h
  · rintro ⟨max, timeoutUsecs, rfl, hneg, hsema⟩ choice
    simp only [LightweightSemaphore.exec]
    rw [if_neg (by omega), if_neg (by omega)]

/-- If all calls under way sleep, there is no token. -/
theorem Inv.granted_of_asleep (h : Inv initial s l granted) (hne : l ≠ [])
    (hl : ∀ i ∈ l, ∃ max timeoutUsecs, i = .semaWait max timeoutUsecs) (hsema : s.sema = 0) :
    granted = initial + s.signalled := by
  have hone : ∀ i ∈ l, i.waits = 1 ∧ i.holds = 0 ∧ i.posts = 0 := by
    intro i hi
    obtain ⟨max, timeoutUsecs, rfl⟩ := hl i hi
    exact ⟨rfl, rfl, rfl⟩
  have hlen : 0 < l.length := List.length_pos_iff.mpr hne
  have hwaits := total_const fun i hi => (hone i hi).1
  have hholds := total_const fun i hi => (hone i hi).2.1
  have hposts := total_const fun i hi => (hone i hi).2.2
  obtain ⟨hcount, hkernel, -⟩ := h
  omega

/-- Calls sleep only while there is no token for them. -/
theorem semaphore_no_lost_wakeup {p : Calls LightweightSemaphore SemInstr Nat}
    {as : List (CallAction Bool SemCall)}
    (hrun : run (Calls.step (semaphoreRoutine maxSpins)) { shared := { count := initial } } as =
      some p)
    (hasleep : ∀ i ∈ p.active, ∀ choice, p.shared.exec maxSpins i choice = none) :
    (∀ i ∈ p.active, ∃ max timeoutUsecs, i = .semaWait max timeoutUsecs ∧ timeoutUsecs < 0) ∧
    (p.active ≠ [] → p.returned.sum = initial + p.shared.signalled) := by
  have hwait : ∀ i ∈ p.active, ∃ max timeoutUsecs, i = .semaWait max timeoutUsecs ∧
      timeoutUsecs < 0 ∧ p.shared.sema = 0 := fun i hi => asleep_iff.mp (hasleep i hi)
  refine ⟨fun i hi => ?_, fun hne => ?_⟩
  · obtain ⟨max, timeoutUsecs, heq, hneg, -⟩ := hwait i hi
    exact ⟨max, timeoutUsecs, heq, hneg⟩
  · obtain ⟨i, hi⟩ := List.exists_mem_of_ne_nil _ hne
    obtain ⟨-, -, -, -, hsema⟩ := hwait i hi
    refine (inv_run hrun).granted_of_asleep hne (fun i hi => ?_) hsema
    obtain ⟨max, timeoutUsecs, heq, -⟩ := hwait i hi
    exact ⟨max, timeoutUsecs, heq⟩

theorem semaphore_no_lost_wakeup_sleep :
    ∃ p, run (Calls.step (semaphoreRoutine 1)) { shared := { count := (0 : Nat) } } goToSleep =
        some p ∧ p.active = [.semaWait 1 (-1)] ∧ p.returned.sum = 0 + p.shared.signalled := by
  have hany : (run (Calls.step (semaphoreRoutine 1)) { shared := { count := (0 : Nat) } }
      goToSleep).any (fun p => p.active = [.semaWait 1 (-1)] ∧ p.shared.sema = 0) = true := by
    decide
  obtain ⟨p, hrun, hactive, hsema⟩ := exists_of_any hany
  refine ⟨p, hrun, hactive, (semaphore_no_lost_wakeup hrun ?_).2 (by simp [hactive])⟩
  rw [hactive]
  exact List.forall_mem_singleton.mpr (asleep_iff.mpr ⟨1, -1, rfl, by decide, hsema⟩)

end LightweightSemaphore

end NeuChain.Common
