/-
  Any number of threads that reserve in one `MockReserveTable`.

  A thread makes calls of `reserveRWSet`, one after the other, each with a read-write set and an id.
  A step is the load of a register, or one turn of the compare-exchange loop on it, which may fail
  for no reason. The threads run as in `Lib.Threads`.

  `done` are the reservations whose loops have come to their end, in that order; it is not in the
  source. At every moment the table shows the smallest id among them (`Inv.least`): a loop that ends
  has done to the register what it would have done alone, however stale the value was that it
  started from.

  * `reservations_converge`: what a register can hold, that it only goes down, and what the table
    and `dependencyAnalysis` show when all calls have returned.
  * `exists_run_idle`: they can always return.
-/
import NeuChain.Server.ConcurrentEpoch

namespace NeuChain.Server.Reservations

open NeuChain NeuChain.Lib

/-! ## The model -/

inductive RegisterInstr where
  | load (r : Request)
  | compareExchange (r : Request) (old : Tid)
deriving DecidableEq, Repr

structure ReserveState where
  table : MockReserveTable
  done : List Request := []

/-- One step; `spurious` lets `compare_exchange_weak` fail without a reason. -/
def exec (s : ReserveState) (i : RegisterInstr) (spurious : Bool) :
    Option (ReserveState × List RegisterInstr) :=
  match i with
  | .load r => some (s, [.compareExchange r (s.table.reg r.side r.cell)])
  | .compareExchange r old =>
      let turn := casLoop (s.table.reg r.side r.cell) old r.tid spurious
      let table := s.table.setReg r.side r.cell turn.1
      match turn.2 with
      | none => some ({ table := table, done := s.done ++ [r] }, [])
      | some old' => some ({ s with table := table }, [.compareExchange r old'])

/-- The arguments of a call of `reserveRWSet`. -/
abbrev Call := KVRWSet × Tid

/-- The loops of a thread's calls, in order. -/
def program (calls : List Call) : List RegisterInstr :=
  calls.flatMap fun call => (reserveRequests call.1 call.2).map .load

/-- A new table, and what each thread is going to do. -/
def start (epoch : Epoch) (threads : List (List Call)) : Pool ReserveState RegisterInstr where
  shared := { table := { epoch := epoch } }
  threads := threads.map program

/-- The cells a read-write set reads, or writes. -/
def accessed (rw : KVRWSet) : Side → List Cell
  | .read => rw.reads.map KVRead.cell
  | .write => rw.writes.map KVWrite.cell

/-! ## The invariant -/

def RegisterInstr.request : RegisterInstr → Request
  | .load r => r
  | .compareExchange r _ => r

/-- `R` are all reservations, `is` is what is left to do. -/
structure Inv (R : List Request) (s : ReserveState) (is : List RegisterInstr) : Prop where
  all : (s.done ++ is.map RegisterInstr.request).Perm R
  least : ShowsLeast s.table s.done
  seen : ∀ r old, .compareExchange r old ∈ is → Seen (s.table.reg r.side r.cell) old

variable {R : List Request} {s s' : ReserveState} {i : RegisterInstr}
  {is is' js next : List RegisterInstr} {spurious : Bool} {r : Request} {old : Tid}

theorem Inv.perm (hp : is.Perm is') (h : Inv R s is) : Inv R s is' :=
  ⟨((hp.symm.map _).append_left _).trans h.all, h.least,
    fun r old hm => h.seen r old (hp.mem_iff.mpr hm)⟩

theorem Inv.request_mem (h : Inv R s is) (hi : i ∈ is) : i.request ∈ R :=
  h.all.mem_iff.mp (List.mem_append_right _ (List.mem_map_of_mem hi))

/-- One more reservation, in its register. -/
theorem showsLeast_snoc {rt : MockReserveTable} {done : List Request} (h : ShowsLeast rt done)
    (hr : r.tid ≠ 0) :
    ShowsLeast (rt.setReg r.side r.cell (keepLeast (rt.reg r.side r.cell) r.tid))
      (done ++ [r]) := by
  intro side c
  by_cases hsame : side = r.side ∧ c = r.cell
  · obtain ⟨rfl, rfl⟩ := hsame
    rw [setReg_reg_self]
    convert (h r.side r.cell).offer hr using 1
    ext m
    simp only [List.mem_append, List.mem_singleton, Set.mem_ofPred_eq, Set.mem_insert_iff]
    constructor
    · rintro (hm | hm)
      · exact Or.inr hm
      · exact Or.inl (congrArg Request.tid hm)
    · rintro (rfl | hm)
      · exact Or.inr rfl
      · exact Or.inl hm
  · rw [setReg_reg_of_ne fun hs hc => hsame ⟨hs, hc⟩]
    have hne : ∀ m, ({ side := side, cell := c, tid := m } : Request) ≠ r := by
      rintro m rfl
      exact hsame ⟨rfl, rfl⟩
    convert h side c using 1
    ext m
    simp [hne m]

/-- What a turn does that ends the loop. -/
theorem exec_ends (hd : (casLoop (s.table.reg r.side r.cell) old r.tid spurious).2 = none) :
    exec s (.compareExchange r old) spurious =
      some ({ table := s.table.setReg r.side r.cell
                (casLoop (s.table.reg r.side r.cell) old r.tid spurious).1
              done := s.done ++ [r] }, []) := by
  simp only [exec, hd]

/-- A turn that fails has loaded the register. -/
theorem exec_retries {v : Tid}
    (hd : (casLoop (s.table.reg r.side r.cell) old r.tid spurious).2 = some v) :
    exec s (.compareExchange r old) spurious =
      some (s, [.compareExchange r (s.table.reg r.side r.cell)]) := by
  obtain ⟨hfst, rfl⟩ := casLoop_retry hd
  simp only [exec, hd, hfst, setReg_self]

/-- The thread that was to perform `i` has loaded the register of its request. -/
theorem Inv.loaded (h : Inv R s (i :: js)) (hi : i.request = r) :
    Inv R s (.compareExchange r (s.table.reg r.side r.cell) :: js) := by
  refine ⟨?_, h.least, fun q o hm => ?_⟩
  · have hall := h.all
    rw [List.map_cons, hi] at hall
    exact hall
  · rcases List.mem_cons.mp hm with heq | hm
    · cases heq
      exact seen_self
    · exact h.seen q o (List.mem_cons_of_mem _ hm)

theorem Inv.ended (h : Inv R s (.compareExchange r old :: js)) (hr : r.tid ≠ 0)
    (hd : (casLoop (s.table.reg r.side r.cell) old r.tid spurious).2 = none) :
    Inv R { table := s.table.setReg r.side r.cell
              (casLoop (s.table.reg r.side r.cell) old r.tid spurious).1
            done := s.done ++ [r] } js := by
  refine ⟨?_, ?_, fun q o hm => ?_⟩
  · rw [List.append_assoc]
    exact h.all
  · rw [casLoop_done_eq (h.seen r old List.mem_cons_self) hd]
    exact showsLeast_snoc h.least hr
  · -- what another thread has seen stays true
    have hseen := h.seen q o (List.mem_cons_of_mem _ hm)
    dsimp only
    by_cases hsame : q.side = r.side ∧ q.cell = r.cell
    · rw [hsame.1, hsame.2] at hseen ⊢
      rw [setReg_reg_self]
      exact hseen.turn hr
    · rw [setReg_reg_of_ne fun hs hc => hsame ⟨hs, hc⟩]
      exact hseen

theorem Inv.exec (hR : ∀ r ∈ R, r.tid ≠ 0) (h : Inv R s (i :: js))
    (hex : Reservations.exec s i spurious = some (s', next)) : Inv R s' (next ++ js) := by
  have hi := hR _ (h.request_mem List.mem_cons_self)
  cases i with
  | load r =>
      cases hex
      exact h.loaded rfl
  | compareExchange r old =>
      cases hd : (casLoop (s.table.reg r.side r.cell) old r.tid spurious).2 with
      | none =>
          rw [exec_ends hd] at hex
          cases hex
          exact h.ended hi hd
      | some v =>
          rw [exec_retries hd] at hex
          cases hex
          exact h.loaded rfl

/-- A register that holds an id never shows a larger one again, nor 0. -/
def Lowers (rt rt' : MockReserveTable) : Prop :=
  ∀ side c, rt.reg side c ≠ 0 → rt'.reg side c ≠ 0 ∧ rt'.reg side c ≤ rt.reg side c

theorem Lowers.refl (rt : MockReserveTable) : Lowers rt rt :=
  fun _ _ hne => ⟨hne, Nat.le_refl _⟩

theorem Lowers.trans {rt₁ rt₂ rt₃ : MockReserveTable} (h : Lowers rt₁ rt₂) (h' : Lowers rt₂ rt₃) :
    Lowers rt₁ rt₃ := by
  intro side c hne
  obtain ⟨hne₂, hle₂⟩ := h side c hne
  obtain ⟨hne₃, hle₃⟩ := h' side c hne₂
  exact ⟨hne₃, Nat.le_trans hle₃ hle₂⟩

theorem lowers_exec (hi : i.request.tid ≠ 0)
    (hex : Reservations.exec s i spurious = some (s', next)) : Lowers s.table s'.table := by
  cases i with
  | load r =>
      cases hex
      exact .refl _
  | compareExchange r old =>
      cases hd : (casLoop (s.table.reg r.side r.cell) old r.tid spurious).2 with
      | none =>
          rw [exec_ends hd] at hex
          cases hex
          intro side c hne
          dsimp only
          by_cases hsame : side = r.side ∧ c = r.cell
          · obtain ⟨rfl, rfl⟩ := hsame
            rw [setReg_reg_self]
            exact casLoop_mono old spurious hi hne
          · rw [setReg_reg_of_ne fun hs hc => hsame ⟨hs, hc⟩]
            exact ⟨hne, Nat.le_refl _⟩
      | some v =>
          rw [exec_retries hd] at hex
          cases hex
          exact .refl _

/-! ## Runs -/

def PoolInv (R : List Request) (p : Pool ReserveState RegisterInstr) : Prop :=
  Inv R p.shared p.threads.flatten

variable {p p' : Pool ReserveState RegisterInstr} {a : Nat × Bool} {as bs : List (Nat × Bool)}

theorem poolInv_step (hR : ∀ r ∈ R, r.tid ≠ 0) (h : PoolInv R p)
    (hs : Pool.step exec p a = some p') : PoolInv R p' ∧ Lowers p.shared.table p'.shared.table := by
  obtain ⟨before, i, rest, after, s', next, hp, -, hex, rfl⟩ := step_cases hs
  unfold PoolInv at h ⊢
  rw [hp] at h
  have hcut := h.perm (flatten_thread_perm before after [i] rest)
  refine ⟨(hcut.exec hR hex).perm (flatten_thread_perm before after next rest).symm, ?_⟩
  exact lowers_exec (hR _ (hcut.request_mem List.mem_cons_self)) hex

theorem poolInv_run (hR : ∀ r ∈ R, r.tid ≠ 0) (h : PoolInv R p)
    (hr : run (Pool.step exec) p as = some p') :
    PoolInv R p' ∧ Lowers p.shared.table p'.shared.table := by
  refine run_invariant (fun q => PoolInv R q ∧ Lowers p.shared.table q.shared.table) ?_ hr
    ⟨h, .refl _⟩
  rintro q b q' ⟨hq, hlow⟩ hstep
  obtain ⟨hq', hlow'⟩ := poolInv_step hR hq hstep
  exact ⟨hq', hlow.trans hlow'⟩

/-! ## All calls -/

/-- The reservations of these calls. -/
def requests (calls : List Call) : List Request :=
  calls.flatMap fun call => reserveRequests call.1 call.2

theorem mem_requests {calls : List Call} : r ∈ requests calls ↔
    ∃ call ∈ calls, call.2 = r.tid ∧ r.cell ∈ accessed call.1 r.side := by
  unfold requests
  rw [List.mem_flatMap]
  refine exists_congr fun call => and_congr_right fun _ => ?_
  rw [mem_reserveRequests, eq_comm]
  refine and_congr_right fun _ => ?_
  cases hside : r.side <;> simp [accessed]

theorem map_request_program (calls : List Call) :
    (program calls).map RegisterInstr.request = requests calls := by
  unfold program requests
  rw [List.map_flatMap]
  congr 1
  funext call
  rw [List.map_map]
  exact List.map_id _

theorem map_request_programs (threads : List (List Call)) :
    (threads.map program).flatten.map RegisterInstr.request = requests threads.flatten := by
  induction threads with
  | nil => rfl
  | cons calls threads ih =>
      rw [List.map_cons, List.flatten_cons, List.flatten_cons, List.map_append, ih,
        map_request_program]
      exact List.flatMap_append.symm

theorem not_compareExchange_mem_program (calls : List Call) :
    .compareExchange r old ∉ program calls := by
  intro hm
  obtain ⟨call, -, hm⟩ := List.mem_flatMap.mp hm
  obtain ⟨q, -, heq⟩ := List.mem_map.mp hm
  cases heq

theorem poolInv_start (epoch : Epoch) (threads : List (List Call)) :
    PoolInv (requests threads.flatten) (start epoch threads) := by
  refine ⟨List.Perm.of_eq (map_request_programs threads), showsLeast_new, fun r old hm => ?_⟩
  obtain ⟨is, his, hm⟩ := List.mem_flatten.mp hm
  obtain ⟨calls, -, rfl⟩ := List.mem_map.mp his
  exact absurd hm (not_compareExchange_mem_program calls)

/-! ## What the table shows -/

/-- The registers show the minima of what these calls have asked for, and a dependency is reported
    just when it is there. -/
structure Settled (calls : List Call) (rt : MockReserveTable) : Prop where
  registers : ∀ side c,
    Least {tid | ∃ call ∈ calls, call.2 = tid ∧ c ∈ accessed call.1 side} (rt.reg side c)
  waw : ∀ rw tid, (rt.dependencyAnalysis rw tid).waw = true ↔
    ∃ c ∈ accessed rw .write, ∃ call ∈ calls, call.2 < tid ∧ c ∈ accessed call.1 .write
  war : ∀ rw tid, (rt.dependencyAnalysis rw tid).war = true ↔
    ∃ c ∈ accessed rw .write, ∃ call ∈ calls, call.2 < tid ∧ c ∈ accessed call.1 .read
  raw : ∀ rw tid, (rt.dependencyAnalysis rw tid).raw = true ↔
    ∃ c ∈ accessed rw .read, ∃ call ∈ calls, call.2 < tid ∧ c ∈ accessed call.1 .write

/-- One of the loops of `dependencyAnalysis`, on the registers of one side. -/
theorem any_reservedBefore_iff {calls : List Call} {rt : MockReserveTable} {side : Side}
    (hleast : ∀ c,
      Least {tid | ∃ call ∈ calls, call.2 = tid ∧ c ∈ accessed call.1 side} (rt.reg side c))
    (htid : ∀ call ∈ calls, 1 ≤ call.2) (tid : Tid) (cells : List Cell) :
    cells.any (reservedBefore (rt.reg side) tid) = true ↔
      ∃ c ∈ cells, ∃ call ∈ calls, call.2 < tid ∧ c ∈ accessed call.1 side := by
  rw [List.any_eq_true]
  refine exists_congr fun c => and_congr_right fun _ => ?_
  have hzero : (0 : Nat) ∉ {tid | ∃ call ∈ calls, call.2 = tid ∧ c ∈ accessed call.1 side} := by
    rintro ⟨call, hcall, h0, -⟩
    exact absurd (htid call hcall) (by rw [h0]; decide)
  have hlt := (hleast c).lt_iff (n := tid) hzero
  unfold reservedBefore
  rw [Bool.and_eq_true, decide_eq_true_eq, decide_eq_true_eq]
  refine hlt.trans ⟨?_, ?_⟩
  · rintro ⟨m, ⟨call, hcall, rfl, hc⟩, hm⟩
    exact ⟨call, hcall, hm, hc⟩
  · rintro ⟨call, hcall, hm, hc⟩
    exact ⟨call.2, ⟨call, hcall, rfl, hc⟩, hm⟩

theorem settled_of_least {calls : List Call} {rt : MockReserveTable}
    (h : ShowsLeast rt (requests calls)) (htid : ∀ call ∈ calls, 1 ≤ call.2) :
    Settled calls rt := by
  have hleast : ∀ side c,
      Least {tid | ∃ call ∈ calls, call.2 = tid ∧ c ∈ accessed call.1 side} (rt.reg side c) := by
    intro side c
    have := h side c
    simp only [mem_requests] at this
    exact this
  exact ⟨hleast, fun _ tid => any_reservedBefore_iff (hleast .write) htid tid _,
    fun _ tid => any_reservedBefore_iff (hleast .read) htid tid _,
    fun _ tid => any_reservedBefore_iff (hleast .write) htid tid _⟩

/-- In any run of threads that reserve with ids from 1 on: a register holds 0 or the id of a call
    that has reserved its cell, from there on it only goes down, and when all calls have returned
    the table shows the minima. -/
theorem reservations_converge {epoch : Epoch} {threads : List (List Call)}
    (htid : ∀ call ∈ threads.flatten, 1 ≤ call.2)
    (h : run (Pool.step exec) (start epoch threads) as = some p) :
    (∀ side c, p.shared.table.reg side c = 0 ∨
      ∃ call ∈ threads.flatten, call.2 = p.shared.table.reg side c ∧
        c ∈ accessed call.1 side ∧
        { side := side, cell := c, tid := call.2 } ∈ p.shared.done) ∧
    (∀ bs p', run (Pool.step exec) p bs = some p' → ∀ side c, p.shared.table.reg side c ≠ 0 →
      p'.shared.table.reg side c ≠ 0 ∧
        p'.shared.table.reg side c ≤ p.shared.table.reg side c) ∧
    (p.Idle → Settled threads.flatten p.shared.table) := by
  have hR : ∀ r ∈ requests threads.flatten, r.tid ≠ 0 := by
    intro r hr
    obtain ⟨call, hcall, heq, -⟩ := mem_requests.mp hr
    rw [← heq]
    exact Nat.ne_of_gt (htid call hcall)
  obtain ⟨hinv, -⟩ := poolInv_run hR (poolInv_start epoch threads) h
  refine ⟨fun side c => ?_, fun bs p' hrun => (poolInv_run hR hinv hrun).2, fun hidle => ?_⟩
  · rcases hinv.least side c with ⟨hzero, -⟩ | ⟨-, hdone, -⟩
    · exact Or.inl hzero
    · obtain ⟨call, hcall, heq, hc⟩ :=
        mem_requests.mp (hinv.all.mem_iff.mp (List.mem_append_left _ hdone))
      refine Or.inr ⟨call, hcall, heq, hc, ?_⟩
      rw [heq]
      exact hdone
  · -- nothing is left to do, so all reservations are done
    have hall := hinv.all
    rw [hidle.flatten_eq_nil, List.map_nil, List.append_nil] at hall
    exact settled_of_least (hinv.least.congr fun _ => hall.mem_iff) htid

/-- Two threads that read and write the same cell. The one with id 2 loads the registers first and
    is too late with the second. -/
def twoThreads : List (List Call) :=
  [[({ reads := [{ table := [1], key := [2], value := [] }]
       writes := [{ table := [1], key := [2], value := [3] }] }, 2)],
    [({ reads := [{ table := [1], key := [2], value := [] }]
        writes := [{ table := [1], key := [2], value := [4] }] }, 1)]]

def twoSchedule : List (Nat × Bool) :=
  [(0, false), (1, false), (0, true), (0, false), (1, false), (1, false), (0, false), (1, false),
    (1, false), (0, false), (0, false)]

theorem reservations_converge_two : ∃ p,
    run (Pool.step exec) (start 1 twoThreads) twoSchedule = some p ∧ p.Idle ∧
      Settled twoThreads.flatten p.shared.table := by
  have hrun : (run (Pool.step exec) (start 1 twoThreads) twoSchedule).any
      (fun p => decide p.Idle) = true := by decide +kernel
  obtain ⟨p, hp, hidle⟩ := exists_of_any hrun
  exact ⟨p, hp, hidle, (reservations_converge (by decide) hp).2.2 hidle⟩

/-! ## The calls return -/

def work : RegisterInstr → Nat
  | .load _ => 2
  | .compareExchange _ _ => 1

/-- From wherever the threads are, all calls can come to their end. -/
theorem exists_run_idle (p : Pool ReserveState RegisterInstr) :
    ∃ as p', run (Pool.step exec) p as = some p' ∧ p'.Idle := by
  refine Lib.exists_run_idle (fun _ => True) work (fun _ _ _ _ _ => trivial)
    (fun before i rest after s _ => ?_) trivial
  cases i with
  | load r => exact .done false rfl (by simp [work])
  | compareExchange r old =>
      -- if nobody else moves, the loop ends with its second turn at the latest
      cases hd : (casLoop (s.table.reg r.side r.cell) old r.tid false).2 with
      | none => exact .done false (exec_ends hd) Nat.zero_lt_one
      | some v =>
          exact .again false (exec_retries hd)
            (.done false (exec_ends (casLoop_self _ r.tid)) Nat.zero_lt_one)

end NeuChain.Server.Reservations
