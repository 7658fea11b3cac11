/-
  `rigtorp::MPMCQueue`, the bounded queue for several producers and consumers.

  A push draws a ticket from `head_` and a pop one from `tail_`. Ticket `x` belongs to slot `x %
  capacity_` in round `x / capacity_`. The `turn` of a slot tells whose turn it is: `2 * r`, the
  push of round `r`; `2 * r + 1`, its pop. `emplace` and `pop` draw first and then wait for their
  turn; `try_pop` looks first and draws with a compare-exchange.

  Any number of calls are under way, and they interleave at every access to an atomic and at the
  accesses to the storage of a slot between them. Atomics are sequentially consistent here, the
  tickets are natural numbers. An instruction that constructs an object over another one, or moves
  from or destroys an object that is not there, is undefined (`none`). `entered` and `taken` record
  the values in the order of their tickets, and what was moved out.

  * `mpmc_queue_fifo`: in every run nothing undefined happens, the value that a pop with ticket `t`
    moves out is that of the push with ticket `t`, and no ticket is served twice. When no call is
    under way, exactly the first `tail_` values have been moved out.
  * `mpmc_queue_stuck`: calls wait for each other only if the queue is empty or full: if no call
    under way can go on, either all of them are pops with no value left for them, or all are
    pushes with no slot left.

  What carries both is that the turn of a slot is that of one ticket, so that the slot changes
  hands from the push to the pop of a ticket and on to the push of the next round.

  Left out: `try_emplace`, which nothing calls, and how storage is allocated and aligned.
-/
import NeuChain.Lib.Calls
import NeuChain.Lib.Tickets
import Mathlib.Data.List.Nodup
import Mathlib.Logic.Function.Basic

namespace NeuChain.Common

open NeuChain.Lib

/-! ## The model -/

/-- `none` is raw storage. -/
structure Slot (α : Type*) where
  turn : Nat := 0
  storage : Option α := none

structure Queue (α : Type*) where
  capacity : Nat
  capacity_pos : 0 < capacity
  slots : Nat → Slot α := fun _ => {}
  head : Nat := 0
  tail : Nat := 0
  entered : List α := []
  taken : List (Nat × α) := []

/-- Where a call of the queue is. -/
inductive QueueInstr (α : Type*) where
  | emplace (v : α)
  | emplaceWait (head : Nat) (v : α)
  | construct (head : Nat) (v : α)
  | emplaceStore (head : Nat)
  | pop
  | popWait (tail : Nat)
  | move (tail : Nat)
  | popStore (tail : Nat) (v : α)
  | tryPop
  | tryPopSlot (tail : Nat)
  | tryPopCas (tail : Nat)
  | tryPopAgain (prevTail : Nat)
deriving DecidableEq, Repr

inductive QueueResult (α : Type*) where
  | pushed
  | popped (v : α)
  | empty
deriving DecidableEq, Repr

namespace Queue

variable {α : Type*}

/-- The constructor; it throws if the capacity is 0. -/
def new (capacity : Nat) : Option (Queue α) :=
  if h : capacity < 1 then none
  else some { capacity := capacity, capacity_pos := Nat.not_lt.mp h }

def idx (q : Queue α) (i : Nat) : Nat := i % q.capacity

def turn (q : Queue α) (i : Nat) : Nat := i / q.capacity

def slot (q : Queue α) (i : Nat) : Slot α := q.slots (q.idx i)

def setSlot (q : Queue α) (i : Nat) (s : Slot α) : Queue α :=
  { q with slots := Function.update q.slots (q.idx i) s }

def drawHead (q : Queue α) (v : α) : Queue α :=
  { q with head := q.head + 1, entered := q.entered ++ [v] }

def drawTail (q : Queue α) : Queue α := { q with tail := q.tail + 1 }

def exec (q : Queue α) :
    QueueInstr α → Option (Queue α × Outcome (QueueInstr α) (QueueResult α))
  | .emplace v => some (q.drawHead v, .next (.emplaceWait q.head v))
  | .emplaceWait head v =>
      some (q, .next (if q.turn head * 2 ≠ (q.slot head).turn then .emplaceWait head v
        else .construct head v))
  | .construct head v =>
      match (q.slot head).storage with
      | none => some (q.setSlot head { q.slot head with storage := some v },
          .next (.emplaceStore head))
      | some _ => none
  | .emplaceStore head =>
      some (q.setSlot head { q.slot head with turn := q.turn head * 2 + 1 }, .done .pushed)
  | .pop => some (q.drawTail, .next (.popWait q.tail))
  | .popWait tail =>
      some (q, .next (if q.turn tail * 2 + 1 ≠ (q.slot tail).turn then .popWait tail
        else .move tail))
  | .move tail =>
      (q.slot tail).storage.map fun v =>
        ({ q.setSlot tail { q.slot tail with storage := none } with
            taken := (tail, v) :: q.taken }, .next (.popStore tail v))
  | .popStore tail v =>
      some (q.setSlot tail { q.slot tail with turn := q.turn tail * 2 + 2 }, .done (.popped v))
  | .tryPop => some (q, .next (.tryPopSlot q.tail))
  | .tryPopSlot tail =>
      some (q, .next (if q.turn tail * 2 + 1 = (q.slot tail).turn then .tryPopCas tail
        else .tryPopAgain tail))
  | .tryPopCas tail =>
      if q.tail = tail then some (q.drawTail, .next (.move tail))
      else some (q, .next (.tryPopSlot q.tail))
  | .tryPopAgain prevTail =>
      some (q, if q.tail = prevTail then .done .empty else .next (.tryPopSlot q.tail))

end Queue

inductive QueueCall (α : Type*) where
  | emplace (v : α)
  | pop
  | tryPop
deriving DecidableEq, Repr

def QueueCall.enter {α : Type*} : QueueCall α → QueueInstr α
  | .emplace v => .emplace v
  | .pop => .pop
  | .tryPop => .tryPop

/-- The calls of the queue. Nothing is left to chance but who moves. -/
def queueRoutine (α : Type*) :
    Routine (Queue α) (QueueInstr α) Unit (QueueCall α) (QueueResult α) where
  enter := QueueCall.enter
  exec q i _ := q.exec i

/-! ## Tickets and turns -/

namespace QueueInstr

variable {α : Type*}

def pushTicket : QueueInstr α → Option Nat
  | emplaceWait head _ | construct head _ | emplaceStore head => some head
  | _ => none

def popTicket : QueueInstr α → Option Nat
  | popWait tail | move tail | popStore tail _ => some tail
  | _ => none

/-- The push has constructed its object, the slot does not show it yet. -/
def built : QueueInstr α → Option Nat
  | emplaceStore head => some head
  | _ => none

/-- The pop has moved the object out and destroyed it. -/
def moved : QueueInstr α → Option Nat
  | popStore tail _ => some tail
  | _ => none

end QueueInstr

open QueueInstr

namespace Queue

variable {α : Type*} {q q' : Queue α} {i i' : QueueInstr α} {l l' : List (QueueInstr α)}
  {x y : Nat} {v : α}

/-- The slot of ticket `x` is past the push (`k = 0`) or the pop (`k = 1`) of its round. -/
def Reached (q : Queue α) (k x : Nat) : Prop := q.turn x * 2 + k < (q.slot x).turn

def PushDone (q : Queue α) (x : Nat) : Prop := q.Reached 0 x

def PopDone (q : Queue α) (x : Nat) : Prop := q.Reached 1 x

/-- There is an object for ticket `x` in its slot. -/
def Occupied (q : Queue α) (l : List (QueueInstr α)) (x : Nat) : Prop :=
  (q.PushDone x ∨ x ∈ l.filterMap built) ∧ ¬ q.PopDone x ∧ x ∉ l.filterMap moved

/-- What a call knows. `try_pop` knows the turn of the slot as long as nobody has drawn the
    ticket. -/
def Ready (q : Queue α) : QueueInstr α → Prop
  | .emplaceWait head v => q.entered[head]? = some v
  | .construct head v => q.entered[head]? = some v ∧ (q.slot head).turn = q.turn head * 2
  | .emplaceStore head => (q.slot head).turn = q.turn head * 2
  | .move tail | .popStore tail _ => (q.slot tail).turn = q.turn tail * 2 + 1
  | .tryPopCas tail => tail < q.tail ∨ (q.slot tail).turn = q.turn tail * 2 + 1
  | _ => True

theorem PopDone.pushDone (h : q.PopDone x) : q.PushDone x := by
  unfold PopDone Reached at h
  unfold PushDone Reached
  omega

/-- A ticket is its slot and its round. -/
theorem ticket_ext (hidx : q.idx x = q.idx y) (hturn : q.turn x = q.turn y) : x = y := by
  have hx := Nat.div_add_mod x q.capacity
  have hy := Nat.div_add_mod y q.capacity
  unfold idx at hidx
  unfold turn at hturn
  rw [← hx, ← hy, hidx, hturn]

theorem slot_congr (hidx : q.idx x = q.idx y) : q.slot x = q.slot y := by
  unfold slot
  rw [hidx]

theorem slot_setSlot (s : Slot α) :
    (q.setSlot x s).slot y = if q.idx y = q.idx x then s else q.slot y := by
  unfold slot setSlot idx
  simp only [Function.update_apply]

/-- When a turn goes up by one, one ticket gets one step further, and nothing else changes. -/
theorem reached_advance {k k' : Nat} (hk : k < 2) (hk' : k' < 2)
    (h : (q.slot x).turn = q.turn x * 2 + k) {s : Slot α} (hs : s.turn = q.turn x * 2 + k + 1)
    (y : Nat) : (q.setSlot x s).Reached k' y ↔ q.Reached k' y ∨ (k' = k ∧ y = x) := by
  have hturn : (q.setSlot x s).turn y = q.turn y := rfl
  unfold Reached
  rw [slot_setSlot, hturn]
  split
  · rename_i hidx
    rw [slot_congr hidx, h, hs]
    constructor
    · intro hlt
      rcases Nat.lt_or_eq_of_le (Nat.le_of_lt_succ hlt) with hlt | heq
      · exact Or.inl hlt
      · exact Or.inr ⟨by omega, ticket_ext hidx (by omega)⟩
    · rintro (hlt | ⟨rfl, rfl⟩)
      · omega
      · omega
  · rename_i hidx
    refine (or_iff_left fun heq => hidx ?_).symm
    rw [heq.2]

/-- Writing the storage of a slot changes no turn. -/
theorem reached_storage {k : Nat} {s : Slot α} (hs : s.turn = (q.slot x).turn) (y : Nat) :
    (q.setSlot x s).Reached k y ↔ q.Reached k y := by
  have hturn : (q.setSlot x s).turn y = q.turn y := rfl
  unfold Reached
  rw [slot_setSlot, hturn]
  split
  · rename_i hidx
    rw [slot_congr hidx, hs]
  · rfl

/-! ## The invariant -/

structure Inv (q : Queue α) (l : List (QueueInstr α)) : Prop where
  entered : q.entered.length = q.head
  pushes : Held (l.filterMap pushTicket) q.head q.PushDone
  pops : Held (l.filterMap popTicket) q.tail q.PopDone
  ready : ∀ i ∈ l, q.Ready i
  storage : ∀ x, q.Occupied l x → (q.slot x).storage = q.entered[x]?
  raw : ∀ x, (∀ y, q.idx y = q.idx x → ¬ q.Occupied l y) → (q.slot x).storage = none
  values : ∀ p ∈ q.taken, q.entered[p.1]? = some p.2
  tickets : (q.taken.map Prod.fst).Nodup
  mem_tickets : ∀ t, t ∈ q.taken.map Prod.fst ↔ q.PopDone t ∨ t ∈ l.filterMap moved

theorem Inv.perm (h : Inv q l) (hp : l.Perm l') : Inv q l' := by
  have hocc : ∀ x, q.Occupied l' x ↔ q.Occupied l x := by
    intro x
    unfold Occupied
    rw [(hp.filterMap built).mem_iff, (hp.filterMap moved).mem_iff]
  refine ⟨h.entered, h.pushes.perm (hp.filterMap _), h.pops.perm (hp.filterMap _),
    fun i hi => h.ready i (hp.mem_iff.mpr hi), fun x hx => h.storage x ((hocc x).mp hx),
    fun x hx => h.raw x fun y hy hocc' => hx y hy ((hocc y).mpr hocc'), h.values, h.tickets,
    fun t => ?_⟩
  rw [← (hp.filterMap moved).mem_iff]
  exact h.mem_tickets t

theorem built_eq_some (h : built i = some x) : i = .emplaceStore x := by
  cases i <;> cases h
  rfl

theorem mem_built (h : x ∈ l.filterMap built) : .emplaceStore x ∈ l := by
  obtain ⟨i, hi, hx⟩ := List.mem_filterMap.mp h
  rwa [← built_eq_some hx]

theorem mem_popTicket_of_moved (h : x ∈ l.filterMap moved) : x ∈ l.filterMap popTicket := by
  obtain ⟨i, hi, hx⟩ := List.mem_filterMap.mp h
  refine List.mem_filterMap.mpr ⟨i, hi, ?_⟩
  cases i <;> cases hx
  rfl

theorem mem_pushTicket_of_built (h : x ∈ l.filterMap built) : x ∈ l.filterMap pushTicket :=
  List.mem_filterMap.mpr ⟨_, mem_built h, rfl⟩

/-- The object in a slot is that of the ticket whose turn it is. -/
theorem Inv.turn_of_occupied (h : Inv q l) (hx : q.Occupied l x) :
    (q.slot x).turn / 2 = q.turn x := by
  obtain ⟨hpush, hpop, -⟩ := hx
  unfold PopDone Reached at hpop
  rcases hpush with hdone | hbuilt
  · unfold PushDone Reached at hdone
    omega
  · have hturn : (q.slot x).turn = q.turn x * 2 := h.ready _ (mem_built hbuilt)
    omega

theorem Inv.occupied_unique (h : Inv q l) (hx : q.Occupied l x) (hy : q.Occupied l y)
    (hidx : q.idx x = q.idx y) : x = y := by
  refine ticket_ext hidx ?_
  rw [← h.turn_of_occupied hx, ← h.turn_of_occupied hy, slot_congr hidx]

/-! ### Instructions that only look -/

/-- A call, or none, in place of another that holds the same. -/
theorem Inv.replace (m m' : List (QueueInstr α)) (h : Inv q (m ++ l))
    (hready : ∀ i ∈ m', q.Ready i) (hpush : m'.filterMap pushTicket = m.filterMap pushTicket)
    (hpop : m'.filterMap popTicket = m.filterMap popTicket)
    (hbuilt : m'.filterMap built = m.filterMap built)
    (hmoved : m'.filterMap moved = m.filterMap moved) : Inv q (m' ++ l) := by
  have hocc : ∀ x, q.Occupied (m' ++ l) x ↔ q.Occupied (m ++ l) x := by
    intro x
    unfold Occupied
    simp only [List.filterMap_append, hbuilt, hmoved]
  obtain ⟨hentered, hpushes, hpops, hall, hstorage, hraw, hvalues, htickets, hmem⟩ := h
  rw [List.filterMap_append, ← hpush, ← List.filterMap_append] at hpushes
  rw [List.filterMap_append, ← hpop, ← List.filterMap_append] at hpops
  refine ⟨hentered, hpushes, hpops, fun i hi => ?_, fun x hx => hstorage x ((hocc x).mp hx),
    fun x hx => hraw x fun y hy ho => hx y hy ((hocc y).mpr ho), hvalues, htickets, fun t => ?_⟩
  · exact (List.mem_append.mp hi).elim (hready i) fun hl => hall i (List.mem_append_right _ hl)
  · rw [List.filterMap_append, hmoved, ← List.filterMap_append]
    exact hmem t

/-- The call knows more, and holds what it has held. -/
theorem Inv.look (h : Inv q (i :: l)) (hready : q.Ready i')
    (hpush : pushTicket i' = pushTicket i) (hpop : popTicket i' = popTicket i)
    (hbuilt : built i' = built i) (hmoved : moved i' = moved i) : Inv q (i' :: l) := by
  refine Inv.replace [i] [i'] h (List.forall_mem_singleton.mpr hready) ?_ ?_ ?_ ?_
  · simp only [List.filterMap_cons, hpush]
  · simp only [List.filterMap_cons, hpop]
  · simp only [List.filterMap_cons, hbuilt]
  · simp only [List.filterMap_cons, hmoved]

/-- A call that holds no ticket. -/
theorem holds_nothing (hpush : pushTicket i = none) (hpop : popTicket i = none) :
    [i].filterMap pushTicket = [] ∧ [i].filterMap popTicket = [] ∧ [i].filterMap built = [] ∧
      [i].filterMap moved = [] := by
  cases i with
  | emplaceStore head => cases hpush
  | popStore tail v => cases hpop
  | _ =>
      refine ⟨?_, ?_, rfl, rfl⟩
      · simp [hpush]
      · simp [hpop]

theorem Inv.drop (h : Inv q (i :: l)) (hpush : pushTicket i = none) (hpop : popTicket i = none) :
    Inv q l := by
  obtain ⟨hpush, hpop, hbuilt, hmoved⟩ := holds_nothing hpush hpop
  exact Inv.replace [i] [] h (by simp) hpush.symm hpop.symm hbuilt.symm hmoved.symm

theorem Inv.enter (h : Inv q l) (hpush : pushTicket i = none) (hpop : popTicket i = none)
    (hready : q.Ready i) : Inv q (i :: l) := by
  obtain ⟨hpush, hpop, hbuilt, hmoved⟩ := holds_nothing hpush hpop
  exact Inv.replace [] [i] h (List.forall_mem_singleton.mpr hready) hpush hpop hbuilt hmoved

/-! ### Drawing a ticket -/

theorem Ready.drawHead (h : q.Ready i) (v : α) : (q.drawHead v).Ready i := by
  have hget : ∀ {x : Nat} {w : α}, q.entered[x]? = some w →
      (q.drawHead v).entered[x]? = some w := by
    intro x w hx
    have hlt : x < q.entered.length := (List.getElem?_eq_some_iff.mp hx).1
    exact (List.getElem?_append_left hlt).trans hx
  cases i with
  | emplaceWait head w => exact hget h
  | construct head w => exact ⟨hget h.1, h.2⟩
  | _ => exact h

theorem Ready.drawTail (h : q.Ready i) : q.drawTail.Ready i := by
  cases i with
  | tryPopCas tail => exact h.imp_left fun hlt => Nat.lt_succ_of_lt hlt
  | _ => exact h

theorem Inv.lt_head_of_occupied (h : Inv q l) (hx : q.Occupied l x) : x < q.head := by
  rcases hx.1 with hdone | hbuilt
  · exact h.pushes.lt x hdone
  · exact ((h.pushes.mem x).mp (mem_pushTicket_of_built hbuilt)).1

theorem Inv.drawHead (h : Inv q l) (v : α) (hready : (q.drawHead v).Ready i)
    (hpush : pushTicket i = some q.head) (hbuilt : built i = none) (hpop : popTicket i = none)
    (hmoved : moved i = none) : Inv (q.drawHead v) (i :: l) := by
  have hocc : ∀ x, (q.drawHead v).Occupied (i :: l) x → q.Occupied l x := by
    intro x hx
    unfold Occupied at hx ⊢
    rwa [List.filterMap_cons_none hbuilt, List.filterMap_cons_none hmoved] at hx
  have hget : ∀ x < q.head, (q.drawHead v).entered[x]? = q.entered[x]? :=
    fun x hx => List.getElem?_append_left (h.entered.symm ▸ hx)
  refine ⟨?_, ?_, ?_, ?_, fun x hx => ?_, fun x hx => ?_, fun p hp => ?_, h.tickets, fun t => ?_⟩
  · show (q.entered ++ [v]).length = q.head + 1
    rw [List.length_append, h.entered, List.length_singleton]
  · rw [List.filterMap_cons_some hpush]
    exact h.pushes.draw
  · rw [List.filterMap_cons_none hpop]
    exact h.pops
  · exact List.forall_mem_cons.mpr ⟨hready, fun j hj => (h.ready j hj).drawHead v⟩
  · rw [hget x (h.lt_head_of_occupied (hocc x hx))]
    exact h.storage x (hocc x hx)
  · refine h.raw x fun y hy ho => hx y hy ?_
    unfold Occupied
    rw [List.filterMap_cons_none hbuilt, List.filterMap_cons_none hmoved]
    exact ho
  · have hp' := h.values p hp
    have hlt : p.1 < q.entered.length := (List.getElem?_eq_some_iff.mp hp').1
    rw [hget p.1 (h.entered ▸ hlt)]
    exact hp'
  · rw [List.filterMap_cons_none hmoved]
    exact h.mem_tickets t

theorem Inv.drawTail (h : Inv q l) (hready : q.drawTail.Ready i)
    (hpop : popTicket i = some q.tail) (hpush : pushTicket i = none) (hbuilt : built i = none)
    (hmoved : moved i = none) : Inv q.drawTail (i :: l) := by
  have hocc : ∀ x, q.drawTail.Occupied (i :: l) x ↔ q.Occupied l x := by
    intro x
    unfold Occupied
    rw [List.filterMap_cons_none hbuilt, List.filterMap_cons_none hmoved]
    rfl
  refine ⟨h.entered, ?_, ?_, ?_, fun x hx => h.storage x ((hocc x).mp hx),
    fun x hx => h.raw x fun y hy ho => hx y hy ((hocc y).mpr ho), h.values, h.tickets, fun t => ?_⟩
  · rw [List.filterMap_cons_none hpush]
    exact h.pushes
  · rw [List.filterMap_cons_some hpop]
    exact h.pops.draw
  · exact List.forall_mem_cons.mpr ⟨hready, fun j hj => (h.ready j hj).drawTail⟩
  · rw [List.filterMap_cons_none hmoved]
    exact h.mem_tickets t

/-! ### Writing a slot -/

theorem Ready.storage (h : q.Ready i) {s : Slot α} (hs : s.turn = (q.slot x).turn) :
    (q.setSlot x s).Ready i := by
  have hturn : ∀ y, ((q.setSlot x s).slot y).turn = (q.slot y).turn := by
    intro y
    rw [slot_setSlot]
    split
    · rename_i hidx
      rw [hs, slot_congr hidx]
    · rfl
  cases i with
  | construct head w => exact ⟨h.1, (hturn head).trans h.2⟩
  | emplaceStore head => exact (hturn head).trans h
  | move tail => exact (hturn tail).trans h
  | popStore tail w => exact (hturn tail).trans h
  | tryPopCas tail => exact h.imp_right (hturn tail).trans
  | _ => exact h

/-- Writing the storage of a slot that no other ticket occupies. -/
theorem Inv.write (h : Inv q (i :: l)) {object : Option α} {taken : List (Nat × α)}
    (hready : q.Ready i') (hpush : pushTicket i' = pushTicket i)
    (hpop : popTicket i' = popTicket i)
    (hother : ∀ y, y ≠ x → (q.Occupied (i' :: l) y ↔ q.Occupied (i :: l) y))
    (halone : ∀ y, q.idx y = q.idx x → y ≠ x → ¬ q.Occupied (i :: l) y)
    (hobject : (q.Occupied (i' :: l) x ∧ object = q.entered[x]?) ∨
      (¬ q.Occupied (i' :: l) x ∧ object = none))
    (hvalues : ∀ p ∈ taken, q.entered[p.1]? = some p.2) (htickets : (taken.map Prod.fst).Nodup)
    (hmem : ∀ t, t ∈ taken.map Prod.fst ↔ q.PopDone t ∨ t ∈ (i' :: l).filterMap moved) :
    Inv { q.setSlot x { q.slot x with storage := object } with taken := taken } (i' :: l) := by
  let s : Slot α := { q.slot x with storage := object }
  have hdone : ∀ k y, (q.setSlot x s).Reached k y ↔ q.Reached k y :=
    fun k y => reached_storage (s := s) rfl y
  have hocc : ∀ y, (q.setSlot x s).Occupied (i' :: l) y ↔ q.Occupied (i' :: l) y := by
    intro y
    unfold Occupied PushDone PopDone
    rw [hdone, hdone]
  have hpushes := h.pushes
  have hpops := h.pops
  rw [List.filterMap_cons, ← hpush, ← List.filterMap_cons] at hpushes
  rw [List.filterMap_cons, ← hpop, ← List.filterMap_cons] at hpops
  refine ⟨h.entered, hpushes.congr (hdone 0), hpops.congr (hdone 1), ?_, fun y hy => ?_,
    fun y hy => ?_, hvalues, htickets, fun t => (hmem t).trans (or_congr_left (hdone 1 t).symm)⟩
  · refine List.forall_mem_cons.mpr ⟨hready.storage (s := s) rfl, fun j hj => ?_⟩
    exact (h.ready j (List.mem_cons_of_mem _ hj)).storage (s := s) rfl
  · have hnew : q.Occupied (i' :: l) y := (hocc y).mp hy
    show ((q.setSlot x s).slot y).storage = q.entered[y]?
    rw [slot_setSlot]
    split
    · rename_i hidx
      have heq : y = x := by
        by_contra hne
        exact halone y hidx hne ((hother y hne).mp hnew)
      rw [heq] at hnew ⊢
      exact hobject.elim And.right fun hnot => absurd hnew hnot.1
    · rename_i hidx
      exact h.storage y ((hother y fun heq => hidx (heq ▸ rfl)).mp hnew)
  · show ((q.setSlot x s).slot y).storage = none
    rw [slot_setSlot]
    split
    · rename_i hidx
      have hnot : ¬ q.Occupied (i' :: l) x := fun hx => hy x hidx.symm ((hocc x).mpr hx)
      exact hobject.elim (fun hx => absurd hx.1 hnot) And.right
    · rename_i hidx
      refine h.raw y fun z hz ho => hy z hz ((hocc z).mpr ((hother z ?_).mpr ho))
      exact fun heq => hidx (heq ▸ hz.symm)

/-- The slot of a push whose turn it is holds no object. -/
theorem Inv.raw_of_turn (h : Inv q l) (hturn : (q.slot x).turn = q.turn x * 2)
    (hbuilt : x ∉ l.filterMap built) (hidx : q.idx y = q.idx x) : ¬ q.Occupied l y := by
  intro hy
  have hround := h.turn_of_occupied hy
  rw [slot_congr hidx, hturn, Nat.mul_div_cancel _ (by decide)] at hround
  obtain rfl : y = x := ticket_ext hidx hround.symm
  rcases hy.1 with hdone | hmem
  · unfold PushDone Reached at hdone
    omega
  · exact hbuilt hmem

theorem Inv.construct {head : Nat} (h : Inv q (.construct head v :: l)) :
    (q.slot head).storage = none ∧
      Inv (q.setSlot head { q.slot head with storage := some v }) (.emplaceStore head :: l) := by
  obtain ⟨hentered, hturn⟩ : q.entered[head]? = some v ∧ (q.slot head).turn = q.turn head * 2 :=
    h.ready _ List.mem_cons_self
  have hfresh : head ∉ l.filterMap built :=
    fun hmem => h.pushes.not_mem_of_cons (mem_pushTicket_of_built hmem)
  have hempty : ∀ y, q.idx y = q.idx head → ¬ q.Occupied (.construct head v :: l) y :=
    fun y hidx => h.raw_of_turn hturn hfresh hidx
  have hpop : ¬ q.PopDone head := by
    unfold PopDone Reached
    omega
  have hmoved : head ∉ l.filterMap moved := by
    -- a pop that has destroyed the object has had its turn
    intro hmem
    obtain ⟨i, hi, hi'⟩ := List.mem_filterMap.mp hmem
    obtain ⟨w, rfl⟩ : ∃ w, i = .popStore head w := by
      cases i <;> cases hi'
      exact ⟨_, rfl⟩
    have : (q.slot head).turn = q.turn head * 2 + 1 := h.ready _ (List.mem_cons_of_mem _ hi)
    omega
  refine ⟨h.raw head hempty, h.write hturn rfl rfl (fun y hy => ?_)
    (fun y hidx _ => hempty y hidx) (Or.inl ⟨?_, hentered.symm⟩) h.values h.tickets
    h.mem_tickets⟩
  · show (_ ∨ y ∈ head :: l.filterMap built) ∧ _ ↔ (_ ∨ y ∈ l.filterMap built) ∧ _
    rw [List.mem_cons, or_iff_right hy]
    rfl
  · exact ⟨Or.inr List.mem_cons_self, hpop, hmoved⟩

/-- A pop that has its turn finds the object of its ticket. -/
theorem Inv.occupied_of_turn (h : Inv q (i :: l)) (hpop : popTicket i = some x)
    (hmoved : moved i = none) (hturn : (q.slot x).turn = q.turn x * 2 + 1) :
    q.Occupied (i :: l) x := by
  have hpops := h.pops
  rw [List.filterMap_cons_some hpop] at hpops
  unfold Occupied PushDone PopDone Reached
  rw [List.filterMap_cons_none hmoved]
  refine ⟨Or.inl (by omega), by omega, fun hmem => ?_⟩
  exact hpops.not_mem_of_cons (mem_popTicket_of_moved hmem)

theorem Inv.object_of_occupied (h : Inv q l) (hx : q.Occupied l x) :
    ∃ w, (q.slot x).storage = some w ∧ q.entered[x]? = some w := by
  have hlt : x < q.entered.length := h.entered ▸ h.lt_head_of_occupied hx
  exact ⟨_, (h.storage x hx).trans (List.getElem?_eq_getElem hlt), List.getElem?_eq_getElem hlt⟩

theorem Inv.move {tail : Nat} (h : Inv q (.move tail :: l)) :
    ∃ w, (q.slot tail).storage = some w ∧
      Inv { q.setSlot tail { q.slot tail with storage := none } with
        taken := (tail, w) :: q.taken } (.popStore tail w :: l) := by
  have hturn : (q.slot tail).turn = q.turn tail * 2 + 1 := h.ready _ List.mem_cons_self
  have hocc := h.occupied_of_turn rfl rfl hturn
  obtain ⟨w, hw, hentered⟩ := h.object_of_occupied hocc
  have hnot : tail ∉ q.taken.map Prod.fst := by
    rw [h.mem_tickets, not_or]
    exact ⟨hocc.2.1, fun hmem => h.pops.not_mem_of_cons (mem_popTicket_of_moved hmem)⟩
  refine ⟨w, hw, h.write hturn rfl rfl (fun y hy => ?_)
    (fun y hidx hne ho => hne (h.occupied_unique ho hocc hidx)) (Or.inr ⟨?_, rfl⟩)
    (List.forall_mem_cons.mpr ⟨hentered, h.values⟩) (List.nodup_cons.mpr ⟨hnot, h.tickets⟩)
    fun t => ?_⟩
  · show _ ∧ _ ∧ y ∉ tail :: l.filterMap moved ↔ _ ∧ _ ∧ y ∉ l.filterMap moved
    rw [List.mem_cons, or_iff_right hy]
    rfl
  · exact fun ho => ho.2.2 List.mem_cons_self
  · show t ∈ tail :: q.taken.map Prod.fst ↔ q.PopDone t ∨ t ∈ tail :: l.filterMap moved
    rw [List.mem_cons, List.mem_cons, h.mem_tickets t]
    exact or_left_comm

/-! ### Storing a turn -/

/-- A turn that goes up by one is lost to the ticket whose turn it was only. -/
theorem turn_advance {k k' : Nat} (hk : k < 2) (hk' : k' < 2)
    (h : (q.slot x).turn = q.turn x * 2 + k) (s : Slot α)
    (hy : (q.slot y).turn = q.turn y * 2 + k') :
    ((q.setSlot x s).slot y).turn = q.turn y * 2 + k' ∨ (k' = k ∧ y = x) := by
  rw [slot_setSlot]
  split
  · rename_i hidx
    rw [slot_congr hidx, h] at hy
    exact Or.inr ⟨by omega, ticket_ext hidx (by omega)⟩
  · exact Or.inl hy

theorem Ready.advance {k : Nat} (hk : k < 2) (h : (q.slot x).turn = q.turn x * 2 + k) (s : Slot α)
    (hi : q.Ready i) (hpush : k = 0 → x < q.head ∧ pushTicket i ≠ some x)
    (hpop : k = 1 → x < q.tail ∧ popTicket i ≠ some x) : (q.setSlot x s).Ready i := by
  cases i with
  | construct head w =>
      refine ⟨hi.1, (turn_advance hk Nat.zero_lt_two h s hi.2).resolve_right ?_⟩
      exact fun heq => (hpush heq.1.symm).2 (heq.2 ▸ rfl)
  | emplaceStore head =>
      refine (turn_advance hk Nat.zero_lt_two h s hi).resolve_right ?_
      exact fun heq => (hpush heq.1.symm).2 (heq.2 ▸ rfl)
  | move tail =>
      refine (turn_advance hk Nat.one_lt_two h s hi).resolve_right ?_
      exact fun heq => (hpop heq.1.symm).2 (heq.2 ▸ rfl)
  | popStore tail w =>
      refine (turn_advance hk Nat.one_lt_two h s hi).resolve_right ?_
      exact fun heq => (hpop heq.1.symm).2 (heq.2 ▸ rfl)
  | tryPopCas tail =>
      rcases hi with hlt | hturn
      · exact Or.inl hlt
      · rcases turn_advance hk Nat.one_lt_two h s hturn with hturn | heq
        · exact Or.inr hturn
        · exact Or.inl (heq.2 ▸ (hpop heq.1.symm).1)
  | _ => exact hi

/-- Storing the next turn of a slot, where the same tickets stay occupied. -/
theorem Inv.advance {k : Nat} (hk : k < 2) (h : Inv q (i :: l))
    (hturn : (q.slot x).turn = q.turn x * 2 + k) {s : Slot α}
    (hs : s.storage = (q.slot x).storage)
    (hpush : k = 0 → x < q.head ∧ x ∉ l.filterMap pushTicket)
    (hpop : k = 1 → x < q.tail ∧ x ∉ l.filterMap popTicket)
    (hpushes : Held (l.filterMap pushTicket) q.head (q.setSlot x s).PushDone)
    (hpops : Held (l.filterMap popTicket) q.tail (q.setSlot x s).PopDone)
    (hocc : ∀ y, (q.setSlot x s).Occupied l y ↔ q.Occupied (i :: l) y)
    (hmem : ∀ t, t ∈ q.taken.map Prod.fst ↔ (q.setSlot x s).PopDone t ∨ t ∈ l.filterMap moved) :
    Inv (q.setSlot x s) l := by
  have hstorage : ∀ y, ((q.setSlot x s).slot y).storage = (q.slot y).storage := by
    intro y
    rw [slot_setSlot]
    split
    · rename_i hidx
      rw [hs, slot_congr hidx]
    · rfl
  refine ⟨h.entered, hpushes, hpops, fun j hj => ?_, fun y hy => ?_, fun y hy => ?_, h.values,
    h.tickets, hmem⟩
  · refine (h.ready j (List.mem_cons_of_mem _ hj)).advance hk hturn s ?_ ?_
    · intro hzero
      obtain ⟨hlt, hnot⟩ := hpush hzero
      exact ⟨hlt, fun hj' => hnot (List.mem_filterMap.mpr ⟨j, hj, hj'⟩)⟩
    · intro hone
      obtain ⟨hlt, hnot⟩ := hpop hone
      exact ⟨hlt, fun hj' => hnot (List.mem_filterMap.mpr ⟨j, hj, hj'⟩)⟩
  · rw [hstorage]
    exact h.storage y ((hocc y).mp hy)
  · rw [hstorage]
    exact h.raw y fun z hz ho => hy z hz ((hocc z).mpr ho)

theorem Inv.emplaceStore {head : Nat} (h : Inv q (.emplaceStore head :: l)) :
    Inv (q.setSlot head { q.slot head with turn := q.turn head * 2 + 1 }) l := by
  have hturn : (q.slot head).turn = q.turn head * 2 := h.ready _ List.mem_cons_self
  let s : Slot α := { q.slot head with turn := q.turn head * 2 + 1 }
  have hpush : ∀ y, (q.setSlot head s).PushDone y ↔ q.PushDone y ∨ y = head := by
    intro y
    refine (reached_advance Nat.zero_lt_two Nat.zero_lt_two hturn (s := s) rfl y).trans ?_
    simp [PushDone]
  have hpop : ∀ y, (q.setSlot head s).PopDone y ↔ q.PopDone y := by
    intro y
    refine (reached_advance Nat.zero_lt_two Nat.one_lt_two hturn (s := s) rfl y).trans ?_
    simp [PopDone]
  have hpushes : Held (head :: l.filterMap pushTicket) q.head q.PushDone := h.pushes
  refine h.advance Nat.zero_lt_two hturn rfl (fun _ => ⟨?_, hpushes.not_mem_of_cons⟩)
    (fun hone => absurd hone (by decide)) (hpushes.finish hpush) (h.pops.congr hpop)
    (fun y => ?_) (fun t => ?_)
  · exact ((hpushes.mem head).mp List.mem_cons_self).1
  · unfold Occupied
    rw [hpush, hpop]
    show ((_ ∨ _) ∨ y ∈ l.filterMap built) ∧ _ ↔ (_ ∨ y ∈ head :: l.filterMap built) ∧ _
    rw [List.mem_cons, or_assoc]
    rfl
  · rw [hpop]
    exact h.mem_tickets t

theorem Inv.popStore {tail : Nat} (h : Inv q (.popStore tail v :: l)) :
    Inv (q.setSlot tail { q.slot tail with turn := q.turn tail * 2 + 2 }) l := by
  have hturn : (q.slot tail).turn = q.turn tail * 2 + 1 := h.ready _ List.mem_cons_self
  let s : Slot α := { q.slot tail with turn := q.turn tail * 2 + 2 }
  have hpush : ∀ y, (q.setSlot tail s).PushDone y ↔ q.PushDone y := by
    intro y
    refine (reached_advance Nat.one_lt_two Nat.zero_lt_two hturn (s := s) rfl y).trans ?_
    simp [PushDone]
  have hpop : ∀ y, (q.setSlot tail s).PopDone y ↔ q.PopDone y ∨ y = tail := by
    intro y
    refine (reached_advance Nat.one_lt_two Nat.one_lt_two hturn (s := s) rfl y).trans ?_
    simp [PopDone]
  have hpops : Held (tail :: l.filterMap popTicket) q.tail q.PopDone := h.pops
  refine h.advance Nat.one_lt_two hturn rfl (fun hzero => absurd hzero (by decide))
    (fun _ => ⟨?_, hpops.not_mem_of_cons⟩) (h.pushes.congr hpush) (hpops.finish hpop)
    (fun y => ?_) (fun t => ?_)
  · exact ((hpops.mem tail).mp List.mem_cons_self).1
  · unfold Occupied
    rw [hpush, hpop, not_or]
    show _ ∧ (_ ∧ _) ∧ _ ↔ _ ∧ _ ∧ y ∉ tail :: l.filterMap moved
    rw [List.mem_cons, not_or, and_assoc]
    rfl
  · rw [hpop, or_assoc]
    exact (h.mem_tickets t).trans (or_congr_right List.mem_cons)

/-! ### Every instruction -/

/-- No instruction is undefined, and every one keeps the invariant. -/
theorem Inv.exec (h : Inv q (i :: l)) :
    ∃ q' out, q.exec i = some (q', out) ∧ Inv q' (out.rest ++ l) := by
  have hready := h.ready i List.mem_cons_self
  cases i with
  | emplace v =>
      refine ⟨_, _, rfl, (h.drop rfl rfl).drawHead v ?_ rfl rfl rfl rfl⟩
      show (q.entered ++ [v])[q.head]? = some v
      rw [← h.entered, List.getElem?_concat_length]
  | emplaceWait head v =>
      refine ⟨_, _, rfl, ?_⟩
      by_cases hturn : q.turn head * 2 ≠ (q.slot head).turn
      · rw [if_pos hturn]
        exact h
      · rw [if_neg hturn]
        exact h.look ⟨hready, (not_not.mp hturn).symm⟩ rfl rfl rfl rfl
  | construct head v =>
      obtain ⟨hraw, hinv⟩ := h.construct
      refine ⟨_, .next (.emplaceStore head), ?_, hinv⟩
      simp only [Queue.exec, hraw]
  | emplaceStore head => exact ⟨_, _, rfl, h.emplaceStore⟩
  | pop => exact ⟨_, _, rfl, (h.drop rfl rfl).drawTail trivial rfl rfl rfl rfl⟩
  | popWait tail =>
      refine ⟨_, _, rfl, ?_⟩
      by_cases hturn : q.turn tail * 2 + 1 ≠ (q.slot tail).turn
      · rw [if_pos hturn]
        exact h
      · rw [if_neg hturn]
        exact h.look (not_not.mp hturn).symm rfl rfl rfl rfl
  | move tail =>
      obtain ⟨w, hw, hinv⟩ := h.move
      refine ⟨_, .next (.popStore tail w), ?_, hinv⟩
      simp only [Queue.exec, hw, Option.map_some]
  | popStore tail v => exact ⟨_, _, rfl, h.popStore⟩
  | tryPop => exact ⟨_, _, rfl, h.look trivial rfl rfl rfl rfl⟩
  | tryPopSlot tail =>
      refine ⟨_, _, rfl, ?_⟩
      by_cases hturn : q.turn tail * 2 + 1 = (q.slot tail).turn
      · rw [if_pos hturn]
        exact h.look (Or.inr hturn.symm) rfl rfl rfl rfl
      · rw [if_neg hturn]
        exact h.look trivial rfl rfl rfl rfl
  | tryPopCas tail =>
      by_cases htail : q.tail = tail
      · refine ⟨_, _, if_pos htail, (h.drop rfl rfl).drawTail ?_ ?_ rfl rfl rfl⟩
        · exact hready.resolve_left (htail ▸ Nat.lt_irrefl _)
        · rw [htail]
          rfl
      · exact ⟨_, _, if_neg htail, h.look trivial rfl rfl rfl rfl⟩
  | tryPopAgain prevTail =>
      refine ⟨_, _, rfl, ?_⟩
      by_cases htail : q.tail = prevTail
      · rw [if_pos htail]
        exact h.drop rfl rfl
      · rw [if_neg htail]
        exact h.look trivial rfl rfl rfl rfl

theorem Inv.exec_eq {out : Outcome (QueueInstr α) (QueueResult α)} (h : Inv q (i :: l))
    (hexec : q.exec i = some (q', out)) : Inv q' (out.rest ++ l) := by
  obtain ⟨q'', out', hexec', hinv⟩ := h.exec
  cases Option.some.inj (hexec'.symm.trans hexec)
  exact hinv

theorem new_eq {capacity : Nat} (hnew : Queue.new capacity = some q) :
    q.head = 0 ∧ q.tail = 0 ∧ q.taken = [] := by
  unfold Queue.new at hnew
  split at hnew
  · cases hnew
  · cases hnew
    exact ⟨rfl, rfl, rfl⟩

theorem Inv.new {capacity : Nat} (hnew : Queue.new capacity = some q) : Inv q [] := by
  unfold Queue.new at hnew
  split at hnew
  · cases hnew
  · have hq := Option.some.inj hnew
    have hnone : ∀ k x, ¬ q.Reached k x := by
      rw [← hq]
      exact fun k x => Nat.not_lt_zero _
    have hzero : ∀ k, Held [] 0 (q.Reached k) :=
      fun k => ⟨List.nodup_nil, by simp, fun x hx => absurd hx (hnone k x)⟩
    refine ⟨by rw [← hq]; rfl, ?_, ?_, by simp, fun x hx => ?_, fun x _ => ?_, ?_, ?_, fun t => ?_⟩
    · rw [← hq] at hzero ⊢
      exact hzero 0
    · rw [← hq] at hzero ⊢
      exact hzero 1
    · exact absurd hx.1 (by simpa [PushDone] using hnone 0 x)
    · rw [← hq]
      rfl
    · rw [← hq]
      simp
    · rw [← hq]
      exact List.nodup_nil
    · rw [← hq] at hnone ⊢
      simpa [PopDone] using hnone 1 t

/-! ## Runs -/

/-- The value a pop is about to return. -/
def movedValue : QueueInstr α → Option α
  | .popStore _ v => some v
  | _ => none

def poppedValue : QueueResult α → Option α
  | .popped v => some v
  | _ => none

/-- The values that pops have returned, or will, are those that were moved out. -/
def Delivers (q : Queue α) (l : List (QueueInstr α)) (rs : List (QueueResult α)) : Prop :=
  (rs.filterMap poppedValue ++ l.filterMap movedValue).Perm (q.taken.map Prod.snd)

/-- An instruction moves a value out and keeps it until it returns it. -/
theorem Delivers.exec {out : Outcome (QueueInstr α) (QueueResult α)} {rs : List (QueueResult α)}
    (h : Delivers q (i :: l) rs) (hexec : q.exec i = some (q', out)) :
    Delivers q' (out.rest ++ l) (out.results ++ rs) := by
  -- an instruction that takes no value, and goes on to one that has none or returns none
  have hkeep : movedValue i = none → q'.taken = q.taken → out.rest.filterMap movedValue = [] →
      out.results.filterMap poppedValue = [] → Delivers q' (out.rest ++ l) (out.results ++ rs) := by
    intro hi htaken hrest hresults
    unfold Delivers at h ⊢
    rw [List.filterMap_cons_none hi] at h
    rw [List.filterMap_append, List.filterMap_append, hrest, hresults, htaken]
    exact h
  cases i with
  | construct head v =>
      unfold Queue.exec at hexec
      dsimp only at hexec
      split at hexec
      · cases hexec
        exact hkeep rfl rfl rfl rfl
      · cases hexec
  | move tail =>
      obtain ⟨v, -, heq⟩ := Option.map_eq_some_iff.mp hexec
      cases heq
      exact List.perm_middle.trans (h.cons v)
  | popStore tail v =>
      cases hexec
      exact List.perm_middle.symm.trans h
  | tryPopCas tail =>
      unfold Queue.exec at hexec
      dsimp only at hexec
      split at hexec <;> cases hexec <;> exact hkeep rfl rfl rfl rfl
  | _ =>
      cases hexec
      refine hkeep rfl rfl ?_ ?_
      · first | rfl | (split <;> rfl)
      · first | rfl | (split <;> rfl)

theorem inv_run {p : Calls (Queue α) (QueueInstr α) (QueueResult α)} {capacity : Nat}
    {as : List (CallAction Unit (QueueCall α))} (hnew : Queue.new capacity = some q)
    (hrun : run (Calls.step (queueRoutine α)) { shared := q } as = some p) :
    Inv p.shared p.active ∧ Delivers p.shared p.active p.returned := by
  have hstart : Inv q [] ∧ Delivers q [] [] := by
    refine ⟨Inv.new hnew, ?_⟩
    unfold Delivers
    rw [(new_eq hnew).2.2]
    exact List.Perm.refl _
  refine run_invariant_calls (fun q l rs => Inv q l ∧ Delivers q l rs) ?_ ?_ ?_ hrun hstart
  · intro q l l' rs hp h
    exact ⟨h.1.perm hp, ((hp.filterMap _).append_left _).symm.trans h.2⟩
  · intro q l rs c h
    refine ⟨?_, ?_⟩
    · cases c <;> exact h.1.enter rfl rfl trivial
    · cases c <;> exact h.2
  · intro q i _ q' out l rs h hexec
    exact ⟨h.1.exec_eq hexec, h.2.exec hexec⟩

/-- Once all pops are done, they have taken the first values. -/
theorem Inv.taken_of_idle (h : Inv q []) : q.tail ≤ q.entered.length ∧
    (q.taken.map Prod.snd).Perm (q.entered.take q.tail) := by
  have hpops : Held [] q.tail q.PopDone := h.pops
  have hle : q.tail ≤ q.entered.length := by
    rcases Nat.eq_zero_or_pos q.tail with hzero | hpos
    · rw [hzero]
      exact Nat.zero_le _
    · have hdone : q.PopDone (q.tail - 1) := hpops.done_of_nil (by omega)
      have := h.pushes.lt _ hdone.pushDone
      rw [h.entered]
      omega
  have htickets : (q.taken.map Prod.fst).Perm (List.range q.tail) := by
    refine (List.perm_ext_iff_of_nodup h.tickets List.nodup_range).mpr fun t => ?_
    rw [h.mem_tickets, List.mem_range]
    constructor
    · exact fun hdone => h.pops.lt t (hdone.resolve_right List.not_mem_nil)
    · exact fun hlt => Or.inl (hpops.done_of_nil hlt)
  have hvalues : (q.taken.map Prod.snd).map some =
      (q.taken.map Prod.fst).map fun t => q.entered[t]? := by
    rw [List.map_map, List.map_map]
    exact List.map_congr_left fun p hp => (h.values p hp).symm
  have hfirst : (List.range q.tail).map (fun t => q.entered[t]?) =
      (q.entered.take q.tail).map some := by
    refine List.ext_getElem (by simp [Nat.min_eq_left hle]) fun n hn hn' => ?_
    have hlt : n < q.tail := by simpa using hn
    simp [List.getElem?_eq_getElem (hlt.trans_le hle)]
  have hperm : ((q.taken.map Prod.snd).map some).Perm ((q.entered.take q.tail).map some) := by
    rw [hvalues, ← hfirst]
    exact htickets.map _
  exact ⟨hle, by simpa using hperm.filterMap id⟩

/-- What a pop moves out is what the push with its ticket has put in. -/
theorem mpmc_queue_fifo {p : Calls (Queue α) (QueueInstr α) (QueueResult α)} {capacity : Nat}
    {as : List (CallAction Unit (QueueCall α))} (hnew : Queue.new capacity = some q)
    (hrun : run (Calls.step (queueRoutine α)) { shared := q } as = some p) :
    (∀ i ∈ p.active, (p.shared.exec i).isSome = true) ∧
    (p.shared.taken.map Prod.fst).Nodup ∧
    (∀ t v, (t, v) ∈ p.shared.taken → p.shared.entered[t]? = some v) ∧
    (p.returned.filterMap poppedValue ++ p.active.filterMap movedValue).Perm
      (p.shared.taken.map Prod.snd) ∧
    (p.active = [] → p.shared.tail ≤ p.shared.entered.length ∧
      (p.returned.filterMap poppedValue).Perm (p.shared.entered.take p.shared.tail)) := by
  obtain ⟨hinv, hdelivers⟩ := inv_run hnew hrun
  refine ⟨fun i hi => ?_, hinv.tickets, fun t v h => hinv.values _ h, hdelivers, fun hidle => ?_⟩
  · obtain ⟨l, hperm⟩ : ∃ l, p.active.Perm (i :: l) := by
      obtain ⟨before, after, heq⟩ := List.append_of_mem hi
      exact ⟨before ++ after, heq ▸ List.perm_middle⟩
    obtain ⟨q', out, hexec, -⟩ := (hinv.perm hperm).exec
    rw [hexec]
    rfl
  · unfold Delivers at hdelivers
    rw [hidle] at hinv hdelivers
    obtain ⟨hle, hperm⟩ := hinv.taken_of_idle
    rw [List.filterMap_nil, List.append_nil] at hdelivers
    exact ⟨hle, hdelivers.trans hperm⟩

/-- A pop that comes first waits for a push. -/
def popFirst : List (CallAction Unit (QueueCall Nat)) :=
  [.call (.emplace 7), .call .pop, .move 0 (), .move 0 (), .move 1 (), .move 1 (), .move 1 (),
    .move 1 (), .move 0 (), .move 0 (), .move 0 ()]

theorem mpmc_queue_fifo_popFirst :
    ∃ q p, Queue.new 2 = some q ∧
      run (Calls.step (queueRoutine Nat)) { shared := q } popFirst = some p ∧ p.shared.tail = 1 ∧
      (p.returned.filterMap poppedValue).Perm (p.shared.entered.take 1) := by
  have hany : ((Queue.new 2).bind fun q : Queue Nat =>
      run (Calls.step (queueRoutine Nat)) { shared := q } popFirst).any
        (fun p => p.active = [] ∧ p.shared.tail = 1) = true := by decide
  obtain ⟨p, hbind, hactive, htail⟩ := exists_of_any hany
  obtain ⟨q, hnew, hrun⟩ := Option.bind_eq_some_iff.mp hbind
  obtain ⟨-, -, -, -, hend⟩ := mpmc_queue_fifo hnew hrun
  exact ⟨q, p, hnew, hrun, htail, htail ▸ (hend hactive).2⟩

/-! ## Waiting -/

/-- It is the turn of a pop once the push is done. -/
theorem turn_of_pushDone (hpush : q.PushDone x) (hpop : ¬ q.PopDone x) :
    q.turn x * 2 + 1 = (q.slot x).turn := by
  unfold PushDone Reached at hpush
  unfold PopDone Reached at hpop
  omega

/-- It is the turn of a push once the pop of the round before is done. -/
theorem turn_of_popDone (hpush : ¬ q.PushDone x)
    (hpop : q.capacity ≤ x → q.PopDone (x - q.capacity)) : q.turn x * 2 = (q.slot x).turn := by
  unfold PushDone Reached at hpush
  rcases Nat.lt_or_ge x q.capacity with hlt | hge
  · have hzero : q.turn x = 0 := Nat.div_eq_of_lt hlt
    omega
  · have hdone := hpop hge
    obtain ⟨y, rfl⟩ := Nat.exists_eq_add_of_le' hge
    have hidx : q.idx (y + q.capacity) = q.idx y := Nat.add_mod_right y q.capacity
    have hround : q.turn (y + q.capacity) = q.turn y + 1 := Nat.add_div_right y q.capacity_pos
    rw [Nat.add_sub_cancel] at hdone
    unfold PopDone Reached at hdone
    rw [← slot_congr hidx] at hdone
    omega

/-- The two instructions that can leave everything as it is. -/
theorem waits_of_stuck (h : q.exec i = some (q, .next i)) :
    (∃ head v, i = .emplaceWait head v ∧ q.turn head * 2 ≠ (q.slot head).turn) ∨
      ∃ tail, i = .popWait tail ∧ q.turn tail * 2 + 1 ≠ (q.slot tail).turn := by
  cases i with
  | emplaceWait head v =>
      refine Or.inl ⟨head, v, rfl, fun hturn => ?_⟩
      simp [exec, hturn] at h
  | popWait tail =>
      refine Or.inr ⟨tail, rfl, fun hturn => ?_⟩
      simp [exec, hturn] at h
  | construct head v =>
      simp only [exec] at h
      split at h <;> simp at h
  | tryPopCas tail =>
      simp only [exec] at h
      split at h <;> simp at h
  | tryPopSlot tail =>
      simp only [exec, Option.some.injEq, Prod.mk.injEq, true_and, Outcome.next.injEq] at h
      split at h <;> cases h
  | tryPopAgain prevTail =>
      simp only [exec, Option.some.injEq, Prod.mk.injEq, true_and] at h
      split at h <;> cases h
  | _ => simp [exec] at h

/-- No call under way can go on. -/
def Stuck (q : Queue α) (l : List (QueueInstr α)) : Prop :=
  ∀ i ∈ l, q.exec i = some (q, .next i)

theorem Stuck.push_turn (h : Stuck q l) (hmem : x ∈ l.filterMap pushTicket) :
    q.turn x * 2 ≠ (q.slot x).turn := by
  obtain ⟨i, hi, hx⟩ := List.mem_filterMap.mp hmem
  rcases waits_of_stuck (h i hi) with ⟨head, v, rfl, hturn⟩ | ⟨tail, rfl, -⟩
  · cases hx
    exact hturn
  · cases hx

theorem Stuck.pop_turn (h : Stuck q l) (hmem : x ∈ l.filterMap popTicket) :
    q.turn x * 2 + 1 ≠ (q.slot x).turn := by
  obtain ⟨i, hi, hx⟩ := List.mem_filterMap.mp hmem
  rcases waits_of_stuck (h i hi) with ⟨head, v, rfl, -⟩ | ⟨tail, rfl, hturn⟩
  · cases hx
  · cases hx
    exact hturn

/-- The smallest ticket of a push waits for a pop that is not done. -/
theorem Inv.stuck_push (h : Inv q l) (hstuck : Stuck q l) (hne : l.filterMap pushTicket ≠ []) :
    ∃ x ∈ l.filterMap pushTicket, (∀ y < x, q.PushDone y) ∧ q.capacity ≤ x ∧
      ¬ q.PopDone (x - q.capacity) := by
  obtain ⟨x, hx, hmin⟩ := h.pushes.min hne
  have hturn := hstuck.push_turn hx
  have hnot : ¬ (q.capacity ≤ x → q.PopDone (x - q.capacity)) :=
    fun hpop => hturn (turn_of_popDone ((h.pushes.mem x).mp hx).2 hpop)
  exact ⟨x, hx, hmin, Classical.not_imp.mp hnot⟩

/-- A pop that waits has no value left. -/
theorem Inv.stuck_pop (h : Inv q l) (hstuck : Stuck q l) (hx : x ∈ l.filterMap popTicket) :
    q.head ≤ x := by
  by_contra hlt
  have hlt : x < q.head := Nat.not_le.mp hlt
  obtain ⟨t, ht, hmin⟩ := h.pops.min (List.ne_nil_of_mem hx)
  have htail := ((h.pops.mem t).mp ht)
  have hle : t ≤ x := by
    by_contra hxt
    exact ((h.pops.mem x).mp hx).2 (hmin x (Nat.not_le.mp hxt))
  have hpush : ¬ q.PushDone t :=
    fun hpush => hstuck.pop_turn ht (turn_of_pushDone hpush htail.2)
  have hmem : t ∈ l.filterMap pushTicket := (h.pushes.mem t).mpr ⟨hle.trans_lt hlt, hpush⟩
  -- the smallest push ticket is at most `t`, and waits for a pop before `t`
  obtain ⟨y, -, hdone, hcap, hpop⟩ := h.stuck_push hstuck (List.ne_nil_of_mem hmem)
  have hy : y ≤ t := by
    by_contra hty
    exact hpush (hdone t (Nat.not_le.mp hty))
  have hpos := q.capacity_pos
  exact hpop (hmin _ (by omega))

/-- A push that waits has no slot left. -/
theorem Inv.stuck_full (h : Inv q l) (hstuck : Stuck q l) (hx : x ∈ l.filterMap pushTicket) :
    q.tail + q.capacity ≤ x := by
  obtain ⟨y, hy, hdone, hcap, hpop⟩ := h.stuck_push hstuck (List.ne_nil_of_mem hx)
  have hyx : y ≤ x := by
    by_contra hxy
    exact ((h.pushes.mem x).mp hx).2 (hdone x (Nat.not_le.mp hxy))
  have hpos := q.capacity_pos
  have hhead := ((h.pushes.mem y).mp hy).1
  by_contra hlt
  have hmem : y - q.capacity ∈ l.filterMap popTicket :=
    (h.pops.mem _).mpr ⟨by omega, hpop⟩
  have := h.stuck_pop hstuck hmem
  omega

/-- If no call can go on, the queue is empty and all of them are pops, or it is full and all of them
    are pushes. -/
theorem mpmc_queue_stuck {p : Calls (Queue α) (QueueInstr α) (QueueResult α)} {capacity : Nat}
    {as : List (CallAction Unit (QueueCall α))} (hnew : Queue.new capacity = some q)
    (hrun : run (Calls.step (queueRoutine α)) { shared := q } as = some p)
    (hstuck : ∀ i ∈ p.active, p.shared.exec i = some (p.shared, .next i)) :
    (∀ i ∈ p.active, ∃ t, i = .popWait t ∧ p.shared.head ≤ t) ∨
    (∀ i ∈ p.active, ∃ h v, i = .emplaceWait h v ∧ p.shared.tail + p.shared.capacity ≤ h) := by
  obtain ⟨hinv, -⟩ := inv_run hnew hrun
  have hticket : ∀ {f : QueueInstr α → Option Nat} {i : QueueInstr α} {x : Nat}, i ∈ p.active →
      f i = some x → x ∈ p.active.filterMap f :=
    fun hi hx => List.mem_filterMap.mpr ⟨_, hi, hx⟩
  by_cases hpops : p.active.filterMap popTicket = []
  · refine Or.inr fun i hi => ?_
    rcases waits_of_stuck (hstuck i hi) with ⟨head, v, rfl, -⟩ | ⟨tail, rfl, -⟩
    · exact ⟨head, v, rfl, hinv.stuck_full hstuck (hticket hi rfl)⟩
    · exact absurd (hticket hi rfl) (hpops ▸ List.not_mem_nil)
  · refine Or.inl fun i hi => ?_
    rcases waits_of_stuck (hstuck i hi) with ⟨head, v, rfl, -⟩ | ⟨tail, rfl, -⟩
    · -- a pop without a value and a push without a slot cannot be at once
      obtain ⟨t, ht⟩ := List.exists_mem_of_ne_nil _ hpops
      have hmem := hticket hi (f := pushTicket) rfl
      have hempty := hinv.stuck_pop hstuck ht
      have hfull := hinv.stuck_full hstuck hmem
      have hhead := ((hinv.pushes.mem head).mp hmem).1
      have htail := ((hinv.pops.mem t).mp ht).1
      omega
    · exact ⟨tail, rfl, hinv.stuck_pop hstuck (hticket hi rfl)⟩

theorem mpmc_queue_stuck_pop :
    ∃ q p, Queue.new 2 = some q ∧
      run (Calls.step (queueRoutine Nat)) { shared := q } [.call .pop, .move 0 ()] = some p ∧
      p.active ≠ [] ∧ ∀ i ∈ p.active, ∃ t, i = .popWait t ∧ p.shared.head ≤ t := by
  obtain ⟨q, hnew⟩ : ∃ q : Queue Nat, Queue.new 2 = some q := ⟨_, rfl⟩
  obtain ⟨p, hrun, hactive, hstuck⟩ : ∃ p,
      run (Calls.step (queueRoutine Nat)) { shared := q } [.call .pop, .move 0 ()] = some p ∧
      p.active = [.popWait 0] ∧
      ∀ i ∈ p.active, p.shared.exec i = some (p.shared, .next i) := by
    cases hnew
    exact ⟨_, rfl, rfl, List.forall_mem_singleton.mpr rfl⟩
  refine ⟨q, p, hnew, hrun, by simp [hactive], ?_⟩
  refine (mpmc_queue_stuck hnew hrun hstuck).resolve_right fun hpush => ?_
  obtain ⟨h, v, heq, -⟩ := hpush (.popWait 0) (hactive ▸ List.mem_cons_self)
  cases heq

end Queue

end NeuChain.Common
