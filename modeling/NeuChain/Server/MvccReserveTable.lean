/-
  `MockMVCCReserveTable`: the reserve table over `MVCCHashMap`.

  A key has a list of versions, here table names, each with its register; `get_key_version`
  returns the first match, `insert_key_version_holder` puts a new version in front without
  looking for an old one. The registers are nodes of a `std::list`, whose addresses stay valid.

  `reserveRWSet` looks a register up and inserts it in two critical sections, then runs the loop
  of `MockReserveTable` on what it got: four kinds of steps, interleaved by
  `Lib.runPhase`. `dependencyAnalysis` dereferences what `get_key_version` returns. `none` is that
  dereference when it is null.

  * `Holding`, `Holding.exec`: while no insertion finds an entry of its cell (`FirstInsert`), each
    cell somebody asked for has one register, and the loops still running work on that one.
  * `reservedCells_spec`: one loop of `dependencyAnalysis` finds a register at each cell it
    comes to, and then answers as `MockReserveTable`, or meets a null pointer.
  * `mvcc_agrees_iff`: the two tables agree on a reserved set exactly if each cell it writes was
    read by some set, and each it reads was written by some set, as far as the loops run.
-/
import NeuChain.Server.ConcurrentEpoch
import NeuChain.Lib.HashMap

namespace NeuChain.Server

open NeuChain.Lib

/-! ## The model -/

/-- The register of a version of a key: the first in the key's list. -/
def firstVersion {H : Hashing Bytes} (maps : HashMap H (List (Bytes × Nat))) (key version : Bytes) :
    Option Nat :=
  (maps.find key).bind fun l => (l.find? fun vt => vt.1 == version).map Prod.snd

/-- `MVCCHashMap<N, std::string, std::atomic<tid_size_t>>`: per key its versions with the address
    of their value, the newest first; and the values by address. -/
structure MVCCHashMap (H : Hashing Bytes) where
  maps : HashMap H (List (Bytes × Nat))
  values : Nat → Tid
  allocated : Nat
  fresh : ∀ key version reg, firstVersion maps key version = some reg → reg < allocated
  apart : ∀ key version key' version' reg, firstVersion maps key version = some reg →
    firstVersion maps key' version' = some reg → key = key' ∧ version = version'

namespace MVCCHashMap

variable {H : Hashing Bytes}

def empty : MVCCHashMap H where
  maps := {}
  values := fun _ => 0
  allocated := 0
  fresh := fun _ _ _ h => by cases h
  apart := fun _ _ _ _ _ h => by cases h

def getKeyVersion (m : MVCCHashMap H) (key version : Bytes) : Option Nat :=
  firstVersion m.maps key version

/-- `map[key]`, then `emplace_front` in both branches. -/
def emplaceFront (maps : HashMap H (List (Bytes × Nat))) (key version : Bytes) (reg : Nat) :
    HashMap H (List (Bytes × Nat)) :=
  let l := maps.index key []
  l.2.set key ((version, reg) :: l.1)

theorem firstVersion_emplaceFront (maps : HashMap H (List (Bytes × Nat)))
    (key version key' version' : Bytes) (reg : Nat) :
    firstVersion (emplaceFront maps key version reg) key' version' =
      if key' = key ∧ version' = version then some reg else firstVersion maps key' version' := by
  unfold firstVersion emplaceFront
  rw [HashMap.find_set]
  by_cases hk : key' = key
  · subst hk
    rw [if_pos rfl, Option.bind_some, List.find?_cons, HashMap.index_fst]
    by_cases hv : version' = version
    · subst hv
      simp
    · have hne : (version == version') = false := by simpa using Ne.symm hv
      simp only [hne, hv, and_false, if_false]
      cases maps.find key' <;> rfl
  · rw [if_neg hk, if_neg (fun h => hk h.1), HashMap.find_index, if_neg hk]

/-- The reference it returns, and the map afterwards. -/
def insertKeyVersionHolder (m : MVCCHashMap H) (key version : Bytes) : Nat × MVCCHashMap H :=
  (m.allocated,
    { maps := emplaceFront m.maps key version m.allocated
      values := Function.update m.values m.allocated 0
      allocated := m.allocated + 1
      fresh := by
        intro key' version' reg h
        rw [firstVersion_emplaceFront] at h
        split at h
        · cases h
          exact Nat.lt_succ_self _
        · exact Nat.lt_succ_of_lt (m.fresh _ _ _ h)
      apart := by
        intro k v k' v' reg h h'
        rw [firstVersion_emplaceFront] at h h'
        split at h <;> split at h'
        · rename_i hkv hkv'
          exact ⟨hkv.1.trans hkv'.1.symm, hkv.2.trans hkv'.2.symm⟩
        · cases h
          exact absurd (m.fresh _ _ _ h') (Nat.lt_irrefl _)
        · cases h'
          exact absurd (m.fresh _ _ _ h) (Nat.lt_irrefl _)
        · exact m.apart _ _ _ _ _ h h' })

def setValue (m : MVCCHashMap H) (reg : Nat) (tid : Tid) : MVCCHashMap H :=
  { m with values := Function.update m.values reg tid }

/-- A loop of `dependencyAnalysis`: stop at the first cell a smaller id has reserved. -/
def reservedCells (m : MVCCHashMap H) (tid : Tid) : List Cell → Option Bool
  | [] => some false
  | c :: cs =>
      match m.getKeyVersion c.2 c.1 with
      | none => none
      | some reg =>
          if m.values reg < tid ∧ m.values reg ≠ 0 then some true else m.reservedCells tid cs

end MVCCHashMap

structure MockMVCCReserveTable (H : Hashing Bytes) where
  epoch : Epoch
  readTable : MVCCHashMap H := .empty
  writeTable : MVCCHashMap H := .empty

namespace MockMVCCReserveTable

variable {H : Hashing Bytes}

def table (t : MockMVCCReserveTable H) : Side → MVCCHashMap H
  | .read => t.readTable
  | .write => t.writeTable

def setTable (t : MockMVCCReserveTable H) (side : Side) (m : MVCCHashMap H) :
    MockMVCCReserveTable H :=
  match side with
  | .read => { t with readTable := m }
  | .write => { t with writeTable := m }

def pointer (t : MockMVCCReserveTable H) (side : Side) (c : Cell) : Option Nat :=
  (t.table side).getKeyVersion c.2 c.1

def dependencyAnalysis (t : MockMVCCReserveTable H) (rw : KVRWSet) (tid : Tid) :
    Option TransactionDependency := do
  let waw ← t.writeTable.reservedCells tid (rw.writes.map KVWrite.cell)
  let war ← t.readTable.reservedCells tid (rw.writes.map KVWrite.cell)
  let raw ← t.writeTable.reservedCells tid (rw.reads.map KVRead.cell)
  return { waw := waw, war := war, raw := raw }

end MockMVCCReserveTable

/-- The steps of `reserveRWSet` for one read or write. `reg` is the pointer it goes on with. -/
inductive ReserveInstr where
  | getKeyVersion (r : Request)
  | insertKeyVersionHolder (r : Request)
  | load (r : Request) (reg : Nat)
  | compareExchange (r : Request) (reg : Nat) (old : Tid)
deriving DecidableEq, Repr

def execReserve {H : Hashing Bytes} (t : MockMVCCReserveTable H) (i : ReserveInstr)
    (spurious : Bool) : Option (MockMVCCReserveTable H × List ReserveInstr) :=
  match i with
  | .getKeyVersion r =>
      match t.pointer r.side r.cell with
      | none => some (t, [.insertKeyVersionHolder r])
      | some reg => some (t, [.load r reg])
  | .insertKeyVersionHolder r =>
      let holder := (t.table r.side).insertKeyVersionHolder r.cell.2 r.cell.1
      some (t.setTable r.side holder.2, [.load r holder.1])
  | .load r reg => some (t, [.compareExchange r reg ((t.table r.side).values reg)])
  | .compareExchange r reg old =>
      let turn := casLoop ((t.table r.side).values reg) old r.tid spurious
      some (t.setTable r.side ((t.table r.side).setValue reg turn.1),
        turn.2.toList.map (.compareExchange r reg))

/-- A set to be reserved, with the id of its transaction. -/
abbrev ReserveJob := KVRWSet × Tid

def requestsOf (jobs : List ReserveJob) : List Request :=
  jobs.flatMap fun j => reserveRequests j.1 j.2

/-- A thread that reserves its sets one after the other. -/
def reserveProgram (jobs : List ReserveJob) : List ReserveInstr :=
  (requestsOf jobs).map .getKeyVersion

/-- `MockReserveTable` after the same calls, one after the other. -/
def MockReserveTable.reserveAll (rt : MockReserveTable) (jobs : List ReserveJob) :
    MockReserveTable :=
  jobs.foldl (fun rt j => rt.reserveRWSet j.1 j.2) rt

/-- The step is not an insertion, or its cell has no entry yet: no other thread has
    inserted one since the lookup. -/
def FirstInsert {H : Hashing Bytes} (p : Pool (MockMVCCReserveTable H) ReserveInstr)
    (a : Nat × Bool) : Prop :=
  match p.threads[a.1]? with
  | some (.insertKeyVersionHolder r :: _) => p.shared.pointer r.side r.cell = none
  | _ => True

instance {H : Hashing Bytes} (p : Pool (MockMVCCReserveTable H) ReserveInstr) (a : Nat × Bool) :
    Decidable (FirstInsert p a) := by
  unfold FirstInsert
  split <;> infer_instance

/-! ## Registers -/

section Registers

variable {H : Hashing Bytes} {t : MockMVCCReserveTable H} {side side' : Side} {c c' : Cell}
  {reg : Nat}

@[simp] theorem setTable_self (t : MockMVCCReserveTable H) (side : Side) (m : MVCCHashMap H) :
    (t.setTable side m).table side = m := by
  cases side <;> rfl

theorem setTable_of_ne {m : MVCCHashMap H} (h : side' ≠ side) :
    (t.setTable side m).table side' = t.table side' := by
  cases side <;> cases side' <;> first | rfl | exact absurd rfl h

theorem pointer_setTable {m : MVCCHashMap H} : (t.setTable side m).pointer side' c' =
    if side' = side then m.getKeyVersion c'.2 c'.1 else t.pointer side' c' := by
  unfold MockMVCCReserveTable.pointer
  by_cases hs : side' = side
  · subst hs
    rw [if_pos rfl, setTable_self]
  · rw [if_neg hs, setTable_of_ne hs]

/-- A pointer leads to the register of one cell. -/
theorem pointer_apart (h : t.pointer side c = some reg) (h' : t.pointer side c' = some reg) :
    c = c' := by
  obtain ⟨hkey, hversion⟩ := (t.table side).apart _ _ _ _ _ h h'
  exact Prod.ext hversion hkey

theorem pointer_setValue (tid : Tid) :
    (t.setTable side ((t.table side).setValue reg tid)).pointer side' c' = t.pointer side' c' := by
  rw [pointer_setTable]
  split
  · rename_i hs
    subst hs
    rfl
  · rfl

theorem pointer_insert :
    (t.setTable side ((t.table side).insertKeyVersionHolder c.2 c.1).2).pointer side' c' =
      if side' = side ∧ c' = c then some (t.table side).allocated else t.pointer side' c' := by
  rw [pointer_setTable]
  by_cases hs : side' = side
  · subst hs
    rw [if_pos rfl]
    have hcell : (c'.2 = c.2 ∧ c'.1 = c.1) ↔ (side' = side' ∧ c' = c) :=
      ⟨fun h => ⟨rfl, Prod.ext h.2 h.1⟩, fun h => ⟨by rw [h.2], by rw [h.2]⟩⟩
    refine (MVCCHashMap.firstVersion_emplaceFront _ _ _ _ _ _).trans ?_
    simp only [hcell]
    rfl
  · rw [if_neg hs, if_neg (fun h => hs h.1)]

/-- The value of the register a cell has. -/
def MockMVCCReserveTable.Shows (t : MockMVCCReserveTable H) (side : Side) (c : Cell) (tid : Tid) :
    Prop :=
  ∃ reg, t.pointer side c = some reg ∧ (t.table side).values reg = tid

theorem shows_unique {v w : Tid} (h : t.Shows side c v) (h' : t.Shows side c w) : v = w := by
  obtain ⟨reg, hreg, rfl⟩ := h
  obtain ⟨reg', hreg', rfl⟩ := h'
  rw [hreg] at hreg'
  cases hreg'
  rfl

/-- A new register shows 0, and no other changes. -/
theorem shows_insert {v : Tid} :
    (t.setTable side ((t.table side).insertKeyVersionHolder c.2 c.1).2).Shows side' c' v ↔
      if side' = side ∧ c' = c then v = 0 else t.Shows side' c' v := by
  unfold MockMVCCReserveTable.Shows
  rw [pointer_insert]
  by_cases hs : side' = side
  · subst hs
    rw [setTable_self]
    simp only [MVCCHashMap.insertKeyVersionHolder]
    by_cases hc : c' = c
    · simp [hc, eq_comm]
    · rw [if_neg (fun h => hc h.2), if_neg (fun h => hc h.2)]
      refine exists_congr fun reg => and_congr_right fun hreg => ?_
      have hlt := (t.table side').fresh _ _ _ hreg
      rw [Function.update_of_ne (Nat.ne_of_lt hlt)]
  · rw [if_neg (fun h => hs h.1), if_neg (fun h => hs h.1), setTable_of_ne hs]

/-- Writing through the pointer of a cell changes what that cell shows, and no other. -/
theorem shows_setValue {tid v : Tid} (h : t.pointer side c = some reg) :
    (t.setTable side ((t.table side).setValue reg tid)).Shows side' c' v ↔
      if side' = side ∧ c' = c then v = tid else t.Shows side' c' v := by
  unfold MockMVCCReserveTable.Shows
  rw [pointer_setValue]
  by_cases hs : side' = side
  · subst hs
    rw [setTable_self]
    by_cases hc : c' = c
    · subst hc
      simp [h, MVCCHashMap.setValue, eq_comm]
    · rw [if_neg (fun h => hc h.2)]
      refine exists_congr fun reg' => and_congr_right fun hreg' => ?_
      have hne : reg' ≠ reg := by
        rintro rfl
        exact hc (pointer_apart hreg' h)
      simp only [MVCCHashMap.setValue]
      rw [Function.update_of_ne hne]
  · rw [if_neg (fun h => hs h.1), setTable_of_ne hs]

end Registers

/-! ## Reserving -/

section Reserving

variable {H : Hashing Bytes} {t t' : MockMVCCReserveTable H} {R : List Request} {r : Request}
  {i : ReserveInstr} {is is' js next : List ReserveInstr} {spurious : Bool}

/-- The request a step belongs to. -/
def ReserveInstr.request : ReserveInstr → Request
  | .getKeyVersion r => r
  | .insertKeyVersionHolder r => r
  | .load r _ => r
  | .compareExchange r _ _ => r

/-- The pointer it holds. -/
def ReserveInstr.holds : ReserveInstr → Option Nat
  | .load _ reg => some reg
  | .compareExchange _ reg _ => some reg
  | _ => none

/-- What a step for request `r` may do to the table. -/
structure Serves (r : Request) (t t' : MockMVCCReserveTable H) : Prop where
  keeps : ∀ side c reg, t.pointer side c = some reg → t'.pointer side c = some reg
  inserts : ∀ side c, t'.pointer side c ≠ none →
    t.pointer side c ≠ none ∨ (side = r.side ∧ c = r.cell)
  lowers : ∀ side c v, t.Shows side c v → ∃ v', t'.Shows side c v' ∧ Seen v' v
  takes : ∀ side c v, t'.Shows side c v → v ≠ 0 →
    t.Shows side c v ∨ { side := side, cell := c, tid := v } = r

theorem Serves.refl (r : Request) (t : MockMVCCReserveTable H) : Serves r t t :=
  ⟨fun _ _ _ h => h, fun _ _ h => Or.inl h, fun _ _ v h => ⟨v, h, seen_self⟩,
    fun _ _ _ h _ => Or.inl h⟩

theorem serves_insert (h : t.pointer r.side r.cell = none) :
    Serves r t
      (t.setTable r.side ((t.table r.side).insertKeyVersionHolder r.cell.2 r.cell.1).2) := by
  have hne : ∀ {side c reg}, t.pointer side c = some reg → ¬ (side = r.side ∧ c = r.cell) := by
    rintro side c reg hp ⟨rfl, rfl⟩
    rw [h] at hp
    cases hp
  refine ⟨?_, ?_, ?_, ?_⟩
  · intro side c reg hp
    rw [pointer_insert, if_neg (hne hp)]
    exact hp
  · intro side c hp
    rw [pointer_insert] at hp
    split at hp
    · rename_i hsame
      exact Or.inr hsame
    · exact Or.inl hp
  · intro side c v hv
    refine ⟨v, shows_insert.mpr ?_, seen_self⟩
    obtain ⟨reg, hp, -⟩ := id hv
    rw [if_neg (hne hp)]
    exact hv
  · intro side c v hv hv0
    replace hv := shows_insert.mp hv
    split at hv
    · exact absurd hv hv0
    · exact Or.inl hv

theorem serves_turn {reg : Nat} {old : Tid} (hr : r.tid ≠ 0)
    (h : t.pointer r.side r.cell = some reg) :
    Serves r t (t.setTable r.side ((t.table r.side).setValue reg
      (casLoop ((t.table r.side).values reg) old r.tid spurious).1)) := by
  have hself : t.Shows r.side r.cell ((t.table r.side).values reg) := ⟨reg, h, rfl⟩
  refine ⟨?_, ?_, ?_, ?_⟩
  · intro side c reg' hp
    rw [pointer_setValue]
    exact hp
  · intro side c hp
    rw [pointer_setValue] at hp
    exact Or.inl hp
  · intro side c v hv
    by_cases hsame : side = r.side ∧ c = r.cell
    · obtain ⟨rfl, rfl⟩ := hsame
      obtain rfl := shows_unique hv hself
      exact ⟨_, (shows_setValue h).mpr (by rw [if_pos ⟨rfl, rfl⟩]), seen_self.turn hr⟩
    · exact ⟨v, (shows_setValue h).mpr (by rw [if_neg hsame]; exact hv), seen_self⟩
  · intro side c v hv hv0
    replace hv := (shows_setValue h).mp hv
    by_cases hsame : side = r.side ∧ c = r.cell
    · rw [if_pos hsame] at hv
      obtain ⟨rfl, rfl⟩ := hsame
      rcases casLoop_fst ((t.table r.side).values reg) old r.tid spurious with hfst | ⟨hfst, -⟩
      · left
        rw [hv, hfst]
        exact hself
      · right
        rw [hv, hfst]
    · rw [if_neg hsame] at hv
      exact Or.inl hv

/-- A cell has a register only if it was asked for, showing an id that asked. A request that
    no step is left for has been served by the register of its cell, and the steps left
    work on the registers their cells have. -/
structure Holding (R : List Request) (t : MockMVCCReserveTable H) (is : List ReserveInstr) :
    Prop where
  inserted : ∀ side c, t.pointer side c ≠ none → ∃ r ∈ R, r.side = side ∧ r.cell = c
  taken : ∀ side c v, t.Shows side c v → v ≠ 0 → { side := side, cell := c, tid := v } ∈ R
  asked : ∀ i ∈ is, i.request ∈ R
  held : ∀ r ∈ R, (∃ i ∈ is, i.request = r) ∨
    ∃ v, t.Shows r.side r.cell v ∧ v ≠ 0 ∧ v ≤ r.tid
  found : ∀ i ∈ is, ∀ reg ∈ i.holds, t.pointer i.request.side i.request.cell = some reg
  seen : ∀ r reg old, .compareExchange r reg old ∈ is → Seen ((t.table r.side).values reg) old

theorem Holding.perm (hp : is.Perm is') (h : Holding R t is) : Holding R t is' := by
  refine ⟨h.inserted, h.taken, fun i hi => h.asked i (hp.mem_iff.mpr hi), ?_,
    fun i hi => h.found i (hp.mem_iff.mpr hi),
    fun r reg old hm => h.seen r reg old (hp.mem_iff.mpr hm)⟩
  intro r hr
  rcases h.held r hr with ⟨i, hi, hri⟩ | hheld
  · exact Or.inl ⟨i, hp.mem_iff.mp hi, hri⟩
  · exact Or.inr hheld

/-- A step that serves its own request, and either goes on with it or has finished it. -/
theorem Holding.advance (h : Holding R t (i :: js)) (hs : Serves i.request t t')
    (hreq : ∀ j ∈ next, j.request = i.request)
    (hdone : next ≠ [] ∨ ∃ v, t'.Shows i.request.side i.request.cell v ∧ v ≠ 0 ∧ v ≤ i.request.tid)
    (hfound : ∀ j ∈ next, ∀ reg ∈ j.holds,
      t'.pointer i.request.side i.request.cell = some reg)
    (hseen : ∀ r reg old, .compareExchange r reg old ∈ next →
      Seen ((t'.table r.side).values reg) old) : Holding R t' (next ++ js) := by
  have hi : i.request ∈ R := h.asked i List.mem_cons_self
  refine ⟨?_, ?_, ?_, ?_, ?_, ?_⟩
  · intro side c hp
    rcases hs.inserts side c hp with hp | ⟨rfl, rfl⟩
    · exact h.inserted side c hp
    · exact ⟨i.request, hi, rfl, rfl⟩
  · intro side c v hv hv0
    rcases hs.takes side c v hv hv0 with hv | hr
    · exact h.taken side c v hv hv0
    · rw [hr]
      exact hi
  · intro j hj
    rcases List.mem_append.mp hj with hj | hj
    · rw [hreq j hj]
      exact hi
    · exact h.asked j (List.mem_cons_of_mem _ hj)
  · intro r hr
    rcases h.held r hr with ⟨j, hj, rfl⟩ | ⟨v, hv, hv0, hle⟩
    · rcases List.mem_cons.mp hj with rfl | hj
      · rcases hdone with hne | hserved
        · obtain ⟨j', next', rfl⟩ := List.exists_cons_of_ne_nil hne
          exact Or.inl ⟨j', by simp, hreq j' List.mem_cons_self⟩
        · exact Or.inr hserved
      · exact Or.inl ⟨j, List.mem_append_right _ hj, rfl⟩
    · right
      obtain ⟨v', hv', hlow⟩ := hs.lowers _ _ v hv
      obtain ⟨hv0', hle'⟩ := hlow hv0
      exact ⟨v', hv', hv0', Nat.le_trans hle' hle⟩
  · intro j hj reg hreg
    rcases List.mem_append.mp hj with hj | hj
    · rw [hreq j hj]
      exact hfound j hj reg hreg
    · exact hs.keeps _ _ reg (h.found j (List.mem_cons_of_mem _ hj) reg hreg)
  · intro r reg old hm
    rcases List.mem_append.mp hm with hm | hm
    · exact hseen r reg old hm
    · have hp : t.pointer r.side r.cell = some reg :=
        h.found _ (List.mem_cons_of_mem _ hm) reg rfl
      intro hold
      obtain ⟨hv0, hle⟩ := h.seen r reg old (List.mem_cons_of_mem _ hm) hold
      obtain ⟨v', ⟨reg', hp', rfl⟩, hlow⟩ := hs.lowers _ _ _ ⟨reg, hp, rfl⟩
      cases (hs.keeps _ _ _ hp).symm.trans hp'
      obtain ⟨hv0', hle'⟩ := hlow hv0
      exact ⟨hv0', Nat.le_trans hle' hle⟩

theorem Holding.exec (hR : ∀ r ∈ R, r.tid ≠ 0) (h : Holding R t (i :: js))
    (hfirst : ∀ r, i = .insertKeyVersionHolder r → t.pointer r.side r.cell = none)
    (hex : execReserve t i spurious = some (t', next)) : Holding R t' (next ++ js) := by
  cases i with
  | getKeyVersion r =>
      unfold execReserve at hex
      cases hp : t.pointer r.side r.cell with
      | none =>
          simp only [hp] at hex
          cases hex
          refine h.advance (Serves.refl _ _) ?_ (Or.inl (by simp)) ?_ ?_ <;>
            simp [ReserveInstr.request, ReserveInstr.holds]
      | some reg =>
          simp only [hp] at hex
          cases hex
          refine h.advance (Serves.refl _ _) ?_ (Or.inl (by simp)) ?_ ?_
          · simp [ReserveInstr.request]
          · simpa [ReserveInstr.request, ReserveInstr.holds] using hp
          · simp
  | insertKeyVersionHolder r =>
      cases hex
      refine h.advance (serves_insert (hfirst r rfl)) ?_ (Or.inl (by simp)) ?_ ?_
      · simp [ReserveInstr.request]
      · intro j hj reg hreg
        cases List.mem_singleton.mp hj
        cases hreg
        exact pointer_insert.trans (if_pos ⟨rfl, rfl⟩)
      · simp
  | load r reg =>
      cases hex
      have hp : t.pointer r.side r.cell = some reg := h.found _ List.mem_cons_self reg rfl
      refine h.advance (Serves.refl _ _) ?_ (Or.inl (by simp)) ?_ ?_
      · simp [ReserveInstr.request]
      · simpa [ReserveInstr.request, ReserveInstr.holds] using hp
      · intro r' reg' old hm
        cases List.mem_singleton.mp hm
        exact seen_self
  | compareExchange r reg old =>
      have hp : t.pointer r.side r.cell = some reg := h.found _ List.mem_cons_self reg rfl
      have hr : r.tid ≠ 0 := hR r (h.asked _ List.mem_cons_self)
      have hseen := h.seen r reg old List.mem_cons_self
      cases hex
      have hnow : (t.setTable r.side ((t.table r.side).setValue reg
          (casLoop ((t.table r.side).values reg) old r.tid spurious).1)).Shows r.side r.cell
          (casLoop ((t.table r.side).values reg) old r.tid spurious).1 :=
        (shows_setValue hp).mpr (by rw [if_pos ⟨rfl, rfl⟩])
      refine h.advance (serves_turn hr hp) ?_ ?_ ?_ ?_
      · intro j hj
        obtain ⟨old', -, rfl⟩ := List.mem_map.mp hj
        rfl
      · cases hd : (casLoop ((t.table r.side).values reg) old r.tid spurious).2 with
        | none => exact Or.inr ⟨_, hnow, casLoop_done hr hseen hd⟩
        | some old' => exact Or.inl (by simp)
      · intro j hj reg' hreg'
        obtain ⟨old', -, rfl⟩ := List.mem_map.mp hj
        cases hreg'
        rw [pointer_setValue]
        exact hp
      · intro r' reg' old' hm
        obtain ⟨old'', hold, heq⟩ := List.mem_map.mp hm
        cases heq
        obtain ⟨hfst, rfl⟩ := casLoop_retry (Option.mem_toList.mp hold)
        rw [setTable_self, hfst]
        simp only [MVCCHashMap.setValue, Function.update_self]
        exact seen_self

/-- However the threads interleave, as long as no two insert the same cell. -/
theorem Holding.run {jobs : List (List ReserveJob)} {as : List (Nat × Bool)}
    (hR : ∀ r ∈ requestsOf jobs.flatten, r.tid ≠ 0)
    (hfirst : Meets (Pool.step execReserve) FirstInsert
      { shared := t, threads := jobs.map reserveProgram } as)
    (h0 : Holding (requestsOf jobs.flatten) t (jobs.map reserveProgram).flatten)
    (hrun : runPhase execReserve t (jobs.map reserveProgram) as = some t') :
    Holding (requestsOf jobs.flatten) t' [] := by
  obtain ⟨p, hend, hidle, rfl⟩ := runPhase_eq_some.mp hrun
  rw [← hidle.flatten_eq_nil]
  refine run_invariant_of_meets FirstInsert
    (fun p => Holding (requestsOf jobs.flatten) p.shared p.threads.flatten) ?_ hend hfirst h0
  rintro ⟨s, threads⟩ a p' hinv hC hstep
  obtain ⟨before, i, rest, after, s', next, hth, hlen, hex, rfl⟩ := step_cases hstep
  cases hth
  refine Holding.perm (flatten_thread_perm before after next rest).symm
    (Holding.exec hR (hinv.perm (flatten_thread_perm before after [i] rest)) ?_ hex)
  rintro r rfl
  simpa [FirstInsert, ← hlen] using hC

/-- At the start nobody has a register, and everybody asks. -/
theorem Holding.start (epoch : Epoch) (jobs : List (List ReserveJob)) :
    Holding (requestsOf jobs.flatten) ({ epoch := epoch } : MockMVCCReserveTable H)
      (jobs.map reserveProgram).flatten := by
  have hprogram : (jobs.map reserveProgram).flatten =
      (requestsOf jobs.flatten).map .getKeyVersion := by
    induction jobs with
    | nil => rfl
    | cons l jobs ih =>
        rw [List.map_cons, List.flatten_cons, ih]
        simp [reserveProgram, requestsOf]
  have hnone : ∀ side c, ({ epoch := epoch } : MockMVCCReserveTable H).pointer side c = none := by
    intro side c
    cases side <;> rfl
  rw [hprogram]
  refine ⟨fun side c hp => absurd (hnone side c) hp, ?_, ?_, ?_, ?_, ?_⟩
  · rintro side c v ⟨reg, hp, -⟩
    rw [hnone] at hp
    cases hp
  · intro i hi
    obtain ⟨r, hr, rfl⟩ := List.mem_map.mp hi
    exact hr
  · intro r hr
    exact Or.inl ⟨.getKeyVersion r, List.mem_map_of_mem hr, rfl⟩
  · intro i hi reg hreg
    obtain ⟨r, -, rfl⟩ := List.mem_map.mp hi
    cases hreg
  · intro r reg old hm
    obtain ⟨r', -, heq⟩ := List.mem_map.mp hm
    cases heq

/-- The ids that ask for a register. -/
def offers (R : List Request) (side : Side) (c : Cell) : Set Nat :=
  {tid | { side := side, cell := c, tid := tid } ∈ R}

theorem mem_offers {side : Side} {c : Cell} {n : Nat} :
    n ∈ offers R side c ↔ { side := side, cell := c, tid := n } ∈ R := Iff.rfl

/-- At the end a cell that was asked for has a register, which shows the smallest id. -/
theorem Holding.finish (h : Holding R t []) (side : Side) (c : Cell) :
    (t.pointer side c = none ∧ offers R side c = ∅) ∨
      ∃ v, t.Shows side c v ∧ (offers R side c).Nonempty ∧ Least (offers R side c) v := by
  have hheld : ∀ n ∈ offers R side c, ∃ v, t.Shows side c v ∧ v ≠ 0 ∧ v ≤ n := by
    intro n hn
    refine (h.held _ hn).resolve_left ?_
    rintro ⟨i, hi, -⟩
    cases hi
  cases hp : t.pointer side c with
  | none =>
      left
      refine ⟨rfl, Set.eq_empty_of_forall_notMem fun n hn => ?_⟩
      obtain ⟨v, ⟨reg, hreg, -⟩, -⟩ := hheld n hn
      rw [hp] at hreg
      cases hreg
  | some reg =>
      right
      have hv : t.Shows side c ((t.table side).values reg) := ⟨reg, hp, rfl⟩
      obtain ⟨r, hr, rfl, rfl⟩ := h.inserted side c (by rw [hp]; simp)
      refine ⟨_, hv, ⟨r.tid, hr⟩, least_of_bounds (h.taken _ _ _ hv) ?_⟩
      intro n hn
      obtain ⟨v, hv', hle⟩ := hheld n hn
      rw [shows_unique hv hv']
      exact hle

end Reserving

/-! ## Analysis -/

/-- As far as a loop of `dependencyAnalysis` for `tid` runs over `cs`, somebody has asked for the
    cell. It runs up to the first cell a smaller id asked for. -/
def AskedFor (R : List Request) (side : Side) (tid : Tid) (cs : List Cell) : Prop :=
  ∀ before c after, cs = before ++ c :: after →
    (∀ d ∈ before, ∀ n ∈ offers R side d, tid ≤ n) → (offers R side c).Nonempty

section Analysis

variable {H : Hashing Bytes} {t : MockMVCCReserveTable H} {R : List Request} {side : Side}
  {tid : Tid} {c : Cell} {cs : List Cell}

theorem askedFor_nil : AskedFor R side tid [] := by
  intro before c after h
  cases before <;> cases h

theorem AskedFor.head (h : AskedFor R side tid (c :: cs)) : (offers R side c).Nonempty :=
  h [] c cs rfl (by simp)

/-- The loop stops at `c`. -/
theorem askedFor_cons_of_lt {n : Tid} (hn : n ∈ offers R side c) (hlt : n < tid) :
    AskedFor R side tid (c :: cs) := by
  intro before d after h hbefore
  cases before with
  | nil =>
      cases h
      exact ⟨n, hn⟩
  | cons c' before =>
      cases h
      exact absurd (hbefore c List.mem_cons_self n hn) (Nat.not_le_of_lt hlt)

/-- The loop goes on. -/
theorem askedFor_cons_of_le (hne : (offers R side c).Nonempty)
    (hle : ∀ n ∈ offers R side c, tid ≤ n) :
    AskedFor R side tid (c :: cs) ↔ AskedFor R side tid cs := by
  constructor
  · intro h before d after hcs hbefore
    refine h (c :: before) d after (by rw [hcs]; rfl) ?_
    intro d' hd' n hn
    rcases List.mem_cons.mp hd' with rfl | hd'
    · exact hle n hn
    · exact hbefore d' hd' n hn
  · intro h before d after hcs hbefore
    cases before with
    | nil =>
        cases hcs
        exact hne
    | cons c' before =>
        cases hcs
        exact h before d after rfl fun d' hd' => hbefore d' (List.mem_cons_of_mem _ hd')

/-- A loop answers as the one of `MockReserveTable`, or meets a null pointer. -/
theorem reservedCells_spec {reg : Cell → Tid} (h : Holding R t []) (h0 : ∀ r ∈ R, r.tid ≠ 0)
    (hreg : ∀ c, Least (offers R side c) (reg c)) (tid : Tid) (cs : List Cell) :
    (AskedFor R side tid cs →
        (t.table side).reservedCells tid cs = some (cs.any (reservedBefore reg tid))) ∧
      (¬ AskedFor R side tid cs → (t.table side).reservedCells tid cs = none) := by
  induction cs with
  | nil => exact ⟨fun _ => rfl, fun hno => absurd askedFor_nil hno⟩
  | cons c cs ih =>
      rcases h.finish side c with ⟨hp, hempty⟩ | ⟨v, ⟨a, hp, hv⟩, hne, hleast⟩
      · have hloop : (t.table side).reservedCells tid (c :: cs) = none := by
          unfold MVCCHashMap.reservedCells
          rw [show (t.table side).getKeyVersion c.2 c.1 = none from hp]
        refine ⟨fun hasked => ?_, fun _ => hloop⟩
        exact absurd hasked.head (by rw [hempty]; exact Set.not_nonempty_empty)
      · have hzero : (0 : Nat) ∉ offers R side c := fun hm => h0 _ hm rfl
        have hloop : (t.table side).reservedCells tid (c :: cs) =
            if v < tid ∧ v ≠ 0 then some true else (t.table side).reservedCells tid cs := by
          rw [MVCCHashMap.reservedCells,
            show (t.table side).getKeyVersion c.2 c.1 = some a from hp]
          simp only [hv]
        have hmock : reservedBefore reg tid c = decide (v < tid ∧ v ≠ 0) := by
          unfold reservedBefore
          rw [(hreg c).unique hleast, Bool.decide_and]
        rw [hloop, List.any_cons, hmock]
        by_cases hhit : v < tid ∧ v ≠ 0
        · obtain ⟨n, hn, hlt⟩ := (hleast.lt_iff hzero).mp hhit
          rw [if_pos hhit, decide_eq_true hhit, Bool.true_or]
          exact ⟨fun _ => rfl, fun hno => absurd (askedFor_cons_of_lt hn hlt) hno⟩
        · have hle : ∀ n ∈ offers R side c, tid ≤ n := by
            intro n hn
            by_contra hlt
            exact hhit ((hleast.lt_iff hzero).mpr ⟨n, hn, Nat.lt_of_not_le hlt⟩)
          rw [if_neg hhit, decide_eq_false hhit, Bool.false_or, askedFor_cons_of_le hne hle]
          exact ih

end Analysis

/-! ## The two tables -/

section Agreement

variable {H : Hashing Bytes}

theorem requestsOf_tid {jobs : List ReserveJob} (h : ∀ j ∈ jobs, 1 ≤ j.2) :
    ∀ r ∈ requestsOf jobs, r.tid ≠ 0 := by
  intro r hr
  obtain ⟨j, hj, hr⟩ := List.mem_flatMap.mp hr
  rw [(mem_reserveRequests.mp hr).1]
  exact Nat.ne_of_gt (h j hj)

theorem ShowsLeast.reserveAll {rt : MockReserveTable} {R : List Request} {jobs : List ReserveJob}
    (h : ShowsLeast rt R) (h0 : ∀ j ∈ jobs, 1 ≤ j.2) :
    ShowsLeast (rt.reserveAll jobs) (R ++ requestsOf jobs) := by
  induction jobs generalizing rt R with
  | nil => simpa [requestsOf, MockReserveTable.reserveAll] using h
  | cons j jobs ih =>
      have hj : ShowsLeast (rt.reserveRWSet j.1 j.2) (R ++ reserveRequests j.1 j.2) :=
        h.reserveRWSet (Nat.ne_of_gt (h0 j List.mem_cons_self))
      have hrest := ih hj fun k hk => h0 k (List.mem_cons_of_mem _ hk)
      rw [List.append_assoc] at hrest
      exact hrest

/-- What a reserved set writes has been asked for in the write table. -/
theorem askedFor_writes {jobs : List ReserveJob} {j : ReserveJob} (hj : j ∈ jobs) (tid : Tid) :
    AskedFor (requestsOf jobs) .write tid (j.1.writes.map KVWrite.cell) := by
  intro before c after hcs _
  refine ⟨j.2, List.mem_flatMap.mpr ⟨j, hj, mem_reserveRequests.mpr ⟨rfl, Or.inr ⟨rfl, ?_⟩⟩⟩⟩
  rw [hcs]
  simp

/-- Sets reserved by any number of threads, no two of which insert the same cell, against
    `MockReserveTable` after the same sets in any order. The answers on a reserved set are the
    same if each cell it writes was read, and each cell it reads was written, as far as the
    loops run; otherwise a null pointer is dereferenced. -/
theorem mvcc_agrees_iff (epoch : Epoch) (jobs : List (List ReserveJob)) (order : List ReserveJob)
    (horder : order.Perm jobs.flatten) (htid : ∀ j ∈ jobs.flatten, 1 ≤ j.2)
    (as : List (Nat × Bool)) (t : MockMVCCReserveTable H)
    (hrun : runPhase execReserve { epoch := epoch } (jobs.map reserveProgram) as = some t)
    (hfirst : Meets (Pool.step execReserve) FirstInsert
      { shared := ({ epoch := epoch } : MockMVCCReserveTable H)
        threads := jobs.map reserveProgram } as)
    (j : ReserveJob) (hj : j ∈ jobs.flatten) :
    (AskedFor (requestsOf jobs.flatten) .read j.2 (j.1.writes.map KVWrite.cell) ∧
        AskedFor (requestsOf jobs.flatten) .write j.2 (j.1.reads.map KVRead.cell) →
      t.dependencyAnalysis j.1 j.2 =
        some ((({ epoch := epoch } : MockReserveTable).reserveAll order).dependencyAnalysis
          j.1 j.2)) ∧
    (¬ (AskedFor (requestsOf jobs.flatten) .read j.2 (j.1.writes.map KVWrite.cell) ∧
        AskedFor (requestsOf jobs.flatten) .write j.2 (j.1.reads.map KVRead.cell)) →
      t.dependencyAnalysis j.1 j.2 = none) := by
  have h0 := requestsOf_tid htid
  have hend : Holding (requestsOf jobs.flatten) t [] :=
    Holding.run h0 hfirst (Holding.start epoch jobs) hrun
  have hmock : ShowsLeast (({ epoch := epoch } : MockReserveTable).reserveAll order)
      (requestsOf jobs.flatten) :=
    (showsLeast_new.reserveAll fun k hk => htid k (horder.mem_iff.mp hk)).congr fun r => by
      rw [List.nil_append]
      exact (horder.flatMap_right _).mem_iff
  have hwaw := reservedCells_spec hend h0 (hmock .write) j.2 (j.1.writes.map KVWrite.cell)
  have hwar := reservedCells_spec hend h0 (hmock .read) j.2 (j.1.writes.map KVWrite.cell)
  have hraw := reservedCells_spec hend h0 (hmock .write) j.2 (j.1.reads.map KVRead.cell)
  have hwaw := hwaw.1 (askedFor_writes hj j.2)
  unfold MockMVCCReserveTable.dependencyAnalysis
  constructor
  · rintro ⟨hread, hwrite⟩
    rw [show t.writeTable = t.table .write from rfl, show t.readTable = t.table .read from rfl,
      hwaw, hwar.1 hread, hraw.1 hwrite]
    rfl
  · intro hno
    rw [show t.writeTable = t.table .write from rfl, show t.readTable = t.table .read from rfl,
      hwaw]
    by_cases hread : AskedFor (requestsOf jobs.flatten) .read j.2 (j.1.writes.map KVWrite.cell)
    · rw [hwar.1 hread, hraw.2 fun hwrite => hno ⟨hread, hwrite⟩]
      rfl
    · rw [hwar.2 hread]
      rfl

end Agreement

/-! ### Runs -/

/-- A set that reads and writes one cell. -/
def updateOne : KVRWSet where
  reads := [{ table := [1], key := [2], value := [] }]
  writes := [{ table := [1], key := [2], value := [3] }]

/-- A set that writes a cell without reading it. -/
def writeOne : KVRWSet where
  reads := []
  writes := [{ table := [1], key := [2], value := [3] }]

/-- One thread looks a register up, inserts it, loads it and exchanges its value. -/
def insertSteps (thread : Nat) : List (Nat × Bool) := List.replicate 4 (thread, false)

/-- It finds the register. -/
def lookupSteps (thread : Nat) : List (Nat × Bool) := List.replicate 3 (thread, false)

/-- Transaction 1 before transaction 2. -/
def inTurn : List (Nat × Bool) :=
  insertSteps 0 ++ insertSteps 0 ++ lookupSteps 1 ++ lookupSteps 1

/-- Both look the write register up before either inserts it. -/
def racing : List (Nat × Bool) :=
  insertSteps 0 ++ lookupSteps 1 ++ [(0, false), (1, false)] ++ lookupSteps 0 ++ lookupSteps 1

theorem mvcc_agrees_in_turn : ∃ t : MockMVCCReserveTable default,
    runPhase execReserve { epoch := 1 } ([[(updateOne, 1)], [(updateOne, 2)]].map reserveProgram)
      inTurn = some t ∧
    t.dependencyAnalysis updateOne 2 = some { waw := true, war := true, raw := true } := by
  have hsome : (runPhase execReserve ({ epoch := 1 } : MockMVCCReserveTable default)
      ([[(updateOne, 1)], [(updateOne, 2)]].map reserveProgram) inTurn).isSome = true := by
    decide +kernel
  obtain ⟨t, ht⟩ := Option.isSome_iff_exists.mp hsome
  have hasked : ∀ side, AskedFor (requestsOf [[(updateOne, 1)], [(updateOne, 2)]].flatten) side 2
      [([1], [2])] := by
    intro side
    refine askedFor_cons_of_lt (n := 1) ?_ (by decide)
    rw [mem_offers]
    cases side <;> decide
  have hagree := mvcc_agrees_iff 1 [[(updateOne, 1)], [(updateOne, 2)]]
    [(updateOne, 2), (updateOne, 1)] (List.Perm.swap _ _ _) (by decide) inTurn t ht
    (by decide +kernel) (updateOne, 2) (by decide)
  refine ⟨t, ht, (hagree.1 ⟨hasked .read, hasked .write⟩).trans ?_⟩
  decide

/-- A blind write dereferences a null pointer, and of two first writers of a cell each can miss
    the other. -/
theorem mvcc_differs :
    (runPhase execReserve ({ epoch := 1 } : MockMVCCReserveTable default)
        ([[(writeOne, 1)]].map reserveProgram) (insertSteps 0)).any
      (fun t => t.dependencyAnalysis writeOne 1 = none) = true ∧
    (runPhase execReserve ({ epoch := 1 } : MockMVCCReserveTable default)
        ([[(updateOne, 1)], [(updateOne, 2)]].map reserveProgram) racing).any
      (fun t => t.dependencyAnalysis updateOne 1 = some {} ∧
        t.dependencyAnalysis updateOne 2 = some { war := true }) = true ∧
    (({ epoch := 1 } : MockReserveTable).reserveAll
      [(updateOne, 1), (updateOne, 2)]).dependencyAnalysis updateOne 2 =
        { waw := true, war := true, raw := true } := by
  decide +kernel

end NeuChain.Server
