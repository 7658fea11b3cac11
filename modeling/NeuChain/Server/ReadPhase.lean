/-
  The read phase, and the phases of aggregation mode that reserve and buffer.

  Three invariants, each about one part of the shared state, say what the instructions still
  to be performed owe it: registers (`Reserving`), the database's buffer (`Buffering`), the
  transactions (`Updating`). None of them mentions threads: what is to be done is one list,
  up to its order. `ReadInv` adds that a thread asks for the reserve table before it uses it.

  * `readPhase_state`: however the threads interleave, the phase ends with every register at
    the minimum of the ids that asked for it, every transaction executed on the storage the
    phase started with, and every read-write set in the buffer.
  * `readPhase_completes`: no schedule gets stuck.
-/
import NeuChain.Server.EpochRun

namespace NeuChain.Server

open NeuChain.Lib

/-! ## What a phase of execution still has to do -/

section ReadPhase

variable (cc : Chaincode) (D : Storage) (o : Tid → Transaction)

/-- The registers an instruction will ask for; `o` are the transactions before the phase. -/
def Instr.requests : Instr → List Request
  | .invokeChaincode tid =>
      if (cc (o tid) D).ret then reserveRequests (cc (o tid) D).kvRWSet tid else []
  | .aggregate tid =>
      if (o tid).transactionResult = .abortNoRetry then []
      else reserveRequests (o tid).kvRWSet tid
  | .load r => [r]
  | .compareExchange r _ => [r]
  | _ => []

/-- The buffer entries it will make. -/
def Instr.entries : Instr → List BufferEntry
  | .invokeChaincode tid =>
      if (o tid).readOnlyFlag then []
      else [{ tid := tid, kvRWSet := (cc (o tid) D).kvRWSet, tableList := (cc (o tid) D).tableList }]
  | .receiveNode tid _ rwset => [{ tid := tid, kvRWSet := rwset, tableList := [] }]
  | .bufferUpdates b => [b]
  | .clearBufferThreadSafe b => [b]
  | .insertBuffer b => [b]
  | _ => []

/-- The transaction it works on, and what that becomes. -/
def Instr.outcome : Instr → Option (Tid × Transaction)
  | .invokeChaincode tid => some (tid, executed cc D (o tid))
  | .receiveNode tid result rwset =>
      some (tid, { o tid with transactionResult := result, kvRWSet := rwset })
  | .aggregate tid => some (tid, o tid)
  | _ => none

/-- Instructions of a phase of execution, in epoch `e`. -/
def Instr.OfRead (e : Epoch) : Instr → Prop
  | .getReserveTable epoch => epoch = e
  | .commitTransaction _ => False
  | .commitUpdate _ => False
  | .write _ => False
  | .setResult _ _ => False
  | _ => True

/-- Instructions that use the reserve table, or expand to some that do. -/
def Instr.UsesTable : Instr → Prop
  | .invokeChaincode _ => True
  | .aggregate _ => True
  | .load _ => True
  | .compareExchange _ _ => True
  | _ => False

/-- The ids of the transactions a list of instructions will work on. -/
def touched (is : List Instr) : List Tid := (is.filterMap (Instr.outcome cc D o)).map Prod.fst

/-- Registers hold ids that asked for them; an id of `R` that has not been served by a register
    is still going to ask. -/
structure Reserving (e : Epoch) (R : List Request) (s : EpochState) (is : List Instr) : Prop where
  taken : ∀ side c, (s.table e).reg side c ≠ 0 →
    { side := side, cell := c, tid := (s.table e).reg side c } ∈ R
  asked : ∀ i ∈ is, ∀ r ∈ i.requests cc D o, r ∈ R
  held : ∀ r ∈ R, (∃ i ∈ is, r ∈ i.requests cc D o) ∨
    HeldBy ((s.table e).reg r.side) r.tid r.cell
  seen : ∀ r old, .compareExchange r old ∈ is → Seen ((s.table e).reg r.side r.cell) old

/-- An entry of `B` is in the buffer or still to come. As long as `commitPhase` is set the buffer is
    that of the previous epoch, and everything is still to come. -/
structure Buffering (B : List BufferEntry) (s : EpochState) (is : List Instr) : Prop where
  asked : ∀ i ∈ is, ∀ b ∈ i.entries cc D o, b ∈ B
  stored : ∀ b ∈ B, (∃ i ∈ is, b ∈ i.entries cc D o) ∨
    s.db.Buffered b.tid b.kvRWSet b.tableList
  stale : s.db.commitPhase = true → ∀ b ∈ B, ∃ i ∈ is, b ∈ i.entries cc D o
  insert : ∀ b, .insertBuffer b ∈ is → s.db.commitPhase = false

/-- A transaction is as before the phase until its instruction is performed, then as in `fin`. -/
structure Updating (fin : Tid → Transaction) (s : EpochState) (is : List Instr) : Prop where
  nodup : (touched cc D o is).Nodup
  txns : ∀ tid, s.txns tid = if tid ∈ touched cc D o is then o tid else fin tid
  outcome : ∀ p ∈ is.filterMap (Instr.outcome cc D o), fin p.1 = p.2

variable {cc D o} {e : Epoch} {R : List Request} {B : List BufferEntry} {fin : Tid → Transaction}
  {s s' : EpochState} {i : Instr} {is is' js next : List Instr} {spurious : Bool}

theorem Reserving.perm (hp : is.Perm is') (h : Reserving cc D o e R s is) :
    Reserving cc D o e R s is' := by
  refine ⟨h.taken, fun i hi => h.asked i (hp.mem_iff.mpr hi), ?_,
    fun r old hm => h.seen r old (hp.mem_iff.mpr hm)⟩
  intro r hr
  rcases h.held r hr with ⟨i, hi, hri⟩ | hheld
  · exact Or.inl ⟨i, hp.mem_iff.mp hi, hri⟩
  · exact Or.inr hheld

theorem Buffering.perm (hp : is.Perm is') (h : Buffering cc D o B s is) :
    Buffering cc D o B s is' := by
  have hex : ∀ b, (∃ i ∈ is, b ∈ i.entries cc D o) → ∃ i ∈ is', b ∈ i.entries cc D o := by
    rintro b ⟨i, hi, hb⟩
    exact ⟨i, hp.mem_iff.mp hi, hb⟩
  exact ⟨fun i hi => h.asked i (hp.mem_iff.mpr hi), fun b hb => (h.stored b hb).imp_left (hex b),
    fun hc b hb => hex b (h.stale hc b hb), fun b hm => h.insert b (hp.mem_iff.mpr hm)⟩

theorem Updating.perm (hp : is.Perm is') (h : Updating cc D o fin s is) :
    Updating cc D o fin s is' := by
  have hf := hp.filterMap (Instr.outcome cc D o)
  have ht : (touched cc D o is).Perm (touched cc D o is') := hf.map _
  refine ⟨ht.nodup_iff.mp h.nodup, fun tid => ?_, fun p hp' => h.outcome p (hf.mem_iff.mpr hp')⟩
  rw [h.txns tid]
  simp only [ht.mem_iff]

/-! ## Reservations -/

/-- An instruction that changes no register and passes its requests on. -/
theorem Reserving.quiet (h : Reserving cc D o e R s (i :: js)) (ht : s'.table e = s.table e)
    (hreq : ∀ r, (∃ j ∈ next, r ∈ j.requests cc D o) ↔ r ∈ i.requests cc D o)
    (hseen : ∀ r old, .compareExchange r old ∈ next → Seen ((s.table e).reg r.side r.cell) old) :
    Reserving cc D o e R s' (next ++ js) := by
  refine ⟨by rw [ht]; exact h.taken, ?_, ?_, ?_⟩
  · intro j hj r hr
    rcases List.mem_append.mp hj with hj | hj
    · exact h.asked i List.mem_cons_self r ((hreq r).mp ⟨j, hj, hr⟩)
    · exact h.asked j (List.mem_cons_of_mem _ hj) r hr
  · intro r hr
    rw [ht]
    rcases h.held r hr with ⟨j, hj, hrj⟩ | hheld
    · left
      rcases List.mem_cons.mp hj with rfl | hj
      · obtain ⟨j', hj', hr'⟩ := (hreq r).mpr hrj
        exact ⟨j', List.mem_append_left _ hj', hr'⟩
      · exact ⟨j, List.mem_append_right _ hj, hrj⟩
    · exact Or.inr hheld
  · intro r old hm
    rw [ht]
    rcases List.mem_append.mp hm with hm | hm
    · exact hseen r old hm
    · exact h.seen r old (List.mem_cons_of_mem _ hm)

/-- One turn of the compare-exchange loop. -/
theorem Reserving.turn {r : Request} {old : Tid} (hR : ∀ r ∈ R, r.tid ≠ 0)
    (h : Reserving cc D o e R s (.compareExchange r old :: js))
    (ht : s'.table e = (s.table e).setReg r.side r.cell
      (casLoop ((s.table e).reg r.side r.cell) old r.tid spurious).1) :
    Reserving cc D o e R s' ((casLoop ((s.table e).reg r.side r.cell) old r.tid spurious).2.toList.map
      (.compareExchange r) ++ js) := by
  have hr : r ∈ R := h.asked _ List.mem_cons_self r (List.mem_singleton_self r)
  have hseen : Seen ((s.table e).reg r.side r.cell) old := h.seen r old List.mem_cons_self
  generalize hv : (s.table e).reg r.side r.cell = v at *
  generalize htn : casLoop v old r.tid spurious = turn at *
  -- the register of `r`, and all the others
  have hself : (s'.table e).reg r.side r.cell = turn.1 := by rw [ht, setReg_reg_self]
  have hother : ∀ side c, ¬ (side = r.side ∧ c = r.cell) →
      (s'.table e).reg side c = (s.table e).reg side c := by
    intro side c hne
    rw [ht, setReg_reg_of_ne fun hs hc => hne ⟨hs, hc⟩]
  refine ⟨?_, ?_, ?_, ?_⟩
  · intro side c hne
    by_cases hsame : side = r.side ∧ c = r.cell
    · obtain ⟨rfl, rfl⟩ := hsame
      rw [hself] at hne ⊢
      rcases casLoop_fst v old r.tid spurious with hfst | ⟨hfst, -⟩ <;> rw [htn] at hfst
      · rw [hfst] at hne ⊢
        rw [← hv] at hne ⊢
        exact h.taken _ _ hne
      · rw [hfst]
        exact hr
    · rw [hother side c hsame] at hne ⊢
      exact h.taken side c hne
  · intro j hj r' hr'
    rcases List.mem_append.mp hj with hj | hj
    · obtain ⟨old', -, rfl⟩ := List.mem_map.mp hj
      rw [List.mem_singleton.mp hr']
      exact hr
    · exact h.asked j (List.mem_cons_of_mem _ hj) r' hr'
  · intro r' hr'
    rcases h.held r' hr' with ⟨j, hj, hrj⟩ | hheld
    · rcases List.mem_cons.mp hj with rfl | hj
      · obtain rfl := List.mem_singleton.mp hrj
        cases hd : turn.2 with
        | none =>
            right
            unfold HeldBy
            rw [hself, ← htn]
            exact casLoop_done (hR r' hr) hseen (by rw [htn, hd])
        | some old' =>
            left
            exact ⟨.compareExchange r' old', by simp, List.mem_singleton_self r'⟩
      · exact Or.inl ⟨j, List.mem_append_right _ hj, hrj⟩
    · right
      unfold HeldBy at hheld ⊢
      by_cases hsame : r'.side = r.side ∧ r'.cell = r.cell
      · rw [hsame.1, hsame.2] at hheld ⊢
        rw [hv] at hheld
        obtain ⟨hne, hle⟩ := casLoop_mono old spurious (hR r hr) hheld.1
        rw [hself]
        rw [htn] at hne hle
        exact ⟨hne, Nat.le_trans hle hheld.2⟩
      · rw [hother _ _ hsame]
        exact hheld
  · intro r' old' hm
    rcases List.mem_append.mp hm with hm | hm
    · obtain ⟨old'', hold, heq⟩ := List.mem_map.mp hm
      cases heq
      obtain ⟨hfst, rfl⟩ := casLoop_retry (by rw [htn]; exact Option.mem_toList.mp hold)
      rw [htn] at hfst
      rw [hself, hfst]
      exact seen_self
    · have hs' := h.seen r' old' (List.mem_cons_of_mem _ hm)
      by_cases hsame : r'.side = r.side ∧ r'.cell = r.cell
      · rw [hsame.1, hsame.2, hv] at hs'
        rw [hsame.1, hsame.2, hself, ← htn]
        exact hs'.turn (hR r hr)
      · rw [hother _ _ hsame]
        exact hs'

theorem Reserving.exec (hR : ∀ r ∈ R, r.tid ≠ 0) (hkind : i.OfRead e) (hD : s.db.storage = D)
    (hfetch : i.UsesTable → s.Fetched e) (htxn : ∀ p, i.outcome cc D o = some p → s.txns p.1 = o p.1)
    (h : Reserving cc D o e R s (i :: js)) (hex : exec cc s i spurious = some (s', next)) :
    Reserving cc D o e R s' (next ++ js) := by
  cases i with
  | getReserveTable epoch =>
      cases hex
      cases hkind
      refine h.quiet (table_eq_of_some rfl (getReserveTable_epoch _ _)) ?_ ?_ <;>
        simp [Instr.requests]
  | invokeChaincode tid =>
      cases hex
      have ht : s.txns tid = o tid := htxn (tid, _) rfl
      subst hD
      refine h.quiet rfl ?_ ?_
      · intro r
        rw [ht]
        by_cases hret : (cc (o tid) s.db.storage).ret = true <;>
          by_cases hro : (o tid).readOnlyFlag = true <;> simp [Instr.requests, hret, hro]
      · intro r old hm
        rw [ht] at hm
        by_cases hret : (cc (o tid) s.db.storage).ret = true <;>
          by_cases hro : (o tid).readOnlyFlag = true <;> simp [hret, hro] at hm
  | receiveNode tid result rwset =>
      cases hex
      exact h.quiet rfl (by simp [Instr.requests]) (by simp)
  | aggregate tid =>
      cases hex
      have ht : s.txns tid = o tid := htxn (tid, _) rfl
      refine h.quiet rfl ?_ ?_
      · intro r
        rw [ht]
        by_cases hres : (o tid).transactionResult = .abortNoRetry <;> simp [Instr.requests, hres]
      · intro r old hm
        by_cases hres : (s.txns tid).transactionResult = .abortNoRetry <;> simp [hres] at hm
  | load r =>
      simp only [Server.exec, (hfetch trivial).reserveTable_eq, Option.map_some] at hex
      cases hex
      refine h.quiet rfl (by simp [Instr.requests]) ?_
      intro r' old hm
      cases List.mem_singleton.mp hm
      exact seen_self
  | compareExchange r old =>
      simp only [Server.exec, (hfetch trivial).reserveTable_eq, Option.map_some] at hex
      cases hex
      exact h.turn hR (table_eq_of_some rfl (by rw [setReg_epoch]; exact getReserveTable_epoch _ _))
  | bufferUpdates b =>
      cases hex
      refine h.quiet rfl ?_ ?_ <;> cases s.db.commitPhase <;> simp [Instr.requests]
  | clearBufferThreadSafe b =>
      cases hex
      exact h.quiet rfl (by simp [Instr.requests]) (by simp)
  | insertBuffer b =>
      cases hex
      exact h.quiet rfl (by simp [Instr.requests]) (by simp)
  | _ => cases hkind

/-! ## The buffer -/

/-- An instruction that leaves the database alone and passes its entries on. -/
theorem Buffering.quiet (h : Buffering cc D o B s (i :: js)) (hdb : s'.db = s.db)
    (hent : ∀ b, (∃ j ∈ next, b ∈ j.entries cc D o) ↔ b ∈ i.entries cc D o)
    (hins : ∀ b, .insertBuffer b ∈ next → s.db.commitPhase = false) :
    Buffering cc D o B s' (next ++ js) := by
  have hex : ∀ b, (∃ j ∈ i :: js, b ∈ j.entries cc D o) →
      ∃ j ∈ next ++ js, b ∈ j.entries cc D o := by
    rintro b ⟨j, hj, hb⟩
    rcases List.mem_cons.mp hj with rfl | hj
    · obtain ⟨j', hj', hb'⟩ := (hent b).mpr hb
      exact ⟨j', List.mem_append_left _ hj', hb'⟩
    · exact ⟨j, List.mem_append_right _ hj, hb⟩
  refine ⟨?_, ?_, ?_, ?_⟩
  · intro j hj b hb
    rcases List.mem_append.mp hj with hj | hj
    · exact h.asked i List.mem_cons_self b ((hent b).mp ⟨j, hj, hb⟩)
    · exact h.asked j (List.mem_cons_of_mem _ hj) b hb
  · intro b hb
    rw [hdb]
    exact (h.stored b hb).imp_left (hex b)
  · intro hc b hb
    rw [hdb] at hc
    exact hex b (h.stale hc b hb)
  · intro b hm
    rw [hdb]
    rcases List.mem_append.mp hm with hm | hm
    · exact hins b hm
    · exact h.insert b (List.mem_cons_of_mem _ hm)

/-- `clearBufferThreadSafe` loses nothing: while `commitPhase` is set all entries are to come. -/
theorem Buffering.clear {b : BufferEntry}
    (h : Buffering cc D o B s (.clearBufferThreadSafe b :: js)) (hdb : s'.db = s.db.clearBuffer) :
    Buffering cc D o B s' (.insertBuffer b :: js) := by
  have hphase : s'.db.commitPhase = false := by rw [hdb]; exact DatabaseImpl.clearBuffer_commitPhase
  have hex : ∀ b', (∃ j ∈ .clearBufferThreadSafe b :: js, b' ∈ j.entries cc D o) →
      ∃ j ∈ .insertBuffer b :: js, b' ∈ j.entries cc D o := by
    rintro b' ⟨j, hj, hb⟩
    rcases List.mem_cons.mp hj with rfl | hj
    · exact ⟨_, List.mem_cons_self, hb⟩
    · exact ⟨j, List.mem_cons_of_mem _ hj, hb⟩
  refine ⟨?_, ?_, ?_, fun _ _ => hphase⟩
  · intro j hj b' hb
    rcases List.mem_cons.mp hj with rfl | hj
    · exact h.asked _ List.mem_cons_self b' hb
    · exact h.asked j (List.mem_cons_of_mem _ hj) b' hb
  · intro b' hb
    by_cases hc : s.db.commitPhase = true
    · exact Or.inl (hex b' (h.stale hc b' hb))
    · have hsame : s'.db = s.db := by
        rw [hdb]
        unfold DatabaseImpl.clearBuffer
        rw [if_neg hc]
      rw [hsame]
      exact (h.stored b' hb).imp_left (hex b')
  · intro hc
    rw [hphase] at hc
    cases hc

theorem Buffering.insertEntry {b : BufferEntry}
    (hB : ∀ b ∈ B, ∀ b' ∈ B, b.tid = b'.tid → b = b')
    (h : Buffering cc D o B s (.insertBuffer b :: js))
    (hdb : s'.db = s.db.insertBuffer b.tid b.kvRWSet b.tableList) :
    Buffering cc D o B s' js := by
  have hb : b ∈ B := h.asked _ List.mem_cons_self b (List.mem_singleton_self b)
  have hphase : s'.db.commitPhase = false := by
    rw [hdb]
    exact h.insert b List.mem_cons_self
  have hself : s'.db.Buffered b.tid b.kvRWSet b.tableList := by
    rw [hdb]
    exact ⟨Function.update_self _ _ _, Function.update_self _ _ _⟩
  refine ⟨fun j hj => h.asked j (List.mem_cons_of_mem _ hj), ?_, ?_, fun _ _ => hphase⟩
  · intro b' hb'
    by_cases heq : b'.tid = b.tid
    · rw [hB b' hb' b hb heq]
      exact Or.inr hself
    · rcases h.stored b' hb' with ⟨j, hj, hbj⟩ | hst
      · rcases List.mem_cons.mp hj with rfl | hj
        · cases List.mem_singleton.mp hbj
          exact absurd rfl heq
        · exact Or.inl ⟨j, hj, hbj⟩
      · right
        rw [hdb]
        exact ⟨(Function.update_of_ne heq _ _).trans hst.1,
          (Function.update_of_ne heq _ _).trans hst.2⟩
  · intro hc
    rw [hphase] at hc
    cases hc

theorem Buffering.exec (hB : ∀ b ∈ B, ∀ b' ∈ B, b.tid = b'.tid → b = b') (hkind : i.OfRead e)
    (hD : s.db.storage = D) (htxn : ∀ p, i.outcome cc D o = some p → s.txns p.1 = o p.1)
    (h : Buffering cc D o B s (i :: js)) (hex : exec cc s i spurious = some (s', next)) :
    Buffering cc D o B s' (next ++ js) := by
  cases i with
  | getReserveTable epoch =>
      cases hex
      exact h.quiet rfl (by simp [Instr.entries]) (by simp)
  | invokeChaincode tid =>
      cases hex
      have ht : s.txns tid = o tid := htxn (tid, _) rfl
      subst hD
      refine h.quiet rfl ?_ ?_
      · intro b
        rw [ht]
        by_cases hret : (cc (o tid) s.db.storage).ret = true <;>
          by_cases hro : (o tid).readOnlyFlag = true <;> simp [Instr.entries, hret, hro]
      · intro b hm
        by_cases hret : (cc (s.txns tid) s.db.storage).ret = true <;>
          by_cases hro : (s.txns tid).readOnlyFlag = true <;> simp [hret, hro] at hm
  | receiveNode tid result rwset =>
      cases hex
      exact h.quiet rfl (by simp [Instr.entries]) (by simp)
  | aggregate tid =>
      cases hex
      refine h.quiet rfl ?_ ?_ <;>
        by_cases hres : (s.txns tid).transactionResult = .abortNoRetry <;>
          simp [Instr.entries, hres]
  | load r =>
      obtain ⟨rt, -, heq⟩ := Option.map_eq_some_iff.mp hex
      cases heq
      exact h.quiet rfl (by simp [Instr.entries]) (by simp)
  | compareExchange r old =>
      obtain ⟨rt, -, heq⟩ := Option.map_eq_some_iff.mp hex
      cases heq
      exact h.quiet rfl (by simp [Instr.entries]) (by simp)
  | bufferUpdates b =>
      cases hex
      refine h.quiet rfl ?_ ?_ <;> cases hc : s.db.commitPhase <;> simp [Instr.entries]
  | clearBufferThreadSafe b =>
      cases hex
      exact h.clear rfl
  | insertBuffer b =>
      cases hex
      exact h.insertEntry hB rfl
  | _ => cases hkind

/-! ## The transactions -/

/-- An instruction that works on no transaction, and leaves none to be worked on. -/
theorem Updating.quiet (h : Updating cc D o fin s (i :: js)) (htx : s'.txns = s.txns)
    (hi : i.outcome cc D o = none) (hnext : ∀ j ∈ next, j.outcome cc D o = none) :
    Updating cc D o fin s' (next ++ js) := by
  have hf : (next ++ js).filterMap (Instr.outcome cc D o) =
      (i :: js).filterMap (Instr.outcome cc D o) := by
    rw [List.filterMap_append, List.filterMap_eq_nil_iff.mpr hnext, List.filterMap_cons_none hi,
      List.nil_append]
  have ht : touched cc D o (next ++ js) = touched cc D o (i :: js) := by
    unfold touched
    rw [hf]
  exact ⟨ht ▸ h.nodup, fun tid => by rw [htx, h.txns tid, ht], hf ▸ h.outcome⟩

/-- An instruction that brings its transaction to its outcome. -/
theorem Updating.finish {tid : Tid} {t : Transaction} (h : Updating cc D o fin s (i :: js))
    (hi : i.outcome cc D o = some (tid, t)) (htx : s'.txns = Function.update s.txns tid t)
    (hnext : ∀ j ∈ next, j.outcome cc D o = none) :
    Updating cc D o fin s' (next ++ js) := by
  have hf : (i :: js).filterMap (Instr.outcome cc D o) =
      (tid, t) :: (next ++ js).filterMap (Instr.outcome cc D o) := by
    rw [List.filterMap_append, List.filterMap_eq_nil_iff.mpr hnext, List.filterMap_cons_some hi,
      List.nil_append]
  have ht : touched cc D o (i :: js) = tid :: touched cc D o (next ++ js) := by
    unfold touched
    rw [hf, List.map_cons]
  have hnd := h.nodup
  rw [ht, List.nodup_cons] at hnd
  refine ⟨hnd.2, ?_, fun p hp => h.outcome p (hf ▸ List.mem_cons_of_mem _ hp)⟩
  intro tid'
  rw [htx]
  by_cases heq : tid' = tid
  · subst heq
    rw [Function.update_self, if_neg hnd.1]
    exact (h.outcome (tid', t) (hf ▸ List.mem_cons_self)).symm
  · rw [Function.update_of_ne heq, h.txns tid', ht]
    simp [heq]

theorem Updating.txn_eq (h : Updating cc D o fin s (i :: js)) {p : Tid × Transaction}
    (hp : i.outcome cc D o = some p) : s.txns p.1 = o p.1 := by
  rw [h.txns, if_pos]
  unfold touched
  rw [List.filterMap_cons_some hp]
  exact List.mem_cons_self

theorem Updating.exec (hkind : i.OfRead e) (hD : s.db.storage = D)
    (h : Updating cc D o fin s (i :: js)) (hex : exec cc s i spurious = some (s', next)) :
    Updating cc D o fin s' (next ++ js) := by
  have htxn := fun p => h.txn_eq (p := p)
  cases i with
  | getReserveTable epoch =>
      cases hex
      exact h.quiet rfl rfl (by simp)
  | invokeChaincode tid =>
      cases hex
      have ht : s.txns tid = o tid := htxn (tid, _) rfl
      subst hD
      refine h.finish rfl (by rw [ht]; rfl) ?_
      intro j hj
      rcases List.mem_append.mp hj with hj | hj <;> split at hj <;>
        simp only [List.mem_map, List.not_mem_nil, List.mem_singleton] at hj
      · obtain ⟨r, -, rfl⟩ := hj
        rfl
      · rw [hj]
        rfl
  | receiveNode tid result rwset =>
      cases hex
      have ht : s.txns tid = o tid := htxn (tid, _) rfl
      exact h.finish rfl (by rw [← ht]; rfl) (by simp [Instr.outcome])
  | aggregate tid =>
      cases hex
      have ht : s.txns tid = o tid := htxn (tid, _) rfl
      refine h.finish rfl (by rw [← ht, Function.update_eq_self]) ?_
      intro j hj
      split at hj <;> simp only [List.mem_map, List.not_mem_nil] at hj
      obtain ⟨r, -, rfl⟩ := hj
      rfl
  | load r =>
      obtain ⟨rt, -, heq⟩ := Option.map_eq_some_iff.mp hex
      cases heq
      exact h.quiet rfl rfl (by simp [Instr.outcome])
  | compareExchange r old =>
      obtain ⟨rt, -, heq⟩ := Option.map_eq_some_iff.mp hex
      cases heq
      exact h.quiet rfl rfl (by simp [Instr.outcome])
  | bufferUpdates b =>
      cases hex
      refine h.quiet rfl rfl ?_
      cases s.db.commitPhase <;> simp [Instr.outcome]
  | clearBufferThreadSafe b =>
      cases hex
      exact h.quiet rfl rfl (by simp [Instr.outcome])
  | insertBuffer b =>
      cases hex
      exact h.quiet rfl rfl (by simp)
  | _ => cases hkind

/-! ## The phase -/

/-- What every instruction of a phase of execution keeps. -/
theorem exec_read (hkind : i.OfRead e) (hex : exec cc s i spurious = some (s', next)) :
    s'.db.storage = s.db.storage ∧ (∀ j ∈ next, j.OfRead e) ∧
      (∀ j ∈ next, j.UsesTable → i.UsesTable) ∧
      (i = .getReserveTable e ∨ s.Fetched e → s'.Fetched e) := by
  cases i with
  | getReserveTable epoch =>
      cases hex
      cases hkind
      exact ⟨rfl, by simp, by simp, fun _ => ⟨_, rfl, getReserveTable_epoch _ _⟩⟩
  | invokeChaincode tid =>
      cases hex
      refine ⟨rfl, ?_, fun _ _ _ => trivial, by simp [EpochState.Fetched, EpochState.setTxn]⟩
      intro j hj
      rcases List.mem_append.mp hj with hj | hj <;> split at hj <;>
        simp only [List.mem_map, List.not_mem_nil, List.mem_singleton] at hj
      · obtain ⟨r, -, rfl⟩ := hj
        trivial
      · rw [hj]
        trivial
  | receiveNode tid result rwset =>
      cases hex
      exact ⟨rfl, by simp [Instr.OfRead], by simp [Instr.UsesTable],
        by simp [EpochState.Fetched, EpochState.setTxn]⟩
  | aggregate tid =>
      cases hex
      refine ⟨rfl, ?_, fun _ _ _ => trivial, by simp [EpochState.Fetched]⟩
      intro j hj
      split at hj <;> simp only [List.mem_map, List.not_mem_nil] at hj
      obtain ⟨r, -, rfl⟩ := hj
      trivial
  | load r =>
      obtain ⟨rt, -, heq⟩ := Option.map_eq_some_iff.mp hex
      cases heq
      exact ⟨rfl, by simp [Instr.OfRead], fun _ _ _ => trivial, by simp [EpochState.Fetched]⟩
  | compareExchange r old =>
      obtain ⟨rt, hrt, heq⟩ := Option.map_eq_some_iff.mp hex
      cases heq
      refine ⟨rfl, by simp [Instr.OfRead], fun _ _ _ => trivial, ?_⟩
      rintro (hne | ⟨rt', hrt', he⟩)
      · cases hne
      · rw [hrt] at hrt'
        cases hrt'
        exact ⟨_, rfl, by rw [setReg_epoch]; exact he⟩
  | bufferUpdates b =>
      cases hex
      refine ⟨rfl, ?_, ?_, by simp [EpochState.Fetched]⟩ <;> cases s.db.commitPhase <;>
        simp [Instr.OfRead, Instr.UsesTable]
  | clearBufferThreadSafe b =>
      cases hex
      exact ⟨DatabaseImpl.clearBuffer_storage, by simp [Instr.OfRead], by simp [Instr.UsesTable],
        by simp [EpochState.Fetched]⟩
  | insertBuffer b =>
      cases hex
      exact ⟨rfl, by simp, by simp, by simp [EpochState.Fetched]⟩
  | _ => cases hkind

section

variable (cc D o e R B fin)

/-- The invariant of a phase of execution. -/
structure ReadInv (p : Pool EpochState Instr) : Prop where
  kind : ∀ i ∈ p.threads.flatten, i.OfRead e
  storage : p.shared.db.storage = D
  /-- A thread that needs the reserve table asks for it first. -/
  fetch : ∀ l ∈ p.threads, (∃ i ∈ l, i.UsesTable) →
    l.head? = some (.getReserveTable e) ∨ p.shared.Fetched e
  reserving : Reserving cc D o e R p.shared p.threads.flatten
  buffering : Buffering cc D o B p.shared p.threads.flatten
  updating : Updating cc D o fin p.shared p.threads.flatten

end

theorem ReadInv.fetched {before after : List (List Instr)} {rest : List Instr}
    (h : ReadInv cc D o e R B fin { shared := s, threads := before ++ (i :: rest) :: after })
    (hi : i.UsesTable) : s.Fetched e := by
  rcases h.fetch (i :: rest) (by simp) ⟨i, List.mem_cons_self, hi⟩ with hhead | hf
  · cases Option.some.inj hhead
    cases hi
  · exact hf

theorem ReadInv.step (hR : ∀ r ∈ R, r.tid ≠ 0)
    (hB : ∀ b ∈ B, ∀ b' ∈ B, b.tid = b'.tid → b = b') {p p' : Pool EpochState Instr}
    {a : Nat × Bool} (h : ReadInv cc D o e R B fin p) (hstep : p.step (exec cc) a = some p') :
    ReadInv cc D o e R B fin p' := by
  obtain ⟨before, i, rest, after, s', next, hth, -, hex, rfl⟩ := step_cases hstep
  obtain ⟨s, threads⟩ := p
  subst hth
  have hperm := flatten_thread_perm before after [i] rest
  have hperm' := flatten_thread_perm before after next rest
  have hkind : i.OfRead e := h.kind i (hperm.mem_iff.mpr List.mem_cons_self)
  have hupd := h.updating.perm hperm
  have htxn := fun p => hupd.txn_eq (p := p)
  obtain ⟨hst, hknext, huses, hfet⟩ := exec_read hkind hex
  refine ⟨?_, hst.trans h.storage, ?_, ?_, ?_, ?_⟩
  · intro j hj
    rcases List.mem_append.mp (hperm'.mem_iff.mp hj) with hj | hj
    · exact hknext j hj
    · exact h.kind j (hperm.mem_iff.mpr (List.mem_cons_of_mem _ hj))
  · intro l hl hu
    have hmem : l ∈ before ∨ l = next ++ rest ∨ l ∈ after := by simpa using hl
    have hkeep : ∀ l ∈ before ++ (i :: rest) :: after, (∃ i ∈ l, i.UsesTable) →
        l.head? = some (.getReserveTable e) ∨ s'.Fetched e :=
      fun l hl hu => (h.fetch l hl hu).imp_right fun hf => hfet (Or.inr hf)
    rcases hmem with hl | rfl | hl
    · exact hkeep l (by simp [hl]) hu
    · -- the thread has moved, so it has the table now if it needs it
      right
      have hu' : ∃ j ∈ i :: rest, j.UsesTable := by
        obtain ⟨j, hj, hju⟩ := hu
        rcases List.mem_append.mp hj with hj | hj
        · exact ⟨i, List.mem_cons_self, huses j hj hju⟩
        · exact ⟨j, List.mem_cons_of_mem _ hj, hju⟩
      rcases h.fetch (i :: rest) (by simp) hu' with hhead | hf
      · exact hfet (Or.inl (Option.some.inj hhead))
      · exact hfet (Or.inr hf)
    · exact hkeep l (by simp [hl]) hu
  · exact ((h.reserving.perm hperm).exec hR hkind h.storage h.fetched htxn hex).perm hperm'.symm
  · exact ((h.buffering.perm hperm).exec hB hkind h.storage htxn hex).perm hperm'.symm
  · exact (hupd.exec hkind h.storage hex).perm hperm'.symm

/-- Between two phases of execution of epoch `e`: the reservations `R` have been made and the
    entries `B` are buffered, on storage `D`. -/
structure ReadState (D : Storage) (e : Epoch) (R : List Request) (B : List BufferEntry)
    (s : EpochState) : Prop where
  storage : s.db.storage = D
  least : ∀ side c, Least {tid | { side := side, cell := c, tid := tid } ∈ R}
    ((s.table e).reg side c)
  buffered : ∀ b ∈ B, s.db.Buffered b.tid b.kvRWSet b.tableList
  stale : s.db.commitPhase = true → B = []

/-- The instructions programs are written with; the others are expansions of these. -/
def Instr.Source (e : Epoch) : Instr → Prop
  | .getReserveTable epoch => epoch = e
  | .invokeChaincode _ => True
  | .receiveNode _ _ _ => True
  | .aggregate _ => True
  | _ => False

/-- The programs of one phase of execution: no two of them work on one transaction, and
    `fin` is what they make of the transactions `o`. -/
structure ReadPrograms (cc : Chaincode) (D : Storage) (o : Tid → Transaction) (e : Epoch)
    (fin : Tid → Transaction) (programs : List (List Instr)) : Prop where
  source : ∀ i ∈ programs.flatten, i.Source e
  fetch : ∀ l ∈ programs, (∃ i ∈ l, i.UsesTable) → l.head? = some (.getReserveTable e)
  nodup : (touched cc D o programs.flatten).Nodup
  outcome : ∀ p ∈ programs.flatten.filterMap (Instr.outcome cc D o), fin p.1 = p.2
  others : ∀ tid, tid ∉ touched cc D o programs.flatten → fin tid = o tid

theorem ReadInv.start {programs : List (List Instr)} (hs : ReadState D e R B s)
    (hp : ReadPrograms cc D s.txns e fin programs) :
    ReadInv cc D s.txns e (R ++ programs.flatten.flatMap (Instr.requests cc D s.txns))
      (B ++ programs.flatten.flatMap (Instr.entries cc D s.txns)) fin
      { shared := s, threads := programs } := by
  have hsource : ∀ i ∈ programs.flatten, i.OfRead e := by
    intro i hi
    have := hp.source i hi
    cases i <;> first | exact this | trivial
  refine ⟨hsource, hs.storage, fun l hl hu => Or.inl (hp.fetch l hl hu), ⟨?_, ?_, ?_, ?_⟩,
    ⟨?_, ?_, ?_, ?_⟩, ⟨hp.nodup, ?_, hp.outcome⟩⟩
  · intro side c hne
    rcases hs.least side c with ⟨h0, -⟩ | ⟨-, hl⟩
    · exact absurd h0 hne
    · exact List.mem_append_left _ hl.1
  · intro i hi r hr
    exact List.mem_append_right _ (List.mem_flatMap.mpr ⟨i, hi, hr⟩)
  · intro r hr
    rcases List.mem_append.mp hr with hr | hr
    · right
      rcases hs.least r.side r.cell with ⟨-, hempty⟩ | ⟨hne, hl⟩
      · exact absurd (show r.tid ∈ _ from hr) (hempty ▸ Set.notMem_empty _)
      · exact ⟨hne, hl.2 hr⟩
    · exact Or.inl (List.mem_flatMap.mp hr)
  · intro r old hm
    exact (hp.source _ hm).elim
  · intro i hi b hb
    exact List.mem_append_right _ (List.mem_flatMap.mpr ⟨i, hi, hb⟩)
  · intro b hb
    rcases List.mem_append.mp hb with hb | hb
    · exact Or.inr (hs.buffered b hb)
    · exact Or.inl (List.mem_flatMap.mp hb)
  · intro hc b hb
    rw [hs.stale hc, List.nil_append] at hb
    exact List.mem_flatMap.mp hb
  · intro b hm
    exact (hp.source _ hm).elim
  · intro tid
    by_cases ht : tid ∈ touched cc D s.txns programs.flatten
    · rw [if_pos ht]
    · rw [if_neg ht, hp.others tid ht]

theorem ReadInv.finish {p : Pool EpochState Instr} (h : ReadInv cc D o e R B fin p)
    (hidle : p.Idle) : ReadState D e R B p.shared ∧ p.shared.txns = fin := by
  have hnil := hidle.flatten_eq_nil
  have hnone : ∀ {P : Instr → Prop}, ¬ ∃ i ∈ p.threads.flatten, P i := by
    rintro P ⟨i, hi, -⟩
    rw [hnil] at hi
    cases hi
  refine ⟨⟨h.storage, ?_, ?_, ?_⟩, ?_⟩
  · intro side c
    refine least_of_bounds (h.reserving.taken side c) fun tid htid => ?_
    exact (h.reserving.held _ htid).resolve_left hnone
  · intro b hb
    exact (h.buffering.stored b hb).resolve_left hnone
  · intro hc
    refine List.eq_nil_iff_forall_not_mem.mpr fun b hb => ?_
    exact hnone (h.buffering.stale hc b hb)
  · funext tid
    have := h.updating.txns tid
    rw [hnil] at this
    exact this

/-- A phase of execution about to start. Its requests and entries join those made before; ids
    are not zero, and no id has two entries. -/
structure ReadSetup (cc : Chaincode) (D : Storage) (e : Epoch) (R : List Request)
    (B : List BufferEntry) (fin : Tid → Transaction) (s : EpochState)
    (programs : List (List Instr)) : Prop where
  state : ReadState D e R B s
  plan : ReadPrograms cc D s.txns e fin programs
  tids : ∀ r ∈ R ++ programs.flatten.flatMap (Instr.requests cc D s.txns), r.tid ≠ 0
  entries : ∀ b ∈ B ++ programs.flatten.flatMap (Instr.entries cc D s.txns),
    ∀ b' ∈ B ++ programs.flatten.flatMap (Instr.entries cc D s.txns), b.tid = b'.tid → b = b'

variable {programs : List (List Instr)} {as : List (Nat × Bool)}

/-- However its threads interleave, a phase of execution ends with the registers at the
    minimum of the ids that asked, every entry buffered, and each transaction at its outcome. -/
theorem readPhase_state (h : ReadSetup cc D e R B fin s programs)
    (hrun : runPhase (exec cc) s programs as = some s') :
    ReadState D e (R ++ programs.flatten.flatMap (Instr.requests cc D s.txns))
      (B ++ programs.flatten.flatMap (Instr.entries cc D s.txns)) s' ∧ s'.txns = fin := by
  obtain ⟨p, hinv, hidle, rfl⟩ := runPhase_invariant _
    (fun _ _ _ hi hstep => ReadInv.step h.tids h.entries hi hstep) hrun
    (ReadInv.start h.state h.plan)
  exact hinv.finish hidle

/-- A phase that asks for the table of its epoch leaves it behind. -/
theorem readPhase_fetched (hkind : ∀ i ∈ programs.flatten, i.Source e)
    (hf : s.Fetched e ∨ .getReserveTable e ∈ programs.flatten)
    (hrun : runPhase (exec cc) s programs as = some s') : s'.Fetched e := by
  let I : EpochState → List Instr → Prop := fun s todo =>
    (∀ i ∈ todo, i.OfRead e) ∧ (s.Fetched e ∨ .getReserveTable e ∈ todo)
  have hperm : ∀ s l l', l.Perm l' → I s l → I s l' := by
    rintro s l l' hp ⟨hk, hf⟩
    exact ⟨fun i hi => hk i (hp.mem_iff.mpr hi), hf.imp_right hp.mem_iff.mp⟩
  have hexec : ∀ s i rest c s' next, I s (i :: rest) → exec cc s i c = some (s', next) →
      I s' (next ++ rest) := by
    rintro s i rest c s' next ⟨hk, hf⟩ hex
    obtain ⟨hki, hkrest⟩ := List.forall_mem_cons.mp hk
    obtain ⟨-, hknext, -, hfet⟩ := exec_read hki hex
    refine ⟨List.forall_mem_append.mpr ⟨hknext, hkrest⟩, ?_⟩
    rcases hf with hf | hm
    · exact Or.inl (hfet (Or.inr hf))
    · rcases List.mem_cons.mp hm with heq | hm
      · exact Or.inl (hfet (Or.inl heq.symm))
      · exact Or.inr (List.mem_append_right _ hm)
  have h0 : I s programs.flatten := by
    refine ⟨fun i hi => ?_, hf⟩
    have := hkind i hi
    cases i <;> first | exact this | trivial
  exact (runPhase_todo I hperm hexec hrun h0).2.resolve_right List.not_mem_nil

/-! ## Every schedule can be completed -/

variable (cc D o) in
/-- A bound on the steps an instruction takes if no other thread comes between. -/
def Instr.work : Instr → Nat
  | .invokeChaincode tid => 1 + 2 * (Instr.requests cc D o (.invokeChaincode tid)).length +
      3 * (Instr.entries cc D o (.invokeChaincode tid)).length
  | .aggregate tid => 1 + 2 * (Instr.requests cc D o (.aggregate tid)).length
  | .receiveNode _ _ _ => 4
  | .load _ => 2
  | .bufferUpdates _ => 3
  | .clearBufferThreadSafe _ => 2
  | _ => 1

theorem sum_work_map_load (rs : List Request) :
    ((rs.map Instr.load).map (Instr.work cc D o)).sum = 2 * rs.length := by
  induction rs with
  | nil => rfl
  | cons r rs ih =>
      simp only [List.map_cons, List.sum_cons, ih, Instr.work, List.length_cons]
      omega

/-- No instruction blocks, and only a compare-exchange that met a changed register has to be
    repeated. -/
theorem exec_works (hkind : i.OfRead e) (hD : s.db.storage = D)
    (hfetch : i.UsesTable → s.Fetched e)
    (htxn : ∀ p, i.outcome cc D o = some p → s.txns p.1 = o p.1) :
    Advances (exec cc) (Instr.work cc D o) (i.work cc D o) s i := by
  cases i with
  | getReserveTable epoch => exact .done false rfl (by simp [Instr.work])
  | invokeChaincode tid =>
      have ht : s.txns tid = o tid := htxn (tid, _) rfl
      subst hD
      refine .done false rfl ?_
      rw [ht, List.map_append, List.sum_append]
      have hload : ((if (cc (o tid) s.db.storage).ret then
          (reserveRequests (cc (o tid) s.db.storage).kvRWSet tid).map Instr.load else []).map
            (Instr.work cc s.db.storage o)).sum =
          2 * (Instr.requests cc s.db.storage o (.invokeChaincode tid)).length := by
        simp only [Instr.requests]
        split
        · exact sum_work_map_load _
        · rfl
      have hbuf : ((if (o tid).readOnlyFlag then [] else [Instr.bufferUpdates
          { tid := tid, kvRWSet := (cc (o tid) s.db.storage).kvRWSet
            tableList := (cc (o tid) s.db.storage).tableList }]).map
              (Instr.work cc s.db.storage o)).sum =
          3 * (Instr.entries cc s.db.storage o (.invokeChaincode tid)).length := by
        simp only [Instr.entries]
        split <;> rfl
      simp only [hload, hbuf, Instr.work]
      omega
  | receiveNode tid result rwset => exact .done false rfl (by simp [Instr.work])
  | aggregate tid =>
      have ht : s.txns tid = o tid := htxn (tid, _) rfl
      refine .done false rfl ?_
      have hload : ((if (o tid).transactionResult = .abortNoRetry then [] else
          (reserveRequests (o tid).kvRWSet tid).map Instr.load).map (Instr.work cc D o)).sum =
          2 * (Instr.requests cc D o (.aggregate tid)).length := by
        simp only [Instr.requests]
        split
        · rfl
        · exact sum_work_map_load _
      simp only [ht, hload, Instr.work]
      omega
  | load r =>
      have hload : exec cc s (.load r) false =
          some (s, [.compareExchange r ((s.table e).reg r.side r.cell)]) := by
        simp only [Server.exec, (hfetch trivial).reserveTable_eq, Option.map_some]
      exact .done false hload (by simp [Instr.work])
  | compareExchange r old =>
      have hrt := (hfetch trivial).reserveTable_eq
      have hturn : ∀ old, exec cc s (.compareExchange r old) false = some
          ({ s with reserveTable := some ((s.table e).setReg r.side r.cell
              (casLoop ((s.table e).reg r.side r.cell) old r.tid false).1) },
            (casLoop ((s.table e).reg r.side r.cell) old r.tid false).2.toList.map
              (.compareExchange r)) := by
        intro old
        simp only [Server.exec, hrt, Option.map_some]
      cases hd : (casLoop ((s.table e).reg r.side r.cell) old r.tid false).2 with
      | none => exact .done false (hturn old) (by simp [hd, Instr.work])
      | some v =>
          -- the register had changed; it is as it was, and the second turn is the last
          obtain ⟨hfst, rfl⟩ := casLoop_retry hd
          have hsame := hturn old
          rw [hfst, setReg_self, ← hrt, hd] at hsame
          exact .again false hsame (.done false (hturn _) (by simp [casLoop_self, Instr.work]))
  | bufferUpdates b =>
      refine .done false rfl ?_
      cases s.db.commitPhase <;> simp [Instr.work]
  | clearBufferThreadSafe b => exact .done false rfl (by simp [Instr.work])
  | insertBuffer b => exact .done false rfl (by simp [Instr.work])
  | _ => cases hkind

/-- From wherever a phase of execution has got to, it can be run to its end. -/
theorem readPhase_completes {p : Pool EpochState Instr} (h : ReadSetup cc D e R B fin s programs)
    (hrun : run (Pool.step (exec cc)) { shared := s, threads := programs } as = some p) :
    ∃ as' s', runPhase (exec cc) s programs (as ++ as') = some s' := by
  refine runPhase_completes _ (Instr.work cc D s.txns)
    (fun _ _ _ hi hstep => ReadInv.step h.tids h.entries hi hstep)
    (fun before i rest after s' hi => ?_) (ReadInv.start h.state h.plan) hrun
  have hperm := flatten_thread_perm before after [i] rest
  exact exec_works (hi.kind i (hperm.mem_iff.mpr List.mem_cons_self)) hi.storage hi.fetched
    fun p => (hi.updating.perm hperm).txn_eq (p := p)

end ReadPhase

end NeuChain.Server
