/-
  View change in the cluster: servers vote over raft to exclude a client proxy from an epoch on.

  Each of the `n` servers leads one raft group. It appends to the log of its own group only
  (`raft::Chain::push` turns down any other), and it receives the logs of all groups, each in order, in
  whatever interleaving they arrive. So in every run of the cluster a server's control block is
  the result of one interleaving of what it has received (`received_interleaving`).

  * `view_change_agreement_iff`: servers agree on the exclusions in every interleaving exactly if there
    is only one log or the votes are `Lib.Stable`. Votes need not be: a proxy may have
    `f + 1` voters for each of two epochs, and the first to arrive decide
    (`view_change_disagreement`).
  * `view_change_quorum_valid`: with at most `f` Byzantine servers an exclusion has the vote of a
    correct server, if Byzantine servers vote under Byzantine addresses only. The control block
    does not compare the address in a vote with the group it came from, so one server can
    vote as many (`view_change_forged`).
-/
import NeuChain.Lib.Interleave
import NeuChain.Server.ConsensusControlBlock

namespace NeuChain.Server

open NeuChain Lib ConsensusControlBlock

/-! ## Agreement -/

/-- The same proxies are excluded, and from the same epochs on. -/
def SameView (cb cb' : ConsensusControlBlock) : Prop :=
  ∀ ip, cb.isValid ip = cb'.isValid ip ∧
    (cb.isValid ip = false → cb.firstInvalidEpoch ip = cb'.firstInvalidEpoch ip)

/-- Any two of `n` servers that receive the logs, in interleavings and at times of their own, end with
    the same view. -/
def ViewChangeAgrees (n : Nat) (logs : List (List TransactionsWithProof)) : Prop :=
  ∀ l l' : List (Time × TransactionsWithProof),
    Merge logs (l.map Prod.snd) → Merge logs (l'.map Prod.snd) →
    ∃ cb cb', (started n).recvAll l = some cb ∧ (started n).recvAll l' = some cb' ∧
      SameView cb cb'

theorem sameView_iff {cb cb' : ConsensusControlBlock} :
    SameView cb cb' ↔ cb.tally.verdict = cb'.tally.verdict := by
  have hcase : ∀ ip, (cb.isValid ip = cb'.isValid ip ∧
      (cb.isValid ip = false → cb.firstInvalidEpoch ip = cb'.firstInvalidEpoch ip)) ↔
      cb.tally.verdict ip = cb'.tally.verdict ip := by
    intro ip
    cases h : cb.isValid ip <;> cases h' : cb'.isValid ip <;> simp [tally, h, h']
  rw [funext_iff]
  exact forall_congr' hcase

/-- The clock has no part in a view change. -/
theorem viewChangeAgrees_iff {n : Nat} {logs : List (List TransactionsWithProof)} :
    ViewChangeAgrees n logs ↔ ∀ l l', Merge logs l → Merge logs l' →
      (Tally.count ((n - 1) / 3 + 1) (votes l)).verdict =
        (Tally.count ((n - 1) / 3 + 1) (votes l')).verdict := by
  constructor
  · intro h l l' hl hl'
    have hsnd : ∀ l : List TransactionsWithProof, (l.map fun m => ((0 : Time), m)).map Prod.snd = l := by
      intro l
      rw [List.map_map]
      exact List.map_id l
    rw [← hsnd l] at hl
    rw [← hsnd l'] at hl'
    obtain ⟨cb, cb', hcb, hcb', hview⟩ := h _ _ hl hl'
    rw [sameView_iff, tally_recvAll hcb, tally_recvAll hcb', hsnd, hsnd] at hview
    exact hview
  · intro h l l' hl hl'
    obtain ⟨cb, hcb⟩ := exists_recvAll (started n) l
    obtain ⟨cb', hcb'⟩ := exists_recvAll (started n) l'
    refine ⟨cb, cb', hcb, hcb', ?_⟩
    rw [sameView_iff, tally_recvAll hcb, tally_recvAll hcb']
    exact h _ _ hl hl'

/-- The messages that vote against `t` for epoch `e`. -/
def votesAgainst (t : Bytes) (e : Epoch) (m : TransactionsWithProof) : Bool :=
  m.vote?.any fun v => v.target = t ∧ v.since = e

theorem votes_filter_votesAgainst (msgs : List TransactionsWithProof) (t : Bytes) (e : Epoch) :
    votes (msgs.filter (votesAgainst t e)) = against (votes msgs) t e := by
  unfold votes against
  rw [List.filterMap_filter, List.filter_filterMap]
  congr 1
  funext m
  unfold votesAgainst
  cases m.vote? with
  | none => simp
  | some v => simp [Option.filter]

theorem votes_filter_not_votesAgainst (msgs : List TransactionsWithProof) (t : Bytes) (e : Epoch) :
    votes (msgs.filter fun m => !votesAgainst t e m) = otherwise (votes msgs) t e := by
  unfold votes otherwise
  rw [List.filterMap_filter, List.filter_filterMap]
  congr 1
  funext m
  unfold votesAgainst
  cases m.vote? with
  | none => simp
  | some v => simp [Option.filter]

theorem votes_append (l l' : List TransactionsWithProof) :
    votes (l ++ l') = votes l ++ votes l' := List.filterMap_append

/-- Whatever logs hold the messages `msgs`, the servers agree: this is so exactly if there is one
    log, or the votes among the messages are stable. -/
theorem view_change_agreement_iff (n : Nat) (msgs : List TransactionsWithProof) :
    (∀ logs : List (List TransactionsWithProof), logs.length = n → logs.flatten.Perm msgs →
      ViewChangeAgrees n logs) ↔
    n ≤ 1 ∨ Stable ((n - 1) / 3 + 1) (votes msgs) := by
  have hq : 1 ≤ (n - 1) / 3 + 1 := by omega
  constructor
  · intro h
    by_cases hn : n ≤ 1
    · exact Or.inl hn
    right
    have hagree : ∀ l l', l.Perm msgs → l'.Perm msgs →
        (Tally.count ((n - 1) / 3 + 1) (votes l)).verdict =
          (Tally.count ((n - 1) / 3 + 1) (votes l')).verdict :=
      fun l l' hl hl' => eq_of_merges (by omega)
        (fun logs hlen hp => viewChangeAgrees_iff.mp (h logs hlen hp)) hl hl'
    have hperm : ∀ t e, (msgs.filter (votesAgainst t e) ++
        msgs.filter fun m => !votesAgainst t e m).Perm msgs :=
      fun t e => List.filter_append_perm _ _
    refine stable_of_verdict_const hq (Tally.count ((n - 1) / 3 + 1) (votes msgs)).verdict
      (fun t e => ?_) (fun t e => ?_)
    · have := hagree _ msgs (hperm t e) (List.Perm.refl _)
      rwa [votes_append, votes_filter_votesAgainst, votes_filter_not_votesAgainst] at this
    · have := hagree _ msgs (List.perm_append_comm.trans (hperm t e)) (List.Perm.refl _)
      rwa [votes_append, votes_filter_votesAgainst, votes_filter_not_votesAgainst] at this
  · intro h logs hlen hp
    rw [viewChangeAgrees_iff]
    intro l l' hl hl'
    rcases h with hn | hst
    · rw [hl.eq_flatten (by omega), hl'.eq_flatten (by omega)]
    · have hperm : ∀ {l}, Merge logs l → (votes msgs).Perm (votes l) :=
        fun hl => (hp.symm.trans hl.perm).filterMap _
      rw [← verdict_perm_of_stable hq hst (hperm hl), ← verdict_perm_of_stable hq hst (hperm hl')]

/-- The vote of server `voter` against the proxy `target`. -/
def maliciousVote (voter target : Bytes) (epoch : Epoch) : TransactionsWithProof :=
  { epoch := epoch, type := .malicious, proof := target, ip := voter }

/-- Four servers. The first sees the proxy of the last silent from epoch 1 on, the third from epoch 2
    on, the second first the one and then the other. -/
def splitVoteLogs : List (List TransactionsWithProof) :=
  [[maliciousVote [1] [4] 1], [maliciousVote [2] [4] 1, maliciousVote [2] [4] 2],
    [maliciousVote [3] [4] 2], []]

theorem view_change_disagreement : ¬ ViewChangeAgrees 4 splitVoteLogs := by
  rw [viewChangeAgrees_iff]
  intro h
  have hfirst : Merge splitVoteLogs [maliciousVote [1] [4] 1, maliciousVote [2] [4] 1,
      maliciousVote [2] [4] 2, maliciousVote [3] [4] 2] := by
    refine .take (p := []) (.take (p := [[]]) (.take (p := [[]]) (.take (p := [[], []]) (.done ?_))))
    decide
  have hsecond : Merge splitVoteLogs [maliciousVote [3] [4] 2, maliciousVote [2] [4] 1,
      maliciousVote [2] [4] 2, maliciousVote [1] [4] 1] := by
    refine .take (p := [[maliciousVote [1] [4] 1],
      [maliciousVote [2] [4] 1, maliciousVote [2] [4] 2]]) (.take (p := [[maliciousVote [1] [4] 1]])
      (.take (p := [[maliciousVote [1] [4] 1]]) (.take (p := []) (.done ?_))))
    decide
  have hverdict := congrFun (h _ _ hfirst hsecond) [4]
  revert hverdict
  decide

/-! ## The cluster -/

/-- What a server hands to raft: a batch for a group. -/
structure PushRequest where
  id : Nat
  userRequest : List TransactionsWithProof

/-- The committed logs of the raft groups, how much of each log every server has received, and the
    control blocks. -/
structure Cluster where
  logs : Nat → List TransactionsWithProof
  received : Nat → Nat → Nat
  block : Nat → ConsensusControlBlock

inductive ClusterAction where
  | push (server : Nat) (request : PushRequest)
  | receive (server group : Nat) (now : Time)

namespace Cluster

def initial (n : Nat) : Cluster where
  logs _ := []
  received _ _ := 0
  block _ := started n

/-- `Chain::push` at `server`, which leads the group of its own number. -/
def push (c : Cluster) (server : Nat) (request : PushRequest) : Cluster :=
  if request.id ≠ server then c  -- wrong leader group
  else { c with logs := Function.update c.logs server (c.logs server ++ request.userRequest) }

/-- `server` has received one more message of `group`, after which its control block is `cb`. -/
def deliver (c : Cluster) (server group : Nat) (cb : ConsensusControlBlock) : Cluster :=
  { c with
    received := Function.update c.received server
      (Function.update (c.received server) group (c.received server group + 1))
    block := Function.update c.block server cb }

/-- One step of `n` servers. -/
def step (n : Nat) (c : Cluster) : ClusterAction → Option Cluster
  | .push server request => if server < n then some (c.push server request) else none
  | .receive server group now =>
      if server < n ∧ group < n then
        (c.logs group)[c.received server group]?.bind fun m =>
          ((c.block server).recvProofSet now m).map (c.deliver server group)
      else none

/-- What `server` has received of each log. -/
def taken (n : Nat) (c : Cluster) (server : Nat) : List (List TransactionsWithProof) :=
  (List.range n).map fun group => (c.logs group).take (c.received server group)

/-- The control block of every server comes from an interleaving of what it has received. -/
structure Inv (n : Nat) (c : Cluster) : Prop where
  received : ∀ server group, c.received server group ≤ (c.logs group).length
  block : ∀ server, ∃ l : List (Time × TransactionsWithProof),
    Merge (c.taken n server) (l.map Prod.snd) ∧ (started n).recvAll l = some (c.block server)

variable {n : Nat} {c c' : Cluster} {a : ClusterAction} {as : List ClusterAction}

theorem step_push {server : Nat} {request : PushRequest}
    (h : step n c (.push server request) = some c') : server < n ∧ c' = c.push server request := by
  simp only [step] at h
  split at h
  · rename_i hlt
    cases h
    exact ⟨hlt, rfl⟩
  · cases h

theorem step_receive {server group : Nat} {now : Time}
    (h : step n c (.receive server group now) = some c') :
    ∃ m cb, group < n ∧ (c.logs group)[c.received server group]? = some m ∧
      (c.block server).recvProofSet now m = some cb ∧ c' = c.deliver server group cb := by
  simp only [step] at h
  split at h
  · rename_i hlt
    obtain ⟨m, hm, h⟩ := Option.bind_eq_some_iff.mp h
    obtain ⟨cb, hcb, rfl⟩ := Option.map_eq_some_iff.mp h
    exact ⟨m, cb, hlt.2, hm, hcb, rfl⟩
  · cases h

theorem inv_initial (n : Nat) : Inv n (initial n) := by
  refine ⟨fun _ _ => Nat.le_refl _, fun server => ⟨[], .done fun l hl => ?_, rfl⟩⟩
  obtain ⟨g, -, rfl⟩ := List.mem_map.mp hl
  rfl

/-- A push only adds to the end of a log. -/
theorem logs_push (c : Cluster) (server : Nat) (request : PushRequest) (g : Nat) :
    ∃ l, (c.push server request).logs g = c.logs g ++ l ∧
      (l = [] ∨ (g = server ∧ l = request.userRequest)) := by
  unfold push
  split
  · exact ⟨[], by simp⟩
  · by_cases hg : g = server
    · subst hg
      exact ⟨request.userRequest, by simp, Or.inr ⟨rfl, rfl⟩⟩
    · exact ⟨[], by simp [hg], Or.inl rfl⟩

theorem received_push (c : Cluster) (server : Nat) (request : PushRequest) :
    (c.push server request).received = c.received ∧ (c.push server request).block = c.block := by
  unfold push
  split <;> exact ⟨rfl, rfl⟩

theorem Inv.push (h : Inv n c) (server : Nat) (request : PushRequest) :
    Inv n (c.push server request) := by
  obtain ⟨hrec, hblock⟩ := received_push c server request
  have htaken : ∀ s, (c.push server request).taken n s = c.taken n s := by
    intro s
    unfold taken
    refine List.map_congr_left fun g _ => ?_
    obtain ⟨l, hl, -⟩ := logs_push c server request g
    rw [hl, hrec, List.take_append_of_le_length (h.received s g)]
  refine ⟨fun s g => ?_, fun s => ?_⟩
  · obtain ⟨l, hl, -⟩ := logs_push c server request g
    have := h.received s g
    rw [hl, hrec, List.length_append]
    omega
  · rw [htaken, hblock]
    exact h.block s

/-- Counting up `k` at `g` extends the logs taken by one message of `g`. -/
theorem map_range_take_snoc {α : Type*} {logs : Nat → List α} {n g : Nat} {x : α} (k : Nat → Nat)
    (hg : g < n) (hx : (logs g)[k g]? = some x) :
    ∃ p s, (List.range n).map (fun i => (logs i).take (k i)) = p ++ (logs g).take (k g) :: s ∧
      (List.range n).map (fun i => (logs i).take (Function.update k g (k g + 1) i)) =
        p ++ ((logs g).take (k g) ++ [x]) :: s := by
  have hsplit : List.range n = List.range g ++ g :: List.range' (g + 1) (n - (g + 1)) := by
    have hn : n = g + ((n - (g + 1)) + 1) := by omega
    conv_lhs => rw [hn, List.range_add, List.range_succ_eq_map]
    rw [List.map_cons, List.map_map, List.range'_eq_map_range]
    simp [Function.comp_def, Nat.add_comm, Nat.add_left_comm]
  have hne : ∀ i, i ≠ g → (logs i).take (Function.update k g (k g + 1) i) = (logs i).take (k i) :=
    fun i hi => by rw [Function.update_of_ne hi]
  refine ⟨(List.range g).map fun i => (logs i).take (k i),
    (List.range' (g + 1) (n - (g + 1))).map fun i => (logs i).take (k i), ?_, ?_⟩
  · rw [hsplit, List.map_append, List.map_cons]
  · rw [hsplit, List.map_append, List.map_cons, Function.update_self, List.take_add_one, hx]
    congr 1
    · refine List.map_congr_left fun i hi => hne i ?_
      have := List.mem_range.mp hi
      omega
    · congr 1
      refine List.map_congr_left fun i hi => hne i ?_
      have := (List.mem_range'_1.mp hi).1
      omega

theorem Inv.deliver {server group : Nat} {now : Time} {m : TransactionsWithProof}
    {cb : ConsensusControlBlock} (h : Inv n c) (hg : group < n)
    (hm : (c.logs group)[c.received server group]? = some m)
    (hcb : (c.block server).recvProofSet now m = some cb) : Inv n (c.deliver server group cb) := by
  have hbound : c.received server group < (c.logs group).length :=
    (List.getElem?_eq_some_iff.mp hm).1
  unfold Cluster.deliver
  refine ⟨fun s g => ?_, fun s => ?_⟩
  · have hsg := h.received s g
    by_cases hs : s = server
    · subst hs
      by_cases hgg : g = group
      · subst hgg
        simp only [Function.update_self]
        omega
      · simpa [hgg] using hsg
    · simpa [hs] using hsg
  · obtain ⟨l, hmerge, hl⟩ := h.block s
    unfold taken at hmerge ⊢
    by_cases hs : s = server
    · -- the message is the last one this server has received
      subst hs
      obtain ⟨p, r, hp, hp'⟩ := map_range_take_snoc (c.received s) hg hm
      refine ⟨l ++ [(now, m)], ?_, ?_⟩
      · simp only [Function.update_self]
        rw [hp', List.map_append]
        rw [hp] at hmerge
        exact hmerge.snoc m
      · simp only [Function.update_self]
        exact run_append_eq_some.mpr ⟨c.block s, hl, run_cons_eq_some.mpr ⟨cb, hcb, rfl⟩⟩
    · simp only [Function.update_of_ne hs]
      exact ⟨l, hmerge, hl⟩

theorem Inv.step (h : Inv n c) (hs : step n c a = some c') : Inv n c' := by
  cases a with
  | push server request =>
      obtain ⟨-, rfl⟩ := step_push hs
      exact h.push server request
  | receive server group now =>
      obtain ⟨m, cb, hg, hm, hcb, rfl⟩ := step_receive hs
      exact h.deliver hg hm hcb

/-- In every run, the control block of every server is the result of an interleaving of what the
    server has received of the logs. -/
theorem received_interleaving (h : run (step n) (initial n) as = some c) (server : Nat) :
    ∃ l : List (Time × TransactionsWithProof),
      Merge (c.taken n server) (l.map Prod.snd) ∧ (started n).recvAll l = some (c.block server) :=
  (run_invariant (Inv n) (fun _ _ _ hi hs => hi.step hs) h (inv_initial n)).block server

/-! ## Byzantine servers -/

/-- A correct server signs what it appends with its own address. -/
def CorrectPush (ips : Nat → Bytes) (byzantine : Finset Nat) : ClusterAction → Prop
  | .push server request => server ∉ byzantine → ∀ m ∈ request.userRequest, m.ip = ips server
  | .receive _ _ _ => True

/-- A Byzantine server votes under the address of a Byzantine server. -/
def UnforgedPush (ips : Nat → Bytes) (byzantine : Finset Nat) : ClusterAction → Prop
  | .push server request => server ∈ byzantine →
      ∀ m ∈ request.userRequest, m.type = .malicious → ∃ i ∈ byzantine, m.ip = ips i
  | .receive _ _ _ => True

/-- The log of a group holds what its own server has appended. -/
theorem mem_logs_of_run (h : run (step n) (initial n) as = some c) :
    ∀ g, ∀ m ∈ c.logs g, ∃ request, .push g request ∈ as ∧ m ∈ request.userRequest := by
  refine run_invariant_of_mem (fun c => ∀ g, ∀ m ∈ c.logs g, ∃ request,
    .push g request ∈ as ∧ m ∈ request.userRequest) ?_ h ?_
  · intro c a c' ha hi hs g m hm
    cases a with
    | push server request =>
        obtain ⟨-, rfl⟩ := step_push hs
        obtain ⟨l, hl, hnew⟩ := logs_push c server request g
        rw [hl, List.mem_append] at hm
        rcases hm with hm | hm
        · exact hi g m hm
        · rcases hnew with rfl | ⟨rfl, rfl⟩
          · cases hm
          · exact ⟨request, ha, hm⟩
    | receive server group now =>
        obtain ⟨_, _, -, -, -, rfl⟩ := step_receive hs
        exact hi g m hm
  · intro g m hm
    cases hm

theorem mem_votes {msgs : List TransactionsWithProof} {v : Vote Bytes Epoch} :
    v ∈ votes msgs ↔ ∃ m ∈ msgs, m.type = .malicious ∧ m.ip = v.voter ∧ m.proof = v.target ∧
      m.epoch = v.since := by
  unfold votes TransactionsWithProof.vote?
  rw [List.mem_filterMap]
  refine exists_congr fun m => and_congr_right fun _ => ?_
  split
  · rename_i hm
    simp only [hm, true_and, Option.some.injEq]
    constructor
    · rintro rfl
      exact ⟨rfl, rfl, rfl⟩
    · rintro ⟨h1, h2, h3⟩
      rw [h1, h2, h3]
  · rename_i hm
    simp [hm]

/-- A message that a server has received is in the log of some group. -/
theorem mem_logs_of_merge {server : Nat} {l : List TransactionsWithProof}
    (h : Merge (c.taken n server) l) {m : TransactionsWithProof} (hm : m ∈ l) :
    ∃ g < n, m ∈ c.logs g := by
  obtain ⟨t, ht, hmt⟩ := List.mem_flatten.mp (h.perm.mem_iff.mpr hm)
  obtain ⟨g, hg, rfl⟩ := List.mem_map.mp ht
  exact ⟨g, List.mem_range.mp hg, List.mem_of_mem_take hmt⟩

/-- With at most `f` Byzantine servers that vote under Byzantine addresses, whoever is excluded has
    the vote of a correct server, for this very epoch. -/
theorem view_change_quorum_valid (ips : Nat → Bytes) (byzantine : Finset Nat)
    (hbyz : byzantine.card ≤ (n - 1) / 3) (h : run (step n) (initial n) as = some c)
    (hcorrect : ∀ a ∈ as, CorrectPush ips byzantine a)
    (hunforged : ∀ a ∈ as, UnforgedPush ips byzantine a) (server : Nat) (p : Bytes) (e : Epoch)
    (hp : (c.block server).isValid p = false ∧ (c.block server).firstInvalidEpoch p = e) :
    ∃ s < n, s ∉ byzantine ∧ ∃ m ∈ c.logs s, m.type = .malicious ∧ m.ip = ips s ∧
      m.proof = p ∧ m.epoch = e := by
  obtain ⟨l, hmerge, hl⟩ := received_interleaving h server
  have hlogs := mem_logs_of_run h
  have hq : Quorum ((n - 1) / 3 + 1) (votes (l.map Prod.snd)) p e := by
    refine quorum_of_verdict (by omega) ?_
    rw [← tally_recvAll hl, verdict_eq_some]
    exact hp
  by_contra hnone
  -- otherwise all supporters are Byzantine addresses, fewer than a quorum
  have hsub : supporters (votes (l.map Prod.snd)) p e ⊆ byzantine.image ips := by
    intro s hs
    obtain ⟨m, hm, htype, hip, hproof, hepoch⟩ := mem_votes.mp (mem_supporters.mp hs)
    obtain ⟨g, hg, hmg⟩ := mem_logs_of_merge hmerge hm
    obtain ⟨request, hpush, hreq⟩ := hlogs g m hmg
    by_cases hgb : g ∈ byzantine
    · obtain ⟨i, hi, hmi⟩ := hunforged _ hpush hgb m hreq htype
      rw [Finset.mem_image]
      exact ⟨i, hi, hmi.symm.trans hip⟩
    · have hown := hcorrect _ hpush hgb m hreq
      exact absurd ⟨g, hg, hgb, m, hmg, htype, hown, hproof, hepoch⟩ hnone
  have hcard : (supporters (votes (l.map Prod.snd)) p e).card ≤ byzantine.card :=
    (Finset.card_le_card hsub).trans Finset.card_image_le
  have hle : (n - 1) / 3 + 1 ≤ (supporters (votes (l.map Prod.snd)) p e).card := hq
  omega

/-- The addresses of four servers. -/
def fourIps (server : Nat) : Bytes := [UInt8.ofNat (server + 1)]

/-- Servers 1 and 2 vote against the proxy of server 3, which receives both votes. -/
def honestVotes : List ClusterAction :=
  [.push 1 { id := 1, userRequest := [maliciousVote (fourIps 1) (fourIps 3) 1] },
    .push 2 { id := 2, userRequest := [maliciousVote (fourIps 2) (fourIps 3) 1] },
    .receive 3 1 0, .receive 3 2 0]

theorem view_change_quorum_valid_four :
    ∃ c, run (step 4) (initial 4) honestVotes = some c ∧
      ∃ s < 4, s ∉ ({0} : Finset Nat) ∧ ∃ m ∈ c.logs s, m.type = .malicious ∧
        m.ip = fourIps s ∧ m.proof = fourIps 3 ∧ m.epoch = 1 := by
  have hrun : (run (step 4) (initial 4) honestVotes).any fun c =>
      (c.block 3).isValid (fourIps 3) = false ∧ (c.block 3).firstInvalidEpoch (fourIps 3) = 1 := by
    decide
  obtain ⟨c, hc, hp⟩ := exists_of_any hrun
  refine ⟨c, hc, view_change_quorum_valid fourIps {0} (by decide) hc ?_ ?_ 3 _ _
    hp⟩
  · simp [honestVotes, CorrectPush, maliciousVote]
  · simp [honestVotes, UnforgedPush]

/-- Server 0 is Byzantine and votes as servers 1 and 2. Server 3 receives both votes. -/
def forgedVotes : List ClusterAction :=
  [.push 0 { id := 0, userRequest :=
      [maliciousVote (fourIps 1) (fourIps 3) 1, maliciousVote (fourIps 2) (fourIps 3) 1] },
    .receive 3 0 0, .receive 3 0 0]

/-- One Byzantine server of four excludes a proxy against which no correct server has voted. -/
theorem view_change_forged :
    (∀ a ∈ forgedVotes, CorrectPush fourIps {0} a) ∧
    ∃ c, run (step 4) (initial 4) forgedVotes = some c ∧
      ((c.block 3).isValid (fourIps 3) = false ∧ (c.block 3).firstInvalidEpoch (fourIps 3) = 1) ∧
      ∀ s, s ∉ ({0} : Finset Nat) → c.logs s = [] := by
  have hrun : (run (step 4) (initial 4) forgedVotes).any fun c =>
      (c.block 3).isValid (fourIps 3) = false ∧ (c.block 3).firstInvalidEpoch (fourIps 3) = 1 := by
    decide
  obtain ⟨c, hc, hp⟩ := exists_of_any hrun
  refine ⟨by simp [forgedVotes, CorrectPush], c, hc, hp, fun s hs => ?_⟩
  -- only server 0 appends anything
  refine List.eq_nil_iff_forall_not_mem.mpr fun m hm => hs ?_
  obtain ⟨request, hpush, -⟩ := mem_logs_of_run hc s m hm
  simp only [forgedVotes, List.mem_cons, List.not_mem_nil, or_false, ClusterAction.push.injEq,
    reduceCtorEq] at hpush
  rw [Finset.mem_singleton]
  exact hpush.1

end Cluster

end NeuChain.Server
