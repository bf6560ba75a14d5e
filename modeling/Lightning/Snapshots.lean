import Mathlib.Data.List.Chain
import Mathlib.Logic.Relation
import Lightning.Affordability

/-!
# What one step does to the states a peer keeps

A peer keeps channel states in four places: its two staging states and the commits of its two
chains. One step of `Lightning.Machine`, whatever its input, changes each staging state by at
most one funding operation or one replay of `apply_changeset` (`StagingMove`), and each chain
only by pushing a commit that copies its side's staging state, or by updating the revocation
preimage or the unacked changes of its commits (`ChainMove`). That is `Peer.Moves.step`, and
every invariant of the kept states below is derived from it:

* `Machine.Runs.keeps`: a property that the funding operations keep (`FundingClosed`) holds of
  every state a peer keeps, all along every run against any remote peer, once it holds where the
  run starts;
* `peer_history_append_only`: along every run, each chain's commits keep their numbers,
  revocation hashes, states and signatures, the chain as it was being the tail of the chain as
  it is; the preimages received and the packets queued only grow at the end;
* `snapshot_ids_unique`: in every state reached with fresh ids for our adds, the HTLC ids each
  side offered are unique in both staging states and in the state of every commit (§8,
  property 2).
-/

namespace Lightning

/-! ### The moves of one step -/

/-- What a commit is made with, which nothing changes afterwards: its number, its revocation
hash, its state and its signature. -/
def CommitInfo.record (ci : CommitInfo) : UInt64 × Sha256 × ChannelState × Option Signature :=
  (ci.commitNum, ci.revocationHash, ci.cstate, ci.sig)

/-- **How one step changes a staging state**: not at all, by one funding operation, or by a
replay. -/
inductive StagingMove (host : Host) : ChannelState → ChannelState → Prop
  | stay (cs : ChannelState) : StagingMove host cs cs
  | add {cs cs' : ChannelState} {m : Nat} {e : AbsLocktime} {r : Sha256} {id : UInt64} {s : Side}
      {h : ChannelHtlc} :
      fundingAddHtlc host.afford cs m e r id s = some (cs', h) → StagingMove host cs cs'
  | fail (cs : ChannelState) (n : Nat) (s : Side) : StagingMove host cs (fundingFailHtlc cs n s)
  | fulfill (cs : ChannelState) (n : Nat) (s : Side) :
      StagingMove host cs (fundingFulfillHtlc cs n s)
  | replay {cs cs' : ChannelState} {side : Side} {l : List HtlcStaging} :
      applyChangeset host side cs l = some cs' → StagingMove host cs cs'

/-- **How one step changes a commit chain** whose side's staging state is `cs`: its commits keep
their records, and at most one commit is pushed, holding `cs`, whose changes counter differs
from the newest commit's. -/
inductive ChainMove (cs : ChannelState) (chain : List CommitInfo) : List CommitInfo → Prop
  | keep {chain' : List CommitInfo} :
      chain'.map CommitInfo.record = chain.map CommitInfo.record → ChainMove cs chain chain'
  | push {ci prev : CommitInfo} {older chain' : List CommitInfo} : chain = prev :: older →
      prev.cstate.changes ≠ cs.changes → ci.cstate = cs →
      chain'.map CommitInfo.record = chain.map CommitInfo.record →
      ChainMove cs chain (ci :: chain')

/-- **The moves of one step** on the four places a peer keeps states, on the preimages it has
received, and on its outgoing queue, which only grow. -/
structure Peer.Moves (host : Host) (p p' : Peer) : Prop where
  localStaging : StagingMove host p.local.stagingCstate p'.local.stagingCstate
  remoteStaging : StagingMove host p.remote.stagingCstate p'.remote.stagingCstate
  localChain : ChainMove p.local.stagingCstate p.local.commit p'.local.commit
  remoteChain : ChainMove p.remote.stagingCstate p.remote.commit p'.remote.commit
  preimages : p.theirPreimages.known <+: p'.theirPreimages.known
  outpkt : p.outpkt <+: p'.outpkt

section
variable {cs : ChannelState} {chain older : List CommitInfo} {ci ci' tip : CommitInfo}

theorem ChainMove.refl : ChainMove cs chain chain := .keep rfl

/-- A change joins the unacked list of the newest commit. -/
theorem ChainMove.withUnacked (hc : chain = ci :: older) (s : HtlcStaging) :
    ChainMove cs chain (ci.withUnacked s :: older) :=
  .keep (by simp [hc, CommitInfo.withUnacked, CommitInfo.record])

/-- The previous commit is revoked: its preimage or unacked list is updated. -/
theorem ChainMove.revoke (hc : chain = tip :: ci :: older) (he : ci'.record = ci.record) :
    ChainMove cs chain (tip :: ci' :: older) :=
  .keep (by simp [hc, he])

/-- A commit holding `cs` is pushed. -/
theorem ChainMove.push' (hc : chain = tip :: older) (hne : tip.cstate.changes ≠ cs.changes)
    (he : ci.cstate = cs) : ChainMove cs chain (ci :: tip :: older) :=
  .push hc hne he (by rw [hc])

end

theorem Peer.Moves.queuePkt {host : Host} (p : Peer) (e : Pkt) :
    Peer.Moves host p (p.queuePkt e) :=
  ⟨.stay _, .stay _, .refl, .refl, List.prefix_refl _, List.prefix_append _ _⟩

section
variable {host : Host} {m m' : Machine}

/-- **Moves of our commands.** -/
theorem Peer.Moves.command {i : Input} (hi : ∀ q, i ≠ .pkt q) (hs : m.step host i = some m') :
    Peer.Moves host m.peer m'.peer := by
  cases i with
  | htlcAdd x =>
    obtain ⟨-, -, p, hq, rfl⟩ := Machine.step_htlcAdd hs
    obtain ⟨ha, ci, older, hc, rfl⟩ := queuePktHtlcAdd_eq_some hq
    exact ⟨.stay _, .add (fundingAddHtlc_eq_some.2 ⟨ha, rfl⟩), .refl, .withUnacked hc _,
      List.prefix_refl _, List.prefix_append _ _⟩
  | htlcFulfill id r =>
    obtain ⟨-, -, p, hq, rfl⟩ := Machine.step_htlcFulfill hs
    obtain ⟨n, ci, older, -, hc, rfl⟩ := queuePktHtlcFulfill_eq_some hq
    exact ⟨.stay _, .fulfill _ _ _, .refl, .withUnacked hc _,
      List.prefix_refl _, List.prefix_append _ _⟩
  | htlcFail id =>
    obtain ⟨-, -, p, hq, rfl⟩ := Machine.step_htlcFail hs
    obtain ⟨n, ci, older, -, hc, rfl⟩ := queuePktHtlcFail_eq_some hq
    exact ⟨.stay _, .fail _ _ _, .refl, .withUnacked hc _,
      List.prefix_refl _, List.prefix_append _ _⟩
  | commit =>
    obtain ⟨-, -, -, p, hq, rfl⟩ := Machine.step_commit hs
    obtain ⟨prev, older, hc, hne, rfl⟩ := queuePktCommit_eq_some hq
    exact ⟨.stay _, .stay _, .refl, .push' hc hne rfl,
      List.prefix_refl _, List.prefix_append _ _⟩
  | revocation =>
    obtain ⟨-, -, p, hq, rfl⟩ := Machine.step_revocation hs
    obtain ⟨tip, ci, older, cs, hc, -, -, hcs, rfl⟩ := queuePktRevocation_eq_some hq
    exact ⟨.stay _, .replay hcs, .revoke hc rfl, .refl,
      List.prefix_refl _, List.prefix_append _ _⟩
  | pkt q => exact absurd rfl (hi q)

/-- **Moves of their packets**: an accepted one changes our staging state by a funding
operation or a replay, or copies it into a new commit of ours; a rejected one changes no state,
and at most records a preimage. -/
theorem Peer.Moves.receive {q : Pkt} (hs : m.receive host q = some m') :
    Peer.Moves host m.peer m'.peer := by
  cases q with
  | updateAddHtlc u =>
    rcases Machine.accept_eq_some hs with ⟨p, hq, rfl⟩ | ⟨p, e, hq, rfl⟩
    · obtain ⟨e, ci, older, -, -, -, -, -, -, -, ha, hc, rfl⟩ := acceptPktHtlcAdd_ok hq
      exact ⟨.add (fundingAddHtlc_eq_some.2 ⟨ha, rfl⟩), .stay _, .withUnacked hc _, .refl,
        List.prefix_refl _, List.prefix_refl _⟩
    · exact acceptPktHtlcAdd_error hq ▸ .queuePkt _ e
  | updateFulfillHtlc f =>
    rcases Machine.accept_eq_some hs with ⟨p, hq, rfl⟩ | ⟨p, e, hq, rfl⟩
    · obtain ⟨n, h, ci, older, -, -, -, hc, rfl⟩ := acceptPktHtlcFulfill_ok hq
      exact ⟨.fulfill _ _ _, .stay _, .withUnacked hc _, .refl,
        List.prefix_refl _, List.prefix_refl _⟩
    · exact acceptPktHtlcFulfill_error hq ▸ .queuePkt _ e
  | updateFailHtlc f =>
    rcases Machine.accept_eq_some hs with ⟨p, hq, rfl⟩ | ⟨p, e, hq, rfl⟩
    · obtain ⟨n, ci, older, -, hc, rfl⟩ := acceptPktHtlcFail_ok hq
      exact ⟨.fail _ _ _, .stay _, .withUnacked hc _, .refl,
        List.prefix_refl _, List.prefix_refl _⟩
    · exact acceptPktHtlcFail_error hq ▸ .queuePkt _ e
  | updateCommit c =>
    simp only [Machine.receive] at hs
    rcases Machine.accept_eq_some hs with ⟨p, hq, rfl⟩ | ⟨p, e, hq, rfl⟩
    · obtain ⟨prev, older, hc, hne, -, -, rfl⟩ := acceptPktCommit_ok hq
      exact ⟨.stay _, .stay _, .push' hc hne rfl, .refl,
        List.prefix_refl _, List.prefix_refl _⟩
    · exact acceptPktCommit_error hq ▸ .queuePkt _ e
  | updateRevocation r =>
    obtain ⟨-, hs⟩ := Machine.receive_updateRevocation hs
    rcases Machine.accept_eq_some hs with ⟨p, hq, rfl⟩ | ⟨p, e, hq, rfl⟩
    · obtain ⟨tip, ci, older, chain, cs, hc, -, -, hch, hcs, rfl⟩ := acceptPktRevocation_ok hq
      exact ⟨.replay hcs, .stay _, .refl, .revoke hc rfl,
        shachainAddHash_eq_some hch ▸ List.prefix_append _ _, List.prefix_refl _⟩
    · rcases acceptPktRevocation_error hq with rfl | ⟨tip, ci, older, hc, -, -, -, rfl⟩
      · exact .queuePkt _ e
      · exact ⟨.stay _, .stay _, .refl, .revoke hc rfl, List.prefix_refl _,
          List.prefix_append _ _⟩
  | _ => cases hs

/-- **Step lemma**: every step of a peer is one move of each place it keeps states. -/
theorem Peer.Moves.step {i : Input} (hs : m.step host i = some m') :
    Peer.Moves host m.peer m'.peer := by
  cases i with
  | pkt q => exact .receive (Machine.step_pkt hs).2.2
  | _ => exact .command (fun _ h => by cases h) hs

end

/-- The runs of one peer against any remote peer: any inputs, from any state. -/
def Machine.Runs (host : Host) : Machine → Machine → Prop :=
  Relation.ReflTransGen fun m m' => ∃ i, m.step host i = some m'

/-- Our add of 100, their add of 100 and their commit, at the fee rule of §4.1. -/
theorem runs_awaitingReplay : Machine.Runs feeHost fundedMachine awaitingReplay :=
  .tail (.tail (.single ⟨.htlcAdd ourHtlc, rfl⟩) ⟨.pkt (.updateAddHtlc theirAdd), rfl⟩)
    ⟨.pkt (.updateCommit ⟨⟨0⟩⟩), rfl⟩

/-! ### History -/

section
variable {cs : ChannelState} {chain chain' : List CommitInfo}

/-- The chain as it was is the tail of the chain after a move. -/
theorem ChainMove.suffix (h : ChainMove cs chain chain') :
    chain.map CommitInfo.record <:+ chain'.map CommitInfo.record := by
  cases h with
  | keep hm => rw [hm]
  | push _ _ _ hm =>
    rw [List.map_cons, hm]
    exact List.suffix_cons _ _

/-- A state of a commit after a move is `cs` or the state of a commit before it. -/
theorem ChainMove.cstate_mem (h : ChainMove cs chain chain') {ci : CommitInfo}
    (hci : ci ∈ chain') : ci.cstate = cs ∨ ∃ c ∈ chain, c.cstate = ci.cstate := by
  have old : ∀ {l : List CommitInfo}, l.map CommitInfo.record = chain.map CommitInfo.record →
      ci ∈ l → ∃ c ∈ chain, c.cstate = ci.cstate := fun hm hl => by
    obtain ⟨c, hc, he⟩ := List.mem_map.1 (hm ▸ List.mem_map_of_mem CommitInfo.record hl)
    exact ⟨c, hc, congrArg (fun r => r.2.2.1) he⟩
  cases h with
  | keep hm => exact .inr (old hm hci)
  | push _ _ he hm =>
    rcases List.mem_cons.1 hci with rfl | hci
    · exact .inl he
    · exact .inr (old hm hci)

end

/-- **Nothing a peer has committed to, received or queued is lost or rewritten.** Along every
run of one peer, against any remote peer, each chain's commits keep their numbers, revocation
hashes, states and signatures, so that the chain as it was is the tail of the chain as it is;
only a commit's revocation preimage and unacked changes are ever updated. The revocation
preimages received and the packets queued only grow at the end. -/
theorem peer_history_append_only {host : Host} {m m' : Machine} (hr : Machine.Runs host m m') :
    m.peer.local.commit.map CommitInfo.record <:+ m'.peer.local.commit.map CommitInfo.record ∧
      m.peer.remote.commit.map CommitInfo.record <:+
        m'.peer.remote.commit.map CommitInfo.record ∧
      m.peer.theirPreimages.known <+: m'.peer.theirPreimages.known ∧
      m.peer.outpkt <+: m'.peer.outpkt := by
  induction hr with
  | refl =>
    exact ⟨List.suffix_refl _, List.suffix_refl _, List.prefix_refl _, List.prefix_refl _⟩
  | tail _ hs ih =>
    obtain ⟨i, hs⟩ := hs
    have hm := Peer.Moves.step hs
    exact ⟨ih.1.trans hm.localChain.suffix, ih.2.1.trans hm.remoteChain.suffix,
      ih.2.2.1.trans hm.preimages, ih.2.2.2.trans hm.outpkt⟩

theorem peer_history_after_adds :
    Machine.Runs feeHost fundedMachine awaitingReplay ∧
      (fundedMachine.peer.local.commit.map CommitInfo.record <:+
        awaitingReplay.peer.local.commit.map CommitInfo.record ∧
      fundedMachine.peer.remote.commit.map CommitInfo.record <:+
        awaitingReplay.peer.remote.commit.map CommitInfo.record ∧
      fundedMachine.peer.theirPreimages.known <+: awaitingReplay.peer.theirPreimages.known ∧
      fundedMachine.peer.outpkt <+: awaitingReplay.peer.outpkt) :=
  ⟨runs_awaitingReplay, peer_history_append_only runs_awaitingReplay⟩

/-! ### Properties of every kept state -/

/-- **`P` holds of every state `p` keeps**: both staging states and the state of every commit of
either chain. -/
structure Peer.Keeps (P : ChannelState → Prop) (p : Peer) : Prop where
  localStaging : P p.local.stagingCstate
  remoteStaging : P p.remote.stagingCstate
  localChain : ∀ ci ∈ p.local.commit, P ci.cstate
  remoteChain : ∀ ci ∈ p.remote.commit, P ci.cstate

/-- A move of a chain keeps `P` of its commits' states when its side's staging state has it. -/
theorem ChainMove.keeps {P : ChannelState → Prop} {cs : ChannelState}
    {chain chain' : List CommitInfo} (h : ChainMove cs chain chain') (hc : P cs)
    (hch : ∀ ci ∈ chain, P ci.cstate) : ∀ ci ∈ chain', P ci.cstate := fun ci hci => by
  rcases h.cstate_mem hci with he | ⟨c, hm, he⟩
  · exact he ▸ hc
  · exact he ▸ hch c hm

/-- **A property that the funding operations keep**, at the affordability rule `afford`. -/
structure FundingClosed (afford : ChannelState → Side → Nat → Bool)
    (P : ChannelState → Prop) : Prop where
  add {cs cs' : ChannelState} {m : Nat} {e : AbsLocktime} {r : Sha256} {id : UInt64} {s : Side}
    {h : ChannelHtlc} : fundingAddHtlc afford cs m e r id s = some (cs', h) → P cs → P cs'
  fail (cs : ChannelState) (n : Nat) (s : Side) : P cs → P (fundingFailHtlc cs n s)
  fulfill (cs : ChannelState) (n : Nat) (s : Side) : P cs → P (fundingFulfillHtlc cs n s)

section
variable {host : Host} {P : ChannelState → Prop} (hP : FundingClosed host.afford P)
include hP

theorem FundingClosed.applyChange {side : Side} {cs cs' : ChannelState} {c : HtlcStaging}
    (h : applyChange host side cs c = some cs') (hc : P cs) : P cs' := by
  cases c with
  | add x =>
    simp only [Lightning.applyChange] at h
    split at h
    · cases h
    · obtain ⟨⟨cs₁, y⟩, hf, rfl⟩ := Option.map_eq_some'.1 h
      exact hP.add hf hc
  | fail id =>
    obtain ⟨n, -, rfl⟩ := Option.map_eq_some'.1 h
    exact hP.fail _ _ _ hc
  | fulfill id r =>
    obtain ⟨n, -, rfl⟩ := Option.map_eq_some'.1 h
    exact hP.fulfill _ _ _ hc

/-- Replays keep it: each pass of `apply_changeset`'s loop does. -/
theorem FundingClosed.applyChangeset {side : Side} {cs cs' : ChannelState}
    {l : List HtlcStaging} (h : applyChangeset host side cs l = some cs') (hc : P cs) : P cs' := by
  induction l generalizing cs with
  | nil => exact Option.some.inj h ▸ hc
  | cons c l ih =>
    obtain ⟨cs₁, h₁, h₂⟩ := Option.bind_eq_some.1 h
    exact ih h₂ (hP.applyChange h₁ hc)

theorem StagingMove.keeps {cs cs' : ChannelState} (h : StagingMove host cs cs') (hc : P cs) :
    P cs' := by
  cases h with
  | stay => exact hc
  | add hf => exact hP.add hf hc
  | fail => exact hP.fail _ _ _ hc
  | fulfill => exact hP.fulfill _ _ _ hc
  | replay hr => exact hP.applyChangeset hr hc

/-- **Run lemma**: a property that the funding operations keep holds of every state kept all
along every run, once it holds of the states kept where the run starts. -/
theorem Machine.Runs.keeps {m m' : Machine} (hr : Machine.Runs host m m') (hk : m.peer.Keeps P) :
    m'.peer.Keeps P := by
  induction hr with
  | refl => exact hk
  | tail _ hs ih =>
    obtain ⟨i, hs⟩ := hs
    have hm := Peer.Moves.step hs
    exact ⟨hm.localStaging.keeps hP ih.1, hm.remoteStaging.keeps hP ih.2,
      hm.localChain.keeps ih.1 ih.3, hm.remoteChain.keeps ih.2 ih.4⟩

end

/-! ### The changes counter -/

/-- The changes counters of a chain's commits, newest first. -/
def Chain.changes (chain : List CommitInfo) : List Nat := chain.map (·.cstate.changes)

/-- **The changes counters of one side are ordered**: they strictly increase from each commit to
the next newer one, and none exceeds the staging state's. -/
def ChangesOrdered (cs : ChannelState) (chain : List CommitInfo) : Prop :=
  (Chain.changes chain).Chain' (· > ·) ∧ ∀ c ∈ Chain.changes chain, c ≤ cs.changes

/-- The funding operations never lower the changes counter. -/
theorem changes_fundingClosed (afford : ChannelState → Side → Nat → Bool) (k : Nat) :
    FundingClosed afford fun cs => k ≤ cs.changes where
  add hf h := by
    obtain ⟨-, hp⟩ := fundingAddHtlc_eq_some.1 hf
    obtain rfl := (Prod.mk.inj hp).1
    simp only [ChannelState.bump_changes, ChannelState.modify_changes]
    omega
  fail cs n s h := by
    unfold fundingFailHtlc
    split
    · exact h
    · simp only [ChannelState.bump_changes, ChannelState.modify_changes]
      omega
  fulfill cs n s h := by
    unfold fundingFulfillHtlc
    split
    · exact h
    · simp only [ChannelState.bump_changes, ChannelState.modify_changes]
      omega

section
variable {host : Host} {cs cs' : ChannelState} {chain chain' : List CommitInfo}

theorem StagingMove.changes_le (h : StagingMove host cs cs') : cs.changes ≤ cs'.changes :=
  h.keeps (changes_fundingClosed _ _) le_rfl

theorem Chain.changes_eq (h : chain'.map CommitInfo.record = chain.map CommitInfo.record) :
    Chain.changes chain' = Chain.changes chain := by
  simpa [Chain.changes, Function.comp_def, CommitInfo.record] using
    congrArg (List.map fun r => r.2.2.1.changes) h

/-- A move keeps the counters ordered, as its side's staging counter grows. -/
theorem ChainMove.changesOrdered (h : ChainMove cs chain chain') (hle : cs.changes ≤ cs'.changes)
    (ho : ChangesOrdered cs chain) : ChangesOrdered cs' chain' := by
  cases h with
  | keep hm =>
    rw [ChangesOrdered, Chain.changes_eq hm]
    exact ⟨ho.1, fun c hc => (ho.2 c hc).trans hle⟩
  | @push ci prev older chain' hc hne he hm =>
    subst hc
    obtain ⟨hch, hall⟩ := ho
    -- the pushed commit holds the staging state, whose counter is past the newest commit's
    have hlt : prev.cstate.changes < cs.changes :=
      lt_of_le_of_ne (hall _ (List.mem_cons_self _ _)) hne
    have hcc : Chain.changes (ci :: chain') = cs.changes :: Chain.changes (prev :: older) := by
      rw [← Chain.changes_eq hm, Chain.changes, List.map_cons, he]
      rfl
    rw [ChangesOrdered, hcc]
    exact ⟨List.chain'_cons.2 ⟨hlt, hch⟩,
      List.forall_mem_cons.2 ⟨hle, fun c hc => (hall c hc).trans hle⟩⟩

end

/-- **Commits strictly increase the changes counter.** In every state one peer reaches against
any remote peer, along each chain the commits' changes counters strictly increase from older to
newer, so that no commit repeats an earlier one's, and none exceeds its side's staging state's
(§8, property 6). -/
theorem commit_changes_increase {host : Host} {m : Machine} (h : Reachable host m) :
    ChangesOrdered m.peer.local.stagingCstate m.peer.local.commit ∧
      ChangesOrdered m.peer.remote.stagingCstate m.peer.remote.commit := by
  induction h with
  | init h =>
    obtain ⟨⟨c, d, hc, hd, -, -, hl, hr, -⟩, -⟩ := h
    exact ⟨by simp [ChangesOrdered, Chain.changes, hc, hl],
      by simp [ChangesOrdered, Chain.changes, hd, hr]⟩
  | step _ hs ih =>
    have hm := Peer.Moves.step hs
    exact ⟨hm.localChain.changesOrdered hm.localStaging.changes_le ih.1,
      hm.remoteChain.changesOrdered hm.remoteStaging.changes_le ih.2⟩

theorem commit_changes_after_adds :
    Reachable feeHost awaitingReplay ∧
      (ChangesOrdered awaitingReplay.peer.local.stagingCstate awaitingReplay.peer.local.commit ∧
        ChangesOrdered awaitingReplay.peer.remote.stagingCstate
          awaitingReplay.peer.remote.commit) :=
  ⟨reach_awaitingReplay.reachable, commit_changes_increase reach_awaitingReplay.reachable⟩

/-! ### Unique HTLC ids -/

/-- Each side's HTLC ids are unique. -/
def ChannelState.IdsUnique (cs : ChannelState) : Prop := ∀ s, (ids (cs.side s).htlcs).Nodup

/-- Both staging states of a peer reached with fresh ids have unique ids, by `StagingInv`. -/
theorem Reach.staging_idsUnique {host : Host} {is : List Input} {m : Machine}
    (h : Reach host is m) :
    m.peer.local.stagingCstate.IdsUnique ∧ m.peer.remote.stagingCstate.IdsUnique := by
  have hc := h.stagingInv.buffers.consistent
  exact ⟨fun s => by cases s; exacts [hc.nodupLo, hc.nodupLt],
    fun s => by cases s; exacts [hc.nodupRo, hc.nodupRt]⟩

/-- **HTLC ids are unique in every snapshot** (§8, property 2). In every state one peer reaches
against any remote peer, its adds using fresh ids, no two HTLCs offered by the same side share
an id, in either staging state or in the state of any commit of either chain. -/
theorem snapshot_ids_unique {host : Host} {is : List Input} {m : Machine} (h : Reach host is m) :
    m.peer.Keeps ChannelState.IdsUnique := by
  induction h with
  | init h =>
    obtain ⟨⟨c, d, hc, hd, hc0, hd0, hl, hr, -⟩, -⟩ := h
    have hf : ∀ ci : CommitInfo, ci.First → ci.cstate.IdsUnique := fun ci h s => by
      simp [h.2.1 s]
    exact ⟨hl ▸ hf c hc0, hr ▸ hf d hd0, by simp [hc, hf c hc0], by simp [hd, hf d hd0]⟩
  | step hr hf hs ih =>
    have hm := Peer.Moves.step hs
    have h₀ := hr.staging_idsUnique
    have h₁ := (Reach.step hr hf hs).staging_idsUnique
    exact ⟨h₁.1, h₁.2, hm.localChain.keeps h₀.1 ih.3, hm.remoteChain.keeps h₀.2 ih.4⟩

theorem snapshot_ids_after_adds :
    Reach feeHost replayRun awaitingReplay ∧ awaitingReplay.peer.Keeps ChannelState.IdsUnique :=
  ⟨reach_awaitingReplay, snapshot_ids_unique reach_awaitingReplay⟩

end Lightning
