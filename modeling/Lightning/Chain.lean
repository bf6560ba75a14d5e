import Lightning.Machine

/-!
# The commit chains

Each of a peer's two chains of `commit_info` keeps its shape over every run
(`commit_chains_well_formed`): numbered from `0`, one more at each commit; the newest commit
unrevoked, every commit older than its `prev` revoked with its unacked changes freed, and the
`prev` unrevoked only while its revocation is awaited; every commit after the root changes the
state. Their preimages hash to their revocation hashes, and once a commit of theirs has been
accepted our newest commit carries their signature. So the assertions of `queue_pkt_revocation`
and `accept_pkt_revocation` hold wherever the machine runs them (`RevocationAsserts`).

The four things a handler does to a chain each keep `Chain.WellFormed`: add a change to the
newest commit (`WellFormed.withUnacked`), push a commit (`WellFormed.push`), revoke the `prev`
(`WellFormed.revoke`), or record a preimage on it and stop (`WellFormed.record`).
-/

namespace Lightning

namespace Chain

/-- Numbered from `0` at the root, each commit one after its `prev`. -/
def Numbered : List CommitInfo → Prop
  | [] => True
  | [ci] => ci.commitNum = 0
  | ci :: prev :: older => ci.commitNum = prev.commitNum + 1 ∧ Numbered (prev :: older)

/-- Each commit after the root holds a state whose `changes` differ from its `prev`'s. -/
def Changing : List CommitInfo → Prop
  | ci :: prev :: older => ci.cstate.changes ≠ prev.cstate.changes ∧ Changing (prev :: older)
  | _ => True

/-- The shape of a commit chain; `pending` says whether the revocation of its `prev` is
awaited. -/
structure WellFormed (chain : List CommitInfo) (pending : Bool) : Prop where
  nonempty : chain ≠ []
  numbered : Numbered chain
  changing : Changing chain
  tipUnrevoked : ∀ ci ∈ chain.head?, ci.revocationPreimage = none
  olderRevoked : ∀ ci ∈ chain.drop 2, ci.revocationPreimage.isSome ∧ ci.unackedChanges = none
  prevUnrevoked : ∀ ci ∈ chain[1]?, ci.revocationPreimage = none → pending = true
  prevFreed : pending = false → ∀ ci ∈ chain[1]?, ci.unackedChanges = none

variable {ci tip prev : CommitInfo} {older : List CommitInfo} {b : Bool}

theorem numbered_cons (h : Numbered (ci :: older)) (h' : ci'.commitNum = ci.commitNum) :
    Numbered (ci' :: older) := by
  cases older with
  | nil => exact h'.trans h
  | cons prev older => exact ⟨h'.trans h.1, h.2⟩

theorem changing_cons (h : Changing (ci :: older)) (h' : ci'.cstate.changes = ci.cstate.changes) :
    Changing (ci' :: older) := by
  cases older with
  | nil => trivial
  | cons prev older => exact ⟨fun he => h.1 (h'.symm.trans he), h.2⟩

theorem WellFormed.withUnacked (h : WellFormed (ci :: older) b) (s : HtlcStaging) :
    WellFormed (ci.withUnacked s :: older) b where
  nonempty := by simp
  numbered := numbered_cons h.numbered rfl
  changing := changing_cons h.changing rfl
  tipUnrevoked := by simpa [CommitInfo.withUnacked] using h.tipUnrevoked
  olderRevoked := h.olderRevoked
  prevUnrevoked := h.prevUnrevoked
  prevFreed := h.prevFreed

theorem WellFormed.push (h : WellFormed (prev :: older) false) {ci : CommitInfo}
    (hn : ci.commitNum = prev.commitNum + 1) (hc : ci.cstate.changes ≠ prev.cstate.changes)
    (hp : ci.revocationPreimage = none) : WellFormed (ci :: prev :: older) true where
  nonempty := by simp
  numbered := ⟨hn, h.numbered⟩
  changing := ⟨hc, h.changing⟩
  tipUnrevoked := by simpa using hp
  olderRevoked := by
    intro c hc'
    cases older with
    | nil => simp at hc'
    | cons o older =>
      simp only [List.drop_succ_cons, List.drop_zero, List.mem_cons] at hc'
      rcases hc' with rfl | hc'
      · have hu := h.prevUnrevoked c (by simp)
        exact ⟨by cases hr : c.revocationPreimage <;> simp_all, h.prevFreed rfl c (by simp)⟩
      · exact h.olderRevoked c (by simpa using hc')
  prevUnrevoked := fun _ _ _ => rfl
  prevFreed := fun h => by cases h

theorem WellFormed.revoke (h : WellFormed (tip :: ci :: older) b) (x : Sha256) :
    WellFormed (tip :: { ci with revocationPreimage := some x, unackedChanges := none } :: older)
      false where
  nonempty := by simp
  numbered := ⟨h.numbered.1, numbered_cons h.numbered.2 rfl⟩
  changing := ⟨h.changing.1, changing_cons h.changing.2 rfl⟩
  tipUnrevoked := h.tipUnrevoked
  olderRevoked := h.olderRevoked
  prevUnrevoked := by simp
  prevFreed := by simp

theorem WellFormed.record (h : WellFormed (tip :: ci :: older) true) (x : Sha256) :
    WellFormed (tip :: { ci with revocationPreimage := some x } :: older) true where
  nonempty := by simp
  numbered := ⟨h.numbered.1, numbered_cons h.numbered.2 rfl⟩
  changing := ⟨h.changing.1, changing_cons h.changing.2 rfl⟩
  tipUnrevoked := h.tipUnrevoked
  olderRevoked := h.olderRevoked
  prevUnrevoked := fun _ _ _ => rfl
  prevFreed := fun h => by cases h

theorem WellFormed.first {ci : CommitInfo} (h : ci.First) : WellFormed [ci] false where
  nonempty := by simp
  numbered := h.1
  changing := trivial
  tipUnrevoked := by simpa using h.2.2.2
  olderRevoked := by simp
  prevUnrevoked := by simp
  prevFreed := by simp

end Chain

/-! ### Each chain with the flag that guards it -/

section
variable {host : Host} {script : Script} {key : Pubkey} {ci tip prev : CommitInfo}
  {older chain : List CommitInfo} {due committing broken : Bool}

/-- Our chain (`local.commit`), with `due` set while a revocation is due: well formed; a `prev`
to revoke while one is due; a tip that carries their signature under `key`, spending the anchor
through `script`, once it is not the root. -/
structure LocalChain (host : Host) (script : Script) (key : Pubkey) (chain : List CommitInfo)
    (due : Bool) : Prop where
  wellFormed : Chain.WellFormed chain due
  prevDue : due = true → ∃ tip ci older, chain = tip :: ci :: older ∧ ci.revocationPreimage = none
  signed : ∀ tip ∈ chain.head?, 2 ≤ chain.length →
    ∃ s, tip.sig = some s ∧ host.checkTxSig (tip.tx .ours) script key s = true

/-- Their chain (`remote.commit`), with `committing` set while our commit is outstanding: well
formed; a `prev` to revoke while one is outstanding, until the peer breaks down; every preimage
hashing to its commit's revocation hash. -/
structure RemoteChain (host : Host) (chain : List CommitInfo) (committing broken : Bool) :
    Prop where
  wellFormed : Chain.WellFormed chain committing
  prevOutstanding : broken = false → committing = true →
    ∃ tip ci older, chain = tip :: ci :: older ∧ ci.revocationPreimage = none
  preimagesHash : ∀ ci ∈ chain, ∀ x, ci.revocationPreimage = some x →
    host.sha256 x = ci.revocationHash

theorem LocalChain.withUnacked (h : LocalChain host script key chain due) (hc : chain = ci :: older)
    (s : HtlcStaging) : LocalChain host script key (ci.withUnacked s :: older) due := by
  subst hc
  refine ⟨h.wellFormed.withUnacked s, fun hd => ?_, ?_⟩
  · obtain ⟨tip, c, o, he, hc⟩ := h.prevDue hd
    cases he
    exact ⟨_, c, o, rfl, hc⟩
  · simpa [CommitInfo.withUnacked, CommitInfo.tx] using h.signed

theorem LocalChain.push (h : LocalChain host script key chain false) (hc : chain = prev :: older)
    {rh : Sha256} {cs : ChannelState} {sig : Signature} (hne : prev.cstate.changes ≠ cs.changes)
    (hs : host.checkTxSig ((prev.next rh cs).tx .ours) script key sig = true) :
    LocalChain host script key ({ prev.next rh cs with sig := some sig } :: prev :: older)
      true := by
  subst hc
  exact ⟨h.wellFormed.push rfl (Ne.symm hne) rfl,
    fun _ => ⟨_, prev, older, rfl, h.wellFormed.tipUnrevoked prev rfl⟩, by simpa using hs⟩

theorem LocalChain.revoke (h : LocalChain host script key chain due)
    (hc : chain = tip :: ci :: older) (x : Sha256) : LocalChain host script key
      (tip :: { ci with revocationPreimage := some x, unackedChanges := none } :: older) false := by
  subst hc
  exact ⟨h.wellFormed.revoke x, by simp, by simpa using h.signed⟩

theorem RemoteChain.withUnacked (h : RemoteChain host chain committing broken)
    (hc : chain = ci :: older) (s : HtlcStaging) :
    RemoteChain host (ci.withUnacked s :: older) committing broken := by
  subst hc
  refine ⟨h.wellFormed.withUnacked s, fun hb hc => ?_, ?_⟩
  · obtain ⟨tip, c, o, he, hc⟩ := h.prevOutstanding hb hc
    cases he
    exact ⟨_, c, o, rfl, hc⟩
  · simpa [CommitInfo.withUnacked] using h.preimagesHash

theorem RemoteChain.push (h : RemoteChain host chain false broken) (hc : chain = prev :: older)
    {rh : Sha256} {cs : ChannelState} (sig : Signature) (hne : prev.cstate.changes ≠ cs.changes) :
    RemoteChain host ({ prev.next rh cs with sig := some sig } :: prev :: older) true broken := by
  subst hc
  exact ⟨h.wellFormed.push rfl (Ne.symm hne) rfl,
    fun _ _ => ⟨_, prev, older, rfl, h.wellFormed.tipUnrevoked prev rfl⟩,
    by simpa [CommitInfo.next, newCommitInfo] using h.preimagesHash⟩

/-- The preimages of `tip :: ci :: older` still hash right once `ci` takes a preimage `x` that
hashes to its revocation hash. -/
theorem preimagesHash_prev {x : Sha256} (hx : host.sha256 x = ci.revocationHash)
    (h : ∀ c ∈ tip :: ci :: older, ∀ y, c.revocationPreimage = some y →
      host.sha256 y = c.revocationHash) (u : Option (List HtlcStaging)) :
    ∀ c ∈ tip :: { ci with revocationPreimage := some x, unackedChanges := u } :: older, ∀ y,
      c.revocationPreimage = some y → host.sha256 y = c.revocationHash := by
  simp only [List.mem_cons, forall_eq_or_imp] at h ⊢
  exact ⟨h.1, by simp [hx], h.2.2⟩

theorem RemoteChain.revoke (h : RemoteChain host chain committing broken)
    (hc : chain = tip :: ci :: older) {x : Sha256} (hx : host.sha256 x = ci.revocationHash) :
    RemoteChain host
      (tip :: { ci with revocationPreimage := some x, unackedChanges := none } :: older)
      false broken := by
  subst hc
  exact ⟨h.wellFormed.revoke x, by simp, preimagesHash_prev hx h.preimagesHash none⟩

theorem RemoteChain.record (h : RemoteChain host chain committing broken)
    (hcm : committing = true) (hc : chain = tip :: ci :: older) {x : Sha256}
    (hx : host.sha256 x = ci.revocationHash) :
    RemoteChain host (tip :: { ci with revocationPreimage := some x } :: older) committing
      true := by
  subst hc hcm
  exact ⟨h.wellFormed.record x, by simp, preimagesHash_prev hx h.preimagesHash ci.unackedChanges⟩

theorem RemoteChain.breakDown (h : RemoteChain host chain committing broken) :
    RemoteChain host chain committing true :=
  ⟨h.wellFormed, by simp, h.preimagesHash⟩

end

/-! ### Over every run -/

/-- **The chain invariant** of one peer: its chain with the revocation due, theirs with the
commit outstanding. -/
structure ChainInv (host : Host) (m : Machine) : Prop where
  localChain : LocalChain host m.peer.anchor.witnessscript m.peer.remote.commitkey
    m.peer.local.commit m.revocationDue
  remoteChain : RemoteChain host m.peer.remote.commit m.committing m.broken

section
variable {host : Host} {m m' : Machine}

theorem chainInv_initial (h : m.Initial) : ChainInv host m := by
  obtain ⟨⟨c, d, hc, hd, hc0, hd0, -⟩, hcm, hdue, -⟩ := h
  refine ⟨⟨?_, ?_, ?_⟩, ⟨?_, ?_, ?_⟩⟩ <;> simp only [hc, hd, hcm, hdue]
  · exact Chain.WellFormed.first hc0
  · simp
  · simp
  · exact Chain.WellFormed.first hd0
  · simp
  · simp [hd0.2.2.2]

/-- A handler's error leaves both chains; the peer breaks down. -/
theorem ChainInv.breakDown (h : ChainInv host m) (e : Pkt) :
    ChainInv host { m with peer := m.peer.queuePkt e, broken := true } :=
  ⟨h.localChain, h.remoteChain.breakDown⟩

theorem chainInv_receive (hi : ChainInv host m) (hd : m.revocationDue = false) {q : Pkt}
    (hs : m.receive host q = some m') : ChainInv host m' := by
  cases q with
  | updateAddHtlc u =>
    rcases Machine.accept_eq_some hs with ⟨p, hq, rfl⟩ | ⟨p, e, hq, rfl⟩
    · obtain ⟨-, ci, older, -, -, -, -, -, -, -, -, hc, rfl⟩ := acceptPktHtlcAdd_ok hq
      exact ⟨hi.localChain.withUnacked hc _, hi.remoteChain⟩
    · exact acceptPktHtlcAdd_error hq ▸ hi.breakDown e
  | updateFulfillHtlc f =>
    rcases Machine.accept_eq_some hs with ⟨p, hq, rfl⟩ | ⟨p, e, hq, rfl⟩
    · obtain ⟨-, -, ci, older, -, -, -, hc, rfl⟩ := acceptPktHtlcFulfill_ok hq
      exact ⟨hi.localChain.withUnacked hc _, hi.remoteChain⟩
    · exact acceptPktHtlcFulfill_error hq ▸ hi.breakDown e
  | updateFailHtlc f =>
    rcases Machine.accept_eq_some hs with ⟨p, hq, rfl⟩ | ⟨p, e, hq, rfl⟩
    · obtain ⟨-, ci, older, -, hc, rfl⟩ := acceptPktHtlcFail_ok hq
      exact ⟨hi.localChain.withUnacked hc _, hi.remoteChain⟩
    · exact acceptPktHtlcFail_error hq ▸ hi.breakDown e
  | updateCommit c =>
    simp only [Machine.receive] at hs
    rcases Machine.accept_eq_some hs with ⟨p, hq, rfl⟩ | ⟨p, e, hq, rfl⟩
    · obtain ⟨prev, older, hc, hne, -, hck, rfl⟩ := acceptPktCommit_ok hq
      exact ⟨(hd ▸ hi.localChain).push hc hne hck, hi.remoteChain⟩
    · exact acceptPktCommit_error hq ▸ hi.breakDown e
  | updateRevocation r =>
    obtain ⟨hcm, hs⟩ := Machine.receive_updateRevocation hs
    rcases Machine.accept_eq_some hs with ⟨p, hq, rfl⟩ | ⟨p, e, hq, rfl⟩
    · obtain ⟨tip, ci, older, -, cs, hc, hck, -, -, -, rfl⟩ := acceptPktRevocation_ok hq
      exact ⟨hi.localChain, hi.remoteChain.revoke hc (by simpa [checkPreimage] using hck)⟩
    · rcases acceptPktRevocation_error hq with rfl | ⟨tip, ci, older, hc, hck, -, -, rfl⟩
      · exact hi.breakDown e
      · exact ⟨hi.localChain, hi.remoteChain.record hcm hc (by simpa [checkPreimage] using hck)⟩
  | _ => cases hs

/-- **Step lemma**: every step of the machine keeps the chain invariant. -/
theorem chainInv_step (hi : ChainInv host m) {i : Input} (hs : m.step host i = some m') :
    ChainInv host m' := by
  cases i with
  | htlcAdd htlc =>
    obtain ⟨-, -, p, hq, rfl⟩ := Machine.step_htlcAdd hs
    obtain ⟨-, ci, older, hc, rfl⟩ := queuePktHtlcAdd_eq_some hq
    exact ⟨hi.localChain, hi.remoteChain.withUnacked hc _⟩
  | htlcFulfill id r =>
    obtain ⟨-, -, p, hq, rfl⟩ := Machine.step_htlcFulfill hs
    obtain ⟨-, ci, older, -, hc, rfl⟩ := queuePktHtlcFulfill_eq_some hq
    exact ⟨hi.localChain, hi.remoteChain.withUnacked hc _⟩
  | htlcFail id =>
    obtain ⟨-, -, p, hq, rfl⟩ := Machine.step_htlcFail hs
    obtain ⟨-, ci, older, -, hc, rfl⟩ := queuePktHtlcFail_eq_some hq
    exact ⟨hi.localChain, hi.remoteChain.withUnacked hc _⟩
  | commit =>
    obtain ⟨-, -, hcm, p, hq, rfl⟩ := Machine.step_commit hs
    obtain ⟨prev, older, hc, hne, rfl⟩ := queuePktCommit_eq_some hq
    exact ⟨hi.localChain, (hcm ▸ hi.remoteChain).push hc _ hne⟩
  | revocation =>
    obtain ⟨-, -, p, hq, rfl⟩ := Machine.step_revocation hs
    obtain ⟨tip, ci, older, cs, hc, -, -, -, rfl⟩ := queuePktRevocation_eq_some hq
    exact ⟨hi.localChain.revoke hc _, hi.remoteChain⟩
  | pkt q =>
    obtain ⟨-, hd, hs⟩ := Machine.step_pkt hs
    exact chainInv_receive hi hd hs

/-- **Run lemma**: the chain invariant holds in every reachable state. -/
theorem Reachable.chainInv (h : Reachable host m) : ChainInv host m := by
  induction h with
  | init h => exact chainInv_initial h
  | step _ hs ih => exact chainInv_step ih hs

end

/-- The assertions of `queue_pkt_revocation` and `accept_pkt_revocation`, where the machine runs
them: while a revocation is due, our chain has a `prev` with no preimage under a signed tip;
while our commit is outstanding (and the peer has not broken down), theirs has a `prev` with no
preimage. -/
def RevocationAsserts (m : Machine) : Prop :=
  (m.revocationDue = true → ∃ tip ci older, m.peer.local.commit = tip :: ci :: older ∧
    ci.revocationPreimage = none ∧ tip.sig.isSome = true) ∧
  (m.broken = false → m.committing = true → ∃ tip ci older,
    m.peer.remote.commit = tip :: ci :: older ∧ ci.revocationPreimage = none)

theorem ChainInv.revocationAsserts {host : Host} {m : Machine} (hi : ChainInv host m) :
    RevocationAsserts m := by
  refine ⟨fun hd => ?_, hi.remoteChain.prevOutstanding⟩
  obtain ⟨tip, ci, older, hc, hp⟩ := hi.localChain.prevDue hd
  obtain ⟨s, hs, -⟩ := hi.localChain.signed tip (by simp [hc]) (by simp [hc])
  exact ⟨tip, ci, older, hc, hp, by simp [hs]⟩

/-- **Commit chains are well formed** in every state one peer reaches, and the assertions of
the two revocation handlers hold wherever the machine runs them. -/
theorem commit_chains_well_formed {host : Host} {m : Machine} (h : Reachable host m) :
    ChainInv host m ∧ RevocationAsserts m :=
  ⟨h.chainInv, h.chainInv.revocationAsserts⟩

/-- With three commits on our chain, a revocation due and a commit outstanding. -/
theorem commit_chains_while_settling :
    Reachable trustingHost settlingMachine ∧
      (ChainInv trustingHost settlingMachine ∧ RevocationAsserts settlingMachine) :=
  have h : Reachable trustingHost settlingMachine := reach_settlingMachine.reachable
  ⟨h, commit_chains_well_formed h⟩

end Lightning
