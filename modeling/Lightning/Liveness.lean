import Lightning.Revocations

/-!
# The channel runs on, and the shachain index wraps

* The handlers are enabled when their guards hold: `Machine.step_htlcAdd_isSome`,
  `acceptPktCommit_isOk` and the rest are the converses of the inversion lemmas of
  `Lightning.Handlers`; the cycle below runs on them.
* `Pair.Quiet.cycle`: from a quiet pair of honest peers, sixteen moves lead back to a quiet pair,
  and `a` has taken one more revocation from `b`. So for every `n` a run from `firstPair`
  reaches a pair where `a` has taken `n` revocations (`quiet_after_revocations`), and from every
  quiet pair that a run from an opened pair reaches, any number more (`quiet_pairs_run_on`).
* `shachain_index_repeats`: `accept_pkt_revocation` stores each preimage under
  `0xFFFFFFFFFFFFFFFF - commit_num`, computed in `u64`. After `2^64 + 1` revocations the index
  `2^64 - 1` has been passed to `shachain_add_hash` twice.

The cycle's four rounds: `a` offers `cycleHtlc` and commits it; `b` revokes and commits; `a`
revokes and `b` fails the HTLC; `b` commits, and `a` revokes. Each commit and each revocation
is one exchange of two moves (`Pair.Reaches.commitExchange`, `Pair.Revoking.revocationExchange`),
used in both directions through `Pair.swap`. The guards of the revocations come from the
invariants of `Lightning.Revocations` (`Pair.Revoking.revocation_checks`), which hold on every
pair that a run reaches.
-/

namespace Lightning

/-! ### When each handler succeeds -/

section
variable {host : Host} {m : Machine}

theorem Machine.step_htlcAdd_isSome {h : ChannelHtlc} (hb : m.broken = false)
    (hd : m.revocationDue = false)
    (ha : host.afford m.peer.remote.stagingCstate .ours h.msatoshis = true)
    (hc : m.peer.remote.commit ≠ []) : (m.step host (.htlcAdd h)).isSome := by
  obtain ⟨ci, older, hc⟩ := List.exists_cons_of_ne_nil hc
  simp [Machine.step, hb, hd, queuePktHtlcAdd, fundingAddHtlc, ha, addUnacked, hc]

theorem Machine.step_htlcFail_isSome {id : UInt64} (hb : m.broken = false)
    (hd : m.revocationDue = false)
    (hn : (fundingHtlcById m.peer.remote.stagingCstate id .theirs).isSome)
    (hc : m.peer.remote.commit ≠ []) : (m.step host (.htlcFail id)).isSome := by
  obtain ⟨ci, older, hc⟩ := List.exists_cons_of_ne_nil hc
  obtain ⟨n, hn⟩ := Option.isSome_iff_exists.1 hn
  simp [Machine.step, hb, hd, queuePktHtlcFail, hn, addUnacked, hc]

theorem Machine.step_commit_isSome {prev : CommitInfo} {older : List CommitInfo}
    (hb : m.broken = false) (hd : m.revocationDue = false) (hcm : m.committing = false)
    (hc : m.peer.remote.commit = prev :: older)
    (hne : prev.cstate.changes ≠ m.peer.remote.stagingCstate.changes) :
    (m.step host .commit).isSome := by
  simp [Machine.step, hb, hd, hcm, queuePktCommit, hc, hne]

theorem Machine.step_revocation_isSome {tip ci : CommitInfo} {older : List CommitInfo}
    (hb : m.broken = false) (hd : m.revocationDue = true)
    (hc : m.peer.local.commit = tip :: ci :: older) (hp : ci.revocationPreimage = none)
    (hs : tip.sig.isSome)
    (ha : (applyChangeset host .theirs m.peer.remote.stagingCstate
      (ci.unackedChanges.getD [])).isSome) :
    (m.step host .revocation).isSome := by
  obtain ⟨cs, hcs⟩ := Option.isSome_iff_exists.1 ha
  obtain ⟨s, hs⟩ := Option.isSome_iff_exists.1 hs
  simp [Machine.step, hb, hd, queuePktRevocation, hc, hp, hs, hcs]

theorem Machine.step_pkt_eq {q : Pkt} (hb : m.broken = false) (hd : m.revocationDue = false) :
    m.step host (.pkt q) = m.receive host q := by
  simp [Machine.step, hb, hd]

theorem Machine.step_updateAddHtlc_eq {u : UpdateAddHtlc} {p : Peer} (hb : m.broken = false)
    (hd : m.revocationDue = false) (hp : acceptPktHtlcAdd host m.peer u = some (p, none)) :
    m.step host (.pkt (.updateAddHtlc u)) = some { m with peer := p } := by
  rw [Machine.step_pkt_eq hb hd]; simp [Machine.receive, Machine.accept, hp]

theorem Machine.step_updateFailHtlc_eq {f : UpdateFailHtlc} {p : Peer} (hb : m.broken = false)
    (hd : m.revocationDue = false) (hp : acceptPktHtlcFail m.peer f = some (p, none)) :
    m.step host (.pkt (.updateFailHtlc f)) = some { m with peer := p } := by
  rw [Machine.step_pkt_eq hb hd]; simp [Machine.receive, Machine.accept, hp]

theorem Machine.step_updateCommit_eq {c : UpdateCommit} {p : Peer} (hb : m.broken = false)
    (hd : m.revocationDue = false) (hp : acceptPktCommit host m.peer c = some (p, none)) :
    m.step host (.pkt (.updateCommit c)) = some { m with peer := p, revocationDue := true } := by
  rw [Machine.step_pkt_eq hb hd]; simp [Machine.receive, Machine.accept, hp]

theorem Machine.step_updateRevocation_eq {r : UpdateRevocation} {p : Peer}
    (hb : m.broken = false) (hd : m.revocationDue = false) (hcm : m.committing = true)
    (hp : acceptPktRevocation host m.peer r = some (p, none)) :
    m.step host (.pkt (.updateRevocation r)) = some { m with peer := p, committing := false } := by
  rw [Machine.step_pkt_eq hb hd]; simp [Machine.receive, Machine.accept, hcm, hp]

theorem acceptPktHtlcAdd_isOk {p : Peer} {u : UpdateAddHtlc} {e : AbsLocktime}
    (h0 : u.amountMsat ≠ 0) (he : protoToAbsLocktime u.expiry = some e) (hs : e.isSeconds = true)
    (hr300 : (p.remote.stagingCstate.side .theirs).htlcs.length ≠ 300)
    (hl300 : (p.local.stagingCstate.side .theirs).htlcs.length ≠ 300)
    (hr : fundingHtlcById p.remote.stagingCstate u.id .theirs = none)
    (hl : fundingHtlcById p.local.stagingCstate u.id .theirs = none)
    (ha : host.afford p.local.stagingCstate .theirs u.amountMsat = true)
    (hc : p.local.commit ≠ []) : ∃ p', acceptPktHtlcAdd host p u = some (p', none) := by
  obtain ⟨ci, older, hc⟩ := List.exists_cons_of_ne_nil hc
  simp [acceptPktHtlcAdd, h0, he, hs, hr300, hl300, hr, hl, fundingAddHtlc, ha, addUnacked, hc]

theorem acceptPktHtlcFail_isOk {p : Peer} {f : UpdateFailHtlc} {n : Nat} {ci : CommitInfo}
    {older : List CommitInfo} (hc : p.local.commit = ci :: older)
    (hci : (fundingHtlcById ci.cstate f.id .ours).isSome)
    (hn : fundingHtlcById p.local.stagingCstate f.id .ours = some n) :
    ∃ p', acceptPktHtlcFail p f = some (p', none) := by
  obtain ⟨k, hk⟩ := Option.isSome_iff_exists.1 hci
  simp [acceptPktHtlcFail, findCommitedHtlc, hc, hk, hn, addUnacked]

theorem acceptPktCommit_isOk {p : Peer} {c : UpdateCommit} {prev : CommitInfo}
    {older : List CommitInfo} (hc : p.local.commit = prev :: older)
    (hne : prev.cstate.changes ≠ p.local.stagingCstate.changes)
    (hv : host.signatureValid c.sig = true)
    (hck : host.checkTxSig ((prev.next p.local.nextRevocationHash p.local.stagingCstate).tx .ours)
      p.anchor.witnessscript p.remote.commitkey c.sig = true) :
    ∃ p', acceptPktCommit host p c = some (p', none) := by
  simp [CommitInfo.next, CommitInfo.tx] at hck
  simp [acceptPktCommit, hc, hne, checkAndSaveCommitSig, newCommitInfo, hv, CommitInfo.tx, hck]

theorem acceptPktRevocation_isOk {p : Peer} {r : UpdateRevocation} {tip ci : CommitInfo}
    {older : List CommitInfo} (hc : p.remote.commit = tip :: ci :: older)
    (hck : checkPreimage host r.revocationPreimage ci.revocationHash = true)
    (hp : ci.revocationPreimage = none)
    (hsh : host.shachainConsistent p.theirPreimages (0xFFFFFFFFFFFFFFFF - ci.commitNum)
      r.revocationPreimage = true)
    (ha : (applyChangeset host .ours p.local.stagingCstate (ci.unackedChanges.getD [])).isSome) :
    ∃ p', acceptPktRevocation host p r = some (p', none) := by
  obtain ⟨cs, hcs⟩ := Option.isSome_iff_exists.1 ha
  simp [acceptPktRevocation, hc, hck, hp, shachainAddHash, hsh, hcs]

end

/-! ### Two moves on an empty link -/

theorem Pair.Reaches.swap {host : Host} {p p' : Pair} (h : Pair.Reaches host p p') :
    Pair.Reaches host p.swap p'.swap := by
  induction h with
  | refl => exact .refl
  | tail _ hs ih => exact ih.tail hs.symm

/-- **A packet sent and taken.** On an empty link, `a` runs a command that queues `q` and `b`
takes `q`: two moves. -/
theorem Pair.Reaches.exchange {host : Host} {p : Pair} {i : Input} {a' b' : Machine} {q : Pkt}
    (hf : p.ab.flight = []) (hi : i.isCommand = true) (hs : p.a.step host i = some a')
    (hq : a'.peer.outpkt = p.a.peer.outpkt ++ [q]) (hr : p.b.step host (.pkt q) = some b')
    (hb : b'.broken = false) :
    ∃ p', Pair.Reaches host p p' ∧ p'.a = a' ∧ p'.b = b' ∧ p'.ab.flight = [] ∧
      p'.ba = p.ba :=
  ⟨_, .tail (.single (.inl (.send hi hs hq))) (.inl (.deliver (by rw [hf]; rfl) hr hb)),
    rfl, rfl, rfl, rfl⟩

/-- The same, from `b` to `a`. -/
theorem Pair.Reaches.exchangeBack {host : Host} {p : Pair} {i : Input} {a' b' : Machine}
    {q : Pkt} (hf : p.ba.flight = []) (hi : i.isCommand = true) (hs : p.b.step host i = some b')
    (hq : b'.peer.outpkt = p.b.peer.outpkt ++ [q]) (hr : p.a.step host (.pkt q) = some a')
    (hb : a'.broken = false) :
    ∃ p', Pair.Reaches host p p' ∧ p'.a = a' ∧ p'.b = b' ∧ p'.ba.flight = [] ∧
      p'.ab = p.ab :=
  have ⟨p', hr', ha, hb, hf', hab⟩ := Pair.Reaches.exchange (p := p.swap) hf hi hs hq hr hb
  ⟨p'.swap, by simpa using hr'.swap, hb, ha, hf', hab⟩

/-- The invariants of `Lightning.Revocations` hold on every pair a run reaches. -/
theorem Pair.Revoking.reaches {host : Host} {p p' : Pair} (h : p.Revoking host)
    (hr : Pair.Reaches host p p') : p'.Revoking host :=
  Pair.Reaches.induction (fun _ => Pair.Revoking.swap) (fun _ _ => Pair.Revoking.move) h hr

/-- **A revocation `a` sends passes `b`'s check**, against `b`'s record of `a`'s previous commit,
which has no preimage yet. -/
theorem Pair.Revoking.revocation_checks {host : Host} {p : Pair} {a' : Machine}
    {r : UpdateRevocation}
    (hsig : ∀ s n, host.sha256 (host.revocationPreimage s n) = host.revocationHash s n)
    (h : p.Revoking host) (hcm : p.b.committing = true) (hbb : p.b.broken = false)
    (hf : p.ab.flight = []) (hs : p.a.step host .revocation = some a')
    (hq : a'.peer.outpkt = p.a.peer.outpkt ++ [.updateRevocation r]) :
    ∃ tip prev older, p.b.peer.remote.commit = tip :: prev :: older ∧
      prev.revocationPreimage = none ∧
      checkPreimage host r.revocationPreimage prev.revocationHash = true := by
  have h' := (h.move (Pair.Move.send (by rfl) hs hq)).swap
  obtain ⟨tip, prev, older, -, hc, -, -, hck, -⟩ :=
    (h'.agreement hsig).2.2.2.1 ⟨.updateRevocation r, a'.peer.remote.stagingCstate,
      p.a.peer.revoking .revocation⟩ [] r (by simp [Pair.swap, hf]) rfl
  obtain ⟨t, c, o, hc', hpre⟩ := h.reachableB.chainInv.remoteChain.prevOutstanding hbb hcm
  replace hc : p.b.peer.remote.commit = tip :: prev :: older := hc
  rw [hc', List.cons.injEq, List.cons.injEq] at hc
  obtain ⟨rfl, rfl, rfl⟩ := hc
  exact ⟨t, c, o, hc', hpre, hck⟩

/-- **A commit sent and taken.** On an empty link, `a` commits its remote staging state and `b`
takes the commit, which makes its revocation due. -/
theorem Pair.Reaches.commitExchange {p : Pair} {prev prev' : CommitInfo}
    {older older' : List CommitInfo} (hf : p.ab.flight = []) (hab : p.a.broken = false)
    (had : p.a.revocationDue = false) (hacm : p.a.committing = false)
    (hbb : p.b.broken = false) (hbd : p.b.revocationDue = false)
    (hr : p.a.peer.remote.commit = prev :: older)
    (hrc : prev.cstate.changes ≠ p.a.peer.remote.stagingCstate.changes)
    (hl : p.b.peer.local.commit = prev' :: older')
    (hlc : prev'.cstate.changes ≠ p.b.peer.local.stagingCstate.changes) :
    ∃ p', Pair.Reaches trustingHost p p' ∧
      p'.a = { p.a with
        peer := { p.a.peer with
          remote := { p.a.peer.remote with commit :=
            { prev.next p.a.peer.remote.nextRevocationHash p.a.peer.remote.stagingCstate with
              sig := some ⟨0⟩ } :: prev :: older }
          outpkt := p.a.peer.outpkt ++ [.updateCommit ⟨⟨0⟩⟩] }
        committing := true } ∧
      p'.b = { p.b with
        peer := { p.b.peer with «local» := { p.b.peer.local with
          commit :=
            { prev'.next p.b.peer.local.nextRevocationHash p.b.peer.local.stagingCstate with
              sig := some ⟨0⟩ } :: prev' :: older'
          nextRevocationHash :=
            trustingHost.revocationHash p.b.peer.secrets (prev'.commitNum + 1 + 1) } }
        revocationDue := true } ∧
      p'.ab.flight = [] ∧ p'.ba = p.ba := by
  obtain ⟨a', hs⟩ : ∃ a', p.a.step trustingHost .commit = some a' :=
    Option.isSome_iff_exists.1 (Machine.step_commit_isSome hab had hacm hr hrc)
  obtain ⟨-, -, -, pa, hpa, rfl⟩ := Machine.step_commit hs
  obtain ⟨v, V, hv, -, rfl⟩ := queuePktCommit_eq_some hpa
  rw [hr, List.cons.injEq] at hv
  obtain ⟨rfl, rfl⟩ := hv
  obtain ⟨pb, hpb⟩ : ∃ pb, acceptPktCommit trustingHost p.b.peer ⟨⟨0⟩⟩ = some (pb, none) :=
    acceptPktCommit_isOk hl hlc rfl rfl
  have hd := Machine.step_updateCommit_eq hbb hbd hpb
  obtain ⟨w, W, hw, -, -, -, rfl⟩ := acceptPktCommit_ok hpb
  rw [hl, List.cons.injEq] at hw
  obtain ⟨rfl, rfl⟩ := hw
  exact Pair.Reaches.exchange hf (by rfl) hs (by rfl) hd hbb

/-- **A revocation sent and taken.** `a` owes the revocation of its previous commit `ci`, and `b`
waits for it, on an empty link. When `a`'s replay of `ci`'s unacked changes on its remote
staging state gives `cs`, and `b`'s replay of those of its record `ci'` on its local staging
state gives `cs'`, `a` revokes and `b` takes the revocation, with one more shachain entry. -/
theorem Pair.Revoking.revocationExchange {p : Pair} (h : p.Revoking trustingHost)
    (hf : p.ab.flight = []) (hab : p.a.broken = false) (had : p.a.revocationDue = true)
    (hbb : p.b.broken = false) (hbd : p.b.revocationDue = false) (hbcm : p.b.committing = true)
    {tip ci tip' ci' : CommitInfo} {older older' : List CommitInfo} {cs cs' : ChannelState}
    (hl : p.a.peer.local.commit = tip :: ci :: older)
    (hr : p.b.peer.remote.commit = tip' :: ci' :: older')
    (hcs : applyChangeset trustingHost .theirs p.a.peer.remote.stagingCstate
      (ci.unackedChanges.getD []) = some cs)
    (hcs' : applyChangeset trustingHost .ours p.b.peer.local.stagingCstate
      (ci'.unackedChanges.getD []) = some cs') :
    let x := trustingHost.revocationPreimage p.a.peer.secrets ci.commitNum
    ∃ p', Pair.Reaches trustingHost p p' ∧
      p'.a = { p.a with
        peer := { p.a.peer with
          «local» := { p.a.peer.local with commit :=
            tip :: { ci with revocationPreimage := some x, unackedChanges := none } :: older }
          remote := { p.a.peer.remote with stagingCstate := cs }
          outpkt := p.a.peer.outpkt ++ [.updateRevocation ⟨x, p.a.peer.local.nextRevocationHash⟩] }
        revocationDue := false } ∧
      p'.b = { p.b with
        peer := { p.b.peer with
          theirPreimages :=
            ⟨p.b.peer.theirPreimages.known ++ [(0xFFFFFFFFFFFFFFFF - ci'.commitNum, x)]⟩
          «local» := { p.b.peer.local with stagingCstate := cs' }
          remote := { p.b.peer.remote with
            nextRevocationHash := p.a.peer.local.nextRevocationHash
            commit := tip' ::
              { ci' with revocationPreimage := some x, unackedChanges := none } :: older' } }
        committing := false } ∧
      p'.ab.flight = [] ∧ p'.ba = p.ba := by
  intro x
  have hch := h.reachableA.chainInv.localChain
  obtain ⟨t, c, o, hc, hpre⟩ := hch.prevDue had
  rw [hl, List.cons.injEq, List.cons.injEq] at hc
  obtain ⟨rfl, rfl, rfl⟩ := hc
  obtain ⟨sig, hsig, -⟩ := hch.signed tip (by simp [hl]) (by simp [hl])
  obtain ⟨a', hs⟩ : ∃ a', p.a.step trustingHost .revocation = some a' :=
    Option.isSome_iff_exists.1
      (Machine.step_revocation_isSome hab had hl hpre (by simp [hsig]) (by simp [hcs]))
  obtain ⟨-, -, pa, hpa, rfl⟩ := Machine.step_revocation hs
  obtain ⟨t, c, o, cs₀, hc, -, -, hcs₀, rfl⟩ := queuePktRevocation_eq_some hpa
  rw [hl, List.cons.injEq, List.cons.injEq] at hc
  obtain ⟨rfl, rfl, rfl⟩ := hc
  obtain rfl : cs = cs₀ := Option.some.inj (hcs.symm.trans hcs₀)
  obtain ⟨t, c, o, hc, hpre', hck⟩ :=
    h.revocation_checks (fun _ _ => rfl) hbcm hbb hf hs (by rfl)
  rw [hr, List.cons.injEq, List.cons.injEq] at hc
  obtain ⟨rfl, rfl, rfl⟩ := hc
  obtain ⟨pb, hpb⟩ := acceptPktRevocation_isOk hr hck hpre' rfl (by simp [hcs'])
  have hd := Machine.step_updateRevocation_eq hbb hbd hbcm hpb
  obtain ⟨t, c, o, chain, cs₁, hc, -, -, hch', hcs₁, rfl⟩ := acceptPktRevocation_ok hpb
  rw [hr, List.cons.injEq, List.cons.injEq] at hc
  obtain ⟨rfl, rfl, rfl⟩ := hc
  obtain rfl : cs' = cs₁ := Option.some.inj (hcs'.symm.trans hcs₁)
  obtain rfl : chain = _ := (Option.some.inj hch').symm
  exact Pair.Reaches.exchange hf (by rfl) hs (by rfl) hd hbb

/-! ### The four rounds of the cycle -/

/-- The HTLC of the cycle, which `a` offers and `b` fails. -/
def cycleHtlc : ChannelHtlc := ⟨0, 1, .seconds 0, ⟨0⟩⟩

/-- **A peer at rest**: no flag set, no HTLC in either staging state, and each newest commit
without unacked changes and no newer than its staging state. -/
structure Machine.Quiet (m : Machine) : Prop where
  committing : m.committing = false
  revocationDue : m.revocationDue = false
  broken : m.broken = false
  localTip : ∃ ci older, m.peer.local.commit = ci :: older ∧ ci.unackedChanges = some [] ∧
    ci.cstate.changes ≤ m.peer.local.stagingCstate.changes
  remoteTip : ∃ ci older, m.peer.remote.commit = ci :: older ∧ ci.unackedChanges = some [] ∧
    ci.cstate.changes ≤ m.peer.remote.stagingCstate.changes
  localEmpty : m.peer.local.stagingCstate.NoHtlcs
  remoteEmpty : m.peer.remote.stagingCstate.NoHtlcs

/-- Both peers at rest, and nothing in flight. -/
structure Pair.Quiet (p : Pair) : Prop where
  a : p.a.Quiet
  b : p.b.Quiet
  ab : p.ab.flight = []
  ba : p.ba.flight = []

/-- **After round one**: `a` has offered `cycleHtlc` and committed; `b` took both and owes its
revocation. The add is the unacked change of the previous commit on both sides. -/
structure Pair.Offered (p : Pair) : Prop where
  ab : p.ab.flight = []
  ba : p.ba.flight = []
  aFlags : p.a.committing = true ∧ p.a.revocationDue = false ∧ p.a.broken = false
  bFlags : p.b.committing = false ∧ p.b.revocationDue = true ∧ p.b.broken = false
  aRemote : ∃ c1 c0 older, p.a.peer.remote.commit = c1 :: c0 :: older ∧
    c0.unackedChanges = some [.add cycleHtlc] ∧ c1.unackedChanges = some [] ∧
    c1.cstate.changes ≤ p.a.peer.remote.stagingCstate.changes
  aRemoteStaging : (p.a.peer.remote.stagingCstate.side .ours).htlcs = [cycleHtlc] ∧
    (p.a.peer.remote.stagingCstate.side .theirs).htlcs = []
  aLocal : ∃ ci older, p.a.peer.local.commit = ci :: older ∧ ci.unackedChanges = some [] ∧
    ci.cstate.changes ≤ p.a.peer.local.stagingCstate.changes
  aLocalStaging : p.a.peer.local.stagingCstate.NoHtlcs
  bLocal : ∃ c1 c0 older, p.b.peer.local.commit = c1 :: c0 :: older ∧
    c0.unackedChanges = some [.add cycleHtlc] ∧ c1.unackedChanges = some [] ∧
    c1.cstate.changes ≤ p.b.peer.local.stagingCstate.changes
  bLocalStaging : (p.b.peer.local.stagingCstate.side .ours).htlcs = [] ∧
    (p.b.peer.local.stagingCstate.side .theirs).htlcs = [cycleHtlc]
  bRemote : ∃ ci older, p.b.peer.remote.commit = ci :: older ∧ ci.unackedChanges = some [] ∧
    ci.cstate.changes ≤ p.b.peer.remote.stagingCstate.changes
  bRemoteStaging : p.b.peer.remote.stagingCstate.NoHtlcs

/-- **Round one**: `a` adds `cycleHtlc` and commits; `b` takes both. -/
theorem Pair.Quiet.offer {p : Pair} (h : p.Quiet) :
    ∃ p', Pair.Reaches trustingHost p p' ∧ p'.Offered ∧
      p'.a.peer.theirPreimages = p.a.peer.theirPreimages := by
  obtain ⟨⟨hacm, had, hab, ⟨alt, alo, hal, halu, halc⟩, ⟨art, aro, har, haru, harc⟩, hals,
      hars⟩,
    ⟨hbcm, hbd, hbb, ⟨blt, blo, hbl, hblu, hblc⟩, ⟨brt, bro, hbr, hbru, hbrc⟩, hbls,
      hbrs⟩,
    hfab, hfba⟩ := h
  -- `a` offers the HTLC, `b` takes it
  obtain ⟨a1, hs1⟩ : ∃ a1, p.a.step trustingHost (.htlcAdd cycleHtlc) = some a1 :=
    Option.isSome_iff_exists.1 (Machine.step_htlcAdd_isSome hab had rfl (by simp [har]))
  obtain ⟨-, -, pa, hpa, ha1⟩ := Machine.step_htlcAdd hs1
  obtain ⟨-, ci, older, hc, rfl⟩ := queuePktHtlcAdd_eq_some hpa
  rw [har, List.cons.injEq] at hc
  obtain ⟨rfl, rfl⟩ := hc
  obtain ⟨pb, hpb⟩ : ∃ pb, acceptPktHtlcAdd trustingHost p.b.peer
      ⟨0, 1, ⟨0⟩, absLocktimeToProto (.seconds 0)⟩ = some (pb, none) :=
    acceptPktHtlcAdd_isOk (by decide) rfl rfl
    (by simp [hbrs .theirs]) (by simp [hbls .theirs]) (by simp [fundingHtlcById, hbrs .theirs])
    (by simp [fundingHtlcById, hbls .theirs]) rfl (by simp [hbl])
  have hr1 := Machine.step_updateAddHtlc_eq hbb hbd hpb
  obtain ⟨e, ci, older, -, he, -, -, -, -, -, -, hc, rfl⟩ := acceptPktHtlcAdd_ok hpb
  rw [hbl, List.cons.injEq] at hc
  obtain ⟨rfl, rfl⟩ := hc
  cases he
  obtain ⟨p1, h1, rfl, hb1, hf1, hba1⟩ :=
    Pair.Reaches.exchange hfab (by rfl) hs1 (by rw [ha1]; rfl) hr1 hbb
  -- `a` commits, `b` takes it
  obtain ⟨p2, h2, ha2, hb2, hf2, hba2⟩ := Pair.Reaches.commitExchange hf1
    (by rw [ha1]; exact hab) (by rw [ha1]; exact had) (by rw [ha1]; exact hacm)
    (by rw [hb1]; exact hbb) (by rw [hb1]; exact hbd) (by rw [ha1]) (by simp [ha1]; omega)
    (by rw [hb1]) (by simp [hb1]; omega)
  refine ⟨p2, h1.trans h2,
    ⟨hf2, hba2 ▸ hba1 ▸ hfba, ?_, ?_, ?_, ?_, ?_, ?_, ?_, ?_, ?_, ?_⟩,
    by simp [ha2, ha1]⟩
  · simp [ha2, ha1, had, hab]
  · simp [hb2, hb1, hbcm, hbb]
  · exact ⟨_, _, _, by rw [ha2], by simp [CommitInfo.withUnacked, haru], rfl,
      by simp [ha2, ha1, CommitInfo.next]⟩
  · simp [ha2, ha1, hars .ours, hars .theirs, cycleHtlc]
  · exact ⟨alt, alo, by simp [ha2, ha1, hal], halu, by simpa [ha2, ha1] using halc⟩
  · simpa [ha2, ha1] using hals
  · exact ⟨_, _, _, by rw [hb2], by simp [CommitInfo.withUnacked, hblu, cycleHtlc], rfl,
      by simp [hb2, hb1, CommitInfo.next]⟩
  · simp [hb2, hb1, hbls .ours, hbls .theirs, cycleHtlc]
  · exact ⟨brt, bro, by simp [hb2, hb1, hbr], hbru, by simpa [hb2, hb1] using hbrc⟩
  · simpa [hb2, hb1] using hbrs

/-- **After round two**: `b` has revoked and committed; `a` took both and owes its revocation.
The HTLC is in both of `a`'s staging states and in its newest commit. -/
structure Pair.Locked (p : Pair) : Prop where
  ab : p.ab.flight = []
  ba : p.ba.flight = []
  aFlags : p.a.committing = false ∧ p.a.revocationDue = true ∧ p.a.broken = false
  bFlags : p.b.committing = true ∧ p.b.revocationDue = false ∧ p.b.broken = false
  aRemote : ∃ ci older, p.a.peer.remote.commit = ci :: older ∧ ci.unackedChanges = some [] ∧
    ci.cstate.changes ≤ p.a.peer.remote.stagingCstate.changes
  aRemoteStaging : (p.a.peer.remote.stagingCstate.side .ours).htlcs = [cycleHtlc] ∧
    (p.a.peer.remote.stagingCstate.side .theirs).htlcs = []
  aLocal : ∃ c1 c0 older, p.a.peer.local.commit = c1 :: c0 :: older ∧
    c0.unackedChanges = some [] ∧ c1.unackedChanges = some [] ∧
    (c1.cstate.side .ours).htlcs = [cycleHtlc] ∧
    c1.cstate.changes = p.a.peer.local.stagingCstate.changes
  aLocalStaging : (p.a.peer.local.stagingCstate.side .ours).htlcs = [cycleHtlc] ∧
    (p.a.peer.local.stagingCstate.side .theirs).htlcs = []
  bRemote : ∃ c1 c0 older, p.b.peer.remote.commit = c1 :: c0 :: older ∧
    c0.unackedChanges = some [] ∧ c1.unackedChanges = some [] ∧
    c1.cstate.changes = p.b.peer.remote.stagingCstate.changes
  bRemoteStaging : (p.b.peer.remote.stagingCstate.side .ours).htlcs = [] ∧
    (p.b.peer.remote.stagingCstate.side .theirs).htlcs = [cycleHtlc]
  bLocal : ∃ ci older, p.b.peer.local.commit = ci :: older ∧ ci.unackedChanges = some [] ∧
    ci.cstate.changes ≤ p.b.peer.local.stagingCstate.changes
  bLocalStaging : (p.b.peer.local.stagingCstate.side .ours).htlcs = [] ∧
    (p.b.peer.local.stagingCstate.side .theirs).htlcs = [cycleHtlc]

/-- **Round two**: `b` revokes and commits; `a` takes both, its shachain one entry longer. -/
theorem Pair.Offered.lock {p : Pair} (h : p.Offered) (hrv : p.Revoking trustingHost) :
    ∃ p', Pair.Reaches trustingHost p p' ∧ p'.Locked ∧
      p'.a.peer.theirPreimages.known.length = p.a.peer.theirPreimages.known.length + 1 := by
  obtain ⟨hfab, hfba, ⟨hacm, had, hab⟩, ⟨hbcm, hbd, hbb⟩,
    ⟨ar1, ar0, aro, har, har0, har1, harc⟩, ⟨hars, hart⟩, ⟨alt, alo, hal, halu, halc⟩,
    hals,
    ⟨bl1, bl0, blo, hbl, hbl0, hbl1, hblc⟩, ⟨hblo, hblt⟩, ⟨brt, bro, hbr, hbru, hbrc⟩,
    hbrs⟩ := h
  -- seen from `b`: `b` revokes its previous commit and `a` takes the revocation, then `b`
  -- commits and `a` takes the commit
  obtain ⟨cs, hcs⟩ : ∃ cs, applyChangeset trustingHost .theirs p.b.peer.remote.stagingCstate
      (bl0.unackedChanges.getD []) = some cs :=
    Option.isSome_iff_exists.1 (by simp [hbl0, applyChangeset, applyChange, fundingHtlcById,
      hbrs .theirs, fundingAddHtlc, trustingHost])
  obtain ⟨cs', hcs'⟩ : ∃ cs', applyChangeset trustingHost .ours p.a.peer.local.stagingCstate
      (ar0.unackedChanges.getD []) = some cs' :=
    Option.isSome_iff_exists.1 (by simp [har0, applyChangeset, applyChange, fundingHtlcById,
      hals .ours, fundingAddHtlc, trustingHost])
  obtain ⟨q1, h1, hb1, ha1, hf1, hab1⟩ :=
    hrv.swap.revocationExchange hfba hbb hbd hab had hacm hbl har hcs hcs'
  dsimp only [Pair.swap] at hb1 ha1 hab1
  simp [hbl0, applyChangeset, applyChange, fundingHtlcById, hbrs .theirs, fundingAddHtlc,
    trustingHost] at hcs
  simp [har0, applyChangeset, applyChange, fundingHtlcById, hals .ours, fundingAddHtlc,
    trustingHost] at hcs'
  subst hcs hcs'
  obtain ⟨q2, h2, hb2, ha2, hf2, hab2⟩ := Pair.Reaches.commitExchange hf1
    (by rw [hb1]; exact hbb) (by rw [hb1]) (by rw [hb1]; exact hbcm) (by rw [ha1]; exact hab)
    (by rw [ha1]; exact had) (by rw [hb1]; exact hbr) (by simp [hb1]; omega)
    (by rw [ha1]; exact hal) (by simp [ha1]; omega)
  replace ha2 : q2.swap.a = _ := ha2
  replace hb2 : q2.swap.b = _ := hb2
  refine ⟨q2.swap, Pair.Reaches.swap (h1.trans h2),
    ⟨by simp [Pair.swap, hab2, hab1, hfab], hf2, ?_, ?_, ?_, ?_, ?_, ?_, ?_, ?_, ?_, ?_⟩, ?_⟩
  · simp [ha2, ha1, hab]
  · simp [hb2, hb1, hbb]
  · exact ⟨ar1, _, by rw [ha2, ha1], har1, by simpa [ha2, ha1] using harc⟩
  · simpa [ha2, ha1] using ⟨hars, hart⟩
  · exact ⟨_, _, _, by rw [ha2], halu, rfl, by simp [ha1, CommitInfo.next, hals .ours],
      by simp [ha2, ha1, CommitInfo.next]⟩
  · simp [ha2, ha1, hals .ours, hals .theirs, cycleHtlc]
  · exact ⟨_, _, _, by rw [hb2], hbru, rfl, by simp [hb2, hb1, CommitInfo.next]⟩
  · simp [hb2, hb1, hbrs .ours, hbrs .theirs, cycleHtlc]
  · exact ⟨bl1, _, by rw [hb2, hb1], hbl1, by simpa [hb2, hb1] using hblc⟩
  · simpa [hb2, hb1] using ⟨hblo, hblt⟩
  · simp [ha2, ha1]

/-- **After round three**: `a` has revoked, `b` has failed the HTLC, and each side took the
other's packet. Each fail is the unacked change of a newest commit. -/
structure Pair.Failing (p : Pair) : Prop where
  ab : p.ab.flight = []
  ba : p.ba.flight = []
  aFlags : p.a.committing = false ∧ p.a.revocationDue = false ∧ p.a.broken = false
  bFlags : p.b.committing = false ∧ p.b.revocationDue = false ∧ p.b.broken = false
  aRemote : ∃ ci older, p.a.peer.remote.commit = ci :: older ∧ ci.unackedChanges = some [] ∧
    ci.cstate.changes ≤ p.a.peer.remote.stagingCstate.changes
  aRemoteStaging : (p.a.peer.remote.stagingCstate.side .ours).htlcs = [cycleHtlc] ∧
    (p.a.peer.remote.stagingCstate.side .theirs).htlcs = []
  aLocal : ∃ ci older, p.a.peer.local.commit = ci :: older ∧
    ci.unackedChanges = some [.fail cycleHtlc.id] ∧
    ci.cstate.changes < p.a.peer.local.stagingCstate.changes
  aLocalStaging : p.a.peer.local.stagingCstate.NoHtlcs
  bRemote : ∃ ci older, p.b.peer.remote.commit = ci :: older ∧
    ci.unackedChanges = some [.fail cycleHtlc.id] ∧
    ci.cstate.changes < p.b.peer.remote.stagingCstate.changes
  bRemoteStaging : p.b.peer.remote.stagingCstate.NoHtlcs
  bLocal : ∃ ci older, p.b.peer.local.commit = ci :: older ∧ ci.unackedChanges = some [] ∧
    ci.cstate.changes ≤ p.b.peer.local.stagingCstate.changes
  bLocalStaging : (p.b.peer.local.stagingCstate.side .ours).htlcs = [] ∧
    (p.b.peer.local.stagingCstate.side .theirs).htlcs = [cycleHtlc]

/-- **Round three**: `a` revokes and `b` takes it; `b` fails the HTLC and `a` takes it. -/
theorem Pair.Locked.fail {p : Pair} (h : p.Locked) (hrv : p.Revoking trustingHost) :
    ∃ p', Pair.Reaches trustingHost p p' ∧ p'.Failing ∧
      p'.a.peer.theirPreimages = p.a.peer.theirPreimages := by
  obtain ⟨hfab, hfba, ⟨hacm, had, hab⟩, ⟨hbcm, hbd, hbb⟩, ⟨art, aro, har, haru, harc⟩,
    ⟨hars, hart⟩, ⟨al1, al0, alo, hal, hal0, hal1, hal1o, hal1c⟩, ⟨halo, halt⟩,
    ⟨br1, br0, bro, hbr, hbr0, hbr1, hbr1c⟩, ⟨hbro, hbrt⟩, ⟨blt, blo, hbl, hblu, hblc⟩,
    ⟨hblo, hblt⟩⟩ := h
  -- `a` revokes its previous commit, `b` takes the revocation
  obtain ⟨p1, h1, ha1, hb1, hf1, hba1⟩ := hrv.revocationExchange hfab hab had hbb hbd hbcm hal hbr
    (by rw [hal0]; rfl) (by rw [hbr0]; rfl)
  -- `b` fails the HTLC, `a` takes the fail
  obtain ⟨b2, hs2⟩ : ∃ b2, p1.b.step trustingHost (.htlcFail cycleHtlc.id) = some b2 :=
    Option.isSome_iff_exists.1 (Machine.step_htlcFail_isSome (by rw [hb1]; exact hbb)
      (by rw [hb1]; exact hbd) (by simp [hb1, fundingHtlcById, hbrt]) (by simp [hb1, hbr]))
  obtain ⟨-, -, pb, hpb, hb2⟩ := Machine.step_htlcFail hs2
  obtain ⟨n, ci, older, hn, hc, rfl⟩ := queuePktHtlcFail_eq_some hpb
  simp [hb1, fundingHtlcById, hbrt] at hn
  subst hn
  simp only [hb1, hbr, List.cons.injEq] at hc
  obtain ⟨rfl, rfl⟩ := hc
  obtain ⟨pa, hpa⟩ : ∃ pa, acceptPktHtlcFail p1.a.peer ⟨cycleHtlc.id⟩ = some (pa, none) :=
    acceptPktHtlcFail_isOk (n := 0) (by rw [ha1]) (by simp [fundingHtlcById, hal1o])
      (by simp [ha1, fundingHtlcById, halo])
  have hr2 : p1.a.step trustingHost (.pkt (.updateFailHtlc ⟨cycleHtlc.id⟩)) =
      some { p1.a with peer := pa } :=
    Machine.step_updateFailHtlc_eq (by rw [ha1]; exact hab) (by rw [ha1]) hpa
  obtain ⟨n, ci, older, hn, hc, rfl⟩ := acceptPktHtlcFail_ok hpa
  simp [findCommitedHtlc, ha1, fundingHtlcById, hal1o, halo] at hn
  subst hn
  simp only [ha1, List.cons.injEq] at hc
  obtain ⟨rfl, rfl⟩ := hc
  obtain ⟨p2, h2, ha2, rfl, hf2, hab2⟩ :=
    Pair.Reaches.exchangeBack (hba1 ▸ hfba) (by rfl) hs2 (by rw [hb2]) hr2 (by simp [ha1, hab])
  refine ⟨p2, h1.trans h2, ⟨hab2 ▸ hf1, hf2, ?_, ?_, ?_, ?_, ?_, ?_, ?_, ?_, ?_, ?_⟩, ?_⟩
  · simp [ha2, ha1, hacm, hab]
  · simp [hb2, hb1, hbd, hbb]
  · exact ⟨art, aro, by simp [ha2, ha1, har], haru, by simpa [ha2, ha1] using harc⟩
  · simpa [ha2, ha1] using ⟨hars, hart⟩
  · exact ⟨_, _, by rw [ha2], by simp [CommitInfo.withUnacked, hal1],
      by simp [ha2, ha1, fundingFailHtlc, halo, hal1c]⟩
  · intro s; cases s <;> simp [ha2, ha1, fundingFailHtlc, halo, halt]
  · exact ⟨_, _, by rw [hb2], by simp [CommitInfo.withUnacked, hbr1],
      by simp [hb2, hb1, fundingFailHtlc, hbrt, hbr1c]⟩
  · intro s; cases s <;> simp [hb2, hb1, fundingFailHtlc, hbro, hbrt]
  · exact ⟨blt, blo, by simp [hb2, hb1, hbl], hblu, by simpa [hb2, hb1] using hblc⟩
  · simpa [hb2, hb1] using ⟨hblo, hblt⟩
  · simp [ha2, ha1]

/-- **Round four**: `b` commits and `a` takes it; `a` revokes and `b` takes it. Both replay the
fail, and both peers are at rest again. -/
theorem Pair.Failing.settle {p : Pair} (h : p.Failing) (hrv : p.Revoking trustingHost) :
    ∃ p', Pair.Reaches trustingHost p p' ∧ p'.Quiet ∧
      p'.a.peer.theirPreimages = p.a.peer.theirPreimages := by
  obtain ⟨hfab, hfba, ⟨hacm, had, hab⟩, ⟨hbcm, hbd, hbb⟩, ⟨art, aro, har, haru, harc⟩,
    ⟨hars, hart⟩, ⟨al1, alo, hal, hal1, hal1c⟩, hals, ⟨br1, bro, hbr, hbr1, hbr1c⟩,
    hbrs,
    ⟨blt, blo, hbl, hblu, hblc⟩, ⟨hblo, hblt⟩⟩ := h
  -- seen from `b`: `b` commits and `a` takes the commit
  obtain ⟨q1, h1, hb1, ha1, hf1, hab1⟩ :=
    Pair.Reaches.commitExchange (p := p.swap) hfba hbb hbd hbcm hab had hbr hbr1c.ne hal hal1c.ne
  dsimp only [Pair.swap] at hb1 ha1 hab1
  -- `a` revokes its previous commit, `b` takes the revocation
  obtain ⟨cs, hcs⟩ : ∃ cs, applyChangeset trustingHost .theirs p.a.peer.remote.stagingCstate
      (al1.unackedChanges.getD []) = some cs :=
    Option.isSome_iff_exists.1
      (by simp [hal1, applyChangeset, applyChange, fundingHtlcById, hars])
  obtain ⟨cs', hcs'⟩ : ∃ cs', applyChangeset trustingHost .ours p.b.peer.local.stagingCstate
      (br1.unackedChanges.getD []) = some cs' :=
    Option.isSome_iff_exists.1
      (by simp [hbr1, applyChangeset, applyChange, fundingHtlcById, hblt])
  obtain ⟨p2, h2, ha2, hb2, hf2, hba2⟩ := (hrv.swap.reaches h1).swap.revocationExchange
    (by simp [Pair.swap, hab1, hfab]) (by simp [Pair.swap, ha1, hab]) (by simp [Pair.swap, ha1])
    (by simp [Pair.swap, hb1, hbb]) (by simp [Pair.swap, hb1, hbd]) (by simp [Pair.swap, hb1])
    (by simp only [Pair.swap]; rw [ha1]) (by simp only [Pair.swap]; rw [hb1])
    (by simp only [Pair.swap]; rw [ha1]; exact hcs) (by simp only [Pair.swap]; rw [hb1]; exact hcs')
  dsimp only [Pair.swap] at ha2 hb2 hba2
  simp [hal1, applyChangeset, applyChange, fundingHtlcById, hars] at hcs
  simp [hbr1, applyChangeset, applyChange, fundingHtlcById, hblt] at hcs'
  subst hcs hcs'
  refine ⟨p2, (Pair.Reaches.swap h1).trans h2,
    ⟨⟨?_, ?_, ?_, ?_, ?_, ?_, ?_⟩, ⟨?_, ?_, ?_, ?_, ?_, ?_, ?_⟩, hf2, hba2 ▸ hf1⟩, ?_⟩
  · simp [ha2, ha1, hacm]
  · simp [ha2]
  · simp [ha2, ha1, hab]
  · exact ⟨_, _, by rw [ha2], rfl, by simp [ha2, ha1, CommitInfo.next]⟩
  · exact ⟨art, aro, by simp [ha2, ha1, har], haru,
      by simp [ha2, ha1, fundingFailHtlc, hars]; omega⟩
  · simpa [ha2, ha1] using hals
  · intro s; cases s <;> simp [ha2, ha1, fundingFailHtlc, hars, hart]
  · simp [hb2]
  · simp [hb2, hb1, hbd]
  · simp [hb2, hb1, hbb]
  · exact ⟨blt, blo, by simp [hb2, hb1, hbl], hblu,
      by simp [hb2, hb1, fundingFailHtlc, hblt]; omega⟩
  · exact ⟨_, _, by rw [hb2], rfl, by simp [hb2, hb1, CommitInfo.next]⟩
  · intro s; cases s <;> simp [hb2, hb1, fundingFailHtlc, hblo, hblt]
  · simpa [hb2, hb1] using hbrs
  · simp [ha2, ha1]

/-! ### Every number of revocations -/

/-- **One turn of the cycle.** From a quiet pair whose invariants hold, the four rounds lead back
to a quiet pair, and `a` has taken one more revocation. -/
theorem Pair.Quiet.cycle {p : Pair} (h : p.Quiet) (hrv : p.Revoking trustingHost) :
    ∃ p', Pair.Reaches trustingHost p p' ∧ p'.Quiet ∧
      p'.a.peer.theirPreimages.known.length = p.a.peer.theirPreimages.known.length + 1 := by
  obtain ⟨p1, h1, ho, e1⟩ := h.offer
  have hrv1 := hrv.reaches h1
  obtain ⟨p2, h2, hl, e2⟩ := ho.lock hrv1
  have hrv2 := hrv1.reaches h2
  obtain ⟨p3, h3, hf, e3⟩ := hl.fail hrv2
  obtain ⟨p4, h4, hq, e4⟩ := hf.settle (hrv2.reaches h3)
  exact ⟨p4, h1.trans (h2.trans (h3.trans h4)), hq, by rw [e4, e3, e2, e1]⟩

theorem firstPair_quiet : firstPair.Quiet := by
  refine ⟨⟨rfl, rfl, rfl, ⟨_, _, rfl, rfl, le_rfl⟩, ⟨_, _, rfl, rfl, le_rfl⟩, ?_, ?_⟩,
    ⟨rfl, rfl, rfl, ⟨_, _, rfl, rfl, le_rfl⟩, ⟨_, _, rfl, rfl, le_rfl⟩, ?_, ?_⟩, rfl,
    rfl⟩ <;>
    exact fun s => by cases s <;> rfl

/-- **The channel runs on.** For every `n`, a run from `firstPair` reaches a quiet pair in
which `a` has taken `n` revocations from `b`. -/
theorem quiet_after_revocations (n : Nat) : ∃ p, Pair.Reaches trustingHost firstPair p ∧
    p.Quiet ∧ p.a.peer.theirPreimages.known.length = n := by
  induction n with
  | zero => exact ⟨firstPair, .refl, firstPair_quiet, rfl⟩
  | succ n ih =>
    obtain ⟨p, hr, hq, hn⟩ := ih
    obtain ⟨p', hr', hq', hn'⟩ := hq.cycle ((Pair.Revoking.start firstPair_opened).reaches hr)
    exact ⟨p', hr.trans hr', hq', by rw [hn', hn]⟩

/-- **No quiet pair a run reaches is stuck.** From every quiet pair that a run of two trusting
peers reaches from a pair opened with `revocation_hash(0)`, for every `n`, a run reaches a quiet
pair in which `a` has taken `n` more revocations. -/
theorem quiet_pairs_run_on {p0 p : Pair} (h0 : p0.Opened trustingHost)
    (hr : Pair.Reaches trustingHost p0 p) (hq : p.Quiet) (n : Nat) :
    ∃ p', Pair.Reaches trustingHost p p' ∧ p'.Quiet ∧
      p'.a.peer.theirPreimages.known.length = p.a.peer.theirPreimages.known.length + n := by
  induction n with
  | zero => exact ⟨p, .refl, hq, rfl⟩
  | succ n ih =>
    obtain ⟨p₁, hr₁, hq₁, hn₁⟩ := ih
    obtain ⟨p₂, hr₂, hq₂, hn₂⟩ := hq₁.cycle ((Pair.Revoking.start h0).reaches (hr.trans hr₁))
    exact ⟨p₂, hr₁.trans hr₂, hq₂, by omega⟩

/-- One turn of the cycle from `firstPair`, as events: `offerEvents`, then `a` takes `b`'s
revocation and commit and revokes, `b` fails the HTLC and commits, and `a` revokes. -/
def cycleEvents : List Pair.Event :=
  offerEvents ++ [.deliverA, .deliverA, .sendA .revocation, .deliverB, .sendB (.htlcFail 0),
    .deliverA, .sendB .commit, .deliverA, .sendA .revocation, .deliverB]

/-- Where `cycleEvents` lead from `firstPair`. -/
def cycledPair : Pair := (firstPair.runEvents trustingHost cycleEvents).getD firstPair

theorem firstPair_reaches_cycledPair : Pair.Reaches trustingHost firstPair cycledPair :=
  Pair.runEvents_reaches (rfl : firstPair.runEvents trustingHost cycleEvents = some cycledPair)

theorem cycledPair_quiet : cycledPair.Quiet := by
  refine ⟨⟨rfl, rfl, rfl, ⟨_, _, rfl, rfl, by decide⟩, ⟨_, _, rfl, rfl, by decide⟩, ?_, ?_⟩,
    ⟨rfl, rfl, rfl, ⟨_, _, rfl, rfl, by decide⟩, ⟨_, _, rfl, rfl, by decide⟩, ?_, ?_⟩, rfl,
    rfl⟩ <;>
    exact fun s => by cases s <;> rfl

/-- From the quiet pair one turn of the cycle reaches, two more turns. -/
theorem quiet_pairs_run_on_after_cycle :
    firstPair.Opened trustingHost ∧ Pair.Reaches trustingHost firstPair cycledPair ∧
      cycledPair.Quiet ∧ ∃ p', Pair.Reaches trustingHost cycledPair p' ∧ p'.Quiet ∧
        p'.a.peer.theirPreimages.known.length =
          cycledPair.a.peer.theirPreimages.known.length + 2 :=
  ⟨firstPair_opened, firstPair_reaches_cycledPair, cycledPair_quiet,
    quiet_pairs_run_on firstPair_opened firstPair_reaches_cycledPair cycledPair_quiet 2⟩

/-! ### The index wraps -/

/-- **The shachain index wraps.** With a signer that keeps its contract and both peers opened
with `revocation_hash(0)`, a run reaches a pair in which the indices `a` has passed to
`shachain_add_hash` repeat: after `2^64 + 1` revocations the `u64` commit number, and with it
the index `0xFFFFFFFFFFFFFFFF - commit_num`, has wrapped. -/
theorem shachain_index_repeats :
    (∀ s n, trustingHost.sha256 (trustingHost.revocationPreimage s n) =
      trustingHost.revocationHash s n) ∧ firstPair.Opened trustingHost ∧
    ∃ p, Pair.Reaches trustingHost firstPair p ∧
      ¬ (p.a.peer.theirPreimages.known.map Prod.fst).Nodup := by
  obtain ⟨p, hr, -, hn⟩ := quiet_after_revocations (2 ^ 64 + 1)
  refine ⟨fun _ _ => rfl, firstPair_opened, p, hr, fun hnd => ?_⟩
  rw [((Pair.Revoking.start firstPair_opened).reaches hr).indexedA.indices, hn] at hnd
  have := List.inj_on_of_nodup_map hnd (List.mem_range.2 (Nat.succ_pos (2 ^ 64)))
    (List.mem_range.2 (Nat.lt_succ_self (2 ^ 64))) (by decide)
  omega

end Lightning
