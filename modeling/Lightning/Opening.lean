import Lightning.Revocations

/-!
# Opening the channel

What the `OpenChannel` that `queue_pkt_open` sends becomes at the other end.

* `open_round_trip`: the `OpenChannel` that `queue_pkt_open` queues is accepted by another peer
  exactly when the sender's settings fit that peer's configuration and the two make different
  anchor offers (`SettingsFit`). That peer's record of the sender is then the sender's own view
  of itself, save the staging state, which `setup_first_commit` builds later; the anchor's
  witness script becomes the 2-of-2 of the two commit keys; and nothing else changes.

`accept_pkt_open` accepts an `OpenChannel` exactly when it meets the field contracts of §6.1
against the receiver's configuration (`accepts_iff_openFits`): a delay in seconds of at most
`rel_locktime_max`, a `min_depth` of at most `anchor_confirms_max`, a fee rate of at least
`commitment_fee_rate_min`, exactly one side creating the anchor, and valid keys (`OpenFits`).
The receiver's checks run in the source's order and write `remote` as they go, so a rejected
packet may leave some of its fields written; the peer breaks down then.
-/

namespace Lightning

/-! ### What `accept_pkt_open` accepts -/

/-- **The field contracts of §6.1 for an `OpenChannel`**, against the receiver's configuration
and its own anchor offer `offer`. -/
@[mk_iff] structure OpenFits (host : Host) (offer : OfferAnchor) (o : OpenChannel) : Prop where
  delay : ∃ d, o.delay = .seconds d ∧ d ≤ host.relLocktimeMax
  minDepth : o.minDepth ≤ host.anchorConfirmsMax
  feeRate : host.commitmentFeeRateMin ≤ o.initialFeeRate
  anchor : (o.anch = .willCreateAnchor ∧ offer = .cmdOpenWithoutAnchor) ∨
    (o.anch = .wontCreateAnchor ∧ offer = .cmdOpenWithAnchor)
  commitKey : host.pubkeyValid o.commitKey = true
  finalKey : host.pubkeyValid o.finalKey = true

section
variable {host : Host} {p : Peer} {o : OpenChannel}

/-- An `OpenChannel` that meets the contracts is accepted: the receiver records the sender's
offer (not its own), keys, locktime, depth and fee rate, and its first commit and next
revocation hash, and sets the anchor's witness script to the 2-of-2 of the two commit keys. -/
theorem acceptPktOpen_of_fits (h : OpenFits host p.local.offerAnchor o) :
    ∃ d offer, o.delay = .seconds d ∧ offer ≠ p.local.offerAnchor ∧
      (o.anch = .willCreateAnchor → offer = .cmdOpenWithAnchor) ∧
      (o.anch = .wontCreateAnchor → offer = .cmdOpenWithoutAnchor) ∧
      acceptPktOpen host p o = ({ p with
        remote := { p.remote with
          offerAnchor := offer, commitkey := o.commitKey, finalkey := o.finalKey, locktime := d,
          mindepth := o.minDepth, commitFeeRate := o.initialFeeRate,
          commit := [{ newCommitInfo with revocationHash := o.revocationHash }],
          nextRevocationHash := o.nextRevocationHash }
        anchor := { p.anchor with
          witnessscript := host.redeem2of2 p.local.commitkey o.commitKey } }, none) := by
  obtain ⟨⟨d, hd, h1⟩, h2, h3, h4, h5, h6⟩ := h
  rw [acceptPktOpen, hd]
  dsimp only
  rw [if_neg (Nat.not_lt.2 h1), if_neg (Nat.not_lt.2 h2), if_neg (Nat.not_lt.2 h3)]
  rcases h4 with ⟨ha, hoff⟩ | ⟨ha, hoff⟩
  · exact ⟨d, .cmdOpenWithAnchor, rfl, by simp [hoff], fun _ => rfl, by simp [ha],
      by simp [ha, hoff, h5, h6]⟩
  · exact ⟨d, .cmdOpenWithoutAnchor, rfl, by simp [hoff], by simp [ha], fun _ => rfl,
      by simp [ha, hoff, h5, h6]⟩

/-- An `OpenChannel` is accepted exactly when it meets the contracts: by the kind of its delay,
its anchor offer and the receiver's, the checks are the contracts' conditions. -/
theorem accepts_iff_openFits :
    (acceptPktOpen host p o).2 = none ↔ OpenFits host p.local.offerAnchor o := by
  rcases o with ⟨rh, nrh, ck, fk, delay, fee, anch, md⟩
  cases delay <;> cases anch <;> cases hoff : p.local.offerAnchor <;>
    simp [acceptPktOpen, apply_ite Prod.snd, openFits_iff, ite_eq_iff, hoff]

end

/-! ### The round trip -/

/-- **The sender's settings fit the receiver**: its locktime, anchor depth and fee rate within
the receiver's configuration, its keys valid there, and its anchor offer not the receiver's
`offer`. -/
structure SettingsFit (host : Host) (offer : OfferAnchor) (v : PeerVisibleState) : Prop where
  locktime : v.locktime ≤ host.relLocktimeMax
  mindepth : v.mindepth ≤ host.anchorConfirmsMax
  feeRate : host.commitmentFeeRateMin ≤ v.commitFeeRate
  offer : v.offerAnchor ≠ offer
  commitkey : host.pubkeyValid v.commitkey = true
  finalkey : host.pubkeyValid v.finalkey = true

section
variable {host host' : Host} {a a' b : Peer} {anchor : AnchorOffer}

/-- What `queue_pkt_open` sends: its settings, and an anchor offer that is its `offer_anchor`. -/
theorem queuePktOpen_sends (hq : queuePktOpen host a anchor = some a') :
    ((anchor = .willCreateAnchor ∧ a.local.offerAnchor = .cmdOpenWithAnchor) ∨
      (anchor = .wontCreateAnchor ∧ a.local.offerAnchor = .cmdOpenWithoutAnchor)) ∧
    a' = { a with
      «local» := { a.local with
        commit := [{ newCommitInfo with revocationHash := a.local.nextRevocationHash }]
        nextRevocationHash := host.revocationHash a.secrets 1 }
      outpkt := a.outpkt ++ [.open ⟨a.local.nextRevocationHash, host.revocationHash a.secrets 1,
        a.local.commitkey, a.local.finalkey, .seconds a.local.locktime, a.local.commitFeeRate,
        anchor, a.local.mindepth⟩] } := by
  unfold queuePktOpen at hq
  dsimp only at hq
  split_ifs at hq with hc
  refine ⟨?_, (Option.some.inj hq).symm⟩
  cases anchor <;> simp_all

/-- **The open round trip.** The `OpenChannel` that `queue_pkt_open` queues is accepted by
another peer exactly when the sender's settings fit that peer's configuration and the two make
different anchor offers; that peer's record of the sender is then the sender's own view of
itself, save the staging state, and its anchor's witness script the 2-of-2 of the two commit
keys. -/
theorem open_round_trip (hq : queuePktOpen host a anchor = some a') :
    ∃ o, a'.outpkt = a.outpkt ++ [.open o] ∧
      ((acceptPktOpen host' b o).2 = none ↔ SettingsFit host' b.local.offerAnchor a'.local) ∧
      ((acceptPktOpen host' b o).2 = none → (acceptPktOpen host' b o).1 = { b with
        remote := { a'.local with stagingCstate := b.remote.stagingCstate }
        anchor := { b.anchor with
          witnessscript := host'.redeem2of2 b.local.commitkey a'.local.commitkey } }) := by
  obtain ⟨hanchor, rfl⟩ := queuePktOpen_sends hq
  refine ⟨_, rfl, accepts_iff_openFits.trans ⟨fun h => ?_, fun h => ?_⟩, fun h => ?_⟩
  · obtain ⟨⟨d, hd, h1⟩, h2, h3, h4, h5, h6⟩ := h
    cases hd
    refine ⟨h1, h2, h3, ?_, h5, h6⟩
    rcases hanchor with ⟨rfl, ha⟩ | ⟨rfl, ha⟩ <;>
      rcases h4 with ⟨hw, hb⟩ | ⟨hw, hb⟩ <;> simp_all
  · obtain ⟨h1, h2, h3, h4, h5, h6⟩ := h
    refine ⟨⟨_, rfl, h1⟩, h2, h3, ?_, h5, h6⟩
    rcases hanchor with ⟨rfl, ha⟩ | ⟨rfl, ha⟩ <;> cases hb : b.local.offerAnchor <;> simp_all
  · obtain ⟨d, offer, hd, -, hw, hw', heq⟩ := acceptPktOpen_of_fits (accepts_iff_openFits.1 h)
    cases hd
    obtain rfl : offer = a.local.offerAnchor := by
      rcases hanchor with ⟨rfl, ha⟩ | ⟨rfl, ha⟩
      · exact (hw rfl).trans ha.symm
      · exact (hw' rfl).trans ha.symm
    rw [heq]

end

/-- The peer of `Lightning.Revocations` that creates the anchor, after `queue_pkt_open`. -/
def openingPeer : Peer :=
  (queuePktOpen trustingHost (preOpenPeer .cmdOpenWithAnchor) .willCreateAnchor).getD
    (preOpenPeer .cmdOpenWithAnchor)

/-- The other peer, at `trustingHost`'s configuration, accepts its `OpenChannel`. -/
theorem open_round_trip_at_first :
    queuePktOpen trustingHost (preOpenPeer .cmdOpenWithAnchor) .willCreateAnchor =
      some openingPeer ∧
    ∃ o, openingPeer.outpkt = (preOpenPeer .cmdOpenWithAnchor).outpkt ++ [.open o] ∧
      ((acceptPktOpen trustingHost (preOpenPeer .cmdOpenWithoutAnchor) o).2 = none ↔
        SettingsFit trustingHost (preOpenPeer .cmdOpenWithoutAnchor).local.offerAnchor
          openingPeer.local) ∧
      ((acceptPktOpen trustingHost (preOpenPeer .cmdOpenWithoutAnchor) o).2 = none →
        (acceptPktOpen trustingHost (preOpenPeer .cmdOpenWithoutAnchor) o).1 =
          { preOpenPeer .cmdOpenWithoutAnchor with
            remote := { openingPeer.local with
              stagingCstate := (preOpenPeer .cmdOpenWithoutAnchor).remote.stagingCstate }
            anchor := { (preOpenPeer .cmdOpenWithoutAnchor).anchor with
              witnessscript := trustingHost.redeem2of2
                (preOpenPeer .cmdOpenWithoutAnchor).local.commitkey
                openingPeer.local.commitkey } }) :=
  have h : queuePktOpen trustingHost (preOpenPeer .cmdOpenWithAnchor) .willCreateAnchor =
      some openingPeer := rfl
  ⟨h, open_round_trip h⟩

end Lightning
