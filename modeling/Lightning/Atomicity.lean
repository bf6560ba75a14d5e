import Lightning.Handlers

/-!
# Rejected packets

What a handler of their updates leaves when it returns an error packet. `accept_pkt_htlc_add`,
`accept_pkt_htlc_fulfill`, `accept_pkt_htlc_fail` and `accept_pkt_commit` check everything
before they write (the new commit of `accept_pkt_commit` is linked only once its signature has
been checked), so a rejection leaves both staging states, both commit chains, both next
revocation hashes and the shachain as they were (`Unchanged`).

`accept_pkt_revocation` records the preimage on their previous commit before it asks the
shachain, so when only the shachain refuses it, that commit keeps the preimage
(`acceptPktRevocation_error`); it is a preimage that `check_preimage` has just accepted.
`update_error_frame` states all five; `revocation_error_records_preimage` is a rejection that
changes their chain.
-/

namespace Lightning

/-- What `p'` keeps of `p`: both staging states, both commit chains (every node, with its
signature, preimage and unacked changes), both next revocation hashes and the shachain. -/
structure Unchanged (p p' : Peer) : Prop where
  localStaging : p'.local.stagingCstate = p.local.stagingCstate
  remoteStaging : p'.remote.stagingCstate = p.remote.stagingCstate
  localCommit : p'.local.commit = p.local.commit
  remoteCommit : p'.remote.commit = p.remote.commit
  localNext : p'.local.nextRevocationHash = p.local.nextRevocationHash
  remoteNext : p'.remote.nextRevocationHash = p.remote.nextRevocationHash
  theirPreimages : p'.theirPreimages = p.theirPreimages

theorem Unchanged.refl (p : Peer) : Unchanged p p := ⟨rfl, rfl, rfl, rfl, rfl, rfl, rfl⟩

/-- **Error frames of the update handlers.** A rejected add, fulfill, fail or commit leaves the
peer `Unchanged`; a rejected revocation does too, unless the preimage matched their previous
commit and only the shachain refused it: then that commit holds the preimage, and everything
else is unchanged. -/
theorem update_error_frame (host : Host) (p : Peer) :
    (∀ u p' e, acceptPktHtlcAdd host p u = some (p', some e) → Unchanged p p') ∧
    (∀ f p' e, acceptPktHtlcFulfill host p f = some (p', some e) → Unchanged p p') ∧
    (∀ f p' e, acceptPktHtlcFail p f = some (p', some e) → Unchanged p p') ∧
    (∀ c p' e, acceptPktCommit host p c = some (p', some e) → Unchanged p p') ∧
    (∀ r p' e, acceptPktRevocation host p r = some (p', some e) →
      Unchanged p p' ∨ ∃ tip ci older, p.remote.commit = tip :: ci :: older ∧
        host.sha256 r.revocationPreimage = ci.revocationHash ∧
        shachainAddHash host p.theirPreimages (0xFFFFFFFFFFFFFFFF - ci.commitNum)
          r.revocationPreimage = none ∧
        p'.remote.commit =
          tip :: { ci with revocationPreimage := some r.revocationPreimage } :: older ∧
        p'.local = p.local ∧ p'.remote.stagingCstate = p.remote.stagingCstate ∧
        p'.remote.nextRevocationHash = p.remote.nextRevocationHash ∧
        p'.theirPreimages = p.theirPreimages) := by
  refine ⟨fun u p' e h => ?_, fun f p' e h => ?_, fun f p' e h => ?_, fun c p' e h => ?_,
    fun r p' e h => ?_⟩
  · exact acceptPktHtlcAdd_error h ▸ Unchanged.refl p
  · exact acceptPktHtlcFulfill_error h ▸ Unchanged.refl p
  · exact acceptPktHtlcFail_error h ▸ Unchanged.refl p
  · exact acceptPktCommit_error h ▸ Unchanged.refl p
  · rcases acceptPktRevocation_error h with rfl | ⟨tip, ci, older, hc, hck, -, hsh, rfl⟩
    · exact .inl (Unchanged.refl _)
    · exact .inr ⟨tip, ci, older, hc, by simpa [checkPreimage] using hck, hsh, rfl, rfl, rfl, rfl,
        rfl⟩

/-! ### A rejected revocation that changes their chain -/

/-- A host whose hash is the identity and whose shachain refuses every preimage. -/
def refusingHost : Host where
  relLocktimeMax := 0
  anchorConfirmsMax := 0
  commitmentFeeRateMin := 0
  sha256 := id
  revocationPreimage := fun _ _ => ⟨0⟩
  revocationHash := fun _ _ => ⟨0⟩
  signTheirCommit := fun _ _ => ⟨0⟩
  signatureValid := fun _ => true
  pubkeyValid := fun _ => true
  redeem2of2 := fun _ _ => ⟨[]⟩
  checkTxSig := fun _ _ _ _ => true
  shachainConsistent := fun _ _ _ => false
  afford := fun _ _ _ => true

/-- Their previous commit expects the preimage `7` (under the identity hash). -/
def awaitingRevocation : Peer :=
  let side : PeerVisibleState :=
    ⟨.cmdOpenWithAnchor, ⟨0⟩, ⟨0⟩, 0, 0, 0, ⟨0⟩, [], default⟩
  let prev : CommitInfo := { newCommitInfo with revocationHash := ⟨7⟩ }
  let tip : CommitInfo := { newCommitInfo with commitNum := 1 }
  ⟨side, { side with commit := [tip, prev] }, [], ⟨[]⟩, ⟨0⟩, ⟨⟨[]⟩⟩⟩

/-- **A rejected revocation that changes a commit chain.** The preimage `7` matches their
previous commit, the shachain refuses it, and `accept_pkt_revocation` returns "preimage not next
in shachain" with the preimage recorded on that commit. -/
theorem revocation_error_records_preimage :
    ∃ p', acceptPktRevocation refusingHost awaitingRevocation ⟨⟨7⟩, ⟨0⟩⟩ =
      some (p', some (pktErr "preimage not next in shachain")) ∧
      p'.remote.commit ≠ awaitingRevocation.remote.commit :=
  ⟨_, rfl, by decide⟩

end Lightning
