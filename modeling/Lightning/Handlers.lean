import Lightning.Packets

/-!
# What each handler does

One inversion lemma per handler of `Lightning.Packets`: from `handler … = some …`, the checks
that passed and the peer it leaves, written out. Every later proof about a handler starts from
its lemma here and never unfolds the handler.

* `queuePktHtlcAdd_eq_some`, `queuePktHtlcFulfill_eq_some`, `queuePktHtlcFail_eq_some`,
  `queuePktCommit_eq_some`, `queuePktRevocation_eq_some`: our updates.
* `acceptPkt…_ok`: an accepted packet of theirs; `acceptPkt…_error`: a rejected one leaves the
  peer as it was, except `acceptPktRevocation_error`, where the preimage may stay recorded.
-/

namespace Lightning

section
variable {host : Host} {p p' : Peer}

theorem addUnacked_eq_some {w w' : PeerVisibleState} {s : HtlcStaging}
    (h : addUnacked w s = some w') :
    ∃ ci older, w.commit = ci :: older ∧ w' = { w with commit := ci.withUnacked s :: older } := by
  unfold addUnacked at h
  split at h
  · cases h
  · exact ⟨_, _, ‹_›, (Option.some.inj h).symm⟩

/-! ### Opening -/

theorem queuePktOpen_eq_some {anchor : AnchorOffer} (hq : queuePktOpen host p anchor = some p') :
    ∃ o : OpenChannel, o.revocationHash = p.local.nextRevocationHash ∧
      o.nextRevocationHash = host.revocationHash p.secrets 1 ∧
      p' = { p with
        «local» := { p.local with
          commit := [{ newCommitInfo with revocationHash := p.local.nextRevocationHash }]
          nextRevocationHash := host.revocationHash p.secrets 1 }
        outpkt := p.outpkt ++ [.open o] } := by
  unfold queuePktOpen at hq
  dsimp only at hq
  split_ifs at hq
  exact ⟨_, rfl, rfl, (Option.some.inj hq).symm⟩

/-- An accepted `OpenChannel` gives their first commit its revocation hash, and their next. -/
theorem acceptPktOpen_ok {o : OpenChannel} (h : acceptPktOpen host p o = (p', none)) :
    p'.remote.commit = [{ newCommitInfo with revocationHash := o.revocationHash }] ∧
      p'.remote.nextRevocationHash = o.nextRevocationHash := by
  unfold acceptPktOpen at h
  dsimp only at h
  repeat' split at h
  all_goals cases h
  exact ⟨rfl, rfl⟩

/-! ### Our updates -/

theorem queuePktHtlcAdd_eq_some {h : ChannelHtlc}
    (hq : queuePktHtlcAdd host p (.add h) = some p') :
    host.afford p.remote.stagingCstate .ours h.msatoshis = true ∧
      ∃ ci older, p.remote.commit = ci :: older ∧
        p' = { p with
          remote := { p.remote with
            stagingCstate := (p.remote.stagingCstate.modify .ours
              fun o => ⟨o.payMsat - h.msatoshis, o.htlcs ++ [h]⟩).bump,
            commit := ci.withUnacked (.add h) :: older },
          outpkt := p.outpkt ++
            [.updateAddHtlc ⟨h.id, h.msatoshis, h.rhash, absLocktimeToProto h.expiry⟩] } := by
  simp only [queuePktHtlcAdd] at hq
  cases hf : fundingAddHtlc host.afford p.remote.stagingCstate h.msatoshis h.expiry h.rhash h.id
    .ours with
  | none => simp [hf] at hq
  | some x =>
    obtain ⟨ha, rfl⟩ := fundingAddHtlc_eq_some.1 hf
    rw [hf] at hq
    obtain ⟨w, hw, rfl⟩ := Option.map_eq_some'.1 hq
    obtain ⟨ci, older, hc, rfl⟩ := addUnacked_eq_some hw
    exact ⟨ha, ci, older, hc, rfl⟩

theorem queuePktHtlcFulfill_eq_some {id : UInt64} {r : Sha256}
    (hq : queuePktHtlcFulfill p id r = some p') :
    ∃ n ci older, fundingHtlcById p.remote.stagingCstate id .theirs = some n ∧
      p.remote.commit = ci :: older ∧
      p' = { p with
        remote := { p.remote with
          stagingCstate := fundingFulfillHtlc p.remote.stagingCstate n .theirs,
          commit := ci.withUnacked (.fulfill id r) :: older },
        outpkt := p.outpkt ++ [.updateFulfillHtlc ⟨id, r⟩] } := by
  unfold queuePktHtlcFulfill at hq
  split at hq
  · cases hq
  · obtain ⟨w, hw, rfl⟩ := Option.map_eq_some'.1 hq
    obtain ⟨ci, older, hc, rfl⟩ := addUnacked_eq_some hw
    exact ⟨_, ci, older, ‹_›, hc, rfl⟩

theorem queuePktHtlcFail_eq_some {id : UInt64} (hq : queuePktHtlcFail p id = some p') :
    ∃ n ci older, fundingHtlcById p.remote.stagingCstate id .theirs = some n ∧
      p.remote.commit = ci :: older ∧
      p' = { p with
        remote := { p.remote with
          stagingCstate := fundingFailHtlc p.remote.stagingCstate n .theirs,
          commit := ci.withUnacked (.fail id) :: older },
        outpkt := p.outpkt ++ [.updateFailHtlc ⟨id⟩] } := by
  unfold queuePktHtlcFail at hq
  split at hq
  · cases hq
  · obtain ⟨w, hw, rfl⟩ := Option.map_eq_some'.1 hq
    obtain ⟨ci, older, hc, rfl⟩ := addUnacked_eq_some hw
    exact ⟨_, ci, older, ‹_›, hc, rfl⟩

/-- The commit `queue_pkt_commit` and `accept_pkt_commit` build after `prev`: numbered after it,
with the next revocation hash `rh` and a copy of the staging state `cs`. -/
def CommitInfo.next (prev : CommitInfo) (rh : Sha256) (cs : ChannelState) : CommitInfo :=
  { newCommitInfo with commitNum := prev.commitNum + 1, revocationHash := rh, cstate := cs }

theorem queuePktCommit_eq_some (hq : queuePktCommit host p = some p') :
    ∃ prev older, p.remote.commit = prev :: older ∧
      prev.cstate.changes ≠ p.remote.stagingCstate.changes ∧
      let ci := prev.next p.remote.nextRevocationHash p.remote.stagingCstate
      let sig := host.signTheirCommit p.secrets (ci.tx .theirs)
      p' = { p with
        remote := { p.remote with commit := { ci with sig := some sig } :: prev :: older },
        outpkt := p.outpkt ++ [.updateCommit ⟨sig⟩] } := by
  unfold queuePktCommit at hq
  split at hq
  · cases hq
  · rename_i prev older hc
    dsimp only at hq
    split at hq
    · cases hq
    · exact ⟨prev, older, hc, ‹_›, by rw [← hc]; exact (Option.some.inj hq).symm⟩

theorem queuePktRevocation_eq_some (hq : queuePktRevocation host p = some p') :
    ∃ tip ci older cs, p.local.commit = tip :: ci :: older ∧ ci.revocationPreimage = none ∧
      tip.sig.isSome ∧
      applyChangeset host .theirs p.remote.stagingCstate (ci.unackedChanges.getD []) = some cs ∧
      let preimage := host.revocationPreimage p.secrets ci.commitNum
      p' = { p with
        «local» := { p.local with commit :=
          tip :: { ci with revocationPreimage := some preimage, unackedChanges := none } :: older },
        remote := { p.remote with stagingCstate := cs },
        outpkt := p.outpkt ++ [.updateRevocation ⟨preimage, p.local.nextRevocationHash⟩] } := by
  unfold queuePktRevocation at hq
  split at hq
  · rename_i tip ci older hc
    split at hq
    · cases hq
    · rename_i hpre
      obtain ⟨h1, h2⟩ : ci.revocationPreimage = none ∧ tip.sig.isSome := by
        revert hpre; cases ci.revocationPreimage <;> cases tip.sig <;> simp
      obtain ⟨cs, hcs, rfl⟩ := Option.map_eq_some'.1 hq
      exact ⟨tip, ci, older, cs, hc, h1, h2, hcs, rfl⟩
  · cases hq

/-! ### Their updates -/

theorem acceptPktHtlcAdd_ok {u : UpdateAddHtlc}
    (hq : acceptPktHtlcAdd host p u = some (p', none)) :
    ∃ e ci older, u.amountMsat ≠ 0 ∧ protoToAbsLocktime u.expiry = some e ∧
      e.isSeconds = true ∧
      (p.remote.stagingCstate.side .theirs).htlcs.length ≠ 300 ∧
      (p.local.stagingCstate.side .theirs).htlcs.length ≠ 300 ∧
      u.id ∉ ids (p.remote.stagingCstate.side .theirs).htlcs ∧
      u.id ∉ ids (p.local.stagingCstate.side .theirs).htlcs ∧
      host.afford p.local.stagingCstate .theirs u.amountMsat = true ∧
      p.local.commit = ci :: older ∧
      p' = { p with «local» := { p.local with
        stagingCstate := (p.local.stagingCstate.modify .theirs
          fun o => ⟨o.payMsat - u.amountMsat, o.htlcs ++ [⟨u.id, u.amountMsat, e, u.rHash⟩]⟩).bump,
        commit := ci.withUnacked (.add ⟨u.id, u.amountMsat, e, u.rHash⟩) :: older } } := by
  unfold acceptPktHtlcAdd at hq
  repeat' split at hq
  all_goals try cases hq
  rename_i h0 _ e he hs h300 hr hl _ cs htlc hf
  obtain ⟨ha, hp⟩ := fundingAddHtlc_eq_some.1 hf
  simp only [Prod.mk.injEq] at hp
  obtain ⟨rfl, rfl⟩ := hp
  obtain ⟨w, hw, hp⟩ := Option.map_eq_some'.1 hq
  obtain ⟨ci, older, hc, rfl⟩ := addUnacked_eq_some hw
  simp only [Bool.or_eq_true, decide_eq_true_eq, not_or] at h300
  refine ⟨e, ci, older, h0, he, by simpa using hs, h300.1, h300.2, ?_, ?_, ha, hc,
    (Prod.mk.inj hp).1.symm⟩
  · simpa [fundingHtlcById_isSome] using hr
  · simpa [fundingHtlcById_isSome] using hl

theorem acceptPktHtlcAdd_error {u : UpdateAddHtlc} {e : Pkt}
    (hq : acceptPktHtlcAdd host p u = some (p', some e)) : p' = p := by
  unfold acceptPktHtlcAdd at hq
  repeat' split at hq
  all_goals first
    | exact (Prod.mk.inj (Option.some.inj hq)).1.symm
    | (obtain ⟨_, _, h⟩ := Option.map_eq_some'.1 hq; simp at h)

theorem findCommitedHtlc_ok {id : UInt64} {n : Nat}
    (hf : findCommitedHtlc p id = some (.ok n)) :
    ∃ ci older, p.local.commit = ci :: older ∧ id ∈ ids (ci.cstate.side .ours).htlcs ∧
      fundingHtlcById p.local.stagingCstate id .ours = some n := by
  unfold findCommitedHtlc at hf
  repeat' split at hf
  all_goals try (simp at hf; done)
  rename_i ci older hc _ _ hci _ _ hn
  cases hf
  exact ⟨ci, older, hc, fundingHtlcById_isSome.1 (by simp [hci]), hn⟩

theorem acceptPktHtlcFail_ok {f : UpdateFailHtlc}
    (hq : acceptPktHtlcFail p f = some (p', none)) :
    ∃ n ci older, findCommitedHtlc p f.id = some (.ok n) ∧ p.local.commit = ci :: older ∧
      p' = { p with «local» := { p.local with
        stagingCstate := fundingFailHtlc p.local.stagingCstate n .ours,
        commit := ci.withUnacked (.fail f.id) :: older } } := by
  unfold acceptPktHtlcFail at hq
  split at hq
  · cases hq
  · simp at hq
  · obtain ⟨w, hw, hp⟩ := Option.map_eq_some'.1 hq
    obtain ⟨ci, older, hc, rfl⟩ := addUnacked_eq_some hw
    exact ⟨_, ci, older, ‹_›, hc, (Prod.mk.inj hp).1.symm⟩

theorem acceptPktHtlcFail_error {f : UpdateFailHtlc} {e : Pkt}
    (hq : acceptPktHtlcFail p f = some (p', some e)) : p' = p := by
  unfold acceptPktHtlcFail at hq
  split at hq
  · cases hq
  · exact (Prod.mk.inj (Option.some.inj hq)).1.symm
  · obtain ⟨_, _, h⟩ := Option.map_eq_some'.1 hq
    simp at h

theorem acceptPktHtlcFulfill_ok {f : UpdateFulfillHtlc}
    (hq : acceptPktHtlcFulfill host p f = some (p', none)) :
    ∃ n h ci older, findCommitedHtlc p f.id = some (.ok n) ∧
      (p.local.stagingCstate.side .ours).htlcs[n]? = some h ∧ host.sha256 f.r = h.rhash ∧
      p.local.commit = ci :: older ∧
      p' = { p with «local» := { p.local with
        stagingCstate := fundingFulfillHtlc p.local.stagingCstate n .ours,
        commit := ci.withUnacked (.fulfill f.id f.r) :: older } } := by
  unfold acceptPktHtlcFulfill at hq
  repeat' split at hq
  all_goals try (simp at hq; done)
  rename_i n hn _ h hh hr
  obtain ⟨w, hw, hp⟩ := Option.map_eq_some'.1 hq
  obtain ⟨ci, older, hc, rfl⟩ := addUnacked_eq_some hw
  exact ⟨n, h, ci, older, hn, hh, not_not.1 hr, hc, (Prod.mk.inj hp).1.symm⟩

theorem acceptPktHtlcFulfill_error {f : UpdateFulfillHtlc} {e : Pkt}
    (hq : acceptPktHtlcFulfill host p f = some (p', some e)) : p' = p := by
  unfold acceptPktHtlcFulfill at hq
  repeat' split at hq
  all_goals first
    | exact (Prod.mk.inj (Option.some.inj hq)).1.symm
    | (obtain ⟨_, _, h⟩ := Option.map_eq_some'.1 hq; simp at h)
    | simp at hq

theorem checkAndSaveCommitSig_ok {ci ci' : CommitInfo} {sig : Signature}
    (hc : checkAndSaveCommitSig host p ci sig = some (ci', none)) :
    ci.sig = none ∧ host.signatureValid sig = true ∧
      host.checkTxSig (ci.tx .ours) p.anchor.witnessscript p.remote.commitkey sig = true ∧
      ci' = { ci with sig := some sig } := by
  unfold checkAndSaveCommitSig at hc
  dsimp only at hc
  repeat' split at hc
  all_goals try (simp at hc; done)
  rename_i h1 h2 h3
  refine ⟨by simpa using h1, by simpa using h2, by simpa [CommitInfo.tx] using h3, ?_⟩
  exact (Prod.mk.inj (Option.some.inj hc)).1.symm

theorem acceptPktCommit_ok {c : UpdateCommit}
    (hq : acceptPktCommit host p c = some (p', none)) :
    ∃ prev older, p.local.commit = prev :: older ∧
      prev.cstate.changes ≠ p.local.stagingCstate.changes ∧
      let ci := prev.next p.local.nextRevocationHash p.local.stagingCstate
      host.signatureValid c.sig = true ∧
      host.checkTxSig (ci.tx .ours) p.anchor.witnessscript p.remote.commitkey c.sig = true ∧
      p' = { p with «local» := { p.local with
        commit := { ci with sig := some c.sig } :: prev :: older,
        nextRevocationHash := host.revocationHash p.secrets (prev.commitNum + 1 + 1) } } := by
  unfold acceptPktCommit at hq
  split at hq
  · cases hq
  · rename_i prev older hc
    dsimp only at hq
    split at hq
    · simp at hq
    · rename_i hne
      split at hq
      · cases hq
      · simp at hq
      · rename_i ci' hs
        obtain ⟨-, hv, hck, rfl⟩ := checkAndSaveCommitSig_ok hs
        refine ⟨prev, older, hc, hne, hv, hck, ?_⟩
        rw [← hc]
        exact (Prod.mk.inj (Option.some.inj hq)).1.symm

theorem acceptPktCommit_error {c : UpdateCommit} {e : Pkt}
    (hq : acceptPktCommit host p c = some (p', some e)) : p' = p := by
  unfold acceptPktCommit at hq
  split at hq
  · cases hq
  dsimp only at hq
  repeat' split at hq
  all_goals first
    | exact (Prod.mk.inj (Option.some.inj hq)).1.symm
    | simp at hq

theorem acceptPktRevocation_ok {r : UpdateRevocation}
    (hq : acceptPktRevocation host p r = some (p', none)) :
    ∃ tip ci older chain cs, p.remote.commit = tip :: ci :: older ∧
      checkPreimage host r.revocationPreimage ci.revocationHash = true ∧
      ci.revocationPreimage = none ∧
      shachainAddHash host p.theirPreimages (0xFFFFFFFFFFFFFFFF - ci.commitNum)
        r.revocationPreimage = some chain ∧
      applyChangeset host .ours p.local.stagingCstate (ci.unackedChanges.getD []) = some cs ∧
      p' = { p with
        theirPreimages := chain,
        «local» := { p.local with stagingCstate := cs },
        remote := { p.remote with
          nextRevocationHash := r.nextRevocationHash,
          commit := tip :: { ci with
            revocationPreimage := some r.revocationPreimage, unackedChanges := none } ::
            older } } := by
  unfold acceptPktRevocation at hq
  split at hq
  · rename_i tip ci older hc
    repeat' split at hq
    all_goals try (simp at hq; done)
    rename_i hck hpre _ chain hch
    obtain ⟨cs, hcs, hp⟩ := Option.map_eq_some'.1 hq
    refine ⟨tip, ci, older, chain, cs, hc, by simpa using hck, by simpa using hpre, hch, hcs, ?_⟩
    exact (Prod.mk.inj hp).1.symm
  · cases hq

theorem shachainAddHash_eq_some {chain chain' : Shachain} {index : UInt64} {hash : Sha256}
    (h : shachainAddHash host chain index hash = some chain') :
    chain'.known = chain.known ++ [(index, hash)] := by
  unfold shachainAddHash at h
  split at h
  · exact (Option.some.inj h) ▸ rfl
  · cases h

/-- A rejected revocation leaves the peer as it was, or, when only the shachain refuses the
preimage, with the preimage recorded on their previous commit. -/
theorem acceptPktRevocation_error {r : UpdateRevocation} {e : Pkt}
    (hq : acceptPktRevocation host p r = some (p', some e)) :
    p' = p ∨ ∃ tip ci older, p.remote.commit = tip :: ci :: older ∧
      checkPreimage host r.revocationPreimage ci.revocationHash = true ∧
      ci.revocationPreimage = none ∧
      shachainAddHash host p.theirPreimages (0xFFFFFFFFFFFFFFFF - ci.commitNum)
        r.revocationPreimage = none ∧
      p' = { p with remote := { p.remote with commit :=
        tip :: { ci with revocationPreimage := some r.revocationPreimage } :: older } } := by
  unfold acceptPktRevocation at hq
  split at hq
  · rename_i tip ci older hc
    repeat' split at hq
    all_goals try (simp at hq; done)
    · exact .inl (Prod.mk.inj (Option.some.inj hq)).1.symm
    · rename_i hck hpre _ hch
      exact .inr ⟨tip, ci, older, hc, by simpa using hck, by simpa using hpre, hch,
        (Prod.mk.inj (Option.some.inj hq)).1.symm⟩
  · cases hq

end

end Lightning
