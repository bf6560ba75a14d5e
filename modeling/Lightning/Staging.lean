import Lightning.Refinement

/-!
# The staging views against any peer

What `StagingInv` gives in every state one peer reaches against any remote peer, hostile or not,
when its adds use fresh ids (`Reach`):

* `staging_views_consistent`: their HTLCs in their staging state are among their HTLCs in ours,
  and ours in ours among ours in theirs; each side's ids are unique in both; and the replays of
  `queue_pkt_revocation` and `accept_pkt_revocation` meet no duplicate add and no missing HTLC,
  so that, every add affordable, they never fail.
* `fulfill_needs_preimage`: one of our HTLCs is fulfilled in our staging state only by an
  `UpdateFulfillHtlc` whose `r` hashes to its `rhash`; in theirs only by the replay of such a
  packet, which they sent, and the HTLC the replay removes, found by id, has the same `rhash`.
* `their_htlcs_admitted`: in both staging states and in every commit, their HTLCs have positive
  amounts and expiries in seconds, and there are at most 300 of them.
-/

namespace Lightning

/-- `host`, with every add affordable. -/
def Host.affordAll (host : Host) : Host := { host with afford := fun _ _ _ => true }

/-- **Consistent staging views**: their HTLCs in their staging state are among those in ours,
ours in ours among those in theirs, each side's ids are unique in both, and, every add
affordable, the replays of the two revocation handlers succeed wherever the machine runs
them. -/
def ViewsConsistent (host : Host) (m : Machine) : Prop :=
  (∀ x ∈ (m.peer.remote.stagingCstate.side .theirs).htlcs,
    x ∈ (m.peer.local.stagingCstate.side .theirs).htlcs) ∧
  (∀ x ∈ (m.peer.local.stagingCstate.side .ours).htlcs,
    x ∈ (m.peer.remote.stagingCstate.side .ours).htlcs) ∧
  (∀ s, (ids (m.peer.local.stagingCstate.side s).htlcs).Nodup ∧
    (ids (m.peer.remote.stagingCstate.side s).htlcs).Nodup) ∧
  (m.revocationDue = true → ∃ tip ci older, m.peer.local.commit = tip :: ci :: older ∧
    (applyChangeset host.affordAll .theirs m.peer.remote.stagingCstate
      (ci.unackedChanges.getD [])).isSome) ∧
  (m.broken = false → m.committing = true → ∃ tip ci older,
    m.peer.remote.commit = tip :: ci :: older ∧
    (applyChangeset host.affordAll .ours m.peer.local.stagingCstate
      (ci.unackedChanges.getD [])).isSome)

/-- **Fulfills carry the preimage.** An accepted `UpdateFulfillHtlc` removes from our staging
state the HTLC of ours with its id, whose `rhash` its `r` hashes to. Each fulfill that
`queue_pkt_revocation` replays on their staging state was sent by them, and when the replay
reaches it, the HTLC of ours it finds by id has the `rhash` that its `r` hashes to. -/
def FulfillsPreimaged (host : Host) (is : List Input) (m : Machine) : Prop :=
  (∀ f m', m.step host (.pkt (.updateFulfillHtlc f)) = some m' → m'.broken = false →
    ∃ n x, (m.peer.local.stagingCstate.side .ours).htlcs[n]? = some x ∧ x.id = f.id ∧
      host.sha256 f.r = x.rhash ∧
      m'.peer.local.stagingCstate = fundingFulfillHtlc m.peer.local.stagingCstate n .ours) ∧
  (m.revocationDue = true → ∃ tip ci older, m.peer.local.commit = tip :: ci :: older ∧
    ∀ pre id r post cs, ci.unackedChanges.getD [] = pre ++ .fulfill id r :: post →
      applyChangeset host .theirs m.peer.remote.stagingCstate pre = some cs →
      .pkt (.updateFulfillHtlc ⟨id, r⟩) ∈ is ∧
      ∃ n x, fundingHtlcById cs id .ours = some n ∧ (cs.side .ours).htlcs[n]? = some x ∧
        host.sha256 r = x.rhash)

/-- **Their HTLCs are admitted** in both staging states and in the state of every commit of
either chain. -/
def TheirHtlcsAdmitted (m : Machine) : Prop :=
  ∀ cs ∈ m.peer.local.stagingCstate :: m.peer.remote.stagingCstate :: m.peer.commitStates,
    Admitted (cs.side .theirs).htlcs

section
variable {host : Host} {is : List Input} {m : Machine}

/-- Their pending changes: our previous commit's unacked list, then our newest's. -/
theorem theirs_eq_of_localChain {tip ci : CommitInfo} {older : List CommitInfo}
    (hch : ChainInv host m) (hl : m.peer.local.commit = tip :: ci :: older) :
    m.peer.buffers.theirs = ci.unackedChanges.getD [] ++ tip.unackedChanges.getD [] := by
  rw [← Chain.pending_of_wellFormed (hl ▸ hch.localChain.wellFormed), ← hl]
  rfl

/-- Our pending changes: their previous commit's unacked list, then their newest's. -/
theorem ours_eq_of_remoteChain {tip ci : CommitInfo} {older : List CommitInfo}
    (hch : ChainInv host m) (hr : m.peer.remote.commit = tip :: ci :: older) :
    m.peer.buffers.ours = ci.unackedChanges.getD [] ++ tip.unackedChanges.getD [] := by
  rw [← Chain.pending_of_wellFormed (hr ▸ hch.remoteChain.wellFormed), ← hr]
  rfl

theorem staging_views_consistent (h : Reach host is m) : ViewsConsistent host m := by
  have hc := h.stagingInv.buffers.consistent
  have hch := h.reachable.chainInv
  refine ⟨hc.theirs.sub, hc.ours.sub, fun s => ?_, fun hd => ?_, fun hb hcm => ?_⟩
  · cases s
    · exact ⟨hc.nodupLo, hc.nodupRo⟩
    · exact ⟨hc.nodupLt, hc.nodupRt⟩
  · obtain ⟨tip, ci, older, hl, -⟩ := hch.localChain.prevDue hd
    exact ⟨tip, ci, older, hl, applyChangeset_isSome (fun _ _ _ => rfl) _ m.peer.buffers _ hc
      rfl rfl (theirs_eq_of_localChain hch hl)⟩
  · obtain ⟨tip, ci, older, hr, -⟩ := hch.remoteChain.prevOutstanding hb hcm
    exact ⟨tip, ci, older, hr, applyChangeset_isSome (fun _ _ _ => rfl) _ m.peer.buffers.mirror
      _ hc.mirror rfl rfl (ours_eq_of_remoteChain hch hr)⟩

/-- While our revocation is due and our commit is outstanding, both replays are built. -/
theorem staging_views_while_settling :
    Reach trustingHost settlingRun settlingMachine ∧
      ViewsConsistent trustingHost settlingMachine :=
  ⟨reach_settlingMachine, staging_views_consistent reach_settlingMachine⟩

theorem fulfill_needs_preimage (h : Reach host is m) : FulfillsPreimaged host is m := by
  have hi := h.stagingInv
  refine ⟨fun f m' hs hb => ?_, fun hd => ?_⟩
  · obtain ⟨-, -, hs⟩ := Machine.step_pkt hs
    rcases Machine.accept_eq_some hs with ⟨p, hq, rfl⟩ | ⟨p, e, hq, rfl⟩
    · obtain ⟨n, x, ci, older, hf, hx, hsha, -, rfl⟩ := acceptPktHtlcFulfill_ok hq
      obtain ⟨-, -, -, -, hn⟩ := findCommitedHtlc_ok hf
      obtain ⟨y, hy, hid⟩ := fundingHtlcById_eq_some hn
      obtain rfl : y = x := Option.some.inj (hy.symm.trans hx)
      exact ⟨n, y, hy, hid, hsha, rfl⟩
    · cases hb
  · have hch := h.reachable.chainInv
    obtain ⟨tip, ci, older, hl, -⟩ := hch.localChain.prevDue hd
    refine ⟨tip, ci, older, hl, fun pre id r post cs hci hcs => ?_⟩
    have hth : m.peer.buffers.theirs =
        pre ++ (.fulfill id r :: (post ++ tip.unackedChanges.getD [])) := by
      simp [theirs_eq_of_localChain hch hl, hci]
    -- the replay up to the fulfill, as replays of the buffers, keeps them consistent and
    -- their pending fulfills preimaged
    have hrep := replays_of_applyChangeset pre m.peer.buffers _ rfl rfl hth hcs
    have hck := hi.buffers.consistent.replays hrep
    obtain ⟨x, hx, hid, hsha⟩ := hi.buffers.preimaged.replays hi.buffers.consistent hrep id r
      (List.mem_cons_self _ _)
    refine ⟨hi.buffers.presented id r (by simp [hth]), ?_⟩
    obtain ⟨n, hn⟩ :=
      Option.isSome_iff_exists.1 (fundingHtlcById_isSome.2 (hid ▸ id_mem_ids hx))
    obtain ⟨y, hy, hyid⟩ := fundingHtlcById_eq_some hn
    obtain rfl : y = x :=
      eq_of_id_eq hck.nodupRo (List.mem_iff_getElem?.2 ⟨n, hy⟩) hx (hyid.trans hid.symm)
    exact ⟨n, y, hn, hy, hsha⟩

/-- With their fulfill of our HTLC 0 among the changes the due revocation replays. -/
theorem fulfill_preimaged_while_settling :
    Reach trustingHost settlingRun settlingMachine ∧
      FulfillsPreimaged trustingHost settlingRun settlingMachine :=
  ⟨reach_settlingMachine, fulfill_needs_preimage reach_settlingMachine⟩

theorem their_htlcs_admitted (h : Reach host is m) : TheirHtlcsAdmitted m := by
  have hi := h.stagingInv
  intro cs hcs
  rcases List.mem_cons.1 hcs with rfl | hcs
  · exact hi.buffers.admitted
  rcases List.mem_cons.1 hcs with rfl | hcs
  · exact hi.buffers.admitted.of_subset hi.buffers.consistent.theirs.sub
      hi.buffers.consistent.nodupRt
  · exact hi.snapshots cs hcs

/-- With their HTLC 0 in our staging state and in our newest commit. -/
theorem their_htlcs_admitted_while_settling :
    Reach trustingHost settlingRun settlingMachine ∧ TheirHtlcsAdmitted settlingMachine :=
  ⟨reach_settlingMachine, their_htlcs_admitted reach_settlingMachine⟩

end

end Lightning
