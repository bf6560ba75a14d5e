import Lightning.Staging

/-!
# Affordability and the replays

`funding.c` is not in the source; §4.1 of the spec gives its rule: the funder pays a fee that
grows with the number of HTLCs, deducted from its balance before an add is judged, and an add is
refused when a balance would go negative (`feeAfford`).

`accept_pkt_htlc_add` asks that rule of our staging state only, and its own comment says so:
"This is wrong! We may have already added more txs to them.staging_cstate, driving that fee up.
We should check against the last version they acknowledged." When `queue_pkt_revocation`
replays the add on their staging state, which holds our pending adds, the same rule can refuse
it, and `apply_changeset` is `fatal`. `accepted_add_replay_fails` is such a run: we add an HTLC,
they add one that our staging state affords, they commit, and the revocation we must send
cannot be built. With every add affordable it could (`staging_views_consistent`).
-/

namespace Lightning

/-- **The affordability rule of §4.1.** After `side` adds `msat`, its balance covers the
amount, and the funder's balance covers the fee that `fee` gives for the fee rate and the
number of HTLCs of both sides. -/
def feeAfford (fee : Nat → Nat → Nat) (cs : ChannelState) (side : Side) (msat : Nat) : Bool :=
  let htlcs := (cs.side .ours).htlcs.length + (cs.side .theirs).htlcs.length + 1
  let funderPays := (cs.side cs.funder).payMsat - if cs.funder = side then msat else 0
  decide (msat ≤ (cs.side side).payMsat) && decide (fee cs.feeRate htlcs ≤ funderPays)

/-! ### An accepted add whose replay is refused -/

/-- A host that judges adds by `feeAfford`, at a fee of 1000 per HTLC. -/
def feeHost : Host := { trustingHost with afford := feeAfford fun _ n => 1000 * n }

/-- We fund the channel with 1100, they hold 1000, and no HTLC is offered yet. -/
def fundedState : ChannelState := ⟨0, 0, .ours, ⟨1100, []⟩, ⟨1000, []⟩⟩

/-- Both sides at first commitments of `fundedState`. -/
def fundedMachine : Machine :=
  let ci : CommitInfo := { newCommitInfo with cstate := fundedState }
  let side : PeerVisibleState :=
    ⟨.cmdOpenWithAnchor, ⟨0⟩, ⟨0⟩, 0, 0, 0, ⟨0⟩, [ci], fundedState⟩
  ⟨⟨side, side, [], ⟨[]⟩, ⟨0⟩, ⟨⟨[]⟩⟩⟩, false, false, false⟩

theorem fundedMachine_initial : fundedMachine.Initial := by
  refine ⟨⟨_, _, rfl, rfl, ?_, ?_, rfl, rfl, rfl⟩, rfl, rfl, rfl⟩ <;>
    exact ⟨rfl, fun s => by cases s <;> rfl, rfl, rfl⟩

/-- Our HTLC of 100: the fee for one HTLC and it fit in our 1100. -/
def ourHtlc : ChannelHtlc := ⟨0, 100, .seconds 500, ⟨1⟩⟩

/-- Their HTLC of 100: our staging state, with no HTLC, affords the fee for one. -/
def theirAdd : UpdateAddHtlc := ⟨0, 100, ⟨2⟩, .seconds 500⟩

/-- The inputs of the run: our add, their add, their commit. -/
def replayRun : List Input :=
  [.htlcAdd ourHtlc, .pkt (.updateAddHtlc theirAdd), .pkt (.updateCommit ⟨⟨0⟩⟩)]

/-- After our add. -/
def afterOurAdd : Machine := (fundedMachine.step feeHost (.htlcAdd ourHtlc)).getD fundedMachine

/-- After their add. -/
def afterTheirAdd : Machine :=
  (afterOurAdd.step feeHost (.pkt (.updateAddHtlc theirAdd))).getD afterOurAdd

/-- Where `replayRun` leaves us: their commit accepted, our revocation due. -/
def awaitingReplay : Machine :=
  (afterTheirAdd.step feeHost (.pkt (.updateCommit ⟨⟨0⟩⟩))).getD afterTheirAdd

theorem reach_awaitingReplay : Reach feeHost replayRun awaitingReplay :=
  have h1 : Reach feeHost [.htlcAdd ourHtlc] afterOurAdd :=
    @Reach.step feeHost [] _ _ _ (.init fundedMachine_initial) (by simp [FreshId, addIds]) rfl
  have h2 : Reach feeHost [.htlcAdd ourHtlc, .pkt (.updateAddHtlc theirAdd)] afterTheirAdd :=
    @Reach.step feeHost _ _ _ (.pkt (.updateAddHtlc theirAdd)) h1 trivial rfl
  @Reach.step feeHost _ _ _ (.pkt (.updateCommit ⟨⟨0⟩⟩)) h2 trivial rfl

/-- **An accepted add that cannot be replayed.** After `replayRun`, the revocation is due and
`queue_pkt_revocation` fails (`apply_changeset`'s `fatal`): their add, accepted against our
staging state, does not fit theirs, where our add has raised the fee. Every add affordable,
the revocation is built. -/
theorem accepted_add_replay_fails :
    Reach feeHost replayRun awaitingReplay ∧ awaitingReplay.revocationDue = true ∧
      awaitingReplay.step feeHost .revocation = none ∧
      (awaitingReplay.step feeHost.affordAll .revocation).isSome :=
  ⟨reach_awaitingReplay, rfl, rfl, rfl⟩

end Lightning
