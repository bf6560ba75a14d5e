import Lightning.Refinement

/-!
# An HTLC of ours is removed once

`find_commited_htlc` holds the comment "They must not fail/fulfill twice, so it should be in
staging, too": a fail or a fulfill of theirs must name an HTLC of ours that is still in our
staging state, and removes it there. Since our adds use fresh ids (the callers' precondition),
an HTLC of ours that has left our staging state never comes back to it.

* `Buffers.Settled id b`: the HTLC of ours with id `id` is gone from our staging state, and no
  add of it is pending there;
* `Buffers.Settled.step`: every step of a peer reached with fresh ids keeps it, for an id that
  one of our adds used; `settled_of_removed`: an accepted fail or fulfill makes it;
  `Buffers.Settled.refused`: under it, every fail or fulfill of the id breaks the peer down;
* `htlc_removed_once`: once a fail or a fulfill of one of our HTLCs is accepted, every later one
  of it, at any point of any run on whose adds use fresh ids, breaks the peer down.
-/

namespace Lightning

/-- The id of ours that a fail or a fulfill of theirs names. -/
def Pkt.removes : Pkt → Option UInt64
  | .updateFulfillHtlc f => some f.id
  | .updateFailHtlc f => some f.id
  | _ => none

/-- **Our HTLC `id` is settled** in the buffers `b`: not in our staging state, and no add of it
pending for it. -/
def Buffers.Settled (id : UInt64) (b : Buffers) : Prop :=
  id ∉ ids b.lo ∧ id ∉ ids (adds b.ours)

/-- One step on from the inputs `is` and the state `m`, an add of ours using a fresh id. -/
def FreshStep (host : Host) (a b : List Input × Machine) : Prop :=
  ∃ i, FreshId a.1 i ∧ a.2.step host i = some b.2 ∧ b.1 = a.1 ++ [i]

/-! ### What a replay adds -/

/-- A replay adds to the HTLCs of `side` only those of its adds. -/
theorem applyChangeset_side_mem {host : Host} {side : Side} {cs cs' : ChannelState}
    {l : List HtlcStaging} (h : applyChangeset host side cs l = some cs') :
    ∀ x ∈ (cs'.side side).htlcs, x ∈ (cs.side side).htlcs ∨ x ∈ adds l := by
  induction l generalizing cs with
  | nil => exact fun x hx => .inl (Option.some.inj h ▸ hx)
  | cons c l ih =>
    obtain ⟨cs₁, h₁, h₂⟩ := Option.bind_eq_some.1 h
    intro x hx
    rcases ih h₂ x hx with hx | hx
    · rcases applyChange_eq_some h₁ with ⟨y, rfl, -, he, -⟩ | ⟨n, y, hr, -, he, -⟩
      · rw [he, List.mem_append, List.mem_singleton] at hx
        rcases hx with hx | rfl
        · exact .inl hx
        · exact .inr (mem_adds.2 (List.mem_cons_self _ _))
      · exact .inl (he ▸ hx)
    · exact .inr (mem_adds.2 (List.mem_cons_of_mem _ (mem_adds.1 hx)))

/-! ### Every step keeps a settled HTLC settled -/

namespace Buffers.Settled

variable {host : Host} {is : List Input} {m m' : Machine} {id : UInt64}

/-- **Step lemma for our commands**: an add of ours, with a fresh id, is of another id; our
fails and fulfills add nothing; our commits and revocations move nothing of ours. -/
theorem command (hch : ChainInv host m) (hid : id ∈ addIds is) {i : Input} (hf : FreshId is i)
    (hpkt : ∀ q, i ≠ .pkt q) (h : m.peer.buffers.Settled id) (hs : m.step host i = some m') :
    m'.peer.buffers.Settled id := by
  cases i with
  | htlcAdd x =>
    obtain ⟨-, -, p, hq, rfl⟩ := Machine.step_htlcAdd hs
    obtain ⟨-, ci, older, hc, rfl⟩ := queuePktHtlcAdd_eq_some hq
    rw [Peer.buffers_remote hc]
    have hx : x.id ≠ id := fun he => hf (he ▸ hid)
    exact ⟨h.1, by simpa [Ne.symm hx] using h.2⟩
  | htlcFulfill id' r =>
    obtain ⟨-, -, p, hq, rfl⟩ := Machine.step_htlcFulfill hs
    obtain ⟨n, ci, older, -, hc, rfl⟩ := queuePktHtlcFulfill_eq_some hq
    rw [Peer.buffers_remote hc]
    exact ⟨h.1, by simpa [adds, HtlcStaging.added] using h.2⟩
  | htlcFail id' =>
    obtain ⟨-, -, p, hq, rfl⟩ := Machine.step_htlcFail hs
    obtain ⟨n, ci, older, -, hc, rfl⟩ := queuePktHtlcFail_eq_some hq
    rw [Peer.buffers_remote hc]
    exact ⟨h.1, by simpa [adds, HtlcStaging.added] using h.2⟩
  | commit =>
    obtain ⟨-, -, -, p, hq, rfl⟩ := Machine.step_commit hs
    obtain ⟨prev, older, hc, -, rfl⟩ := queuePktCommit_eq_some hq
    rwa [Peer.buffers_pushRemote hc _ rfl]
  | revocation =>
    obtain ⟨-, -, p, hq, rfl⟩ := Machine.step_revocation hs
    obtain ⟨tip, ci, older, cs, hc, -, -, -, rfl⟩ := queuePktRevocation_eq_some hq
    rw [Peer.buffers_revokeLocal (hc ▸ hch.localChain.wellFormed)]
    exact h
  | pkt q => exact absurd rfl (hpkt q)

/-- **Step lemma for their packets**: their adds and commits touch nothing of ours, a fail or a
fulfill removes one HTLC of ours, and an accepted revocation replays on our staging state only
adds that were pending. -/
theorem receive (hch : ChainInv host m) (h : m.peer.buffers.Settled id) {q : Pkt}
    (hs : m.receive host q = some m') : m'.peer.buffers.Settled id := by
  cases q with
  | updateAddHtlc u =>
    rcases Machine.accept_eq_some hs with ⟨p, hq, rfl⟩ | ⟨p, e, hq, rfl⟩
    · obtain ⟨e, ci, older, -, -, -, -, -, -, -, -, hc, rfl⟩ := acceptPktHtlcAdd_ok hq
      rw [id_eq, Peer.buffers_local hc]
      simpa [Settled, Peer.buffers] using h
    · exact acceptPktHtlcAdd_error hq ▸ h
  | updateFulfillHtlc f =>
    rcases Machine.accept_eq_some hs with ⟨p, hq, rfl⟩ | ⟨p, e, hq, rfl⟩
    · obtain ⟨n, x, ci, older, -, hx, -, hc, rfl⟩ := acceptPktHtlcFulfill_ok hq
      rw [id_eq, Peer.buffers_local hc, htlcs_fundingFulfillHtlc hx]
      exact ⟨fun hm => h.1 (Buffers.mem_ids_of_eraseIdx hm), h.2⟩
    · exact acceptPktHtlcFulfill_error hq ▸ h
  | updateFailHtlc f =>
    rcases Machine.accept_eq_some hs with ⟨p, hq, rfl⟩ | ⟨p, e, hq, rfl⟩
    · obtain ⟨n, ci, older, hf, hc, rfl⟩ := acceptPktHtlcFail_ok hq
      obtain ⟨-, -, -, -, hn⟩ := findCommitedHtlc_ok hf
      obtain ⟨x, hx, -⟩ := fundingHtlcById_eq_some hn
      rw [id_eq, Peer.buffers_local hc, htlcs_fundingFailHtlc hx]
      exact ⟨fun hm => h.1 (Buffers.mem_ids_of_eraseIdx hm), h.2⟩
    · exact acceptPktHtlcFail_error hq ▸ h
  | updateCommit c =>
    simp only [Machine.receive] at hs
    rcases Machine.accept_eq_some hs with ⟨p, hq, rfl⟩ | ⟨p, e, hq, rfl⟩
    · obtain ⟨prev, older, hc, -, -, -, rfl⟩ := acceptPktCommit_ok hq
      rwa [Peer.buffers_pushLocal hc _ rfl]
    · exact acceptPktCommit_error hq ▸ h
  | updateRevocation r =>
    obtain ⟨-, hs⟩ := Machine.receive_updateRevocation hs
    rcases Machine.accept_eq_some hs with ⟨p, hq, rfl⟩ | ⟨p, e, hq, rfl⟩
    · obtain ⟨tip, ci, older, chain, cs, hc, -, -, -, hcs, rfl⟩ := acceptPktRevocation_ok hq
      have hw := hc ▸ hch.remoteChain.wellFormed
      -- the pending changes of ours: the revoked commit's, then the newest's
      have hours : m.peer.buffers.ours =
          ci.unackedChanges.getD [] ++ tip.unackedChanges.getD [] := by
        rw [← Chain.pending_of_wellFormed hw, ← hc]
        rfl
      obtain ⟨hlo, hadds⟩ := h
      rw [hours, adds_append, ids_append, List.mem_append, not_or] at hadds
      rw [Peer.buffers_revokeRemote hw]
      refine ⟨fun hm => ?_, hadds.2⟩
      obtain ⟨x, hx, rfl⟩ := mem_ids.1 hm
      rcases applyChangeset_side_mem hcs x hx with hx | hx
      · exact hlo (id_mem_ids hx)
      · exact hadds.1 (id_mem_ids hx)
    · rcases acceptPktRevocation_error hq with rfl | ⟨tip, ci, older, hc, -, -, -, rfl⟩
      · exact h
      · exact (Peer.buffers_recordRemote hc _).symm ▸ h
  | _ => cases hs

/-- **Step lemma**: every step with a fresh id for our add keeps our HTLC `id` settled, once one
of our adds used `id`. -/
theorem step (hch : ChainInv host m) (hid : id ∈ addIds is) {i : Input} (hf : FreshId is i)
    (h : m.peer.buffers.Settled id) (hs : m.step host i = some m') :
    m'.peer.buffers.Settled id := by
  cases i with
  | pkt q => exact receive hch h (Machine.step_pkt hs).2.2
  | _ => exact command hch hid hf (fun _ h => by cases h) h hs

/-- **A settled HTLC is not removed again**: every fail or fulfill of it is refused, and the peer
breaks down. -/
theorem refused (h : m.peer.buffers.Settled id) {q : Pkt} (hq : q.removes = some id)
    (hs : m.step host (.pkt q) = some m') : m'.broken = true := by
  obtain ⟨-, -, hs⟩ := Machine.step_pkt hs
  -- an accepted one finds the HTLC in our staging state
  have found : ∀ n, fundingHtlcById m.peer.local.stagingCstate id .ours = some n → False :=
    fun n hn => h.1 (fundingHtlcById_isSome.1 (by rw [hn]; rfl))
  cases q with
  | updateFulfillHtlc f =>
    obtain rfl : f.id = id := Option.some.inj hq
    rcases Machine.accept_eq_some hs with ⟨p, hq, rfl⟩ | ⟨p, e, hq, rfl⟩
    · obtain ⟨n, -, -, -, hf, -⟩ := acceptPktHtlcFulfill_ok hq
      obtain ⟨-, -, -, -, hn⟩ := findCommitedHtlc_ok hf
      exact (found n hn).elim
    · rfl
  | updateFailHtlc f =>
    obtain rfl : f.id = id := Option.some.inj hq
    rcases Machine.accept_eq_some hs with ⟨p, hq, rfl⟩ | ⟨p, e, hq, rfl⟩
    · obtain ⟨n, -, -, hf, -⟩ := acceptPktHtlcFail_ok hq
      obtain ⟨-, -, -, -, hn⟩ := findCommitedHtlc_ok hf
      exact (found n hn).elim
    · rfl
  | _ => cases hq

end Buffers.Settled

/-! ### Over every run on -/

section
variable {host : Host} {is : List Input} {m m' : Machine} {id : UInt64}

/-- **An accepted fail or fulfill settles the HTLC it names**: the HTLC was in our staging state
once, each id there only once, so it came from one of our adds and has no add pending. -/
theorem settled_of_removed (h : Reach host is m) {q : Pkt} (hq : q.removes = some id)
    (hs : m.step host (.pkt q) = some m') (hok : m'.broken = false) :
    id ∈ addIds (is ++ [.pkt q]) ∧ m'.peer.buffers.Settled id := by
  have hb := h.stagingInv.buffers
  obtain ⟨-, -, hs⟩ := Machine.step_pkt hs
  -- our HTLC `x`, at index `n` of our staging state, is erased there
  have key : ∀ {n : Nat} {x : ChannelHtlc}, m.peer.buffers.lo[n]? = some x → x.id = id →
      m'.peer.buffers.lo = m.peer.buffers.lo.eraseIdx n → m'.peer.buffers.ours =
        m.peer.buffers.ours →
      id ∈ addIds (is ++ [.pkt q]) ∧ m'.peer.buffers.Settled id := by
    intro n x hx hid hlo hours
    have hxm : x ∈ m.peer.buffers.lo := List.mem_iff_getElem?.2 ⟨n, hx⟩
    have hin : id ∈ ids m.peer.buffers.lo := hid ▸ id_mem_ids hxm
    refine ⟨?_, ?_, ?_⟩
    · rw [addIds_append]
      exact List.mem_append_left _ (hid ▸ hb.fresh _ (id_mem_ids (hb.consistent.ours.sub x hxm)))
    · rw [hlo, mem_ids_eraseIdx_iff hb.consistent.nodupLo hx]
      exact fun h => h.2 hid.symm
    · rw [hours]
      exact fun hm => by
        obtain ⟨y, hy, rfl⟩ := mem_ids.1 hm
        exact (hb.consistent.ours.addsMem y hy).2 hin
  cases q with
  | updateFulfillHtlc f =>
    obtain rfl : f.id = id := Option.some.inj hq
    rcases Machine.accept_eq_some hs with ⟨p, hq, rfl⟩ | ⟨p, e, hq, rfl⟩
    · obtain ⟨n, -, ci, older, hf, -, -, hc, rfl⟩ := acceptPktHtlcFulfill_ok hq
      obtain ⟨-, -, -, -, hn⟩ := findCommitedHtlc_ok hf
      obtain ⟨x, hx, hid⟩ := fundingHtlcById_eq_some hn
      refine key hx hid ?_ rfl
      rw [id_eq, Peer.buffers_local hc, htlcs_fundingFulfillHtlc hx]
      rfl
    · cases hok
  | updateFailHtlc f =>
    obtain rfl : f.id = id := Option.some.inj hq
    rcases Machine.accept_eq_some hs with ⟨p, hq, rfl⟩ | ⟨p, e, hq, rfl⟩
    · obtain ⟨n, ci, older, hf, hc, rfl⟩ := acceptPktHtlcFail_ok hq
      obtain ⟨-, -, -, -, hn⟩ := findCommitedHtlc_ok hf
      obtain ⟨x, hx, hid⟩ := fundingHtlcById_eq_some hn
      refine key hx hid ?_ rfl
      rw [id_eq, Peer.buffers_local hc, htlcs_fundingFailHtlc hx]
      rfl
    · cases hok
  | _ => cases hq

/-- **Run lemma**: along every run on with fresh ids, the states stay reached, and a settled
HTLC of ours stays settled. -/
theorem Buffers.Settled.run {a b : List Input × Machine}
    (hr : Relation.ReflTransGen (FreshStep host) a b) (h : Reach host a.1 a.2)
    (hid : id ∈ addIds a.1) (hs : a.2.peer.buffers.Settled id) :
    Reach host b.1 b.2 ∧ id ∈ addIds b.1 ∧ b.2.peer.buffers.Settled id := by
  induction hr with
  | refl => exact ⟨h, hid, hs⟩
  | tail _ hst ih =>
    obtain ⟨h', hid', hs'⟩ := ih
    obtain ⟨i, hf, hstep, he⟩ := hst
    rw [he, addIds_append]
    exact ⟨.step h' hf hstep, List.mem_append_left _ hid',
      hs'.step h'.reachable.chainInv hid' hf hstep⟩

/-- **An HTLC of ours is removed once.** In every state one peer reaches against any remote
peer, its adds using fresh ids, once a fail or a fulfill of one of our HTLCs is accepted, every
later fail or fulfill of that HTLC, at any point of any run on whose adds use fresh ids, is
refused and breaks the peer down. -/
theorem htlc_removed_once (h : Reach host is m) {q : Pkt} (hq : q.removes = some id)
    (hs : m.step host (.pkt q) = some m') (hok : m'.broken = false) {is' : List Input}
    {m₂ : Machine} (hr : Relation.ReflTransGen (FreshStep host) (is ++ [.pkt q], m') (is', m₂))
    {q' : Pkt} (hq' : q'.removes = some id) {m₃ : Machine}
    (hs' : m₂.step host (.pkt q') = some m₃) : m₃.broken = true :=
  have h₁ := settled_of_removed h hq hs hok
  (Buffers.Settled.run hr (.step h trivial hs) h₁.1 h₁.2).2.2.refused hq' hs'

end

/-- Their fail of our HTLC 0 is accepted; a fulfill of it after that breaks the peer down. -/
theorem htlc_removed_once_after_commits :
    Reach trustingHost commitRun committedMachine ∧
      (Pkt.updateFailHtlc ⟨0⟩).removes = some 0 ∧
      (committedMachine.step trustingHost (.pkt (.updateFailHtlc ⟨0⟩))).isSome ∧
      ((committedMachine.step trustingHost (.pkt (.updateFailHtlc ⟨0⟩))).getD
        committedMachine).broken = false ∧
      ((((committedMachine.step trustingHost (.pkt (.updateFailHtlc ⟨0⟩))).getD
        committedMachine).step trustingHost (.pkt (.updateFulfillHtlc ⟨0, ⟨0⟩⟩))).getD
        committedMachine).broken = true :=
  ⟨reach_committedMachine, rfl, rfl, rfl,
    htlc_removed_once reach_committedMachine (rfl : (Pkt.updateFailHtlc ⟨0⟩).removes = some 0)
      rfl rfl .refl (rfl : (Pkt.updateFulfillHtlc ⟨0, ⟨0⟩⟩).removes = some 0) rfl⟩

end Lightning
