import Lightning.Buffers
import Lightning.Chain

/-!
# One peer refines the staging buffers

`Peer.buffers` reads the staging buffers off a peer: the HTLC lists of its two staging states,
their pending changes (the unacked lists of our chain) and ours (those of their chain). Each step
of the machine is a run of steps of the buffers (`buffers_refine`): an accepted update of theirs
is a change of theirs, one of our commands a change of ours, `queue_pkt_revocation` replays
their changes that our revoked commit carried, `accept_pkt_revocation` ours that their revoked
commit carried, and commits and rejected packets leave the buffers as they are.

So the buffers stay consistent over every run whose adds use fresh ids, and `StagingInv` adds
what the admission checks of `accept_pkt_htlc_add` and `accept_pkt_htlc_fulfill` leave behind:
the ids of our HTLCs all come from our adds, their pending fulfills were sent by them with a
preimage of the HTLC they name, and their HTLCs in our staging state and in every commit are
admitted. The step lemmas are `stagingInv_command` and `stagingInv_receive`; the run lemma is
`Reach.stagingInv`.
-/

namespace Lightning

/-! ### What the funding operations do to the HTLC lists -/

section
variable {cs cs' : ChannelState} {s side : Side} {n : Nat} {x : ChannelHtlc}

theorem htlcs_fundingFailHtlc (hx : (cs.side s).htlcs[n]? = some x) :
    ((fundingFailHtlc cs n s).side s).htlcs = (cs.side s).htlcs.eraseIdx n := by
  simp [fundingFailHtlc_of_getElem? hx]

theorem htlcs_fundingFailHtlc_of_ne {t : Side} (h : t ≠ s) :
    ((fundingFailHtlc cs n s).side t).htlcs = (cs.side t).htlcs := by
  unfold fundingFailHtlc
  split <;> simp [ChannelState.modify_side_of_ne _ _ _ _ h]

theorem htlcs_fundingFulfillHtlc (hx : (cs.side s).htlcs[n]? = some x) :
    ((fundingFulfillHtlc cs n s).side s).htlcs = (cs.side s).htlcs.eraseIdx n := by
  simp [fundingFulfillHtlc_of_getElem? hx]

theorem htlcs_fundingFulfillHtlc_of_ne {t : Side} (h : t ≠ s) :
    ((fundingFulfillHtlc cs n s).side t).htlcs = (cs.side t).htlcs := by
  unfold fundingFulfillHtlc
  split
  · rfl
  · obtain rfl : t = s.other := by cases s <;> cases t <;> simp_all
    simp

variable {host : Host} {st : HtlcStaging}

/-- **One change replayed**: an add of `side` that was not there, or a fail or fulfill that
found the HTLC of the other side it removes. -/
theorem applyChange_eq_some (h : applyChange host side cs st = some cs') :
    (∃ x, st = .add x ∧ x.id ∉ ids (cs.side side).htlcs ∧
      (cs'.side side).htlcs = (cs.side side).htlcs ++ [x] ∧
      (cs'.side side.other).htlcs = (cs.side side.other).htlcs) ∨
    (∃ n x, st.removes = some x.id ∧ (cs.side side.other).htlcs[n]? = some x ∧
      (cs'.side side).htlcs = (cs.side side).htlcs ∧
      (cs'.side side.other).htlcs = (cs.side side.other).htlcs.eraseIdx n) := by
  cases st with
  | add x =>
    simp only [applyChange] at h
    split at h
    · cases h
    · obtain ⟨p, hp, rfl⟩ := Option.map_eq_some'.1 h
      obtain ⟨-, rfl⟩ := fundingAddHtlc_eq_some.1 hp
      exact .inl ⟨x, rfl, fundingHtlcById_eq_none.1 ‹_›, by simp, by simp⟩
  | fulfill id r =>
    obtain ⟨n, hn, rfl⟩ := Option.map_eq_some'.1 h
    obtain ⟨x, hx, rfl⟩ := fundingHtlcById_eq_some hn
    exact .inr ⟨n, x, rfl, hx, htlcs_fundingFulfillHtlc_of_ne (Side.ne_other side),
      htlcs_fundingFulfillHtlc hx⟩
  | fail id =>
    obtain ⟨n, hn, rfl⟩ := Option.map_eq_some'.1 h
    obtain ⟨x, hx, rfl⟩ := fundingHtlcById_eq_some hn
    exact .inr ⟨n, x, rfl, hx, htlcs_fundingFailHtlc_of_ne (Side.ne_other side),
      htlcs_fundingFailHtlc hx⟩

/-- **A change that can be replayed is**, when every add is affordable: an add not yet there, a
fail or fulfill whose HTLC is. -/
theorem applyChange_isSome (ha : ∀ cs s m, host.afford cs s m = true)
    (hadd : ∀ x, st = .add x → x.id ∉ ids (cs.side side).htlcs)
    (hrem : ∀ id, st.removes = some id → id ∈ ids (cs.side side.other).htlcs) :
    (applyChange host side cs st).isSome := by
  cases st with
  | add x =>
    have hn := fundingHtlcById_eq_none.2 (hadd x rfl)
    simp [applyChange, hn, fundingAddHtlc, ha]
  | fulfill id r =>
    simpa [applyChange] using fundingHtlcById_isSome.2 (hrem id rfl)
  | fail id =>
    simpa [applyChange] using fundingHtlcById_isSome.2 (hrem id rfl)

end

/-! ### The buffers of a peer -/

/-- **The staging buffers of a peer**: the HTLC lists of its staging states, and the unacked
changes of its two chains. -/
def Peer.buffers (p : Peer) : Buffers where
  lt := (p.local.stagingCstate.side .theirs).htlcs
  lo := (p.local.stagingCstate.side .ours).htlcs
  rt := (p.remote.stagingCstate.side .theirs).htlcs
  ro := (p.remote.stagingCstate.side .ours).htlcs
  theirs := Chain.pending p.local.commit
  ours := Chain.pending p.remote.commit

theorem Chain.pending_withUnacked (ci : CommitInfo) (older : List CommitInfo) (s : HtlcStaging) :
    Chain.pending (ci.withUnacked s :: older) = Chain.pending (ci :: older) ++ [s] := by
  simp [Chain.pending_cons, CommitInfo.withUnacked]

/-- The unacked changes of a chain whose commits older than the `prev` are all revoked. -/
theorem Chain.pending_of_wellFormed {tip ci : CommitInfo} {older : List CommitInfo} {b : Bool}
    (h : Chain.WellFormed (tip :: ci :: older) b) :
    Chain.pending (tip :: ci :: older) =
      ci.unackedChanges.getD [] ++ tip.unackedChanges.getD [] := by
  have hnil : Chain.pending older = [] := by
    simp only [Chain.pending, List.flatten_eq_nil_iff, List.mem_map, List.mem_reverse]
    rintro _ ⟨c, hc, rfl⟩
    simp [(h.olderRevoked c (by simpa using hc)).2]
  simp [Chain.pending_cons, hnil]

/-- Every commit with a first commitment's unacked list adds nothing to the pending changes. -/
theorem Chain.pending_push {ci : CommitInfo} (hci : ci.unackedChanges = some [])
    (chain : List CommitInfo) : Chain.pending (ci :: chain) = Chain.pending chain := by
  simp [Chain.pending_cons, hci]

/-! ### Replays as steps of the buffers -/

section
variable {host : Host} {side : Side} {rest : List HtlcStaging} {cs' : ChannelState}

/-- **A replay on a staging state is a run of replays of the buffers**: `applyChangeset` on the
state whose lists are `b.rt` (of `side`) and `b.ro` (of the other side), of the front `pre` of
`b.theirs`. -/
theorem replays_of_applyChangeset (pre : List HtlcStaging) :
    ∀ (b : Buffers) (cs : ChannelState), b.rt = (cs.side side).htlcs →
      b.ro = (cs.side side.other).htlcs → b.theirs = pre ++ rest →
      applyChangeset host side cs pre = some cs' →
      Relation.ReflTransGen Buffers.Replay b
        { b with
          rt := (cs'.side side).htlcs
          ro := (cs'.side side.other).htlcs
          theirs := rest } := by
  induction pre with
  | nil =>
    rintro ⟨lt, lo, rt, ro, th, ou⟩ cs rfl rfl hb h
    obtain rfl : cs = cs' := Option.some.inj h
    obtain rfl : th = rest := hb
    exact .refl
  | cons c pre ih =>
    intro b cs hr ho hb h
    obtain ⟨cs1, h1, h2⟩ := Option.bind_eq_some.1 h
    refine .head ?_ (ih ⟨b.lt, b.lo, (cs1.side side).htlcs, (cs1.side side.other).htlcs,
      pre ++ rest, b.ours⟩ cs1 rfl rfl rfl h2)
    rcases applyChange_eq_some h1 with ⟨x, rfl, -, h3, h4⟩ | ⟨n, x, hs, hx, h3, h4⟩
    · rw [h3, h4, ← hr, ← ho]
      exact .add hb
    · rw [h3, h4, ← hr, ← ho]
      exact .remove hb hs (ho ▸ hx)

/-- **Consistent buffers replay without a fatal error**, when every add is affordable. -/
theorem applyChangeset_isSome (ha : ∀ cs s m, host.afford cs s m = true) (pre : List HtlcStaging) :
    ∀ (b : Buffers) (cs : ChannelState), b.Consistent → b.rt = (cs.side side).htlcs →
      b.ro = (cs.side side.other).htlcs → b.theirs = pre ++ rest →
      (applyChangeset host side cs pre).isSome := by
  induction pre with
  | nil => intros; rfl
  | cons c pre ih =>
    intro b cs hc hr ho hb
    obtain ⟨cs1, h1⟩ := Option.isSome_iff_exists.1 (applyChange_isSome ha
      (fun x hx => hr ▸ hc.replay_add_fresh (by subst hx; exact hb))
      (fun id hs => by
        obtain ⟨n, x, hx, rfl⟩ := hc.replay_remove_found hb hs
        exact ho ▸ id_mem_ids (List.mem_iff_getElem?.2 ⟨n, hx⟩)))
    have hs := replays_of_applyChangeset [c] b cs hr ho hb
      (show applyChangeset host side cs [c] = some cs1 by simp [applyChangeset, h1])
    simpa [applyChangeset, h1] using ih _ cs1 (hc.replays hs) rfl rfl rfl

end

/-! ### What the buffers keep over a run -/

/-- What `accept_pkt_htlc_add` admits of their HTLCs: positive amounts, expiries in seconds, and
at most 300 of them. -/
def Admitted (l : List ChannelHtlc) : Prop :=
  (∀ x ∈ l, 0 < x.msatoshis ∧ x.expiry.isSeconds = true) ∧ l.length ≤ 300

theorem Admitted.sublist {l l' : List ChannelHtlc} (h : Admitted l) (hs : l'.Sublist l) :
    Admitted l' :=
  ⟨fun x hx => h.1 x (hs.subset hx), hs.length_le.trans h.2⟩

theorem Admitted.of_subset {l l' : List ChannelHtlc} (h : Admitted l) (hs : ∀ x ∈ l', x ∈ l)
    (hn : (ids l').Nodup) : Admitted l' :=
  ⟨fun x hx => h.1 x (hs x hx), (List.subperm_of_subset hn.of_map hs).length_le.trans h.2⟩

/-- **What the staging buffers keep over a run** whose inputs were `is`: they are consistent;
the ids of our HTLCs all come from our adds; their pending fulfills were all sent by them and
carry a preimage, under `sha`, of the HTLC they name; their HTLCs in our staging state are
admitted. -/
structure BufferInv (sha : Sha256 → Sha256) (is : List Input) (b : Buffers) : Prop where
  consistent : b.Consistent
  fresh : ∀ i ∈ ids b.ro, i ∈ addIds is
  presented : ∀ id r, .fulfill id r ∈ b.theirs → .pkt (.updateFulfillHtlc ⟨id, r⟩) ∈ is
  preimaged : b.Preimaged sha
  admitted : Admitted b.lt

namespace BufferInv

variable {sha : Sha256 → Sha256} {is : List Input} {b : Buffers}

theorem mono (hb : BufferInv sha is b) (is' : List Input) : BufferInv sha (is ++ is') b where
  consistent := hb.consistent
  fresh i hi := by simpa [addIds_append] using Or.inl (hb.fresh i hi)
  presented id r hm := List.mem_append_left _ (hb.presented id r hm)
  preimaged := hb.preimaged
  admitted := hb.admitted

theorem theirAdd (hb : BufferInv sha is b) {x : ChannelHtlc} (hl : x.id ∉ ids b.lt)
    (hr : x.id ∉ ids b.rt) (hx : 0 < x.msatoshis ∧ x.expiry.isSeconds = true)
    (hlen : b.lt.length < 300) :
    BufferInv sha is { b with lt := b.lt ++ [x], theirs := b.theirs ++ [.add x] } where
  consistent := hb.consistent.add hl hr
  fresh := hb.fresh
  presented id r hm := hb.presented id r (by simpa using hm)
  preimaged id r hm := hb.preimaged id r (by simpa using hm)
  admitted := by
    refine ⟨fun y hy => ?_, by simp; omega⟩
    rcases List.mem_append.1 hy with hy | hy
    · exact hb.admitted.1 y hy
    · exact List.mem_singleton.1 hy ▸ hx

theorem theirRemove (hb : BufferInv sha is b) {s : HtlcStaging} {n : Nat} {x : ChannelHtlc}
    (hs : s.removes = some x.id) (hx : b.lo[n]? = some x)
    (hful : ∀ id r, s = .fulfill id r →
      .pkt (.updateFulfillHtlc ⟨id, r⟩) ∈ is ∧ sha r = x.rhash) :
    BufferInv sha is { b with lo := b.lo.eraseIdx n, theirs := b.theirs ++ [s] } where
  consistent := hb.consistent.remove hs hx
  fresh := hb.fresh
  presented id r hm := by
    rcases List.mem_append.1 hm with hm | hm
    · exact hb.presented id r hm
    · exact (hful id r (List.mem_singleton.1 hm).symm).1
  preimaged id r hm := by
    rcases List.mem_append.1 hm with hm | hm
    · exact hb.preimaged id r hm
    · obtain rfl := (List.mem_singleton.1 hm)
      have hid : id = x.id := by simpa [HtlcStaging.removes] using hs
      exact ⟨x, hb.consistent.ours.sub x (List.mem_iff_getElem?.2 ⟨n, hx⟩), hid.symm,
        (hful id r rfl).2⟩
  admitted := hb.admitted

theorem ourAdd (hb : BufferInv sha is b) {h : ChannelHtlc} (hfresh : h.id ∉ ids b.ro)
    (hin : h.id ∈ addIds is) :
    BufferInv sha is { b with ro := b.ro ++ [h], ours := b.ours ++ [.add h] } where
  consistent := (hb.consistent.mirror.add hfresh
    (Buffers.not_mem_ids_of_subset hb.consistent.ours.sub hfresh)).mirror
  fresh i hi := by
    rcases (by simpa using hi : i ∈ ids b.ro ∨ i = h.id) with hi | rfl
    · exact hb.fresh i hi
    · exact hin
  presented := hb.presented
  preimaged id r hm := by
    obtain ⟨y, hy, h1, h2⟩ := hb.preimaged id r hm
    exact ⟨y, List.mem_append_left _ hy, h1, h2⟩
  admitted := hb.admitted

theorem ourRemove (hb : BufferInv sha is b) {s : HtlcStaging} {n : Nat} {x : ChannelHtlc}
    (hs : s.removes = some x.id) (hx : b.rt[n]? = some x) :
    BufferInv sha is { b with rt := b.rt.eraseIdx n, ours := b.ours ++ [s] } where
  consistent := (hb.consistent.mirror.remove hs hx).mirror
  fresh := hb.fresh
  presented := hb.presented
  preimaged := hb.preimaged
  admitted := hb.admitted

theorem replays (hb : BufferInv sha is b) {b' : Buffers}
    (h : Relation.ReflTransGen Buffers.Replay b b') : BufferInv sha is b' := by
  obtain ⟨h1, -, -, h4, h5⟩ := Buffers.replays_frame h
  exact ⟨hb.consistent.replays h, fun i hi => hb.fresh i ((h4.map _).subset hi),
    fun id r hm => hb.presented id r (h5 _ hm), hb.preimaged.replays hb.consistent h,
    h1 ▸ hb.admitted⟩

theorem mirrorReplays (hb : BufferInv sha is b) {b' : Buffers}
    (h : Relation.ReflTransGen Buffers.Replay b.mirror b'.mirror) : BufferInv sha is b' := by
  obtain ⟨h1, -, h3, h4, -⟩ := Buffers.replays_frame h
  have hro : b'.ro = b.ro := h1
  have hth : b'.theirs = b.theirs := h3
  exact ⟨(hb.consistent.mirror.replays h).mirror, hro ▸ hb.fresh, hth ▸ hb.presented,
    fun id r hm => hro ▸ hb.preimaged id r (hth ▸ hm), hb.admitted.sublist h4⟩

end BufferInv

/-! ### One peer over a run -/

/-- The states that the commits of a peer hold, ours then theirs. -/
def Peer.commitStates (p : Peer) : List ChannelState :=
  (p.local.commit ++ p.remote.commit).map (·.cstate)

/-- **What one peer keeps of its staging views** over a run whose inputs were `is`: its buffers
keep `BufferInv`, and their HTLCs in every commit are admitted. -/
structure StagingInv (host : Host) (is : List Input) (p : Peer) : Prop where
  buffers : BufferInv host.sha256 is p.buffers
  snapshots : ∀ cs ∈ p.commitStates, Admitted (cs.side .theirs).htlcs

section
variable {host : Host} {is is' : List Input} {p p' : Peer} {ci : CommitInfo}
  {older : List CommitInfo} {s : HtlcStaging}

/-- The buffers after an update of theirs is accepted: our staging state is `cs`, and `s` joins
the unacked changes of our newest commit. -/
theorem Peer.buffers_local (hc : p.local.commit = ci :: older) (cs : ChannelState) :
    ({ p with «local» := { p.local with
      stagingCstate := cs, commit := ci.withUnacked s :: older } }).buffers =
      { p.buffers with
        lt := (cs.side .theirs).htlcs
        lo := (cs.side .ours).htlcs
        theirs := p.buffers.theirs ++ [s] } := by
  simp only [Peer.buffers, hc, Chain.pending_withUnacked]

/-- The buffers after one of our updates is queued: their staging state is `cs`, and `s` joins
the unacked changes of their newest commit. -/
theorem Peer.buffers_remote (hc : p.remote.commit = ci :: older) (cs : ChannelState)
    (o : List Pkt) :
    ({ p with remote := { p.remote with
      stagingCstate := cs, commit := ci.withUnacked s :: older }, outpkt := o }).buffers =
      { p.buffers with
        rt := (cs.side .theirs).htlcs
        ro := (cs.side .ours).htlcs
        ours := p.buffers.ours ++ [s] } := by
  simp only [Peer.buffers, hc, Chain.pending_withUnacked]

/-- The buffers after a commit of theirs is queued: a new commit with nothing unacked. -/
theorem Peer.buffers_pushRemote {chain : List CommitInfo} (hc : p.remote.commit = chain)
    (ci : CommitInfo) (hci : ci.unackedChanges = some []) (o : List Pkt) :
    ({ p with remote := { p.remote with commit := ci :: chain }, outpkt := o }).buffers =
      p.buffers := by
  simp [Peer.buffers, ← hc, Chain.pending_push hci]

/-- The buffers after a commit of ours is accepted: a new commit with nothing unacked. -/
theorem Peer.buffers_pushLocal {chain : List CommitInfo} (hc : p.local.commit = chain)
    (ci : CommitInfo) (hci : ci.unackedChanges = some []) (rh : Sha256) :
    ({ p with «local» := { p.local with
        commit := ci :: chain
        nextRevocationHash := rh } }).buffers = p.buffers := by
  simp [Peer.buffers, ← hc, Chain.pending_push hci]

/-- The buffers after `queue_pkt_revocation`: their staging state is `cs`, and our previous
commit, revoked, holds no pending changes any more. -/
theorem Peer.buffers_revokeLocal {tip : CommitInfo} {b : Bool}
    (hw : Chain.WellFormed (tip :: ci :: older) b) (x : Sha256) (cs : ChannelState)
    (o : List Pkt) :
    ({ p with
      «local» := { p.local with
        commit := tip :: { ci with revocationPreimage := some x, unackedChanges := none } :: older }
      remote := { p.remote with stagingCstate := cs }
      outpkt := o }).buffers =
      { p.buffers with
        rt := (cs.side .theirs).htlcs
        ro := (cs.side .ours).htlcs
        theirs := tip.unackedChanges.getD [] } := by
  simp [Peer.buffers, Chain.pending_of_wellFormed (hw.revoke x)]

/-- The buffers after `accept_pkt_revocation`: our staging state is `cs`, and their previous
commit, revoked, holds no pending changes any more. -/
theorem Peer.buffers_revokeRemote {tip : CommitInfo} {b : Bool}
    (hw : Chain.WellFormed (tip :: ci :: older) b) (x : Sha256) (cs : ChannelState)
    (sc : Shachain) (rh : Sha256) :
    ({ p with
      theirPreimages := sc
      «local» := { p.local with stagingCstate := cs }
      remote := { p.remote with
        nextRevocationHash := rh
        commit := tip :: { ci with revocationPreimage := some x, unackedChanges := none } ::
          older } }).buffers =
      { p.buffers with
        lt := (cs.side .theirs).htlcs
        lo := (cs.side .ours).htlcs
        ours := tip.unackedChanges.getD [] } := by
  simp [Peer.buffers, Chain.pending_of_wellFormed (hw.revoke x)]

/-- The buffers after a rejected revocation that recorded its preimage: as they were. -/
theorem Peer.buffers_recordRemote {tip : CommitInfo} (hc : p.remote.commit = tip :: ci :: older)
    (x : Sha256) :
    ({ p with remote := { p.remote with
      commit := tip :: { ci with revocationPreimage := some x } :: older } }).buffers =
      p.buffers := by
  simp [Peer.buffers, hc, Chain.pending_cons]

theorem StagingInv.mk' {b' : Buffers} (hB : BufferInv host.sha256 is' b') (hb : p'.buffers = b')
    (hsn : ∀ cs ∈ p'.commitStates, Admitted (cs.side .theirs).htlcs) : StagingInv host is' p' :=
  ⟨hb ▸ hB, hsn⟩

theorem StagingInv.of_buffers {b' : Buffers} (hi : StagingInv host is p)
    (hB : BufferInv host.sha256 is' b') (hb : p'.buffers = b')
    (hcs : p'.commitStates = p.commitStates) : StagingInv host is' p' :=
  .mk' hB hb (hcs ▸ hi.snapshots)

end

section
variable {host : Host} {is : List Input} {m m' : Machine}

/-- **Step lemma for our commands**: each keeps `StagingInv`, and is a run of steps of the
buffers. -/
theorem stagingInv_command (hch : ChainInv host m) (hi : StagingInv host is m.peer)
    {i : Input} (hf : FreshId is i) (hpkt : ∀ q, i ≠ .pkt q) (hs : m.step host i = some m') :
    StagingInv host (is ++ [i]) m'.peer ∧
      Relation.ReflTransGen Buffers.Step m.peer.buffers m'.peer.buffers := by
  have hB := hi.buffers.mono [i]
  cases i with
  | htlcAdd h =>
    obtain ⟨-, -, p, hq, rfl⟩ := Machine.step_htlcAdd hs
    obtain ⟨-, ci, older, hc, rfl⟩ := queuePktHtlcAdd_eq_some hq
    have hfr : h.id ∉ ids m.peer.buffers.ro := fun hm => hf (hi.buffers.fresh _ hm)
    have hlo := Buffers.not_mem_ids_of_subset hi.buffers.consistent.ours.sub hfr
    refine ⟨hi.of_buffers (hB.ourAdd hfr (by simp [addIds_append, addIds]))
      (Peer.buffers_remote hc _ _) (by simp [Peer.commitStates, hc, CommitInfo.withUnacked]), ?_⟩
    rw [Peer.buffers_remote hc]
    exact .single (.inr (.add h hfr hlo))
  | htlcFulfill id r =>
    obtain ⟨-, -, p, hq, rfl⟩ := Machine.step_htlcFulfill hs
    obtain ⟨n, ci, older, hn, hc, rfl⟩ := queuePktHtlcFulfill_eq_some hq
    obtain ⟨x, hx, rfl⟩ := fundingHtlcById_eq_some hn
    refine ⟨hi.of_buffers (hB.ourRemove (rfl : (HtlcStaging.fulfill x.id r).removes = _) hx) ?_
      (by simp [Peer.commitStates, hc, CommitInfo.withUnacked]), ?_⟩
    all_goals rw [Peer.buffers_remote hc, htlcs_fundingFulfillHtlc hx,
      htlcs_fundingFulfillHtlc_of_ne (by decide : Side.ours ≠ .theirs)]
    · rfl
    · exact .single (.inr (.remove (rfl : (HtlcStaging.fulfill x.id r).removes = _) hx))
  | htlcFail id =>
    obtain ⟨-, -, p, hq, rfl⟩ := Machine.step_htlcFail hs
    obtain ⟨n, ci, older, hn, hc, rfl⟩ := queuePktHtlcFail_eq_some hq
    obtain ⟨x, hx, rfl⟩ := fundingHtlcById_eq_some hn
    refine ⟨hi.of_buffers (hB.ourRemove (rfl : (HtlcStaging.fail x.id).removes = _) hx) ?_
      (by simp [Peer.commitStates, hc, CommitInfo.withUnacked]), ?_⟩
    all_goals rw [Peer.buffers_remote hc, htlcs_fundingFailHtlc hx,
      htlcs_fundingFailHtlc_of_ne (by decide : Side.ours ≠ .theirs)]
    · rfl
    · exact .single (.inr (.remove (rfl : (HtlcStaging.fail x.id).removes = _) hx))
  | commit =>
    obtain ⟨-, -, -, p, hq, rfl⟩ := Machine.step_commit hs
    obtain ⟨prev, older, hc, -, rfl⟩ := queuePktCommit_eq_some hq
    refine ⟨.mk' hB (Peer.buffers_pushRemote hc _ rfl _) fun cs hcs => ?_,
      by rw [Peer.buffers_pushRemote hc _ rfl]⟩
    -- the new commit of theirs holds their staging state, whose HTLCs of theirs are ours'
    have hR : Admitted (m.peer.remote.stagingCstate.side .theirs).htlcs :=
      hi.buffers.admitted.of_subset hi.buffers.consistent.theirs.sub
        hi.buffers.consistent.nodupRt
    simp only [Peer.commitStates, ← hc, List.map_append, List.map_cons, List.mem_append,
      List.mem_cons] at hcs
    rcases hcs with h | rfl | h
    · exact hi.snapshots cs (by simp [Peer.commitStates, h])
    · exact hR
    · exact hi.snapshots cs (by simp [Peer.commitStates, h])
  | revocation =>
    obtain ⟨-, -, p, hq, rfl⟩ := Machine.step_revocation hs
    obtain ⟨tip, ci, older, cs, hc, -, -, hcs, rfl⟩ := queuePktRevocation_eq_some hq
    have hw := hc ▸ hch.localChain.wellFormed
    have hrep := replays_of_applyChangeset (ci.unackedChanges.getD []) m.peer.buffers _ rfl rfl
      (by rw [← Chain.pending_of_wellFormed hw, ← hc]; rfl) hcs
    refine ⟨hi.of_buffers (hB.replays hrep) (Peer.buffers_revokeLocal hw _ _ _)
      (by simp [Peer.commitStates, hc]), ?_⟩
    rw [Peer.buffers_revokeLocal hw]
    exact Buffers.steps_of_replays hrep
  | pkt q => exact absurd rfl (hpkt q)

/-- **Step lemma for their packets**: each keeps `StagingInv`, and is a run of steps of the
buffers. -/
theorem stagingInv_receive (hch : ChainInv host m) (hi : StagingInv host is m.peer) {q : Pkt}
    (hs : m.receive host q = some m') :
    StagingInv host (is ++ [.pkt q]) m'.peer ∧
      Relation.ReflTransGen Buffers.Step m.peer.buffers m'.peer.buffers := by
  have hB := hi.buffers.mono [.pkt q]
  -- a rejected packet leaves the buffers and the commits' states as they were
  have herr : ∀ (p : Peer) (e : Pkt), p.buffers = m.peer.buffers →
      p.commitStates = m.peer.commitStates →
      StagingInv host (is ++ [.pkt q]) (p.queuePkt e) ∧
        Relation.ReflTransGen Buffers.Step m.peer.buffers (p.queuePkt e).buffers :=
    fun p e hb hc => ⟨hi.of_buffers hB hb hc, hb ▸ .refl⟩
  cases q with
  | updateAddHtlc u =>
    rcases Machine.accept_eq_some hs with ⟨p, hq, rfl⟩ | ⟨p, e, hq, rfl⟩
    · obtain ⟨e, ci, older, h0, -, hsec, -, hl300, hr, hl, -, hc, rfl⟩ := acceptPktHtlcAdd_ok hq
      simp only [id_eq]
      have hlen : m.peer.buffers.lt.length < 300 := lt_of_le_of_ne hi.buffers.admitted.2 hl300
      refine ⟨hi.of_buffers (hB.theirAdd hl hr ⟨Nat.pos_of_ne_zero h0, hsec⟩ hlen)
        (Peer.buffers_local hc _) (by simp [Peer.commitStates, hc, CommitInfo.withUnacked]), ?_⟩
      rw [Peer.buffers_local hc]
      exact .single (.inl (.add _ hl hr))
    · exact acceptPktHtlcAdd_error hq ▸ herr _ e rfl rfl
  | updateFulfillHtlc f =>
    rcases Machine.accept_eq_some hs with ⟨p, hq, rfl⟩ | ⟨p, e, hq, rfl⟩
    · obtain ⟨n, h, ci, older, hf, hh, hsha, hc, rfl⟩ := acceptPktHtlcFulfill_ok hq
      simp only [id_eq]
      obtain ⟨-, -, -, -, hn⟩ := findCommitedHtlc_ok hf
      obtain ⟨x, hx, hid⟩ := fundingHtlcById_eq_some hn
      obtain rfl : x = h := Option.some.inj (hx.symm.trans hh)
      have hrm : (HtlcStaging.fulfill f.id f.r).removes = some x.id := by
        simp [HtlcStaging.removes, hid]
      refine ⟨hi.of_buffers (hB.theirRemove hrm hx fun id r he => ?_) ?_
        (by simp [Peer.commitStates, hc, CommitInfo.withUnacked]), ?_⟩
      · cases he
        exact ⟨by simp, hsha⟩
      all_goals rw [Peer.buffers_local hc, htlcs_fundingFulfillHtlc hx,
        htlcs_fundingFulfillHtlc_of_ne (by decide : Side.theirs ≠ .ours)]
      · rfl
      · exact .single (.inl (.remove hrm hx))
    · exact acceptPktHtlcFulfill_error hq ▸ herr _ e rfl rfl
  | updateFailHtlc f =>
    rcases Machine.accept_eq_some hs with ⟨p, hq, rfl⟩ | ⟨p, e, hq, rfl⟩
    · obtain ⟨n, ci, older, hf, hc, rfl⟩ := acceptPktHtlcFail_ok hq
      simp only [id_eq]
      obtain ⟨-, -, -, -, hn⟩ := findCommitedHtlc_ok hf
      obtain ⟨x, hx, hid⟩ := fundingHtlcById_eq_some hn
      have hrm : (HtlcStaging.fail f.id).removes = some x.id := by
        simp [HtlcStaging.removes, hid]
      refine ⟨hi.of_buffers (hB.theirRemove hrm hx fun _ _ he => by cases he) ?_
        (by simp [Peer.commitStates, hc, CommitInfo.withUnacked]), ?_⟩
      all_goals rw [Peer.buffers_local hc, htlcs_fundingFailHtlc hx,
        htlcs_fundingFailHtlc_of_ne (by decide : Side.theirs ≠ .ours)]
      · rfl
      · exact .single (.inl (.remove hrm hx))
    · exact acceptPktHtlcFail_error hq ▸ herr _ e rfl rfl
  | updateCommit c =>
    simp only [Machine.receive] at hs
    rcases Machine.accept_eq_some hs with ⟨p, hq, rfl⟩ | ⟨p, e, hq, rfl⟩
    · obtain ⟨prev, older, hc, -, -, -, rfl⟩ := acceptPktCommit_ok hq
      refine ⟨.mk' hB (Peer.buffers_pushLocal hc _ rfl _) fun cs hcs => ?_,
        by rw [Peer.buffers_pushLocal hc _ rfl]⟩
      -- the new commit of ours holds our staging state
      simp only [Peer.commitStates, ← hc, List.cons_append, List.map_cons, List.mem_cons] at hcs
      rcases hcs with rfl | h
      · exact hi.buffers.admitted
      · exact hi.snapshots cs (by simpa [Peer.commitStates] using h)
    · exact acceptPktCommit_error hq ▸ herr _ e rfl rfl
  | updateRevocation r =>
    obtain ⟨-, hs⟩ := Machine.receive_updateRevocation hs
    rcases Machine.accept_eq_some hs with ⟨p, hq, rfl⟩ | ⟨p, e, hq, rfl⟩
    · obtain ⟨tip, ci, older, chain, cs, hc, -, -, -, hcs, rfl⟩ := acceptPktRevocation_ok hq
      have hw := hc ▸ hch.remoteChain.wellFormed
      have hrep := replays_of_applyChangeset (ci.unackedChanges.getD [])
        m.peer.buffers.mirror _ rfl rfl (by rw [← Chain.pending_of_wellFormed hw, ← hc]; rfl) hcs
      have hB' : BufferInv host.sha256 (is ++ [.pkt (.updateRevocation r)])
          { m.peer.buffers with
            lt := (cs.side .theirs).htlcs
            lo := (cs.side .ours).htlcs
            ours := tip.unackedChanges.getD [] } :=
        hB.mirrorReplays hrep
      refine ⟨hi.of_buffers hB' (Peer.buffers_revokeRemote hw _ _ _ _)
        (by simp [Peer.commitStates, hc]), ?_⟩
      rw [Peer.buffers_revokeRemote hw]
      exact Buffers.steps_of_mirror (hrep.mono fun _ _ => .replay)
    · rcases acceptPktRevocation_error hq with rfl | ⟨tip, ci, older, hc, -, -, -, rfl⟩
      · exact herr _ e rfl rfl
      · exact herr _ e (Peer.buffers_recordRemote hc _) (by simp [Peer.commitStates, hc])
  | _ => cases hs

/-- **Step lemma**: every step of a peer keeps `StagingInv`, and is a run of steps of the
buffers. -/
theorem stagingInv_step (hch : ChainInv host m) (hi : StagingInv host is m.peer) {i : Input}
    (hf : FreshId is i) (hs : m.step host i = some m') :
    StagingInv host (is ++ [i]) m'.peer ∧
      Relation.ReflTransGen Buffers.Step m.peer.buffers m'.peer.buffers := by
  cases i with
  | pkt q => exact stagingInv_receive hch hi (Machine.step_pkt hs).2.2
  | _ => exact stagingInv_command hch hi hf (fun _ h => by cases h) hs

theorem stagingInv_initial (h : m.Initial) : StagingInv host [] m.peer := by
  obtain ⟨⟨c, d, hc, hd, hc0, hd0, hl, hr, -⟩, -⟩ := h
  have hb : m.peer.buffers = ⟨[], [], [], [], [], []⟩ := by
    simp [Peer.buffers, hc, hd, hl, hr, hc0.2.1 _, hd0.2.1 _, Chain.pending_cons, hc0.2.2.1,
      hd0.2.2.1]
  refine ⟨hb ▸ ⟨Buffers.consistent_empty, by simp, by simp, by simp [Buffers.Preimaged],
    by simp [Admitted]⟩, ?_⟩
  simp [Peer.commitStates, hc, hd, Admitted, hc0.2.1 _, hd0.2.1 _]

/-- **Run lemma**: every state reached with fresh ids for our adds keeps `StagingInv`. -/
theorem Reach.stagingInv (h : Reach host is m) : StagingInv host is m.peer := by
  induction h with
  | init h => exact stagingInv_initial h
  | step hr hf hs ih => exact (stagingInv_step hr.reachable.chainInv ih hf hs).1

/-- **Refinement**: over a run whose adds use fresh ids, every step of a peer is a run of steps
of its staging buffers. -/
theorem buffers_refine (h : Reach host is m) {i : Input} (hf : FreshId is i)
    (hs : m.step host i = some m') :
    Relation.ReflTransGen Buffers.Step m.peer.buffers m'.peer.buffers :=
  (stagingInv_step h.reachable.chainInv h.stagingInv hf hs).2

end

/-- Our first add, from `startMachine`. -/
theorem buffers_refine_at_start :
    ∃ m', Reach trustingHost [] startMachine ∧ FreshId [] (.htlcAdd ⟨0, 1, .seconds 0, ⟨0⟩⟩) ∧
      startMachine.step trustingHost (.htlcAdd ⟨0, 1, .seconds 0, ⟨0⟩⟩) = some m' ∧
      Relation.ReflTransGen Buffers.Step startMachine.peer.buffers m'.peer.buffers :=
  have h : Reach trustingHost [] startMachine := .init startMachine_initial
  have hf : FreshId [] (.htlcAdd ⟨0, 1, .seconds 0, ⟨0⟩⟩) := List.not_mem_nil _
  ⟨_, h, hf, rfl, buffers_refine h hf rfl⟩

end Lightning
