import Lightning.Peer

/-!
# The packet handlers of `daemon/packets.c`

Each `queue_pkt_*` function is a function `Peer → Option Peer`, `none` when the source aborts
(a failed `assert`, `fatal`, a `NULL` dereference). Each `accept_pkt_*` handler is a function
`Peer → Option (Peer × Option Pkt)`: the peer it leaves and the error packet it returns (`NULL`,
here `none`, when it accepts), or `none` when it aborts.

The updates of the channel are `queuePktHtlcAdd`, `queuePktHtlcFulfill`, `queuePktHtlcFail`,
`queuePktCommit` and `queuePktRevocation` for our side, and `acceptPktHtlcAdd`,
`acceptPktHtlcFulfill`, `acceptPktHtlcFail`, `acceptPktCommit` and `acceptPktRevocation` for
theirs. At a revocation, `applyChangeset` replays the revoked commit's unacked changes on the
other staging state.

Left out: logging, `make_pkt`'s debug round trip, the commit timer (`remote_changes_pending`),
HTLC expiry watches (`peer_add_htlc_expiry`), and the anchor and closing packets.
-/

namespace Lightning

/-! ### Helpers -/

/-- `queue_pkt`: append to the outgoing queue. -/
def Peer.queuePkt (peer : Peer) (pkt : Pkt) : Peer :=
  { peer with outpkt := peer.outpkt ++ [pkt] }

/-- `pkt_err`: an error packet with `msg` as its problem. -/
def pktErr (msg : String) : Pkt := .error msg

/-- `ci` with `stage` appended to its unacked changes. -/
def CommitInfo.withUnacked (ci : CommitInfo) (stage : HtlcStaging) : CommitInfo :=
  { ci with unackedChanges := some (ci.unackedChanges.getD [] ++ [stage]) }

/-- Stands for `add_unacked` of `peer.c`, which is not in the source; modelled from §4.2, which
has local-origin changes "appended to `remote.commit.unacked_changes` of the currently-building
commit" and remote-origin ones queued "under `local.commit.unacked_changes`": `stage` joins the
unacked changes of `which`'s newest commit. A `NULL` chain is dereferenced (`none`). -/
def addUnacked (which : PeerVisibleState) (stage : HtlcStaging) : Option PeerVisibleState :=
  match which.commit with
  | [] => none
  | ci :: older => some { which with commit := ci.withUnacked stage :: older }

/-- Stands for `proto_to_abs_locktime` of `protobuf_convert.c`, which is not in the source;
modelled from the `Locktime` of §6.1: a locktime in seconds or blocks, and a failure when none
is set. -/
def protoToAbsLocktime : Locktime → Option AbsLocktime
  | .notSet => none
  | .seconds n => some (.seconds n)
  | .blocks n => some (.blocks n)

/-- `abs_locktime_to_proto`. -/
def absLocktimeToProto : AbsLocktime → Locktime
  | .seconds n => .seconds n
  | .blocks n => .blocks n

/-! ### Opening -/

section
variable (host : Host)

/-- `queue_pkt_open`: our first commit takes the next revocation hash, the hash of commit 1
becomes the next one, and `OpenChannel` carries both. -/
def queuePktOpen (peer : Peer) (anchor : AnchorOffer) : Option Peer :=
  let ci := { newCommitInfo with revocationHash := peer.local.nextRevocationHash }
  let l := { peer.local with
    commit := [ci], nextRevocationHash := host.revocationHash peer.secrets 1 }
  let o : OpenChannel :=
    { revocationHash := ci.revocationHash, nextRevocationHash := l.nextRevocationHash,
      commitKey := l.commitkey, finalKey := l.finalkey, delay := .seconds l.locktime,
      initialFeeRate := l.commitFeeRate, anch := anchor, minDepth := l.mindepth }
  let consistent : Bool := match anchor with
    | .willCreateAnchor => l.offerAnchor = .cmdOpenWithAnchor
    | .wontCreateAnchor => l.offerAnchor = .cmdOpenWithoutAnchor
    | .other _ => false
  if consistent then some ({ peer with «local» := l }.queuePkt (.open o)) else none

/-- `accept_pkt_open`. The checks come in the source's order, and the fields the source writes
before a later check fails stay written; on acceptance the anchor's witness script becomes the
2-of-2 of the two commit keys. `proto_to_rel_locktime` succeeds on a delay in
seconds, so its second call ("Malformed locktime") cannot fail here. -/
def acceptPktOpen (peer : Peer) (o : OpenChannel) : Peer × Option Pkt :=
  match o.delay with
  | .notSet => (peer, some (pktErr "Invalid delay"))
  | .blocks _ => (peer, some (pktErr "Delay in blocks not accepted"))
  | .seconds delay =>
    if delay > host.relLocktimeMax then (peer, some (pktErr "Delay too great"))
    else if o.minDepth > host.anchorConfirmsMax then (peer, some (pktErr "min_depth too great"))
    else if o.initialFeeRate < host.commitmentFeeRateMin then
      (peer, some (pktErr "Commitment fee rate too low"))
    else
      let offer : Option OfferAnchor := match o.anch with
        | .willCreateAnchor => some .cmdOpenWithAnchor
        | .wontCreateAnchor => some .cmdOpenWithoutAnchor
        | .other _ => none
      match offer with
      | none => (peer, some (pktErr "Unknown offer anchor value"))
      | some offer =>
        let p1 := { peer with remote := { peer.remote with offerAnchor := offer } }
        if offer = peer.local.offerAnchor then (p1, some (pktErr "Only one side can offer anchor"))
        else
          let p2 := { p1 with remote := { p1.remote with
            locktime := delay, mindepth := o.minDepth, commitFeeRate := o.initialFeeRate } }
          if !host.pubkeyValid o.commitKey then (p2, some (pktErr "Bad commitkey"))
          else
            let p3 := { p2 with remote := { p2.remote with commitkey := o.commitKey } }
            if !host.pubkeyValid o.finalKey then (p3, some (pktErr "Bad finalkey"))
            else
              let p4 := { p3 with remote := { p3.remote with
                finalkey := o.finalKey,
                commit := [{ newCommitInfo with revocationHash := o.revocationHash }],
                nextRevocationHash := o.nextRevocationHash } }
              ({ p4 with anchor := { p4.anchor with
                witnessscript := host.redeem2of2 p4.local.commitkey p4.remote.commitkey } }, none)

/-- `check_and_save_commit_sig`: the signature is saved on `ci` first, then checked against
our commitment transaction, spending the anchor through its witness script, and their commit
key. -/
def checkAndSaveCommitSig (peer : Peer) (ci : CommitInfo) (sig : Signature) :
    Option (CommitInfo × Option Pkt) :=
  if ci.sig.isSome then none
  else
    let ci := { ci with sig := some sig }
    if !host.signatureValid sig then some (ci, some (pktErr "Malformed signature"))
    else if !host.checkTxSig (ci.tx .ours) peer.anchor.witnessscript peer.remote.commitkey
        sig then
      some (ci, some (pktErr "Bad signature"))
    else some (ci, none)

/-- `queue_pkt_open_commit_sig`: we sign their first commitment. -/
def queuePktOpenCommitSig (peer : Peer) : Option Peer :=
  match peer.remote.commit with
  | [] => none
  | ci :: older =>
    let sig := host.signTheirCommit peer.secrets (ci.tx .theirs)
    some ({ peer with remote := { peer.remote with commit := { ci with sig := some sig } :: older } }
      |>.queuePkt (.openCommitSig sig))

/-- `accept_pkt_open_commit_sig`: their signature on our first commitment. -/
def acceptPktOpenCommitSig (peer : Peer) (sig : Signature) : Option (Peer × Option Pkt) :=
  match peer.local.commit with
  | [] => none
  | ci :: older => (checkAndSaveCommitSig host peer ci sig).map fun (ci', err) =>
      ({ peer with «local» := { peer.local with commit := ci' :: older } }, err)

/-- `queue_pkt_open_complete`. -/
def queuePktOpenComplete (peer : Peer) : Peer := peer.queuePkt .openComplete

/-- `accept_pkt_open_complete`. -/
def acceptPktOpenComplete (peer : Peer) : Peer × Option Pkt := (peer, none)

/-! ### Our updates -/

/-- `queue_pkt_htlc_add`: the HTLC is added to their staging state (a failure is `fatal`) and
to the unacked changes of their newest commit. -/
def queuePktHtlcAdd (peer : Peer) (stage : HtlcStaging) : Option Peer :=
  match stage with
  | .add htlc =>
    match fundingAddHtlc host.afford peer.remote.stagingCstate htlc.msatoshis htlc.expiry
        htlc.rhash htlc.id .ours with
    | none => none
    | some (cs, _) =>
      (addUnacked { peer.remote with stagingCstate := cs } stage).map fun r =>
        { peer with remote := r }.queuePkt
          (.updateAddHtlc ⟨htlc.id, htlc.msatoshis, htlc.rhash, absLocktimeToProto htlc.expiry⟩)
  | _ => none

/-- `queue_pkt_htlc_fulfill`: their HTLC `id` must be in their staging state. -/
def queuePktHtlcFulfill (peer : Peer) (id : UInt64) (r : Sha256) : Option Peer :=
  match fundingHtlcById peer.remote.stagingCstate id .theirs with
  | none => none
  | some n =>
    let cs := fundingFulfillHtlc peer.remote.stagingCstate n .theirs
    (addUnacked { peer.remote with stagingCstate := cs } (.fulfill id r)).map fun rm =>
      { peer with remote := rm }.queuePkt (.updateFulfillHtlc ⟨id, r⟩)

/-- `queue_pkt_htlc_fail`: their HTLC `id` must be in their staging state. -/
def queuePktHtlcFail (peer : Peer) (id : UInt64) : Option Peer :=
  match fundingHtlcById peer.remote.stagingCstate id .theirs with
  | none => none
  | some n =>
    let cs := fundingFailHtlc peer.remote.stagingCstate n .theirs
    (addUnacked { peer.remote with stagingCstate := cs } (.fail id)).map fun rm =>
      { peer with remote := rm }.queuePkt (.updateFailHtlc ⟨id⟩)

/-- `queue_pkt_commit`: a new commit of theirs, numbered after the newest, with their next
revocation hash and a copy of their staging state, which must differ from the newest's. -/
def queuePktCommit (peer : Peer) : Option Peer :=
  match peer.remote.commit with
  | [] => none
  | prev :: _ =>
    let ci := { newCommitInfo with
      commitNum := prev.commitNum + 1, revocationHash := peer.remote.nextRevocationHash,
      cstate := peer.remote.stagingCstate }
    if prev.cstate.changes = ci.cstate.changes then none
    else
      let sig := host.signTheirCommit peer.secrets (ci.tx .theirs)
      some ({ peer with remote := { peer.remote with
        commit := { ci with sig := some sig } :: peer.remote.commit } }.queuePkt
          (.updateCommit ⟨sig⟩))

/-! ### Replaying a changeset -/

/-- One pass of `apply_changeset`'s loop on `which->staging_cstate`: an add of `side` (a
duplicate id or a failed add is `fatal`), or a fail or fulfill of an HTLC of `!side` (a missing
one is `fatal`). -/
def applyChange (side : Side) (cs : ChannelState) : HtlcStaging → Option ChannelState
  | .add htlc =>
    match fundingHtlcById cs htlc.id side with
    | some _ => none
    | none => (fundingAddHtlc host.afford cs htlc.msatoshis htlc.expiry htlc.rhash htlc.id
        side).map (·.1)
  | .fail id => (fundingHtlcById cs id side.other).map fun n => fundingFailHtlc cs n side.other
  | .fulfill id _ =>
    (fundingHtlcById cs id side.other).map fun n => fundingFulfillHtlc cs n side.other

/-- `apply_changeset`: the changes in order. -/
def applyChangeset (side : Side) : ChannelState → List HtlcStaging → Option ChannelState
  | cs, [] => some cs
  | cs, c :: changes => (applyChange host side cs c).bind fun cs' => applyChangeset side cs' changes

/-- `queue_pkt_revocation`: we reveal the preimage of our previous commit, send our next
revocation hash, and replay that commit's unacked changes (theirs) on their staging state. -/
def queuePktRevocation (peer : Peer) : Option Peer :=
  match peer.local.commit with
  | tip :: ci :: older =>
    if ci.revocationPreimage.isSome || tip.sig.isNone then none
    else
      let preimage := host.revocationPreimage peer.secrets ci.commitNum
      let p1 := peer.queuePkt (.updateRevocation ⟨preimage, peer.local.nextRevocationHash⟩)
      (applyChangeset host .theirs peer.remote.stagingCstate (ci.unackedChanges.getD [])).map
        fun cs => { p1 with
          «local» := { p1.local with commit :=
            tip :: { ci with revocationPreimage := some preimage, unackedChanges := none } :: older },
          remote := { p1.remote with stagingCstate := cs } }
  | _ => none

/-! ### Their updates -/

/-- `accept_pkt_htlc_add`: checked against both staging states, added to ours and to the
unacked changes of our newest commit. -/
def acceptPktHtlcAdd (peer : Peer) (u : UpdateAddHtlc) : Option (Peer × Option Pkt) :=
  if u.amountMsat = 0 then some (peer, some (pktErr "Invalid amount_msat"))
  else match protoToAbsLocktime u.expiry with
  | none => some (peer, some (pktErr "Invalid HTLC expiry"))
  | some expiry =>
    if !expiry.isSeconds then some (peer, some (pktErr "HTLC expiry in blocks not supported!"))
    else if (peer.remote.stagingCstate.side .theirs).htlcs.length = 300 ||
        (peer.local.stagingCstate.side .theirs).htlcs.length = 300 then
      some (peer, some (pktErr "Too many HTLCs"))
    else if (fundingHtlcById peer.remote.stagingCstate u.id .theirs).isSome then
      some (peer, some (pktErr ("HTLC id " ++ toString u.id ++ " clashes for you")))
    else if (fundingHtlcById peer.local.stagingCstate u.id .theirs).isSome then
      some (peer, some (pktErr ("HTLC id " ++ toString u.id ++ " clashes for us")))
    else match fundingAddHtlc host.afford peer.local.stagingCstate u.amountMsat expiry u.rHash
        u.id .theirs with
    | none => some (peer, some (pktErr ("Cannot afford " ++ toString u.amountMsat ++
        " milli-satoshis in your commitment tx")))
    | some (cs, htlc) =>
      (addUnacked { peer.local with stagingCstate := cs } (.add htlc)).map fun l =>
        ({ peer with «local» := l }, none)

/-- `find_commited_htlc`: our HTLC `id` must be in our newest commit and still in our staging
state; its index there. -/
def findCommitedHtlc (peer : Peer) (id : UInt64) : Option (Except Pkt Nat) :=
  match peer.local.commit with
  | [] => none
  | ci :: _ =>
    match fundingHtlcById ci.cstate id .ours with
    | none => some (.error (pktErr ("Did not find HTLC " ++ toString id)))
    | some _ =>
      match fundingHtlcById peer.local.stagingCstate id .ours with
      | none => some (.error (pktErr ("Already removed HTLC " ++ toString id)))
      | some n => some (.ok n)

/-- `accept_pkt_htlc_fail`. -/
def acceptPktHtlcFail (peer : Peer) (f : UpdateFailHtlc) : Option (Peer × Option Pkt) :=
  match findCommitedHtlc peer f.id with
  | none => none
  | some (.error err) => some (peer, some err)
  | some (.ok n) =>
    let cs := fundingFailHtlc peer.local.stagingCstate n .ours
    (addUnacked { peer.local with stagingCstate := cs } (.fail f.id)).map fun l =>
      ({ peer with «local» := l }, none)

/-- `accept_pkt_htlc_fulfill`: `r` must hash to the HTLC's `rhash` in our staging state. -/
def acceptPktHtlcFulfill (peer : Peer) (f : UpdateFulfillHtlc) : Option (Peer × Option Pkt) :=
  match findCommitedHtlc peer f.id with
  | none => none
  | some (.error err) => some (peer, some err)
  | some (.ok n) =>
    match (peer.local.stagingCstate.side .ours).htlcs[n]? with
    | none => none
    | some htlc =>
      if host.sha256 f.r ≠ htlc.rhash then
        some (peer, some (pktErr ("Invalid r for " ++ toString f.id)))
      else
        let cs := fundingFulfillHtlc peer.local.stagingCstate n .ours
        (addUnacked { peer.local with stagingCstate := cs } (.fulfill f.id f.r)).map fun l =>
          ({ peer with «local» := l }, none)

/-- `accept_pkt_commit`: a new commit of ours, numbered after the newest, with our next
revocation hash and a copy of our staging state; refused when empty or badly signed. On
success our next revocation hash becomes that of the commit after it. -/
def acceptPktCommit (peer : Peer) (c : UpdateCommit) : Option (Peer × Option Pkt) :=
  match peer.local.commit with
  | [] => none
  | prev :: _ =>
    let ci := { newCommitInfo with
      commitNum := prev.commitNum + 1, revocationHash := peer.local.nextRevocationHash,
      cstate := peer.local.stagingCstate }
    if prev.cstate.changes = ci.cstate.changes then some (peer, some (pktErr "Empty commit"))
    else match checkAndSaveCommitSig host peer ci c.sig with
      | none => none
      | some (_, some err) => some (peer, some err)
      | some (ci', none) =>
        some ({ peer with «local» := { peer.local with
          commit := ci' :: peer.local.commit,
          nextRevocationHash := host.revocationHash peer.secrets (ci'.commitNum + 1) } }, none)

/-- `check_preimage`: `preimage` hashes to `hash`. -/
def checkPreimage (preimage hash : Sha256) : Bool := host.sha256 preimage = hash

/-- Stands for `shachain_add_hash` of the shachain library (`ccan/crypto/shachain`), which is
not in the source; modelled from §4.5 *RevocationLadder*:
`insert(index, preimage) → Ok | NotConsistentWithPrior`. -/
def shachainAddHash (chain : Shachain) (index : UInt64) (hash : Sha256) : Option Shachain :=
  if host.shachainConsistent chain index hash then some ⟨chain.known ++ [(index, hash)]⟩ else none

/-- `accept_pkt_revocation`: the preimage of their previous commit, stored on it and in the
shachain under `2^64 - 1 - commit_num`; their next revocation hash; and the commit's unacked
changes (ours) replayed on our staging state. -/
def acceptPktRevocation (peer : Peer) (r : UpdateRevocation) : Option (Peer × Option Pkt) :=
  match peer.remote.commit with
  | tip :: ci :: older =>
    if !checkPreimage host r.revocationPreimage ci.revocationHash then
      some (peer, some (pktErr "complete preimage incorrect"))
    else if ci.revocationPreimage.isSome then none
    else
      let ci1 := { ci with revocationPreimage := some r.revocationPreimage }
      let p1 := { peer with remote := { peer.remote with commit := tip :: ci1 :: older } }
      match shachainAddHash host peer.theirPreimages (0xFFFFFFFFFFFFFFFF - ci.commitNum)
          r.revocationPreimage with
      | none => some (p1, some (pktErr "preimage not next in shachain"))
      | some chain =>
        (applyChangeset host .ours peer.local.stagingCstate (ci.unackedChanges.getD [])).map
          fun cs => ({ p1 with
            theirPreimages := chain,
            «local» := { p1.local with stagingCstate := cs },
            remote := { p1.remote with
              nextRevocationHash := r.nextRevocationHash,
              commit := tip :: { ci1 with unackedChanges := none } :: older } }, none)
  | _ => none

end

end Lightning
