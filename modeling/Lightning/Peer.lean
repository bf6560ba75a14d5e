import Lightning.Funding

/-!
# The peer

`struct peer` as the packet handlers of `daemon/packets.c` use it: the two
`peer_visible_state`s (`local` for our commitments, `remote` for theirs), each with its chain of
`commit_info` and its staging state, the queue of packets to send, and the shachain of the
peer's revocation preimages; the wire messages; and `Host`, what the handlers call that the
source does not contain.

A commit chain (`peer->local.commit`, its `prev`, ...) is a list, newest first; `[]` is a
`NULL` chain. `Chain.pending` is what the chain's unacked lists still hold, oldest first: the
changes that have reached one staging state and not yet the other.
-/

namespace Lightning

/-! ### Staged changes and commitments -/

/-- `union htlc_staging`: a change to the HTLCs, as a commit's unacked list records it. -/
inductive HtlcStaging
  | add (htlc : ChannelHtlc)
  | fulfill (id : UInt64) (r : Sha256)
  | fail (id : UInt64)
  deriving DecidableEq, Repr

/-- A signature (`struct signature` in memory, `Signature` on the wire). -/
structure Signature where
  val : Nat
  deriving DecidableEq, Repr

/-- A public key (`struct pubkey`). -/
structure Pubkey where
  val : Nat
  deriving DecidableEq, Repr

/-- A script (`u8 *`), such as the anchor's witness script. -/
structure Script where
  val : List Nat
  deriving DecidableEq, Repr

/-- `struct anchor`, for the field the handlers use: the anchor output's witness script. -/
structure Anchor where
  witnessscript : Script
  deriving DecidableEq, Repr

/-- A commitment transaction, as `create_commit_tx` builds it: the keys, locktimes and anchor
are fixed for the channel, so the transaction is fixed by the revocation hash, the state, and
whose commitment it is. -/
structure CommitTx where
  revocationHash : Sha256
  cstate : ChannelState
  side : Side
  deriving DecidableEq, Repr

/-- `struct commit_info` without `prev`, `tx` and `map`: the chain is a list, and the
transaction is `CommitInfo.tx`. `unackedChanges` is `none` once freed. -/
structure CommitInfo where
  commitNum : UInt64
  revocationHash : Sha256
  cstate : ChannelState
  sig : Option Signature
  revocationPreimage : Option Sha256
  unackedChanges : Option (List HtlcStaging)
  deriving DecidableEq, Repr

/-- `ci->tx`: the commitment transaction of `side` that `ci` describes. -/
def CommitInfo.tx (ci : CommitInfo) (side : Side) : CommitTx :=
  ⟨ci.revocationHash, ci.cstate, side⟩

instance : Inhabited ChannelState := ⟨⟨0, 0, .ours, ⟨0, []⟩, ⟨0, []⟩⟩⟩

/-- `new_commit_info`: zeroed, with an empty change list. -/
def newCommitInfo : CommitInfo := ⟨0, ⟨0⟩, default, none, none, some []⟩

/-- What a chain's unacked lists still hold, oldest first. -/
def Chain.pending (chain : List CommitInfo) : List HtlcStaging :=
  (chain.reverse.map fun ci => ci.unackedChanges.getD []).flatten

@[simp] theorem Chain.pending_nil : Chain.pending [] = [] := rfl

theorem Chain.pending_cons (ci : CommitInfo) (chain : List CommitInfo) :
    Chain.pending (ci :: chain) = Chain.pending chain ++ ci.unackedChanges.getD [] := by
  simp [Chain.pending]

/-! ### The peer -/

/-- `offer_anchor`: `CMD_OPEN_WITH_ANCHOR` or `CMD_OPEN_WITHOUT_ANCHOR`. -/
inductive OfferAnchor
  | cmdOpenWithAnchor
  | cmdOpenWithoutAnchor
  deriving DecidableEq, Repr

/-- `struct peer_visible_state`. `locktime` is in seconds. -/
structure PeerVisibleState where
  offerAnchor : OfferAnchor
  commitkey : Pubkey
  finalkey : Pubkey
  locktime : Nat
  mindepth : Nat
  commitFeeRate : Nat
  nextRevocationHash : Sha256
  commit : List CommitInfo
  stagingCstate : ChannelState
  deriving DecidableEq, Repr

/-- `struct shachain`: the revocation preimages stored so far, each with its index. -/
structure Shachain where
  known : List (UInt64 × Sha256)
  deriving DecidableEq, Repr

/-- `peer->secrets`: what the peer's revocation preimages and signatures are derived from. -/
structure PeerSecrets where
  seed : Nat
  deriving DecidableEq, Repr

/-! ### Packets -/

/-- `Locktime` on the wire. -/
inductive Locktime
  | notSet
  | seconds (n : Nat)
  | blocks (n : Nat)
  deriving DecidableEq, Repr

/-- `OpenChannel__AnchorOffer`; `other` is any other value on the wire. -/
inductive AnchorOffer
  | willCreateAnchor
  | wontCreateAnchor
  | other (n : Nat)
  deriving DecidableEq, Repr

/-- `OpenChannel`. -/
structure OpenChannel where
  revocationHash : Sha256
  nextRevocationHash : Sha256
  commitKey : Pubkey
  finalKey : Pubkey
  delay : Locktime
  initialFeeRate : Nat
  anch : AnchorOffer
  minDepth : Nat
  deriving DecidableEq, Repr

/-- `UpdateAddHtlc` (its empty `route` is left out). -/
structure UpdateAddHtlc where
  id : UInt64
  amountMsat : Nat
  rHash : Sha256
  expiry : Locktime
  deriving DecidableEq, Repr

/-- `UpdateFulfillHtlc`. -/
structure UpdateFulfillHtlc where
  id : UInt64
  r : Sha256
  deriving DecidableEq, Repr

/-- `UpdateFailHtlc` (its empty `reason` is left out). -/
structure UpdateFailHtlc where
  id : UInt64
  deriving DecidableEq, Repr

/-- `UpdateCommit`. -/
structure UpdateCommit where
  sig : Signature
  deriving DecidableEq, Repr

/-- `UpdateRevocation`. -/
structure UpdateRevocation where
  revocationPreimage : Sha256
  nextRevocationHash : Sha256
  deriving DecidableEq, Repr

/-- `Pkt`, for the packets this model sends and handles. -/
inductive Pkt
  | «open» (o : OpenChannel)
  | openCommitSig (sig : Signature)
  | openComplete
  | updateAddHtlc (u : UpdateAddHtlc)
  | updateFulfillHtlc (f : UpdateFulfillHtlc)
  | updateFailHtlc (f : UpdateFailHtlc)
  | updateCommit (u : UpdateCommit)
  | updateRevocation (u : UpdateRevocation)
  | error (problem : String)
  deriving DecidableEq, Repr

/-- `struct peer`, for the fields the handlers use. -/
structure Peer where
  «local» : PeerVisibleState
  remote : PeerVisibleState
  outpkt : List Pkt
  theirPreimages : Shachain
  secrets : PeerSecrets
  anchor : Anchor
  deriving DecidableEq, Repr

/-- What the handlers call that the source does not contain: the daemon's configuration
(`dstate->config`), hashing, the signer over the peer's secrets, the conversions and
signature checks and the 2-of-2 redeem script of `protobuf_convert.c` and `bitcoin/`, the
shachain's consistency rule, and funding's affordability rule. -/
structure Host where
  relLocktimeMax : Nat
  anchorConfirmsMax : Nat
  commitmentFeeRateMin : Nat
  sha256 : Sha256 → Sha256
  revocationPreimage : PeerSecrets → UInt64 → Sha256
  revocationHash : PeerSecrets → UInt64 → Sha256
  signTheirCommit : PeerSecrets → CommitTx → Signature
  signatureValid : Signature → Bool
  pubkeyValid : Pubkey → Bool
  redeem2of2 : Pubkey → Pubkey → Script
  checkTxSig : CommitTx → Script → Pubkey → Signature → Bool
  shachainConsistent : Shachain → UInt64 → Sha256 → Bool
  afford : ChannelState → Side → Nat → Bool

end Lightning
