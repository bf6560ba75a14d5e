import Mathlib.Logic.Relation
import Lightning.Machine

/-!
# Two peers on one channel

Both ends of a channel run the handlers of `daemon/packets.c` under the discipline of
`Lightning.Machine`. Each one's queued packets reach the other in the order they were queued:
a `Link` holds the packets in flight from one peer to the other, oldest first. A `Pair.Move` is
one peer running one of its commands, whose packet goes on the wire (`Move.send`), or taking the
oldest packet in flight to it without a handler error (`Move.deliver`); the runs end at the first
handler error. `Pair.Step` is a move of either peer, written once for `a` and read through
`Pair.swap` for `b`.

Each packet in flight carries two ghosts that no peer reads: its sender's remote staging state
right after the sender queued it (`Wire.staging`), and, for a revocation, the commit it revokes
as it stood (`Wire.revokes`). A link remembers the snapshot of the last packet delivered
(`Link.seen`).

What the proofs need of one step of a peer is said once, for a command (`Machine.send_cases`:
a change, a commit or a revocation, with what its packet does to the sender's view of the other
peer, `Wire.Effect`) and for a delivered packet (`Machine.deliver_cases`).
-/

namespace Lightning

/-! ### Packets on the wire -/

/-- The change a packet carries, as its receiver records it among its unacked changes. -/
def Pkt.change : Pkt → Option HtlcStaging
  | .updateAddHtlc u =>
    (protoToAbsLocktime u.expiry).map fun e => .add ⟨u.id, u.amountMsat, e, u.rHash⟩
  | .updateFulfillHtlc f => some (.fulfill f.id f.r)
  | .updateFailHtlc f => some (.fail f.id)
  | _ => none

/-- `UpdateCommit`. -/
def Pkt.isCommit : Pkt → Bool
  | .updateCommit _ => true
  | _ => false

/-- `UpdateRevocation`. -/
def Pkt.isRevocation : Pkt → Bool
  | .updateRevocation _ => true
  | _ => false

@[simp] theorem Pkt.isCommit_updateCommit (c : UpdateCommit) : (Pkt.updateCommit c).isCommit :=
  rfl
@[simp] theorem Pkt.isRevocation_updateRevocation (r : UpdateRevocation) :
    (Pkt.updateRevocation r).isRevocation := rfl
@[simp] theorem Pkt.change_updateCommit (c : UpdateCommit) : (Pkt.updateCommit c).change = none :=
  rfl
@[simp] theorem Pkt.change_updateRevocation (r : UpdateRevocation) :
    (Pkt.updateRevocation r).change = none := rfl
@[simp] theorem Pkt.isRevocation_updateCommit (c : UpdateCommit) :
    (Pkt.updateCommit c).isRevocation = false := rfl
@[simp] theorem Pkt.isCommit_updateRevocation (r : UpdateRevocation) :
    (Pkt.updateRevocation r).isCommit = false := rfl

/-- A packet carrying a change is neither a commit nor a revocation. -/
theorem Pkt.change_eq_some {q : Pkt} {c : HtlcStaging} (h : q.change = some c) :
    q.isCommit = false ∧ q.isRevocation = false := by
  cases q <;> first | exact ⟨rfl, rfl⟩ | cases h

theorem protoToAbsLocktime_absLocktimeToProto (e : AbsLocktime) :
    protoToAbsLocktime (absLocktimeToProto e) = some e := by
  cases e <;> rfl

/-- A packet in flight, with its ghosts: its sender's remote staging state right after the
sender queued it, and for a revocation the commit it revokes, as it stood. -/
structure Wire where
  pkt : Pkt
  staging : ChannelState
  revokes : Option CommitInfo
  deriving DecidableEq, Repr

/-- One direction of the network: the packets in flight, oldest first, and the snapshot of
the last packet delivered. -/
structure Link where
  flight : List Wire
  seen : ChannelState
  deriving DecidableEq, Repr

/-- **What a packet did to its sender's view**: queuing `w.pkt` took the sender's remote
staging state from `cs` to `w.staging`. -/
def Wire.Effect (host : Host) (w : Wire) (cs : ChannelState) : Prop :=
  match w.pkt with
  | .updateAddHtlc u => ∃ e, protoToAbsLocktime u.expiry = some e ∧
      w.staging = (cs.modify .ours fun o =>
        ⟨o.payMsat - u.amountMsat, o.htlcs ++ [⟨u.id, u.amountMsat, e, u.rHash⟩]⟩).bump
  | .updateFulfillHtlc f => ∃ n, fundingHtlcById cs f.id .theirs = some n ∧
      w.staging = fundingFulfillHtlc cs n .theirs
  | .updateFailHtlc f => ∃ n, fundingHtlcById cs f.id .theirs = some n ∧
      w.staging = fundingFailHtlc cs n .theirs
  | .updateCommit _ => w.staging = cs
  | .updateRevocation _ => ∃ ci, w.revokes = some ci ∧
      applyChangeset host .theirs cs (ci.unackedChanges.getD []) = some w.staging
  | _ => False

/-! ### The pair and its moves -/

/-- Both peers, and the two directions of the network: `ab` from `a` to `b`, `ba` back. -/
structure Pair where
  a : Machine
  b : Machine
  ab : Link
  ba : Link
  deriving DecidableEq, Repr

/-- The same pair with the two peers' names exchanged. -/
def Pair.swap (p : Pair) : Pair := ⟨p.b, p.a, p.ba, p.ab⟩

@[simp] theorem Pair.swap_swap (p : Pair) : p.swap.swap = p := rfl

/-- Our commands, as opposed to inbound packets. -/
def Input.isCommand : Input → Bool
  | .pkt _ => false
  | _ => true

/-- The commit that `queue_pkt_revocation` revokes on input `i`: our previous commit. -/
def Peer.revoking (p : Peer) : Input → Option CommitInfo
  | .revocation => p.local.commit[1]?
  | _ => none

/-- One move of `a`: it runs a command, which queues `q`, and the network takes `q` with its
ghosts; or it delivers the oldest packet in flight from `a` to `b`, which `b` accepts without
a handler error. -/
inductive Pair.Move (host : Host) : Pair → Pair → Prop
  | send {p : Pair} {i : Input} {a' : Machine} {q : Pkt} :
      i.isCommand = true → p.a.step host i = some a' →
      a'.peer.outpkt = p.a.peer.outpkt ++ [q] →
      Move host p { p with
        a := a'
        ab := { p.ab with
          flight := p.ab.flight ++ [⟨q, a'.peer.remote.stagingCstate, p.a.peer.revoking i⟩] } }
  | deliver {p : Pair} {w : Wire} {rest : List Wire} {b' : Machine} :
      p.ab.flight = w :: rest → p.b.step host (.pkt w.pkt) = some b' → b'.broken = false →
      Move host p { p with b := b', ab := ⟨rest, w.staging⟩ }

/-- A move of either peer. -/
def Pair.Step (host : Host) (p p' : Pair) : Prop :=
  Pair.Move host p p' ∨ Pair.Move host p.swap p'.swap

/-- The pairs a run of the two peers reaches from `p0`, up to the first handler error. -/
def Pair.Reaches (host : Host) (p0 p : Pair) : Prop := Relation.ReflTransGen (Pair.Step host) p0 p

/-- **Invariants of two-peer runs.** A property that `Pair.swap` keeps and that every move of
`a` keeps holds all along a run. -/
theorem Pair.Reaches.induction {host : Host} {I : Pair → Prop} {p0 p : Pair}
    (hswap : ∀ p, I p → I p.swap) (hmove : ∀ p p', I p → Pair.Move host p p' → I p')
    (h0 : I p0) (h : Pair.Reaches host p0 p) : I p := by
  induction h with
  | refl => exact h0
  | tail _ hs ih =>
    rcases hs with hm | hm
    · exact hmove _ _ ih hm
    · simpa using hswap _ (hmove _ _ (hswap _ ih) hm)

/-! ### Runs of given events -/

/-- `a` runs the command `i`, and the one packet it queues goes on the wire. -/
def Pair.send (host : Host) (p : Pair) (i : Input) : Option Pair :=
  match i.isCommand, p.a.step host i with
  | true, some a' =>
    match a'.peer.outpkt.getLast? with
    | some q =>
      if a'.peer.outpkt = p.a.peer.outpkt ++ [q] then
        some { p with
          a := a'
          ab := { p.ab with
            flight := p.ab.flight ++ [⟨q, a'.peer.remote.stagingCstate, p.a.peer.revoking i⟩] } }
      else none
    | none => none
  | _, _ => none

/-- `b` takes the oldest packet in flight to it, without a handler error. -/
def Pair.deliver (host : Host) (p : Pair) : Option Pair :=
  match p.ab.flight with
  | w :: rest =>
    match p.b.step host (.pkt w.pkt) with
    | some b' => if b'.broken then none else some { p with b := b', ab := ⟨rest, w.staging⟩ }
    | none => none
  | [] => none

/-- What a run of the pair does next: a command of `a` or of `b`, or the delivery of the oldest
packet in flight to `b` or to `a`. -/
inductive Pair.Event
  | sendA (i : Input)
  | sendB (i : Input)
  | deliverB
  | deliverA
  deriving DecidableEq, Repr

/-- One event: a move of `a`, or one of `b` read through `Pair.swap`. -/
def Pair.Event.run (host : Host) (p : Pair) : Pair.Event → Option Pair
  | .sendA i => p.send host i
  | .sendB i => (p.swap.send host i).map Pair.swap
  | .deliverB => p.deliver host
  | .deliverA => (p.swap.deliver host).map Pair.swap

/-- The events `es`, in order, until one of them is not a move. -/
def Pair.runEvents (host : Host) (p : Pair) : List Pair.Event → Option Pair
  | [] => some p
  | e :: es => (e.run host p).bind fun p' => p'.runEvents host es

section
variable {host : Host} {p p' : Pair}

theorem Pair.send_move {i : Input} (h : p.send host i = some p') : Pair.Move host p p' := by
  unfold Pair.send at h
  split at h
  · rename_i a' hi hs
    split at h
    · split_ifs at h with ho
      cases h
      exact .send hi hs ho
    · cases h
  · cases h

theorem Pair.deliver_move (h : p.deliver host = some p') : Pair.Move host p p' := by
  unfold Pair.deliver at h
  split at h
  · rename_i w rest hf
    split at h
    · rename_i b' hs
      split_ifs at h with hb
      cases h
      exact .deliver hf hs (by simpa using hb)
    · cases h
  · cases h

theorem Pair.Event.run_step {e : Pair.Event} (h : e.run host p = some p') :
    Pair.Step host p p' := by
  cases e with
  | sendA i => exact .inl (Pair.send_move h)
  | sendB i =>
    obtain ⟨q, hq, rfl⟩ := Option.map_eq_some'.1 h
    exact .inr (Pair.send_move hq)
  | deliverB => exact .inl (Pair.deliver_move h)
  | deliverA =>
    obtain ⟨q, hq, rfl⟩ := Option.map_eq_some'.1 h
    exact .inr (Pair.deliver_move hq)

/-- **A run of given events is reached.** -/
theorem Pair.runEvents_reaches {es : List Pair.Event} (h : p.runEvents host es = some p') :
    Pair.Reaches host p p' := by
  induction es generalizing p with
  | nil =>
    cases h
    exact .refl
  | cons e es ih =>
    obtain ⟨p₁, h₁, h⟩ := Option.bind_eq_some.1 h
    exact .head (Pair.Event.run_step h₁) (ih h)

end

/-- **The update phase's start**: both peers at first commitments, each first commitment the
side-swapped copy of the other peer's record of it (`setup_first_commit` on both ends of one
channel), nothing in flight, and each link's snapshot its sender's remote staging state. -/
structure Pair.Start (p : Pair) : Prop where
  a : p.a.Initial
  b : p.b.Initial
  ab : p.ab = ⟨[], p.a.peer.remote.stagingCstate⟩
  ba : p.ba = ⟨[], p.b.peer.remote.stagingCstate⟩
  swappedAB : p.b.peer.local.commit.map (·.cstate) = p.a.peer.remote.commit.map (·.cstate.swap)
  swappedBA : p.a.peer.local.commit.map (·.cstate) = p.b.peer.remote.commit.map (·.cstate.swap)

theorem Pair.Start.swap {p : Pair} (h : p.Start) : p.swap.Start :=
  ⟨h.b, h.a, h.ba, h.ab, h.swappedBA, h.swappedAB⟩

/-! ### A channel at its first commitments -/

/-- One end of a channel at first commitments of `cs`, with the revocation hashes that
`trustingHost` gives (`revocation_hash(0)` on the first commits, `revocation_hash(1)` next). -/
def firstPeer (cs : ChannelState) (offer other : OfferAnchor) : Peer :=
  let ci : CommitInfo := { newCommitInfo with cstate := cs }
  ⟨⟨offer, ⟨0⟩, ⟨0⟩, 0, 0, 0, ⟨1⟩, [ci], cs⟩,
    ⟨other, ⟨0⟩, ⟨0⟩, 0, 0, 0, ⟨1⟩, [ci], cs⟩, [], ⟨[]⟩, ⟨0⟩, ⟨⟨[]⟩⟩⟩

/-- The funder `a` holds 1000, `b` holds 1000, and no HTLC is offered. -/
def firstState : ChannelState := ⟨0, 0, .ours, ⟨1000, []⟩, ⟨1000, []⟩⟩

/-- Both ends of one channel at first commitments of `firstState`, nothing in flight. -/
def firstPair : Pair :=
  ⟨⟨firstPeer firstState .cmdOpenWithAnchor .cmdOpenWithoutAnchor, false, false, false⟩,
    ⟨firstPeer firstState.swap .cmdOpenWithoutAnchor .cmdOpenWithAnchor, false, false, false⟩,
    ⟨[], firstState⟩, ⟨[], firstState.swap⟩⟩

theorem firstPair_start : firstPair.Start := by
  refine ⟨⟨⟨_, _, rfl, rfl, ?_, ?_, rfl, rfl, rfl⟩, rfl, rfl, rfl⟩,
    ⟨⟨_, _, rfl, rfl, ?_, ?_, rfl, rfl, rfl⟩, rfl, rfl, rfl⟩, rfl, rfl, rfl, rfl⟩ <;>
    exact ⟨rfl, fun s => by cases s <;> rfl, rfl, rfl⟩

/-- `a` offers an HTLC of 1 with id 0 and commits it; `b` takes both, and sends its revocation
and its own commit, which are still in flight. -/
def offerEvents : List Pair.Event :=
  [.sendA (.htlcAdd ⟨0, 1, .seconds 0, ⟨0⟩⟩), .deliverB, .sendA .commit, .deliverB,
    .sendB .revocation, .sendB .commit]

/-- Where `offerEvents` lead from `firstPair`. -/
def offeredPair : Pair := (firstPair.runEvents trustingHost offerEvents).getD firstPair

theorem firstPair_reaches_offeredPair : Pair.Reaches trustingHost firstPair offeredPair :=
  Pair.runEvents_reaches (rfl : firstPair.runEvents trustingHost offerEvents = some offeredPair)

/-! ### One step of one peer -/

section
variable {host : Host} {x x' : Machine}

/-- **What one of our commands does.** It queues one packet `q` and takes our remote staging
state to `R'` as `Wire.Effect` says; and it is a change added to their newest commit, a new
commit of theirs, or the revocation of our previous commit. -/
theorem Machine.send_cases {i : Input} {q : Pkt} (hs : x.step host i = some x')
    (hi : i.isCommand = true) (hq : x'.peer.outpkt = x.peer.outpkt ++ [q]) :
    ∃ R', Wire.Effect host ⟨q, R', x.peer.revoking i⟩ x.peer.remote.stagingCstate ∧
      ((∃ c ci older, q.change = some c ∧ x.peer.revoking i = none ∧
          x.peer.remote.commit = ci :: older ∧
          x' = { x with peer := { x.peer with
            remote := { x.peer.remote with
              commit := ci.withUnacked c :: older, stagingCstate := R' }
            outpkt := x.peer.outpkt ++ [q] } }) ∨
        (∃ c, q = .updateCommit c ∧ x.committing = false ∧ x.revocationDue = false ∧
          x.peer.revoking i = none ∧ R' = x.peer.remote.stagingCstate ∧
          ∃ prev older, x.peer.remote.commit = prev :: older ∧
          prev.cstate.changes ≠ x.peer.remote.stagingCstate.changes ∧
          x' = { x with
            peer := { x.peer with
              remote := { x.peer.remote with commit :=
                { prev.next x.peer.remote.nextRevocationHash x.peer.remote.stagingCstate with
                  sig := some c.sig } :: prev :: older }
              outpkt := x.peer.outpkt ++ [q] }
            committing := true }) ∨
        (∃ r, q = .updateRevocation r ∧ x.revocationDue = true ∧
          ∃ tip ci older, x.peer.local.commit = tip :: ci :: older ∧
          x.peer.revoking i = some ci ∧ ci.revocationPreimage = none ∧
          r = ⟨host.revocationPreimage x.peer.secrets ci.commitNum,
            x.peer.local.nextRevocationHash⟩ ∧
          x' = { x with
            peer := { x.peer with
              «local» := { x.peer.local with commit := tip :: { ci with
                revocationPreimage := some r.revocationPreimage, unackedChanges := none } :: older }
              remote := { x.peer.remote with stagingCstate := R' }
              outpkt := x.peer.outpkt ++ [q] }
            revocationDue := false })) := by
  cases i with
  | htlcAdd h =>
    obtain ⟨-, -, p, hp, rfl⟩ := Machine.step_htlcAdd hs
    obtain ⟨-, ci, older, hc, rfl⟩ := queuePktHtlcAdd_eq_some hp
    obtain rfl := List.singleton_inj.1 (List.append_cancel_left hq)
    refine ⟨_, ⟨h.expiry, protoToAbsLocktime_absLocktimeToProto _, rfl⟩,
      .inl ⟨.add h, ci, older, ?_, rfl, hc, rfl⟩⟩
    simp [Pkt.change, protoToAbsLocktime_absLocktimeToProto]
  | htlcFulfill id r =>
    obtain ⟨-, -, p, hp, rfl⟩ := Machine.step_htlcFulfill hs
    obtain ⟨n, ci, older, hn, hc, rfl⟩ := queuePktHtlcFulfill_eq_some hp
    obtain rfl := List.singleton_inj.1 (List.append_cancel_left hq)
    exact ⟨_, ⟨n, hn, rfl⟩, .inl ⟨.fulfill id r, ci, older, rfl, rfl, hc, rfl⟩⟩
  | htlcFail id =>
    obtain ⟨-, -, p, hp, rfl⟩ := Machine.step_htlcFail hs
    obtain ⟨n, ci, older, hn, hc, rfl⟩ := queuePktHtlcFail_eq_some hp
    obtain rfl := List.singleton_inj.1 (List.append_cancel_left hq)
    exact ⟨_, ⟨n, hn, rfl⟩, .inl ⟨.fail id, ci, older, rfl, rfl, hc, rfl⟩⟩
  | commit =>
    obtain ⟨-, hd, hcm, p, hp, rfl⟩ := Machine.step_commit hs
    obtain ⟨prev, older, hc, hne, rfl⟩ := queuePktCommit_eq_some hp
    obtain rfl := List.singleton_inj.1 (List.append_cancel_left hq)
    exact ⟨_, rfl, .inr (.inl ⟨_, rfl, hcm, hd, rfl, rfl, prev, older, hc, hne, rfl⟩)⟩
  | revocation =>
    obtain ⟨-, hd, p, hp, rfl⟩ := Machine.step_revocation hs
    obtain ⟨tip, ci, older, cs, hl, hpre, -, hcs, rfl⟩ := queuePktRevocation_eq_some hp
    obtain rfl := List.singleton_inj.1 (List.append_cancel_left hq)
    have hrev : x.peer.revoking .revocation = some ci := by simp [Peer.revoking, hl]
    exact ⟨cs, ⟨ci, hrev, hcs⟩,
      .inr (.inr ⟨_, rfl, hd, tip, ci, older, hl, hrev, hpre, rfl, rfl⟩)⟩
  | pkt q => cases hi

/-- The receiver's staging state after it accepts a change: `w.staging` seen from its side,
when its staging state before was `cs` seen from its side. -/
theorem Wire.Effect.accept_add {w : Wire} {cs : ChannelState} {u : UpdateAddHtlc}
    {e : AbsLocktime} (hw : w.pkt = .updateAddHtlc u) (he : protoToAbsLocktime u.expiry = some e)
    (h : w.Effect host cs) :
    (cs.swap.modify .theirs fun o =>
      ⟨o.payMsat - u.amountMsat, o.htlcs ++ [⟨u.id, u.amountMsat, e, u.rHash⟩]⟩).bump =
      w.staging.swap := by
  simp only [Wire.Effect, hw] at h
  obtain ⟨e', he', hs⟩ := h
  obtain rfl : e' = e := Option.some.inj (he'.symm.trans he)
  rw [hs, ChannelState.swap_bump, ChannelState.swap_modify]
  rfl

theorem Wire.Effect.accept_remove {w : Wire} {cs : ChannelState} {id : UInt64} {n : Nat}
    {f : ChannelState → Nat → Side → ChannelState}
    (hf : ∀ cs n s, f cs.swap n s.other = (f cs n s).swap)
    (hn : fundingHtlcById cs.swap id .ours = some n)
    (h : ∃ n, fundingHtlcById cs id .theirs = some n ∧ w.staging = f cs n .theirs) :
    f cs.swap n .ours = w.staging.swap := by
  obtain ⟨n', hn', hs⟩ := h
  have hid := fundingHtlcById_swap cs id .theirs
  rw [Side.other_theirs, hn, hn'] at hid
  cases hid
  rw [hs, ← hf]
  rfl

/-- **What a packet delivered without error does.** Its receiver was not owing a revocation;
and the packet was a change, which joins the receiver's newest commit and takes the receiver's
staging state to the sender's snapshot seen from its side; a commit, which pushes a commit on
the receiver's chain and makes its revocation due; or a revocation of the receiver's
outstanding commit, whose unacked changes are replayed on the receiver's staging state. -/
theorem Machine.deliver_cases {q : Pkt} (hs : x.step host (.pkt q) = some x')
    (hb : x'.broken = false) :
    x.revocationDue = false ∧
      ((∃ c ci older L', q.change = some c ∧ x.peer.local.commit = ci :: older ∧
          (∀ cs st g, x.peer.local.stagingCstate = cs.swap →
            Wire.Effect host ⟨q, st, g⟩ cs → L' = st.swap) ∧
          x' = { x with peer := { x.peer with «local» := { x.peer.local with
            commit := ci.withUnacked c :: older, stagingCstate := L' } } }) ∨
        (∃ c, q = .updateCommit c ∧ ∃ prev older, x.peer.local.commit = prev :: older ∧
          prev.cstate.changes ≠ x.peer.local.stagingCstate.changes ∧
          x' = { x with
            peer := { x.peer with «local» := { x.peer.local with
              commit := { prev.next x.peer.local.nextRevocationHash x.peer.local.stagingCstate with
                sig := some c.sig } :: prev :: older
              nextRevocationHash := host.revocationHash x.peer.secrets (prev.commitNum + 1 + 1) } }
            revocationDue := true }) ∨
        (∃ r, q = .updateRevocation r ∧ x.committing = true ∧
          ∃ tip ci older chain L', x.peer.remote.commit = tip :: ci :: older ∧
          checkPreimage host r.revocationPreimage ci.revocationHash = true ∧
          ci.revocationPreimage = none ∧
          shachainAddHash host x.peer.theirPreimages (0xFFFFFFFFFFFFFFFF - ci.commitNum)
            r.revocationPreimage = some chain ∧
          applyChangeset host .ours x.peer.local.stagingCstate (ci.unackedChanges.getD []) =
            some L' ∧
          x' = { x with
            peer := { x.peer with
              theirPreimages := chain
              «local» := { x.peer.local with stagingCstate := L' }
              remote := { x.peer.remote with
                nextRevocationHash := r.nextRevocationHash
                commit := tip :: { ci with
                  revocationPreimage := some r.revocationPreimage
                  unackedChanges := none } :: older } }
            committing := false })) := by
  obtain ⟨-, hd, hs⟩ := Machine.step_pkt hs
  refine ⟨hd, ?_⟩
  cases q with
  | updateAddHtlc u =>
    rcases Machine.accept_eq_some hs with ⟨p, hq, rfl⟩ | ⟨p, e, hq, rfl⟩
    · obtain ⟨e, ci, older, -, he, -, -, -, -, -, -, hc, rfl⟩ := acceptPktHtlcAdd_ok hq
      refine .inl ⟨_, ci, older, _, by simp [Pkt.change, he], hc,
        fun cs st g hl h => ?_, rfl⟩
      rw [hl]
      exact Wire.Effect.accept_add rfl he h
    · cases hb
  | updateFulfillHtlc f =>
    rcases Machine.accept_eq_some hs with ⟨p, hq, rfl⟩ | ⟨p, e, hq, rfl⟩
    · obtain ⟨n, -, ci, older, hf, -, -, hc, rfl⟩ := acceptPktHtlcFulfill_ok hq
      obtain ⟨-, -, -, -, hn⟩ := findCommitedHtlc_ok hf
      refine .inl ⟨_, ci, older, _, rfl, hc, fun cs st g hl h => ?_, rfl⟩
      rw [hl] at hn ⊢
      exact Wire.Effect.accept_remove fundingFulfillHtlc_swap hn h
    · cases hb
  | updateFailHtlc f =>
    rcases Machine.accept_eq_some hs with ⟨p, hq, rfl⟩ | ⟨p, e, hq, rfl⟩
    · obtain ⟨n, ci, older, hf, hc, rfl⟩ := acceptPktHtlcFail_ok hq
      obtain ⟨-, -, -, -, hn⟩ := findCommitedHtlc_ok hf
      refine .inl ⟨_, ci, older, _, rfl, hc, fun cs st g hl h => ?_, rfl⟩
      rw [hl] at hn ⊢
      exact Wire.Effect.accept_remove fundingFailHtlc_swap hn h
    · cases hb
  | updateCommit c =>
    simp only [Machine.receive] at hs
    rcases Machine.accept_eq_some hs with ⟨p, hq, rfl⟩ | ⟨p, e, hq, rfl⟩
    · obtain ⟨prev, older, hc, hne, -, -, rfl⟩ := acceptPktCommit_ok hq
      exact .inr (.inl ⟨c, rfl, prev, older, hc, hne, rfl⟩)
    · cases hb
  | updateRevocation r =>
    obtain ⟨hcm, hs⟩ := Machine.receive_updateRevocation hs
    rcases Machine.accept_eq_some hs with ⟨p, hq, rfl⟩ | ⟨p, e, hq, rfl⟩
    · obtain ⟨tip, ci, older, chain, cs, hc, hck, hpre, hch, hcs, rfl⟩ :=
        acceptPktRevocation_ok hq
      exact .inr (.inr ⟨r, rfl, hcm, tip, ci, older, chain, cs, hc, hck, hpre, hch, hcs, rfl⟩)
    · cases hb
  | «open» o => cases hs
  | openCommitSig sig => cases hs
  | openComplete => cases hs
  | error problem => cases hs

end

end Lightning
