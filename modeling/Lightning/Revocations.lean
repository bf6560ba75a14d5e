import Lightning.Chain
import Lightning.Agreement

/-!
# Revocation agreement between the two peers

The revocation hash of each commit is sent ahead of it: in `OpenChannel` for the first commits,
then in each `UpdateRevocation` for the commit after the newest. When both peers open with
`revocation_hash(0)` as their next revocation hash and the signer keeps its contract (each
preimage hashes to the revocation hash of the same number), then at every point of every
interleaving up to the first handler error (`revocation_agreement`):

* each peer's local commits carry its own revocation hashes of their numbers, and its next
  revocation hash is that of the number after its newest commit;
* the other peer's record of those commits carries the same hashes;
* when a revocation reaches the other peer, `accept_pkt_revocation` checks its preimage against
  that peer's record of the very commit that was revoked, and the check passes;
* the indices passed to `shachain_add_hash` run down from `2^64 - 1`, one per revocation
  accepted, modulo `2^64`: the commit numbers are `u64`.

The invariant is `Hashed` for each direction, over the commitment agreement of
`Lightning.Agreement`; the shachain indices are a fact of one peer (`Indexed`).
-/

namespace Lightning

/-! ### The open phase -/

/-- The number and revocation hash of a commit. -/
def CommitInfo.hashed (ci : CommitInfo) : UInt64 × Sha256 := (ci.commitNum, ci.revocationHash)

/-- **The revocation hashes of `x`'s open**: `x` ran `queue_pkt_open` from a next revocation hash
of `revocation_hash(0)`, `y` accepted the `OpenChannel` it queued, and the first commitments of
`x` and `y` carry the numbers and hashes those handlers gave: `x`'s first commit and next hash,
and `y`'s record of them. -/
def OpenedHashes (host : Host) (x y : Peer) : Prop :=
  ∃ x₀ x₁ anchor o y₀ y₁,
    x₀.local.nextRevocationHash = host.revocationHash x₀.secrets 0 ∧
    queuePktOpen host x₀ anchor = some x₁ ∧ x₁.outpkt = x₀.outpkt ++ [.open o] ∧
    acceptPktOpen host y₀ o = (y₁, none) ∧ x.secrets = x₀.secrets ∧
    x.local.commit.map CommitInfo.hashed = x₁.local.commit.map CommitInfo.hashed ∧
    x.local.nextRevocationHash = x₁.local.nextRevocationHash ∧
    y.remote.commit.map CommitInfo.hashed = y₁.remote.commit.map CommitInfo.hashed ∧
    y.remote.nextRevocationHash = y₁.remote.nextRevocationHash

/-- The update phase's start, after both peers opened. -/
def Pair.Opened (host : Host) (p : Pair) : Prop :=
  p.Start ∧ OpenedHashes host p.a.peer p.b.peer ∧ OpenedHashes host p.b.peer p.a.peer

/-- **What the open phase gives**: `x`'s first commit and `y`'s record of it carry
`revocation_hash(0)` of `x`, and both hold `revocation_hash(1)` as the next. -/
theorem OpenedHashes.spec {host : Host} {x y : Peer} (h : OpenedHashes host x y) :
    x.local.commit.map CommitInfo.hashed = [(0, host.revocationHash x.secrets 0)] ∧
      x.local.nextRevocationHash = host.revocationHash x.secrets 1 ∧
      y.remote.commit.map CommitInfo.hashed = [(0, host.revocationHash x.secrets 0)] ∧
      y.remote.nextRevocationHash = host.revocationHash x.secrets 1 := by
  obtain ⟨x₀, x₁, anchor, o, y₀, y₁, h0, hq, ho, ha, hs, hl, hn, hr, hrn⟩ := h
  obtain ⟨o', ho₁, ho₂, rfl⟩ := queuePktOpen_eq_some hq
  obtain rfl : o' = o := by simpa using ho
  obtain ⟨hc, hnext⟩ := acceptPktOpen_ok ha
  rw [hs]
  exact ⟨hl.trans (by simp [h0, CommitInfo.hashed, newCommitInfo]), hn,
    hr.trans (by simp [hc, ho₁, h0, CommitInfo.hashed, newCommitInfo]),
    hrn.trans (hnext.trans ho₂)⟩

/-! ### Revocation hashes along a chain -/

/-- Each commit of `chain` carries the revocation hash of its number, from `s`. -/
def Hashes (host : Host) (s : PeerSecrets) (chain : List CommitInfo) : Prop :=
  ∀ ci ∈ chain, ci.revocationHash = host.revocationHash s ci.commitNum

/-- The number of the newest commit of `chain`. -/
def headNum? (chain : List CommitInfo) : Option UInt64 := chain.head?.map (·.commitNum)

section
variable {host : Host} {s : PeerSecrets} {ci ci' tip : CommitInfo} {chain : List CommitInfo}

theorem Hashes.cons_iff : Hashes host s (ci :: chain) ↔
    ci.revocationHash = host.revocationHash s ci.commitNum ∧ Hashes host s chain :=
  List.forall_mem_cons

/-- A commit rewritten with its number and revocation hash kept. -/
theorem Hashes.head (h : Hashes host s (ci :: chain))
    (hr : ci'.revocationHash = ci.revocationHash) (hn : ci'.commitNum = ci.commitNum) :
    Hashes host s (ci' :: chain) :=
  Hashes.cons_iff.2 ⟨by rw [hr, hn]; exact (Hashes.cons_iff.1 h).1, (Hashes.cons_iff.1 h).2⟩

theorem Hashes.second (h : Hashes host s (tip :: ci :: chain))
    (hr : ci'.revocationHash = ci.revocationHash) (hn : ci'.commitNum = ci.commitNum) :
    Hashes host s (tip :: ci' :: chain) :=
  Hashes.cons_iff.2 ⟨(Hashes.cons_iff.1 h).1, (Hashes.cons_iff.1 h).2.head hr hn⟩

theorem Hashes.of_hashed (h : chain.map CommitInfo.hashed = [(0, host.revocationHash s 0)]) :
    Hashes host s chain := by
  intro ci hci
  have hm := List.mem_map_of_mem CommitInfo.hashed hci
  rw [h, List.mem_singleton] at hm
  simp only [CommitInfo.hashed, Prod.mk.injEq] at hm
  rw [hm.1, hm.2]

theorem headNum?_of_hashed (h : chain.map CommitInfo.hashed = [(0, host.revocationHash s 0)]) :
    headNum? chain = some 0 := by
  cases chain with
  | nil => cases h
  | cons c rest =>
    have hc := (List.cons.inj h).1
    simp only [CommitInfo.hashed, Prod.mk.injEq] at hc
    simp [headNum?, hc.1]

end

namespace CommitFlow

variable {V W : List CommitInfo} {cm d : Bool} {P Q : List Wire}

/-- While no commit is outstanding, no revocation is in flight back. -/
theorem noRevocation_of_idle (h : CommitFlow V false W d P Q) : NoRevocation Q := by
  cases h with
  | idle _ hQ => exact hQ

/-- While the receiver owes a revocation, its newest commit has the number of the sender's. -/
theorem headNum?_of_due (h : CommitFlow V cm W true P Q) : headNum? V = headNum? W := by
  cases h with
  | due _ _ hm =>
    obtain ⟨hm, -⟩ := List.forall₂_cons.1 hm
    simp [headNum?, hm.1]

end CommitFlow

/-! ### One direction of the channel -/

/-- **The revocation hashes of `y`**, as `y` holds them and as `x` records them: `y`'s local
commits and `x`'s record of them carry `y`'s revocation hashes of their numbers; `y`'s next
revocation hash is that of the number after its newest commit, and so is `x`'s record of it
while no commit is outstanding, or that of the outstanding commit while one is; and each
revocation in flight from `y` reveals `y`'s preimage of the number of the commit it revoked,
and sends the hash of the number after `x`'s record of `y`'s newest commit. -/
structure Hashed (host : Host) (x y : Machine) (yx : Link) : Prop where
  own : Hashes host y.peer.secrets y.peer.local.commit
  ownNext : ∀ n ∈ headNum? y.peer.local.commit,
    y.peer.local.nextRevocationHash = host.revocationHash y.peer.secrets (n + 1)
  theirs : Hashes host y.peer.secrets x.peer.remote.commit
  theirNext : ∀ n ∈ headNum? x.peer.remote.commit, x.peer.remote.nextRevocationHash =
    host.revocationHash y.peer.secrets (bif x.committing then n else n + 1)
  inFlight : ∀ w ∈ yx.flight, ∀ r, w.pkt = .updateRevocation r →
    (∃ ci, w.revokes = some ci ∧
      r.revocationPreimage = host.revocationPreimage y.peer.secrets ci.commitNum) ∧
    ∀ n ∈ headNum? x.peer.remote.commit,
      r.nextRevocationHash = host.revocationHash y.peer.secrets (n + 1)

namespace Hashed

variable {host : Host} {x x' y y' : Machine} {xy yx : Link} {i : Input} {q : Pkt} {w : Wire}
  {rest : List Wire}

theorem start {p : Pair} (h0 : p.Start) (h : OpenedHashes host p.b.peer p.a.peer) :
    Hashed host p.a p.b p.ba := by
  obtain ⟨hl, hn, hr, hrn⟩ := h.spec
  have hcm := h0.a.2.1
  refine ⟨.of_hashed hl, ?_, .of_hashed hr, ?_, ?_⟩
  · rw [headNum?_of_hashed hl]
    rintro _ ⟨⟩
    exact hn
  · rw [headNum?_of_hashed hr, hcm]
    rintro _ ⟨⟩
    exact hrn
  · rw [h0.ba]
    exact fun _ h => (List.not_mem_nil _ h).elim

/-- The committer runs a command. -/
theorem send (h : Hashed host x y yx) (hh : Half host x y xy yx) (hs : x.step host i = some x')
    (hi : i.isCommand = true) (hq : x'.peer.outpkt = x.peer.outpkt ++ [q]) :
    Hashed host x' y yx := by
  obtain ⟨R', -, hk⟩ := Machine.send_cases hs hi hq
  rcases hk with ⟨c, ci, older, -, -, hr, rfl⟩ |
    ⟨c, rfl, hcm, -, -, rfl, prev, older, hr, -, rfl⟩ |
    ⟨r, rfl, -, tip, ci, older, -, -, -, -, rfl⟩
  · have ht := h.theirs
    have hn := h.theirNext
    have hf := h.inFlight
    rw [hr] at ht hn hf
    exact ⟨h.own, h.ownNext, ht.head rfl rfl, hn, hf⟩
  · have ht := h.theirs
    have hn := h.theirNext
    have hQ := hh.flow
    rw [hr, hcm] at hQ
    rw [hr, hcm] at hn
    have hnext := hn _ rfl
    refine ⟨h.own, h.ownNext, Hashes.cons_iff.2 ⟨hnext, hr ▸ ht⟩, ?_, ?_⟩
    · rintro _ ⟨⟩
      exact hnext
    · intro w hw r hwr
      have := hQ.noRevocation_of_idle w hw
      simp [hwr] at this
  · exact ⟨h.own, h.ownNext, h.theirs, h.theirNext, h.inFlight⟩

/-- The revoker runs a command. -/
theorem sendBack (h : Hashed host y x xy) (hh : Half host y x yx xy)
    (hs : x.step host i = some x') (hi : i.isCommand = true)
    (hq : x'.peer.outpkt = x.peer.outpkt ++ [q]) :
    Hashed host y x'
      { xy with
        flight := xy.flight ++ [⟨q, x'.peer.remote.stagingCstate, x.peer.revoking i⟩] } := by
  obtain ⟨R', -, hk⟩ := Machine.send_cases hs hi hq
  rcases hk with ⟨c, ci, older, hc, -, -, rfl⟩ | ⟨c, rfl, -, -, -, rfl, -, -, -, -, rfl⟩ |
    ⟨r, rfl, hd, tip, ci, older, hl, hrev, -, rfl, rfl⟩
  · refine ⟨h.own, h.ownNext, h.theirs, h.theirNext, fun w hw r hwr => ?_⟩
    rcases List.mem_append.1 hw with hw | hw
    · exact h.inFlight w hw r hwr
    · obtain rfl := List.mem_singleton.1 hw
      cases (show q = .updateRevocation r from hwr)
      simp at hc
  · refine ⟨h.own, h.ownNext, h.theirs, h.theirNext, fun w hw r hwr => ?_⟩
    rcases List.mem_append.1 hw with hw | hw
    · exact h.inFlight w hw r hwr
    · obtain rfl := List.mem_singleton.1 hw
      cases hwr
  · have ho := h.own
    have hn := h.ownNext
    rw [hl] at ho hn
    have hQ := hh.flow
    rw [hd] at hQ
    refine ⟨ho.second rfl rfl, hn, h.theirs, h.theirNext, fun w hw r' hwr => ?_⟩
    rcases List.mem_append.1 hw with hw | hw
    · exact h.inFlight w hw r' hwr
    · obtain rfl := List.mem_singleton.1 hw
      cases hwr
      refine ⟨⟨ci, hrev, rfl⟩, ?_⟩
      rw [hQ.headNum?_of_due, hl]
      exact hn

/-- The revoker takes a packet from the committer. -/
theorem deliver (h : Hashed host x y yx) (hs : y.step host (.pkt q) = some y')
    (hb : y'.broken = false) : Hashed host x y' yx := by
  obtain ⟨-, hk⟩ := Machine.deliver_cases hs hb
  rcases hk with ⟨c, ci, older, L', -, hl, -, rfl⟩ | ⟨c, -, prev, older, hl, -, rfl⟩ |
    ⟨r, -, -, tip, ci, older, chain, L', -, -, -, -, -, rfl⟩
  · have ho := h.own
    have hn := h.ownNext
    rw [hl] at ho hn
    exact ⟨ho.head rfl rfl, hn, h.theirs, h.theirNext, h.inFlight⟩
  · have ho := h.own
    have hn := h.ownNext
    rw [hl] at ho hn
    refine ⟨Hashes.cons_iff.2 ⟨hn _ rfl, ho⟩, ?_, h.theirs, h.theirNext, h.inFlight⟩
    rintro _ ⟨⟩
    rfl
  · exact ⟨h.own, h.ownNext, h.theirs, h.theirNext, h.inFlight⟩

/-- The committer takes a packet from the revoker. -/
theorem deliverBack (h : Hashed host y x xy) (hf : xy.flight = w :: rest)
    (hs : y.step host (.pkt w.pkt) = some y') (hb : y'.broken = false) :
    Hashed host y' x ⟨rest, w.staging⟩ := by
  have hrest : ∀ w' ∈ rest, w' ∈ xy.flight := fun w' hw' => hf ▸ List.mem_cons_of_mem _ hw'
  obtain ⟨-, hk⟩ := Machine.deliver_cases hs hb
  rcases hk with ⟨c, ci, older, L', -, -, -, rfl⟩ | ⟨c, -, -, -, -, -, rfl⟩ |
    ⟨r, hr, -, tip, ci, older, chain, L', hrc, -, -, -, -, rfl⟩
  · exact ⟨h.own, h.ownNext, h.theirs, h.theirNext, fun w' hw' => h.inFlight w' (hrest w' hw')⟩
  · exact ⟨h.own, h.ownNext, h.theirs, h.theirNext, fun w' hw' => h.inFlight w' (hrest w' hw')⟩
  · have ht := h.theirs
    have hf' := h.inFlight
    rw [hrc] at ht hf'
    refine ⟨h.own, h.ownNext, ht.second rfl rfl, ?_, fun w' hw' => hf' w' (hrest w' hw')⟩
    exact (hf' w (hf ▸ List.mem_cons_self _ _) r hr).2

end Hashed

/-! ### The shachain indices -/

theorem uint64_ofNat_succ (n : Nat) : UInt64.ofNat (n + 1) = UInt64.ofNat n + 1 :=
  UInt64.eq_of_toBitVec_eq (BitVec.ofNat_add ..)

/-- **The shachain's indices**: the preimages stored so far are at `2^64 - 1 - k` for
`k = 0, 1, ...` (modulo `2^64`), oldest first; and their newest commit is numbered by how many
there are, plus one while it is outstanding. -/
structure Indexed (m : Machine) : Prop where
  indices : m.peer.theirPreimages.known.map Prod.fst =
    (List.range m.peer.theirPreimages.known.length).map
      fun k => 0xFFFFFFFFFFFFFFFF - UInt64.ofNat k
  newest : ∀ n ∈ headNum? m.peer.remote.commit,
    n = UInt64.ofNat m.peer.theirPreimages.known.length + bif m.committing then 1 else 0

namespace Indexed

variable {host : Host} {x x' : Machine} {i : Input} {q : Pkt}

theorem initial (h : x.Initial) : Indexed x := by
  obtain ⟨⟨c, d, -, hr, -, hd, -, -, hk⟩, hcm, -, -⟩ := h
  refine ⟨by rw [hk]; rfl, ?_⟩
  simp [headNum?, hr, hd.1, hk, hcm]

theorem send (h : Indexed x) (hs : x.step host i = some x') (hi : i.isCommand = true)
    (hq : x'.peer.outpkt = x.peer.outpkt ++ [q]) : Indexed x' := by
  obtain ⟨R', -, hk⟩ := Machine.send_cases hs hi hq
  rcases hk with ⟨c, ci, older, -, -, hr, rfl⟩ |
    ⟨c, rfl, hcm, -, -, rfl, prev, older, hr, -, rfl⟩ |
    ⟨r, rfl, -, tip, ci, older, -, -, -, -, rfl⟩
  · have hn := h.newest
    rw [hr] at hn
    exact ⟨h.indices, hn⟩
  · have hn := h.newest
    rw [hr, hcm] at hn
    refine ⟨h.indices, ?_⟩
    rintro _ ⟨⟩
    simp [CommitInfo.next, hn _ rfl]
  · exact ⟨h.indices, h.newest⟩

/-- `accept_pkt_revocation` stores the preimage at the next index down. -/
theorem deliver (h : Indexed x) (hch : ChainInv host x) (hs : x.step host (.pkt q) = some x')
    (hb : x'.broken = false) : Indexed x' := by
  obtain ⟨-, hk⟩ := Machine.deliver_cases hs hb
  rcases hk with ⟨c, ci, older, L', -, -, -, rfl⟩ | ⟨c, -, -, -, -, -, rfl⟩ |
    ⟨r, -, hcm, tip, ci, older, chain, L', hrc, -, -, hch', -, rfl⟩
  · exact ⟨h.indices, h.newest⟩
  · exact ⟨h.indices, h.newest⟩
  · have hn := h.newest
    rw [hrc, hcm] at hn
    have htip := hn _ rfl
    have hnum := hch.remoteChain.wellFormed.numbered
    rw [hrc] at hnum
    have hci : ci.commitNum = UInt64.ofNat x.peer.theirPreimages.known.length := by
      have := hnum.1.symm.trans htip
      simpa using this
    have hk := shachainAddHash_eq_some hch'
    refine ⟨?_, ?_⟩
    · simp only [hk, List.map_append, h.indices, List.length_append, List.length_singleton,
        List.range_succ, List.map_cons, List.map_nil, hci]
    · rintro _ ⟨⟩
      simp only [hk, List.length_append, List.length_singleton, uint64_ofNat_succ]
      simpa using htip

end Indexed

/-! ### Both directions -/

/-- The invariant of two-peer runs from an opened channel: the commitment agreement, the
revocation hashes in both directions, and each peer's own chains and shachain. -/
structure Pair.Revoking (host : Host) (p : Pair) : Prop where
  agrees : p.Agrees host
  hashedAB : Hashed host p.a p.b p.ba
  hashedBA : Hashed host p.b p.a p.ab
  reachableA : Reachable host p.a
  reachableB : Reachable host p.b
  indexedA : Indexed p.a
  indexedB : Indexed p.b

namespace Pair.Revoking

variable {host : Host} {p p' : Pair}

theorem swap (h : p.Revoking host) : p.swap.Revoking host :=
  ⟨h.agrees.swap, h.hashedBA, h.hashedAB, h.reachableB, h.reachableA, h.indexedB, h.indexedA⟩

theorem move (h : p.Revoking host) (hm : Pair.Move host p p') : p'.Revoking host := by
  cases hm with
  | send hi hs hq =>
    exact ⟨h.agrees.move (.send hi hs hq), h.hashedAB.send h.agrees.1 hs hi hq,
      h.hashedBA.sendBack h.agrees.2 hs hi hq, .step h.reachableA hs, h.reachableB,
      h.indexedA.send hs hi hq, h.indexedB⟩
  | deliver hf hs hb =>
    exact ⟨h.agrees.move (.deliver hf hs hb), h.hashedAB.deliver hs hb,
      h.hashedBA.deliverBack hf hs hb, h.reachableA, .step h.reachableB hs, h.indexedA,
      h.indexedB.deliver h.reachableB.chainInv hs hb⟩

theorem start (h : p.Opened host) : p.Revoking host :=
  ⟨.start h.1, .start h.1 h.2.2, .start h.1.swap h.2.1, .init h.1.a, .init h.1.b,
    .initial h.1.a, .initial h.1.b⟩

end Pair.Revoking

/-! ### Revocation agreement -/

/-- **Revocation agreement**, for `b`'s revocations of `a`'s commits: `b`'s local commits carry
`b`'s revocation hashes of their numbers, and its next revocation hash is that of the number
after its newest commit; `a`'s record of `b`'s commits carries the same hashes; when `a` takes a
revocation from `b`, `accept_pkt_revocation` checks its preimage against `a`'s record of the
commit `b` revoked, with its number, the check passes, and the shachain index is the next one
down; and the indices `a` has passed to `shachain_add_hash` are `2^64 - 1 - k` for
`k = 0, 1, ...`, modulo `2^64`, oldest first. -/
def RevocationAgreement (host : Host) (p : Pair) : Prop :=
  Hashes host p.b.peer.secrets p.b.peer.local.commit ∧
  (∀ n ∈ headNum? p.b.peer.local.commit,
    p.b.peer.local.nextRevocationHash = host.revocationHash p.b.peer.secrets (n + 1)) ∧
  Hashes host p.b.peer.secrets p.a.peer.remote.commit ∧
  (∀ w rest r, p.ba.flight = w :: rest → w.pkt = .updateRevocation r →
    ∃ tip prev older ci, p.a.peer.remote.commit = tip :: prev :: older ∧ w.revokes = some ci ∧
      prev.commitNum = ci.commitNum ∧
      checkPreimage host r.revocationPreimage prev.revocationHash = true ∧
      0xFFFFFFFFFFFFFFFF - prev.commitNum =
        0xFFFFFFFFFFFFFFFF - UInt64.ofNat p.a.peer.theirPreimages.known.length) ∧
  p.a.peer.theirPreimages.known.map Prod.fst =
    (List.range p.a.peer.theirPreimages.known.length).map
      fun k => 0xFFFFFFFFFFFFFFFF - UInt64.ofNat k

theorem Pair.Revoking.agreement {host : Host} {p : Pair}
    (hsig : ∀ s n, host.sha256 (host.revocationPreimage s n) = host.revocationHash s n)
    (h : p.Revoking host) : RevocationAgreement host p := by
  have hh := h.hashedAB
  refine ⟨hh.own, hh.ownNext, hh.theirs, fun w rest r hf hr => ?_, h.indexedA.indices⟩
  obtain ⟨v, vp, V, hV, hcm, ci, hci, hn, -⟩ :=
    h.agrees.1.flow.revocationHead hf (by simp [hr])
  obtain ⟨⟨ci', hci', hpre⟩, -⟩ := hh.inFlight w (hf ▸ List.mem_cons_self _ _) r hr
  rw [hci, Option.some.injEq] at hci'
  subst hci'
  have hvp := (Hashes.cons_iff.1 (Hashes.cons_iff.1 (hV ▸ hh.theirs)).2).1
  have htip := h.indexedA.newest
  have hnum := h.reachableA.chainInv.remoteChain.wellFormed.numbered
  rw [hV] at htip hnum
  rw [hcm] at htip
  have hidx : vp.commitNum = UInt64.ofNat p.a.peer.theirPreimages.known.length := by
    have := hnum.1.symm.trans (htip _ rfl)
    simpa using this
  refine ⟨v, vp, V, ci, hV, hci, hn.symm, ?_, by rw [hidx]⟩
  simp [checkPreimage, hpre, hsig, hvp, hn]

theorem revocation_agreement {host : Host} {p0 p : Pair}
    (hsig : ∀ s n, host.sha256 (host.revocationPreimage s n) = host.revocationHash s n)
    (h0 : p0.Opened host) (h : Pair.Reaches host p0 p) :
    RevocationAgreement host p ∧ RevocationAgreement host p.swap := by
  have hr := @Pair.Reaches.induction host (Pair.Revoking host) p0 p (fun _ => Pair.Revoking.swap)
    (fun _ _ => Pair.Revoking.move) (Pair.Revoking.start h0) h
  exact ⟨hr.agreement hsig, hr.swap.agreement hsig⟩

/-- A peer before `queue_pkt_open`, whose next revocation hash is `revocation_hash(0)` of
`trustingHost`. -/
def preOpenPeer (offer : OfferAnchor) : Peer :=
  let side : PeerVisibleState := ⟨offer, ⟨0⟩, ⟨0⟩, 0, 0, 0, ⟨0⟩, [], default⟩
  ⟨side, side, [], ⟨[]⟩, ⟨0⟩, ⟨⟨[]⟩⟩⟩

theorem firstPair_opened : firstPair.Opened trustingHost :=
  ⟨firstPair_start,
    ⟨preOpenPeer .cmdOpenWithAnchor, _, .willCreateAnchor, _,
      preOpenPeer .cmdOpenWithoutAnchor, _, rfl, rfl, rfl, rfl, rfl, rfl, rfl, rfl, rfl⟩,
    ⟨preOpenPeer .cmdOpenWithoutAnchor, _, .wontCreateAnchor, _,
      preOpenPeer .cmdOpenWithAnchor, _, rfl, rfl, rfl, rfl, rfl, rfl, rfl, rfl, rfl⟩⟩

/-- With `b`'s revocation of its first commit in flight to `a`. -/
theorem revocation_agreement_when_offered :
    (∀ s n, trustingHost.sha256 (trustingHost.revocationPreimage s n) =
      trustingHost.revocationHash s n) ∧
    firstPair.Opened trustingHost ∧ Pair.Reaches trustingHost firstPair offeredPair ∧
    (RevocationAgreement trustingHost offeredPair ∧
      RevocationAgreement trustingHost offeredPair.swap) :=
  ⟨fun _ _ => rfl, firstPair_opened, firstPair_reaches_offeredPair,
    revocation_agreement (fun _ _ => rfl) firstPair_opened firstPair_reaches_offeredPair⟩

end Lightning
