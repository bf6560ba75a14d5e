import Lightning.Handlers

/-!
# One peer in the update phase

`state.c`, which calls the handlers, is not in the source. What the theorems below assume of it
is the discipline of the update phase (`NORMAL` and `NORMAL_COMMITTING`):

* a revocation is queued right after an accepted commit (`revocationDue`), and nothing else
  happens in between;
* no commit is sent while one is outstanding (`committing`), and `accept_pkt_revocation` runs
  only while one is;
* a handler's error packet is queued and the peer breaks down (`broken`, `ERR_BREAKDOWN`), with
  the state the handler left; nothing happens after that.

`Machine.step` is one step of this machine on an `Input`: one of our commands or one inbound
packet, whatever its content. `Reachable host m` says that `m` is reached from first
commitments; `Reach host is m` that it is reached by the inputs `is` (oldest first), each of our
adds using an id no earlier add used (the callers' precondition).
-/

namespace Lightning

/-- One peer, with where the update phase of `state.c`'s machine stands. -/
structure Machine where
  peer : Peer
  committing : Bool
  revocationDue : Bool
  broken : Bool
  deriving DecidableEq, Repr

/-- What drives one peer: our commands, and the packets the other side sends. -/
inductive Input
  | htlcAdd (htlc : ChannelHtlc)
  | htlcFulfill (id : UInt64) (r : Sha256)
  | htlcFail (id : UInt64)
  | commit
  | revocation
  | pkt (p : Pkt)
  deriving DecidableEq, Repr

namespace Machine

/-- What `state.c` does with a handler's result: on acceptance it moves on with `next`, on an
error packet it queues the packet and breaks down. -/
def accept (m : Machine) (next : Machine → Machine) : Option (Peer × Option Pkt) → Option Machine
  | none => none
  | some (p, none) => some (next { m with peer := p })
  | some (p, some err) => some { m with peer := p.queuePkt err, broken := true }

/-- An inbound packet in the update phase. A revocation is taken only while a commit is
outstanding; packets of other phases are not steps of this machine. -/
def receive (host : Host) (m : Machine) : Pkt → Option Machine
  | .updateAddHtlc u => m.accept id (acceptPktHtlcAdd host m.peer u)
  | .updateFulfillHtlc f => m.accept id (acceptPktHtlcFulfill host m.peer f)
  | .updateFailHtlc f => m.accept id (acceptPktHtlcFail m.peer f)
  | .updateCommit c =>
    m.accept (fun m => { m with revocationDue := true }) (acceptPktCommit host m.peer c)
  | .updateRevocation r =>
    if m.committing then
      m.accept (fun m => { m with committing := false }) (acceptPktRevocation host m.peer r)
    else none
  | _ => none

/-- Stands for the update phase of `state.c`, which is not in the source; modelled from §4.3
and the discipline above: one step of the update phase. -/
def step (host : Host) (m : Machine) : Input → Option Machine
  | .htlcAdd htlc =>
    if m.broken || m.revocationDue then none
    else (queuePktHtlcAdd host m.peer (.add htlc)).map fun p => { m with peer := p }
  | .htlcFulfill id r =>
    if m.broken || m.revocationDue then none
    else (queuePktHtlcFulfill m.peer id r).map fun p => { m with peer := p }
  | .htlcFail id =>
    if m.broken || m.revocationDue then none
    else (queuePktHtlcFail m.peer id).map fun p => { m with peer := p }
  | .commit =>
    if m.broken || m.revocationDue || m.committing then none
    else (queuePktCommit host m.peer).map fun p => { m with peer := p, committing := true }
  | .revocation =>
    if m.broken || !m.revocationDue then none
    else (queuePktRevocation host m.peer).map fun p => { m with peer := p, revocationDue := false }
  | .pkt p => if m.broken || m.revocationDue then none else m.receive host p

/-! ### One step, by input -/

variable {host : Host} {m m' : Machine}

theorem accept_eq_some {next : Machine → Machine} {r : Option (Peer × Option Pkt)}
    (h : m.accept next r = some m') :
    (∃ p, r = some (p, none) ∧ m' = next { m with peer := p }) ∨
      ∃ p e, r = some (p, some e) ∧ m' = { m with peer := p.queuePkt e, broken := true } := by
  unfold accept at h
  split at h
  · cases h
  · exact .inl ⟨_, rfl, (Option.some.inj h).symm⟩
  · exact .inr ⟨_, _, rfl, (Option.some.inj h).symm⟩

theorem guarded_eq_some {c : Bool} {o : Option Peer} {g : Peer → Machine}
    (h : (if c = true then none else o.map g) = some m') :
    c = false ∧ ∃ p, o = some p ∧ m' = g p := by
  split at h
  · cases h
  · obtain ⟨p, hp, rfl⟩ := Option.map_eq_some'.1 h
    exact ⟨by simpa using ‹¬c = true›, p, hp, rfl⟩

theorem step_htlcAdd {htlc : ChannelHtlc} (h : m.step host (.htlcAdd htlc) = some m') :
    m.broken = false ∧ m.revocationDue = false ∧
      ∃ p, queuePktHtlcAdd host m.peer (.add htlc) = some p ∧ m' = { m with peer := p } := by
  obtain ⟨hc, hp⟩ := guarded_eq_some h
  rw [Bool.or_eq_false_iff] at hc
  exact ⟨hc.1, hc.2, hp⟩

theorem step_htlcFulfill {id : UInt64} {r : Sha256}
    (h : m.step host (.htlcFulfill id r) = some m') :
    m.broken = false ∧ m.revocationDue = false ∧
      ∃ p, queuePktHtlcFulfill m.peer id r = some p ∧ m' = { m with peer := p } := by
  obtain ⟨hc, hp⟩ := guarded_eq_some h
  rw [Bool.or_eq_false_iff] at hc
  exact ⟨hc.1, hc.2, hp⟩

theorem step_htlcFail {id : UInt64} (h : m.step host (.htlcFail id) = some m') :
    m.broken = false ∧ m.revocationDue = false ∧
      ∃ p, queuePktHtlcFail m.peer id = some p ∧ m' = { m with peer := p } := by
  obtain ⟨hc, hp⟩ := guarded_eq_some h
  rw [Bool.or_eq_false_iff] at hc
  exact ⟨hc.1, hc.2, hp⟩

theorem step_commit (h : m.step host .commit = some m') :
    m.broken = false ∧ m.revocationDue = false ∧ m.committing = false ∧
      ∃ p, queuePktCommit host m.peer = some p ∧ m' = { m with peer := p, committing := true } := by
  obtain ⟨hc, hp⟩ := guarded_eq_some h
  simp only [Bool.or_eq_false_iff] at hc
  exact ⟨hc.1.1, hc.1.2, hc.2, hp⟩

theorem step_revocation (h : m.step host .revocation = some m') :
    m.broken = false ∧ m.revocationDue = true ∧
      ∃ p, queuePktRevocation host m.peer = some p ∧
        m' = { m with peer := p, revocationDue := false } := by
  obtain ⟨hc, hp⟩ := guarded_eq_some h
  rw [Bool.or_eq_false_iff] at hc
  exact ⟨hc.1, by simpa using hc.2, hp⟩

theorem step_pkt {q : Pkt} (h : m.step host (.pkt q) = some m') :
    m.broken = false ∧ m.revocationDue = false ∧ m.receive host q = some m' := by
  simp only [step, Bool.or_eq_true] at h
  split at h
  · cases h
  · simp_all

theorem receive_updateRevocation {r : UpdateRevocation}
    (h : m.receive host (.updateRevocation r) = some m') :
    m.committing = true ∧
      m.accept (fun m => { m with committing := false }) (acceptPktRevocation host m.peer r) =
        some m' := by
  simp only [receive] at h
  split at h
  · exact ⟨‹_›, h⟩
  · cases h

end Machine

/-- A cstate with no HTLC on either side. -/
def ChannelState.NoHtlcs (cs : ChannelState) : Prop := ∀ s, (cs.side s).htlcs = []

/-- A first commitment: commit 0, with no HTLC, no pending change and no preimage. -/
def CommitInfo.First (ci : CommitInfo) : Prop :=
  ci.commitNum = 0 ∧ ci.cstate.NoHtlcs ∧ ci.unackedChanges = some [] ∧
    ci.revocationPreimage = none

/-- Stands for what `setup_first_commit` of `peer.c`, which is not in the source, leaves;
modelled from §4.4: a peer at its first commitments, one commit on each chain, staging states
that copy them, and no preimage received yet. -/
def Peer.FirstCommitments (p : Peer) : Prop :=
  ∃ c d, p.local.commit = [c] ∧ p.remote.commit = [d] ∧ c.First ∧ d.First ∧
    p.local.stagingCstate = c.cstate ∧ p.remote.stagingCstate = d.cstate ∧
    p.theirPreimages.known = []

/-- The update phase starts at first commitments, with nothing outstanding. -/
def Machine.Initial (m : Machine) : Prop :=
  m.peer.FirstCommitments ∧ m.committing = false ∧ m.revocationDue = false ∧ m.broken = false

/-- Both sides at `new_commit_info`'s zeroed first commitment. -/
def startPeer : Peer :=
  let side : PeerVisibleState :=
    ⟨.cmdOpenWithAnchor, ⟨0⟩, ⟨0⟩, 0, 0, 0, ⟨0⟩, [newCommitInfo], default⟩
  ⟨side, side, [], ⟨[]⟩, ⟨0⟩, ⟨⟨[]⟩⟩⟩

/-- The update phase at `startPeer`. -/
def startMachine : Machine := ⟨startPeer, false, false, false⟩

theorem startMachine_initial : startMachine.Initial := by
  refine ⟨⟨_, _, rfl, rfl, ?_, ?_, rfl, rfl, rfl⟩, rfl, rfl, rfl⟩ <;>
    exact ⟨rfl, fun s => by cases s <;> rfl, rfl, rfl⟩

/-- A host whose hash is the identity, whose revocation hashes are the preimages, and which
accepts every signature, preimage and add. -/
def trustingHost : Host where
  relLocktimeMax := 0
  anchorConfirmsMax := 0
  commitmentFeeRateMin := 0
  sha256 := id
  revocationPreimage := fun _ n => ⟨n.toNat⟩
  revocationHash := fun _ n => ⟨n.toNat⟩
  signTheirCommit := fun _ _ => ⟨0⟩
  signatureValid := fun _ => true
  pubkeyValid := fun _ => true
  redeem2of2 := fun _ _ => ⟨[]⟩
  checkTxSig := fun _ _ _ _ => true
  shachainConsistent := fun _ _ _ => true
  afford := fun _ _ _ => true

/-- The ids of our adds among `is`. -/
def addIds : List Input → List UInt64
  | [] => []
  | .htlcAdd h :: is => h.id :: addIds is
  | _ :: is => addIds is

/-- The callers' precondition on our adds: each uses an id that no earlier add used. -/
def FreshId (is : List Input) : Input → Prop
  | .htlcAdd h => h.id ∉ addIds is
  | _ => True

/-- The states one peer reaches from first commitments, against any remote peer. -/
inductive Reachable (host : Host) : Machine → Prop
  | init {m : Machine} : m.Initial → Reachable host m
  | step {m m' : Machine} {i : Input} : Reachable host m → m.step host i = some m' → Reachable host m'

/-- The states one peer reaches from first commitments through the inputs `is`, against any
remote peer, when our adds use fresh ids. -/
inductive Reach (host : Host) : List Input → Machine → Prop
  | init {m : Machine} : m.Initial → Reach host [] m
  | step {is : List Input} {m m' : Machine} {i : Input} :
      Reach host is m → FreshId is i → m.step host i = some m' → Reach host (is ++ [i]) m'

theorem Reach.reachable {host : Host} {is : List Input} {m : Machine} (h : Reach host is m) :
    Reachable host m := by
  induction h with
  | init h => exact .init h
  | step _ _ hs ih => exact .step ih hs

/-! ### Runs of given inputs -/

/-- The inputs `is`, oldest first, run from `m` until one of them is not a step. -/
def Machine.runInputs (host : Host) (m : Machine) : List Input → Option Machine
  | [] => some m
  | i :: is => (m.step host i).bind fun m' => m'.runInputs host is

theorem addIds_append (is is' : List Input) : addIds (is ++ is') = addIds is ++ addIds is' := by
  induction is with
  | nil => rfl
  | cons i is ih => cases i <;> simp [addIds, ih]

/-- An input whose add id, if any, is not among the ids of the adds after `is` is fresh. -/
theorem FreshId.of_nodup {is js : List Input} {i : Input} (h : (addIds (is ++ i :: js)).Nodup) :
    FreshId is i := by
  cases i with
  | htlcAdd x =>
    rw [addIds_append, addIds] at h
    exact fun hm => List.disjoint_of_nodup_append h hm (List.mem_cons_self _ _)
  | _ => trivial

/-- **A run of given inputs is reached**, when its adds and the earlier ones use distinct
ids. -/
theorem Reach.runInputs {host : Host} {is js : List Input} {m m' : Machine} (h : Reach host is m)
    (hf : (addIds (is ++ js)).Nodup) (hr : m.runInputs host js = some m') :
    Reach host (is ++ js) m' := by
  induction js generalizing is m with
  | nil =>
    cases hr
    simpa using h
  | cons i js ih =>
    obtain ⟨m₁, h₁, hr⟩ := Option.bind_eq_some.1 hr
    have h₂ := ih (h.step (FreshId.of_nodup hf) h₁) (by simpa using hf) hr
    simpa using h₂

/-- A run of given inputs from first commitments is reached, when its adds use distinct ids. -/
theorem Reach.of_runInputs {host : Host} {js : List Input} {m m' : Machine} (h : m.Initial)
    (hf : (addIds js).Nodup) (hr : m.runInputs host js = some m') : Reach host js m' :=
  @Reach.runInputs host [] js m m' (.init h) hf hr

/-- Our HTLC of 1 with id 0, committed by both sides: our add and our commit, their revocation
and their commit, and our revocation. -/
def commitRun : List Input :=
  [.htlcAdd ⟨0, 1, .seconds 0, ⟨0⟩⟩, .commit, .pkt (.updateRevocation ⟨⟨0⟩, ⟨1⟩⟩),
    .pkt (.updateCommit ⟨⟨0⟩⟩), .revocation]

/-- Where `commitRun` leads from `startMachine`. -/
def committedMachine : Machine :=
  (startMachine.runInputs trustingHost commitRun).getD startMachine

theorem reach_committedMachine : Reach trustingHost commitRun committedMachine :=
  .of_runInputs startMachine_initial (by decide) rfl

/-- After `commitRun`, we add and commit our HTLC 1, and they add their HTLC 0, fulfill our
HTLC 0 and commit: our commit is outstanding, and the revocation of our previous commit, whose
unacked changes are their add and their fulfill, is due. -/
def settlingRun : List Input :=
  commitRun ++ [.htlcAdd ⟨1, 1, .seconds 0, ⟨1⟩⟩, .commit,
    .pkt (.updateAddHtlc ⟨0, 1, ⟨2⟩, .seconds 0⟩), .pkt (.updateFulfillHtlc ⟨0, ⟨0⟩⟩),
    .pkt (.updateCommit ⟨⟨0⟩⟩)]

/-- Where `settlingRun` leads from `startMachine`. -/
def settlingMachine : Machine :=
  (startMachine.runInputs trustingHost settlingRun).getD startMachine

theorem reach_settlingMachine : Reach trustingHost settlingRun settlingMachine :=
  .of_runInputs startMachine_initial (by decide) rfl

end Lightning
