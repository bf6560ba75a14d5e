import Lightning.Pair

/-!
# Commitment agreement between the two peers

Two peers that run the handlers against each other agree on the channel, at every point of every
interleaving up to the first handler error (`commitment_agreement`):

* the receiver's staging state of its own commitment is the sender's remote staging state, seen
  from the other side, as it stood right after the sender queued the last packet the receiver
  has taken;
* the unacked list that `accept_pkt_revocation` replays is the one that the other peer's
  `queue_pkt_revocation` replayed, although the two were recorded by different handlers
  (`queue_pkt_*` on one side, `accept_pkt_*` on the other);
* the receiver's `k`-th commit holds the sender's `k`-th, seen from the other side.

The invariant is `Half`, for each direction: the snapshots in flight (`Effects`), the receiver's
staging state, and where the sender's newest commit stands at the receiver (`CommitFlow`: idle,
in flight, accepted with the revocation due, or revoked with the revocation in flight). Every
move keeps both halves (`Pair.Agrees.move`), each handler through one lemma of `CommitFlow` per
thing it does to a chain.
-/

namespace Lightning

/-! ### Replays seen from the other side -/

section
variable {host : Host}

/-- **A change replayed on both sides.** When the same change succeeds on a state and on its
swap, with the sides exchanged, the results are swaps of each other. -/
theorem applyChange_swap {side : Side} {cs r r' : ChannelState} {c : HtlcStaging}
    (h : applyChange host side cs c = some r)
    (h' : applyChange host side.other cs.swap c = some r') : r' = r.swap := by
  cases c with
  | add x =>
    simp only [applyChange] at h h'
    split at h
    · cases h
    split at h'
    · cases h'
    obtain ⟨p, hp, rfl⟩ := Option.map_eq_some'.1 h
    obtain ⟨p', hp', rfl⟩ := Option.map_eq_some'.1 h'
    obtain ⟨-, rfl⟩ := fundingAddHtlc_eq_some.1 hp
    obtain ⟨-, rfl⟩ := fundingAddHtlc_eq_some.1 hp'
    simp only [ChannelState.swap_bump, ChannelState.swap_modify]
  | fulfill id _ =>
    simp only [applyChange] at h h'
    obtain ⟨n, hn, rfl⟩ := Option.map_eq_some'.1 h
    obtain ⟨n', hn', rfl⟩ := Option.map_eq_some'.1 h'
    rw [fundingHtlcById_swap, hn, Option.some.injEq] at hn'
    rw [← hn', fundingFulfillHtlc_swap]
  | fail id =>
    simp only [applyChange] at h h'
    obtain ⟨n, hn, rfl⟩ := Option.map_eq_some'.1 h
    obtain ⟨n', hn', rfl⟩ := Option.map_eq_some'.1 h'
    rw [fundingHtlcById_swap, hn, Option.some.injEq] at hn'
    rw [← hn', fundingFailHtlc_swap]

theorem applyChangeset_swap {side : Side} :
    ∀ {cs r r' : ChannelState} {l : List HtlcStaging}, applyChangeset host side cs l = some r →
      applyChangeset host side.other cs.swap l = some r' → r' = r.swap
  | _, _, _, [], h, h' => by
    simp only [applyChangeset, Option.some.injEq] at h h'
    rw [← h, ← h']
  | _, _, _, _ :: _, h, h' => by
    obtain ⟨cs₁, h₁, h₂⟩ := Option.bind_eq_some.1 h
    obtain ⟨cs₁', h₁', h₂'⟩ := Option.bind_eq_some.1 h'
    rw [applyChange_swap h₁ h₁'] at h₂'
    exact applyChangeset_swap h₂ h₂'

/-! ### The snapshots in flight -/

/-- **The snapshots in flight**: from `cs` on, each packet of `ws` took its sender's remote
staging state to its snapshot, and the last snapshot is `cs'`. -/
def Effects (host : Host) : ChannelState → List Wire → ChannelState → Prop
  | cs, [], cs' => cs' = cs
  | cs, w :: ws, cs' => w.Effect host cs ∧ Effects host w.staging ws cs'

theorem Effects.append :
    ∀ {cs cs' : ChannelState} {ws : List Wire} {w : Wire}, Effects host cs ws cs' →
      w.Effect host cs' → Effects host cs (ws ++ [w]) w.staging
  | _, _, [], _, h, hw => ⟨(h : _ = _) ▸ hw, rfl⟩
  | _, _, _ :: _, _, h, hw => ⟨h.1, Effects.append h.2 hw⟩

end

/-! ### Where a commit stands at the receiver -/

/-- The changes that the packets `ws` carry, in order. -/
def changesOf (ws : List Wire) : List HtlcStaging := ws.filterMap (·.pkt.change)

@[simp] theorem changesOf_nil : changesOf [] = [] := rfl

@[simp] theorem changesOf_append (ws ws' : List Wire) :
    changesOf (ws ++ ws') = changesOf ws ++ changesOf ws' :=
  List.filterMap_append _ _ _

theorem changesOf_cons_of_some {w : Wire} {c : HtlcStaging} (h : w.pkt.change = some c)
    (ws : List Wire) : changesOf (w :: ws) = c :: changesOf ws :=
  List.filterMap_cons_some h

theorem changesOf_cons_of_none {w : Wire} (h : w.pkt.change = none) (ws : List Wire) :
    changesOf (w :: ws) = changesOf ws :=
  List.filterMap_cons_none h

/-- No commit among the packets `ws`. -/
def NoCommit (ws : List Wire) : Prop := ∀ w ∈ ws, w.pkt.isCommit = false

/-- No revocation among the packets `ws`. -/
def NoRevocation (ws : List Wire) : Prop := ∀ w ∈ ws, w.pkt.isRevocation = false

section
variable {w : Wire} {ws ws' : List Wire}

@[simp] theorem noCommit_nil : NoCommit [] := fun _ h => (List.not_mem_nil _ h).elim
@[simp] theorem noRevocation_nil : NoRevocation [] := fun _ h => (List.not_mem_nil _ h).elim

@[simp] theorem noCommit_cons : NoCommit (w :: ws) ↔ w.pkt.isCommit = false ∧ NoCommit ws :=
  List.forall_mem_cons
@[simp] theorem noRevocation_cons :
    NoRevocation (w :: ws) ↔ w.pkt.isRevocation = false ∧ NoRevocation ws :=
  List.forall_mem_cons
@[simp] theorem noCommit_append : NoCommit (ws ++ ws') ↔ NoCommit ws ∧ NoCommit ws' :=
  List.forall_mem_append
@[simp] theorem noRevocation_append :
    NoRevocation (ws ++ ws') ↔ NoRevocation ws ∧ NoRevocation ws' :=
  List.forall_mem_append

end

@[simp] theorem CommitInfo.withUnacked_commitNum (ci : CommitInfo) (s : HtlcStaging) :
    (ci.withUnacked s).commitNum = ci.commitNum := rfl
@[simp] theorem CommitInfo.withUnacked_cstate (ci : CommitInfo) (s : HtlcStaging) :
    (ci.withUnacked s).cstate = ci.cstate := rfl
@[simp] theorem CommitInfo.withUnacked_unacked (ci : CommitInfo) (s : HtlcStaging) :
    (ci.withUnacked s).unackedChanges.getD [] = ci.unackedChanges.getD [] ++ [s] := rfl

/-- The receiver's commit `w` is the sender's `v` seen from the other side: the same number and
the swapped state. -/
def Mirror (v w : CommitInfo) : Prop := w.commitNum = v.commitNum ∧ w.cstate = v.cstate.swap

theorem forall₂_getElem? {α β : Type} {R : α → β → Prop} :
    ∀ {l : List α} {l' : List β}, List.Forall₂ R l l' →
      ∀ {k : Nat} {x : α} {y : β}, l[k]? = some x → l'[k]? = some y → R x y
  | _, _, .nil, _, _, _, h, _ => by simp at h
  | _, _, .cons hr _, 0, _, _, h, h' => by
    simp only [List.getElem?_cons_zero, Option.some.injEq] at h h'
    exact h ▸ h' ▸ hr
  | _, _, .cons _ hl, _ + 1, _, _, h, h' =>
    forall₂_getElem? hl (by simpa using h) (by simpa using h')

/-- **Where the sender's newest commit stands at the receiver.** `V` is the sender's remote
chain and `committing` its flag, `W` the receiver's local chain and `due` its flag, `P` the
packets in flight from the sender and `Q` those in flight back. In every stage the chains
mirror each other below the commit in flight, and the sender's commits hold as unacked changes
what the receiver's hold and then what is in flight. -/
inductive CommitFlow :
    List CommitInfo → Bool → List CommitInfo → Bool → List Wire → List Wire → Prop
  /-- No commit outstanding. -/
  | idle {v w : CommitInfo} {V W : List CommitInfo} {P Q : List Wire} :
      NoCommit P → NoRevocation Q → List.Forall₂ Mirror (v :: V) (w :: W) →
      v.unackedChanges.getD [] = w.unackedChanges.getD [] ++ changesOf P →
      CommitFlow (v :: V) false (w :: W) false P Q
  /-- The commit `c` is in flight, after the changes `P₁` and before `P₂`. -/
  | sent {v₂ v₁ w : CommitInfo} {V W : List CommitInfo} {P₁ P₂ Q : List Wire} {c : Wire} :
      NoCommit P₁ → c.pkt.isCommit = true → NoCommit P₂ → NoRevocation Q →
      List.Forall₂ Mirror (v₁ :: V) (w :: W) → v₂.commitNum = v₁.commitNum + 1 →
      v₂.cstate = c.staging →
      v₁.unackedChanges.getD [] = w.unackedChanges.getD [] ++ changesOf P₁ →
      v₂.unackedChanges.getD [] = changesOf P₂ →
      CommitFlow (v₂ :: v₁ :: V) true (w :: W) false (P₁ ++ c :: P₂) Q
  /-- The receiver took the commit and owes the revocation of its previous one. -/
  | due {v vp w wp : CommitInfo} {V W : List CommitInfo} {P Q : List Wire} :
      NoCommit P → NoRevocation Q → List.Forall₂ Mirror (v :: vp :: V) (w :: wp :: W) →
      v.unackedChanges.getD [] = w.unackedChanges.getD [] ++ changesOf P →
      vp.unackedChanges.getD [] = wp.unackedChanges.getD [] →
      CommitFlow (v :: vp :: V) true (w :: wp :: W) true P Q
  /-- The revocation `r` is in flight back; it revoked `ci`, the receiver's copy of the
  sender's previous commit. -/
  | revoked {v vp w ci : CommitInfo} {V W : List CommitInfo} {P Q₁ Q₂ : List Wire} {r : Wire} :
      NoCommit P → NoRevocation Q₁ → r.pkt.isRevocation = true → NoRevocation Q₂ →
      List.Forall₂ Mirror (v :: vp :: V) (w :: W) →
      v.unackedChanges.getD [] = w.unackedChanges.getD [] ++ changesOf P →
      r.revokes = some ci → ci.commitNum = vp.commitNum →
      vp.unackedChanges.getD [] = ci.unackedChanges.getD [] →
      CommitFlow (v :: vp :: V) true (w :: W) false P (Q₁ ++ r :: Q₂)

namespace CommitFlow

variable {v vp w wp v' ci : CommitInfo} {V W : List CommitInfo} {cm d : Bool}
  {P Q rest : List Wire} {p r : Wire} {c : HtlcStaging}

/-! #### The sender's commands -/

theorem sendChange (h : CommitFlow (v :: V) cm W d P Q) (hc : p.pkt.change = some c) :
    CommitFlow (v.withUnacked c :: V) cm W d (P ++ [p]) Q := by
  have hp := Pkt.change_eq_some hc
  have hu : changesOf [p] = [c] := changesOf_cons_of_some hc []
  cases h with
  | idle hP hQ hm hu' =>
    obtain ⟨hm, hms⟩ := List.forall₂_cons.1 hm
    exact .idle (by simp [hP, hp.1]) hQ (.cons hm hms) (by simp [hu', hu])
  | sent hP₁ hc' hP₂ hQ hm hn hs hu₁ hu₂ =>
    rw [List.append_assoc, List.cons_append]
    exact .sent hP₁ hc' (by simp [hP₂, hp.1]) hQ hm hn hs hu₁ (by simp [hu₂, hu])
  | due hP hQ hm hu' hp' =>
    obtain ⟨hm, hms⟩ := List.forall₂_cons.1 hm
    exact .due (by simp [hP, hp.1]) hQ (.cons hm hms) (by simp [hu', hu]) hp'
  | revoked hP hQ₁ hr hQ₂ hm hu' hci hn hp' =>
    obtain ⟨hm, hms⟩ := List.forall₂_cons.1 hm
    exact .revoked (by simp [hP, hp.1]) hQ₁ hr hQ₂ (.cons hm hms) (by simp [hu', hu]) hci hn hp'

theorem sendCommit (h : CommitFlow (v :: V) false W d P Q) (hk : p.pkt.isCommit = true)
    (hn : v'.commitNum = v.commitNum + 1) (hs : v'.cstate = p.staging)
    (hu : v'.unackedChanges.getD [] = []) :
    CommitFlow (v' :: v :: V) true W d (P ++ [p]) Q := by
  cases h with
  | idle hP hQ hm hu' => exact .sent hP hk noCommit_nil hQ hm hn hs hu' hu

theorem sendOther (h : CommitFlow V cm W d P Q) (hc : p.pkt.change = none)
    (hk : p.pkt.isCommit = false) : CommitFlow V cm W d (P ++ [p]) Q := by
  have hu : changesOf [p] = [] := changesOf_cons_of_none hc []
  cases h with
  | idle hP hQ hm hu' => exact .idle (by simp [hP, hk]) hQ hm (by simp [hu', hu])
  | sent hP₁ hc' hP₂ hQ hm hn hs hu₁ hu₂ =>
    rw [List.append_assoc, List.cons_append]
    exact .sent hP₁ hc' (by simp [hP₂, hk]) hQ hm hn hs hu₁ (by simp [hu₂, hu])
  | due hP hQ hm hu' hp' => exact .due (by simp [hP, hk]) hQ hm (by simp [hu', hu]) hp'
  | revoked hP hQ₁ hr hQ₂ hm hu' hci hn hp' =>
    exact .revoked (by simp [hP, hk]) hQ₁ hr hQ₂ hm (by simp [hu', hu]) hci hn hp'

/-! #### The receiver's commands -/

theorem backRevoke (h : CommitFlow V cm (w :: wp :: W) true P Q)
    (hr : r.pkt.isRevocation = true) (hrev : r.revokes = some wp) (x : Sha256) :
    CommitFlow V cm
      (w :: { wp with revocationPreimage := some x, unackedChanges := none } :: W) false P
      (Q ++ [r]) := by
  cases h with
  | due hP hQ hm hu hp =>
    obtain ⟨hm, hmp, hms⟩ := List.forall₂_cons.1 hm |>.imp_right List.forall₂_cons.1
    exact .revoked hP hQ hr noRevocation_nil (.cons hm (.cons hmp hms)) hu hrev hmp.1 hp

theorem backOther (h : CommitFlow V cm W d P Q) (hr : r.pkt.isRevocation = false) :
    CommitFlow V cm W d P (Q ++ [r]) := by
  cases h with
  | idle hP hQ hm hu => exact .idle hP (by simp [hQ, hr]) hm hu
  | sent hP₁ hc hP₂ hQ hm hn hs hu₁ hu₂ =>
    exact .sent hP₁ hc hP₂ (by simp [hQ, hr]) hm hn hs hu₁ hu₂
  | due hP hQ hm hu hp => exact .due hP (by simp [hQ, hr]) hm hu hp
  | revoked hP hQ₁ hr' hQ₂ hm hu hci hn hp =>
    rw [List.append_assoc, List.cons_append]
    exact .revoked hP hQ₁ hr' (by simp [hQ₂, hr]) hm hu hci hn hp

/-! #### The receiver takes the oldest packet in flight -/

theorem recvChange (h : CommitFlow V cm (w :: W) d P Q) (hd : d = false) (hP : P = p :: rest)
    (hc : p.pkt.change = some c) : CommitFlow V cm (w.withUnacked c :: W) d rest Q := by
  have hp := Pkt.change_eq_some hc
  subst hd
  cases h with
  | idle hP' hQ hm hu =>
    subst hP
    obtain ⟨hm, hms⟩ := List.forall₂_cons.1 hm
    exact .idle (noCommit_cons.1 hP').2 hQ (.cons hm hms)
      (by simp [hu, changesOf_cons_of_some hc])
  | @sent _ _ _ _ _ P₁ _ _ _ hP₁ hc' hP₂ hQ hm hn hs hu₁ hu₂ =>
    cases P₁ with
    | nil => cases hP; simp [hp.1] at hc'
    | cons p₁ P₁ =>
      obtain ⟨rfl, rfl⟩ := List.cons.inj hP
      obtain ⟨hm, hms⟩ := List.forall₂_cons.1 hm
      exact .sent (noCommit_cons.1 hP₁).2 hc' hP₂ hQ (.cons hm hms) hn hs
        (by simp [hu₁, changesOf_cons_of_some hc]) hu₂
  | revoked hP' hQ₁ hr hQ₂ hm hu hci hn hp' =>
    subst hP
    obtain ⟨hm, hms⟩ := List.forall₂_cons.1 hm
    exact .revoked (noCommit_cons.1 hP').2 hQ₁ hr hQ₂ (.cons hm hms)
      (by simp [hu, changesOf_cons_of_some hc]) hci hn hp'

theorem recvCommit (h : CommitFlow V cm (w :: W) d P Q) (hd : d = false) (hP : P = p :: rest)
    (hk : p.pkt.isCommit = true) (hn : ci.commitNum = w.commitNum + 1)
    (hs : ci.cstate = p.staging.swap) (hu : ci.unackedChanges.getD [] = []) :
    CommitFlow V cm (ci :: w :: W) true rest Q := by
  subst hd
  cases h with
  | idle hP' => subst hP; simp [hk] at hP'
  | @sent _ _ _ _ _ P₁ _ _ _ hP₁ hc' hP₂ hQ hm hn' hs' hu₁ hu₂ =>
    cases P₁ with
    | nil =>
      obtain ⟨rfl, rfl⟩ := List.cons.inj hP
      obtain ⟨hm, hms⟩ := List.forall₂_cons.1 hm
      refine .due hP₂ hQ (.cons ⟨by rw [hn, hm.1, hn'], by rw [hs, hs']⟩ (.cons hm hms))
        (by simp [hu, hu₂]) (by simpa using hu₁)
    | cons p₁ P₁ =>
      obtain ⟨rfl, rfl⟩ := List.cons.inj hP
      simp [hk] at hP₁
  | revoked hP' => subst hP; simp [hk] at hP'

theorem recvOther (h : CommitFlow V cm W d P Q) (hP : P = p :: rest)
    (hc : p.pkt.change = none) (hk : p.pkt.isCommit = false) : CommitFlow V cm W d rest Q := by
  cases h with
  | idle hP' hQ hm hu =>
    subst hP
    exact .idle (noCommit_cons.1 hP').2 hQ hm (by simpa [changesOf_cons_of_none hc] using hu)
  | @sent _ _ _ _ _ P₁ _ _ _ hP₁ hc' hP₂ hQ hm hn hs hu₁ hu₂ =>
    cases P₁ with
    | nil => cases hP; simp [hk] at hc'
    | cons p₁ P₁ =>
      obtain ⟨rfl, rfl⟩ := List.cons.inj hP
      exact .sent (noCommit_cons.1 hP₁).2 hc' hP₂ hQ hm hn hs
        (by simpa [changesOf_cons_of_none hc] using hu₁) hu₂
  | due hP' hQ hm hu hp =>
    subst hP
    exact .due (noCommit_cons.1 hP').2 hQ hm (by simpa [changesOf_cons_of_none hc] using hu) hp
  | revoked hP' hQ₁ hr hQ₂ hm hu hci hn hp =>
    subst hP
    exact .revoked (noCommit_cons.1 hP').2 hQ₁ hr hQ₂ hm
      (by simpa [changesOf_cons_of_none hc] using hu) hci hn hp

/-! #### The sender takes the oldest packet in flight back -/

/-- **The revocation at the head** of the packets in flight back revokes the receiver's copy of
the sender's previous commit: the same number and the same unacked changes. -/
theorem revocationHead (h : CommitFlow V cm W d P Q) (hQ : Q = r :: rest)
    (hr : r.pkt.isRevocation = true) :
    ∃ v vp V', V = v :: vp :: V' ∧ cm = true ∧ ∃ ci, r.revokes = some ci ∧
      ci.commitNum = vp.commitNum ∧ vp.unackedChanges.getD [] = ci.unackedChanges.getD [] := by
  cases h with
  | idle _ hQ' => subst hQ; simp [hr] at hQ'
  | sent _ _ _ hQ' => subst hQ; simp [hr] at hQ'
  | due _ hQ' => subst hQ; simp [hr] at hQ'
  | @revoked _ _ _ _ _ _ _ Q₁ _ _ _ hQ₁ _ _ _ _ hci hn hp =>
    cases Q₁ with
    | nil =>
      obtain ⟨rfl, rfl⟩ := List.cons.inj hQ
      exact ⟨_, _, _, rfl, rfl, _, hci, hn, hp⟩
    | cons r₁ Q₁ =>
      obtain ⟨rfl, rfl⟩ := List.cons.inj hQ
      simp [hr] at hQ₁

theorem backRevocation (h : CommitFlow (v :: vp :: V) cm W d P Q) (hQ : Q = r :: rest)
    (hr : r.pkt.isRevocation = true) (x : Sha256) :
    CommitFlow (v :: { vp with revocationPreimage := some x, unackedChanges := none } :: V)
      false W d P rest := by
  cases h with
  | idle _ hQ' => subst hQ; simp [hr] at hQ'
  | sent _ _ _ hQ' => subst hQ; simp [hr] at hQ'
  | due _ hQ' => subst hQ; simp [hr] at hQ'
  | @revoked _ _ _ _ _ _ _ Q₁ _ _ hP hQ₁ _ hQ₂ hm hu =>
    cases Q₁ with
    | nil =>
      obtain ⟨rfl, rfl⟩ := List.cons.inj hQ
      obtain ⟨hm₀, hms⟩ := List.forall₂_cons.1 hm
      cases hms with
      | cons hmp hms => exact .idle hP hQ₂ (.cons hm₀ (.cons hmp hms)) hu
    | cons r₁ Q₁ =>
      obtain ⟨rfl, rfl⟩ := List.cons.inj hQ
      simp [hr] at hQ₁

theorem backPop (h : CommitFlow V cm W d P Q) (hQ : Q = r :: rest)
    (hr : r.pkt.isRevocation = false) : CommitFlow V cm W d P rest := by
  cases h with
  | idle hP hQ' hm hu => subst hQ; exact .idle hP (noRevocation_cons.1 hQ').2 hm hu
  | sent hP₁ hc hP₂ hQ' hm hn hs hu₁ hu₂ =>
    subst hQ; exact .sent hP₁ hc hP₂ (noRevocation_cons.1 hQ').2 hm hn hs hu₁ hu₂
  | due hP hQ' hm hu hp => subst hQ; exact .due hP (noRevocation_cons.1 hQ').2 hm hu hp
  | @revoked _ _ _ _ _ _ _ Q₁ _ _ hP hQ₁ hr' hQ₂ hm hu hci hn hp =>
    cases Q₁ with
    | nil => obtain ⟨rfl, rfl⟩ := List.cons.inj hQ; simp [hr] at hr'
    | cons r₁ Q₁ =>
      obtain ⟨rfl, rfl⟩ := List.cons.inj hQ
      exact .revoked hP (noRevocation_cons.1 hQ₁).2 hr' hQ₂ hm hu hci hn hp

/-! #### The chains -/

/-- **The receiver's chain mirrors the sender's**, below the commit in flight. -/
theorem mirrors (h : CommitFlow V cm W d P Q) :
    ∃ pre V₀, V = pre ++ V₀ ∧ pre.length ≤ 1 ∧ List.Forall₂ Mirror V₀ W := by
  cases h with
  | idle _ _ hm => exact ⟨[], _, rfl, by simp, hm⟩
  | sent _ _ _ _ hm => exact ⟨[_], _, rfl, by simp, hm⟩
  | due _ _ hm => exact ⟨[], _, rfl, by simp, hm⟩
  | revoked _ _ _ _ hm => exact ⟨[], _, rfl, by simp, hm⟩

end CommitFlow

/-! ### One direction of the channel -/

/-- **One direction of the channel**: what `x`'s packets to `y` have done. The snapshots in
flight follow from `x`'s remote staging state, `y`'s staging state is the last snapshot it took
seen from its side, and `x`'s newest commit stands at `y` as `CommitFlow` says. -/
structure Half (host : Host) (x y : Machine) (xy yx : Link) : Prop where
  effects : Effects host xy.seen xy.flight x.peer.remote.stagingCstate
  staging : y.peer.local.stagingCstate = xy.seen.swap
  flow : CommitFlow x.peer.remote.commit x.committing y.peer.local.commit y.revocationDue
    xy.flight yx.flight

namespace Half

variable {host : Host} {x x' y y' : Machine} {xy yx : Link} {i : Input} {q : Pkt} {w : Wire}
  {rest : List Wire}

/-- The sender runs a command. -/
theorem send (h : Half host x y xy yx) (hs : x.step host i = some x') (hi : i.isCommand = true)
    (hq : x'.peer.outpkt = x.peer.outpkt ++ [q]) :
    Half host x' y
      { xy with flight := xy.flight ++ [⟨q, x'.peer.remote.stagingCstate, x.peer.revoking i⟩] }
      yx := by
  obtain ⟨R', he, hk⟩ := Machine.send_cases hs hi hq
  have hf := h.flow
  rcases hk with ⟨c, ci, older, hc, -, hr, rfl⟩ |
    ⟨c, rfl, hcm, -, -, rfl, prev, older, hr, -, rfl⟩ |
    ⟨r, rfl, -, tip, ci, older, -, -, -, -, rfl⟩
  · rw [hr] at hf
    exact ⟨h.effects.append he, h.staging, hf.sendChange hc⟩
  · rw [hr, hcm] at hf
    exact ⟨h.effects.append he, h.staging, hf.sendCommit rfl rfl rfl rfl⟩
  · exact ⟨h.effects.append he, h.staging, hf.sendOther rfl rfl⟩

/-- The receiver runs a command. -/
theorem sendBack (h : Half host y x yx xy) (hs : x.step host i = some x')
    (hi : i.isCommand = true) (hq : x'.peer.outpkt = x.peer.outpkt ++ [q]) :
    Half host y x' yx
      { xy with
        flight := xy.flight ++ [⟨q, x'.peer.remote.stagingCstate, x.peer.revoking i⟩] } := by
  obtain ⟨R', -, hk⟩ := Machine.send_cases hs hi hq
  have hf := h.flow
  rcases hk with ⟨c, ci, older, hc, -, -, rfl⟩ | ⟨c, rfl, -, -, -, rfl, -, -, -, -, rfl⟩ |
    ⟨r, rfl, hd, tip, ci, older, hl, hrev, -, rfl, rfl⟩
  · exact ⟨h.effects, h.staging, hf.backOther (Pkt.change_eq_some hc).2⟩
  · exact ⟨h.effects, h.staging, hf.backOther rfl⟩
  · rw [hl, hd] at hf
    exact ⟨h.effects, h.staging, hf.backRevoke (by rfl) hrev _⟩

/-- The receiver takes the oldest packet in flight to it. -/
theorem deliver (h : Half host x y xy yx) (hback : Half host y x yx xy)
    (hf : xy.flight = w :: rest) (hs : y.step host (.pkt w.pkt) = some y')
    (hb : y'.broken = false) : Half host x y' ⟨rest, w.staging⟩ yx := by
  have he := h.effects
  rw [hf] at he
  obtain ⟨hw, he⟩ := he
  obtain ⟨hd, hk⟩ := Machine.deliver_cases hs hb
  have hfl := h.flow
  rcases hk with ⟨c, ci, older, L', hc, hl, hL, rfl⟩ | ⟨c, hc, prev, older, hl, -, rfl⟩ |
    ⟨r, hr, -, tip, ci, older, chain, L', hrc, -, -, -, hL, rfl⟩
  · rw [hl] at hfl
    exact ⟨he, hL _ _ _ h.staging hw, hfl.recvChange hd hf hc⟩
  · have hst : w.staging = xy.seen := by simpa [Wire.Effect, hc] using hw
    rw [hl] at hfl
    refine ⟨he, ?_, hfl.recvCommit hd hf (by simp [hc]) rfl ?_ rfl⟩
    · exact h.staging.trans (by rw [hst])
    · exact h.staging.trans (by rw [hst])
  · have hrw : w.pkt.isRevocation = true := by simp [hr]
    obtain ⟨v, vp, V', hV, -, ci', hci', -, hp⟩ := hback.flow.revocationHead hf hrw
    rw [hrc, List.cons.injEq, List.cons.injEq] at hV
    obtain ⟨rfl, rfl, rfl⟩ := hV
    simp only [Wire.Effect, hr] at hw
    obtain ⟨ci'', hci'', hcs⟩ := hw
    rw [hci'', Option.some.injEq] at hci'
    subst hci'
    rw [hp, h.staging] at hL
    refine ⟨he, applyChangeset_swap hcs hL, hfl.recvOther hf (by simp [hr]) (by simp [hr])⟩

/-- The sender takes the oldest packet in flight back to it. -/
theorem deliverBack (h : Half host y x yx xy) (hf : xy.flight = w :: rest)
    (hs : y.step host (.pkt w.pkt) = some y') (hb : y'.broken = false) :
    Half host y' x yx ⟨rest, w.staging⟩ := by
  obtain ⟨-, hk⟩ := Machine.deliver_cases hs hb
  have hfl := h.flow
  rcases hk with ⟨c, ci, older, L', hc, -, -, rfl⟩ | ⟨c, hc, -, -, -, -, rfl⟩ |
    ⟨r, hr, -, tip, ci, older, chain, L', hrc, -, -, -, -, rfl⟩
  · exact ⟨h.effects, h.staging, hfl.backPop hf (Pkt.change_eq_some hc).2⟩
  · exact ⟨h.effects, h.staging, hfl.backPop hf (by simp [hc])⟩
  · rw [hrc] at hfl
    exact ⟨h.effects, h.staging, hfl.backRevocation hf (by simp [hr]) _⟩

end Half

/-! ### Both directions -/

/-- Both directions of the channel. -/
def Pair.Agrees (host : Host) (p : Pair) : Prop :=
  Half host p.a p.b p.ab p.ba ∧ Half host p.b p.a p.ba p.ab

theorem Pair.Agrees.swap {host : Host} {p : Pair} (h : p.Agrees host) : p.swap.Agrees host :=
  ⟨h.2, h.1⟩

theorem Pair.Agrees.move {host : Host} {p p' : Pair} (h : p.Agrees host)
    (hm : Pair.Move host p p') : p'.Agrees host := by
  cases hm with
  | send hi hs hq => exact ⟨h.1.send hs hi hq, h.2.sendBack hs hi hq⟩
  | deliver hf hs hb => exact ⟨h.1.deliver h.2 hf hs hb, h.2.deliverBack hf hs hb⟩

/-- At the start, `a`'s first commit of `b` stands idle at `b`. -/
theorem Half.start {host : Host} {p : Pair} (h : p.Start) : Half host p.a p.b p.ab p.ba := by
  obtain ⟨⟨c, d, hcl, hcr, hc, hd, hsl, hsr, -⟩, -, -, -⟩ := h.a
  obtain ⟨⟨c', d', hcl', hcr', hc', hd', hsl', hsr', -⟩, -, hdue, -⟩ := h.b
  have hsw := h.swappedAB
  rw [hcl', hcr, List.map_singleton, List.map_singleton, List.singleton_inj] at hsw
  rw [h.ab, h.ba]
  refine ⟨rfl, by rw [hsl', hsw, hsr], ?_⟩
  rw [hcr, hcl', hdue, h.a.2.1]
  refine .idle noCommit_nil noRevocation_nil (.cons ⟨?_, hsw⟩ .nil) ?_
  · rw [hc'.1, hd.1]
  · rw [hd.2.2.1, hc'.2.2.1]
    rfl

theorem Pair.Agrees.start {host : Host} {p : Pair} (h : p.Start) : p.Agrees host :=
  ⟨Half.start h, Half.start h.swap⟩

/-! ### Commitment agreement -/

/-- **Commitment agreement**, for the packets from `a` to `b`: `b`'s staging state is the
snapshot of the last packet `b` took, seen from its side; when `b` takes a revocation from `a`,
`accept_pkt_revocation` replays the unacked list of `b`'s previous commit of `a`, which is the
one that `a` replayed when it revoked its copy; and `b`'s `k`-th commit (from the first) is
`a`'s `k`-th commit of `b`, with the same number and the swapped state. -/
def Agreement (p : Pair) : Prop :=
  p.b.peer.local.stagingCstate = p.ab.seen.swap ∧
  (∀ w rest r, p.ab.flight = w :: rest → w.pkt = .updateRevocation r →
    ∃ tip ci older ci', p.b.peer.remote.commit = tip :: ci :: older ∧ w.revokes = some ci' ∧
      ci.unackedChanges.getD [] = ci'.unackedChanges.getD []) ∧
  (∀ (k : Nat) (v w : CommitInfo), p.a.peer.remote.commit.reverse[k]? = some v →
    p.b.peer.local.commit.reverse[k]? = some w →
      w.commitNum = v.commitNum ∧ w.cstate = v.cstate.swap)

theorem Half.agreement {host : Host} {p : Pair} (h : Half host p.a p.b p.ab p.ba)
    (hback : Half host p.b p.a p.ba p.ab) : Agreement p := by
  refine ⟨h.staging, fun w rest r hf hr => ?_, fun k v w hv hw => ?_⟩
  · obtain ⟨tip, ci, older, hV, -, ci', hci', -, hp⟩ :=
      hback.flow.revocationHead hf (by simp [hr])
    exact ⟨tip, ci, older, ci', hV, hci', hp⟩
  · obtain ⟨pre, V₀, hV, -, hm⟩ := h.flow.mirrors
    have hlen : k < V₀.reverse.length := by
      rw [List.length_reverse, hm.length_eq, ← List.length_reverse]
      exact (List.getElem?_eq_some_iff.1 hw).1
    rw [hV, List.reverse_append, List.getElem?_append_left hlen] at hv
    exact forall₂_getElem? (List.forall₂_reverse_iff.2 hm) hv hw

theorem commitment_agreement {host : Host} {p0 p : Pair} (h0 : p0.Start)
    (h : Pair.Reaches host p0 p) : Agreement p ∧ Agreement p.swap := by
  have ha := @Pair.Reaches.induction host (Pair.Agrees host) p0 p (fun _ => Pair.Agrees.swap)
    (fun _ _ => Pair.Agrees.move) (Pair.Agrees.start h0) h
  exact ⟨Half.agreement ha.1 ha.2, Half.agreement ha.2 ha.1⟩

/-- With `b`'s revocation and commit in flight to `a`. -/
theorem commitment_agreement_when_offered :
    firstPair.Start ∧ Pair.Reaches trustingHost firstPair offeredPair ∧
      (Agreement offeredPair ∧ Agreement offeredPair.swap) :=
  ⟨firstPair_start, firstPair_reaches_offeredPair,
    commitment_agreement firstPair_start firstPair_reaches_offeredPair⟩

end Lightning
