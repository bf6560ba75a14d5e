import Lightning.Snapshots

/-!
# Conservation of the channel's funds

The msat a channel state holds, both balances and every HTLC of either side
(`ChannelState.msat`), is kept by the funding operations when the affordability rule never lets
a side offer more than its balance (`Solvent`, which the rule of §4.1 is): an add moves the
amount from the offerer's balance into the HTLC, a fail moves it back, a fulfill to the other
side. None of them changes the fee rate or the funder (`funds_fundingClosed`).

By `Machine.Runs.keeps` of `Lightning.Snapshots`, `channel_funds_conserved` follows: along every
run of one peer against any remote peer, every state it keeps has the funds, fee rate and funder
of the states it kept where the run started (§8, property 1).
-/

namespace Lightning

/-! ### The msat of a channel state -/

/-- The amounts of a list of HTLCs, added up. -/
def htlcsMsat : List ChannelHtlc → Nat
  | [] => 0
  | h :: l => h.msatoshis + htlcsMsat l

@[simp] theorem htlcsMsat_nil : htlcsMsat [] = 0 := rfl

@[simp] theorem htlcsMsat_cons (h : ChannelHtlc) (l : List ChannelHtlc) :
    htlcsMsat (h :: l) = h.msatoshis + htlcsMsat l := rfl

@[simp] theorem htlcsMsat_append (l l' : List ChannelHtlc) :
    htlcsMsat (l ++ l') = htlcsMsat l + htlcsMsat l' := by
  induction l with
  | nil => simp
  | cons h l ih => simp [ih, Nat.add_assoc]

/-- What one side holds: its balance and the amounts of the HTLCs it offered. -/
def ChannelOneside.msat (o : ChannelOneside) : Nat := o.payMsat + htlcsMsat o.htlcs

/-- What the channel holds: both sides' balances and every HTLC. -/
def ChannelState.msat (cs : ChannelState) : Nat := cs.ours.msat + cs.theirs.msat

namespace ChannelState

variable (cs : ChannelState) (s : Side) (f : ChannelOneside → ChannelOneside)

theorem msat_eq_side : cs.msat = (cs.side s).msat + (cs.side s.other).msat := by
  cases s
  · rfl
  · exact Nat.add_comm _ _

@[simp] theorem msat_bump : cs.bump.msat = cs.msat := rfl

@[simp] theorem msat_swap : cs.swap.msat = cs.msat := Nat.add_comm _ _

theorem msat_modify : (cs.modify s f).msat = (f (cs.side s)).msat + (cs.side s.other).msat := by
  rw [msat_eq_side _ s, modify_side_self, modify_side_other]

end ChannelState

/-- Erasing the HTLC at index `n` takes its amount out of the sum. -/
theorem htlcsMsat_eraseIdx {l : List ChannelHtlc} {n : Nat} {x : ChannelHtlc}
    (hx : l[n]? = some x) : htlcsMsat (l.eraseIdx n) + x.msatoshis = htlcsMsat l := by
  induction l generalizing n with
  | nil => cases hx
  | cons a l ih =>
    cases n with
    | zero =>
      obtain rfl : a = x := by simpa using hx
      simp only [List.eraseIdx_cons_zero, htlcsMsat_cons]
      omega
    | succ n =>
      have := ih (by simpa using hx)
      simp only [List.eraseIdx_cons_succ, htlcsMsat_cons]
      omega

/-! ### The funding operations keep it -/

/-- **Solvency of an affordability rule**: it never lets a side offer more than its balance. -/
def Solvent (afford : ChannelState → Side → Nat → Bool) : Prop :=
  ∀ cs s m, afford cs s m = true → m ≤ (cs.side s).payMsat

/-- The rule of §4.1 is solvent. -/
theorem feeAfford_solvent (fee : Nat → Nat → Nat) : Solvent (feeAfford fee) := by
  intro cs s m h
  simp only [feeAfford, Bool.and_eq_true, decide_eq_true_eq] at h
  exact h.1

section
variable {afford : ChannelState → Side → Nat → Bool} {cs cs' : ChannelState} {m n : Nat}
  {e : AbsLocktime} {r : Sha256} {id : UInt64} {s : Side} {h : ChannelHtlc}

/-- An affordable add moves its amount from the offerer's balance into the new HTLC. -/
theorem fundingAddHtlc_msat (ha : Solvent afford)
    (hf : fundingAddHtlc afford cs m e r id s = some (cs', h)) : cs'.msat = cs.msat := by
  obtain ⟨hs, hp⟩ := fundingAddHtlc_eq_some.1 hf
  obtain rfl := (Prod.mk.inj hp).1
  have hm := ha _ _ _ hs
  rw [ChannelState.msat_bump, ChannelState.msat_modify, ChannelState.msat_eq_side cs s]
  simp only [ChannelOneside.msat, htlcsMsat_append, htlcsMsat_cons, htlcsMsat_nil]
  omega

/-- A fail moves the HTLC's amount back to its offerer. -/
theorem fundingFailHtlc_msat (cs : ChannelState) (n : Nat) (s : Side) :
    (fundingFailHtlc cs n s).msat = cs.msat := by
  unfold fundingFailHtlc
  split
  · rfl
  · rename_i x hx
    have := htlcsMsat_eraseIdx hx
    rw [ChannelState.msat_bump, ChannelState.msat_modify, ChannelState.msat_eq_side cs s]
    simp only [ChannelOneside.msat]
    omega

/-- A fulfill moves the HTLC's amount to the other side. -/
theorem fundingFulfillHtlc_msat (cs : ChannelState) (n : Nat) (s : Side) :
    (fundingFulfillHtlc cs n s).msat = cs.msat := by
  unfold fundingFulfillHtlc
  split
  · rfl
  · rename_i x hx
    have := htlcsMsat_eraseIdx hx
    rw [ChannelState.msat_bump, ChannelState.msat_modify, ChannelState.msat_eq_side cs s]
    simp only [ChannelState.modify_side_other, Side.other_other, ChannelState.modify_side_self,
      ChannelOneside.msat]
    omega

end

/-! ### Conservation -/

/-- A channel's funds, fee rate and funder. -/
def ChannelState.Funds (total feeRate : Nat) (funder : Side) (cs : ChannelState) : Prop :=
  cs.msat = total ∧ cs.feeRate = feeRate ∧ cs.funder = funder

/-- **The funding operations keep the funds**, the fee rate and the funder, at a solvent rule. -/
theorem funds_fundingClosed {afford : ChannelState → Side → Nat → Bool} (ha : Solvent afford)
    (total feeRate : Nat) (funder : Side) :
    FundingClosed afford (ChannelState.Funds total feeRate funder) where
  add hf h := by
    obtain ⟨-, hp⟩ := fundingAddHtlc_eq_some.1 hf
    obtain rfl := (Prod.mk.inj hp).1
    simpa [ChannelState.Funds, fundingAddHtlc_msat ha hf] using h
  fail cs n s h := by
    refine ⟨(fundingFailHtlc_msat cs n s).trans h.1, ?_⟩
    unfold fundingFailHtlc
    split
    · exact h.2
    · simpa using h.2
  fulfill cs n s h := by
    refine ⟨(fundingFulfillHtlc_msat cs n s).trans h.1, ?_⟩
    unfold fundingFulfillHtlc
    split
    · exact h.2
    · simpa using h.2

/-- **Conservation of the channel's funds.** When no add may offer more than its offerer's
balance, every state one peer holds, at every point of every run against any remote peer, has
the msat total, fee rate and funder that all its states had where the run started. -/
theorem channel_funds_conserved {host : Host} {m m' : Machine} {total feeRate : Nat}
    {funder : Side} (ha : Solvent host.afford)
    (hk : m.peer.Keeps (ChannelState.Funds total feeRate funder)) (hr : Machine.Runs host m m') :
    m'.peer.Keeps (ChannelState.Funds total feeRate funder) :=
  hr.keeps (funds_fundingClosed ha total feeRate funder) hk

theorem feeHost_solvent : Solvent feeHost.afford := feeAfford_solvent fun _ n => 1000 * n

theorem fundedMachine_keeps : fundedMachine.peer.Keeps (ChannelState.Funds 2100 0 .ours) :=
  have h : fundedState.Funds 2100 0 .ours := ⟨rfl, rfl, rfl⟩
  ⟨h, h, by simpa [fundedMachine] using h, by simpa [fundedMachine] using h⟩

/-- Our add of 100, their add of 100 and their commit, at the fee rule of §4.1. -/
theorem channel_funds_after_adds :
    Solvent feeHost.afford ∧ fundedMachine.peer.Keeps (ChannelState.Funds 2100 0 .ours) ∧
      Machine.Runs feeHost fundedMachine awaitingReplay ∧
      awaitingReplay.peer.Keeps (ChannelState.Funds 2100 0 .ours) :=
  ⟨feeHost_solvent, fundedMachine_keeps, runs_awaitingReplay,
    channel_funds_conserved feeHost_solvent fundedMachine_keeps runs_awaitingReplay⟩

end Lightning
