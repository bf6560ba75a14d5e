import Mathlib.Data.List.Basic
import Mathlib.Data.List.Nodup
import Mathlib.Data.UInt

/-!
# Channel states and the funding operations

`struct channel_state` and the `funding_*` operations that the packet handlers of
`daemon/packets.c` call. `funding.h` and `funding.c` are not in the source: the state and the
operations are modelled from the spec (§3 *ChannelState*, §4.1), with what the handlers read of
them.

* A state holds, per side, a balance (before the commitment fee) and the HTLCs that side
  offered, the fee rate, the side that bears the fee, and the `changes` counter that the
  empty-commit checks compare.
* `fundingAddHtlc` appends the HTLC to its offerer's list; whether the add is affordable is the
  parameter `afford`, so that every result below holds for every affordability rule. The rule
  of §4.1 is `feeAfford` in `Lightning.Affordability`.
* `ChannelState.swap` exchanges OURS and THEIRS. Every operation commutes with it
  (`fundingHtlcById_swap`, `fundingFailHtlc_swap`, `fundingFulfillHtlc_swap`); the two peers'
  views of one channel are swaps of each other.
-/

namespace Lightning

/-! ### Sides, hashes, locktimes, HTLCs -/

/-- `enum channel_side`. -/
inductive Side
  | ours
  | theirs
  deriving DecidableEq, Repr

/-- `!side`: the other side. -/
def Side.other : Side → Side
  | .ours => .theirs
  | .theirs => .ours

@[simp] theorem Side.other_ours : Side.ours.other = .theirs := rfl
@[simp] theorem Side.other_theirs : Side.theirs.other = .ours := rfl
@[simp] theorem Side.other_other (s : Side) : s.other.other = s := by cases s <;> rfl
@[simp] theorem Side.other_ne (s : Side) : s.other ≠ s := by cases s <;> decide
@[simp] theorem Side.ne_other (s : Side) : s ≠ s.other := by cases s <;> decide

/-- `struct sha256`: a 32-byte hash, as the number it encodes. -/
structure Sha256 where
  val : Nat
  deriving DecidableEq, Repr

/-- `struct abs_locktime`: an absolute timelock in seconds or in blocks. -/
inductive AbsLocktime
  | seconds (n : Nat)
  | blocks (n : Nat)
  deriving DecidableEq, Repr

/-- `abs_locktime_is_seconds`. -/
def AbsLocktime.isSeconds : AbsLocktime → Bool
  | .seconds _ => true
  | .blocks _ => false

/-- `struct channel_htlc`. -/
structure ChannelHtlc where
  id : UInt64
  msatoshis : Nat
  expiry : AbsLocktime
  rhash : Sha256
  deriving DecidableEq, Repr

/-- The ids of a list of HTLCs. -/
def ids (l : List ChannelHtlc) : List UInt64 := l.map (·.id)

@[simp] theorem ids_nil : ids [] = [] := rfl
@[simp] theorem ids_append (l l' : List ChannelHtlc) : ids (l ++ l') = ids l ++ ids l' :=
  List.map_append _ _ _
@[simp] theorem ids_cons (h : ChannelHtlc) (l : List ChannelHtlc) : ids (h :: l) = h.id :: ids l :=
  rfl

theorem mem_ids {l : List ChannelHtlc} {i : UInt64} : i ∈ ids l ↔ ∃ h ∈ l, h.id = i :=
  List.mem_map

theorem id_mem_ids {l : List ChannelHtlc} {h : ChannelHtlc} (hm : h ∈ l) : h.id ∈ ids l :=
  mem_ids.2 ⟨h, hm, rfl⟩

/-- **Equal ids in an id-unique list are equal HTLCs.** -/
theorem eq_of_id_eq {l : List ChannelHtlc} (hn : (ids l).Nodup) {h h' : ChannelHtlc}
    (hm : h ∈ l) (hm' : h' ∈ l) (he : h.id = h'.id) : h = h' :=
  List.inj_on_of_nodup_map hn hm hm' he

/-! ### Channel states -/

/-- `struct channel_oneside`: the side's balance and the HTLCs it offered. -/
structure ChannelOneside where
  payMsat : Nat
  htlcs : List ChannelHtlc
  deriving DecidableEq, Repr

/-- `struct channel_state`: both sides, the fee rate and the side bearing the fee, and the
`changes` generation counter. -/
structure ChannelState where
  changes : Nat
  feeRate : Nat
  funder : Side
  ours : ChannelOneside
  theirs : ChannelOneside
  deriving DecidableEq, Repr

/-- `cstate->side[side]`. -/
def ChannelState.side (cs : ChannelState) : Side → ChannelOneside
  | .ours => cs.ours
  | .theirs => cs.theirs

/-- `cstate->side[side]` rewritten by `f`. -/
def ChannelState.modify (cs : ChannelState) (side : Side) (f : ChannelOneside → ChannelOneside) :
    ChannelState :=
  match side with
  | .ours => { cs with ours := f cs.ours }
  | .theirs => { cs with theirs := f cs.theirs }

/-- `cstate->changes++`. -/
def ChannelState.bump (cs : ChannelState) : ChannelState :=
  { cs with changes := cs.changes + 1 }

/-- The state with OURS and THEIRS exchanged: how the other peer sees it. -/
def ChannelState.swap (cs : ChannelState) : ChannelState :=
  { cs with funder := cs.funder.other, ours := cs.theirs, theirs := cs.ours }

namespace ChannelState

variable (cs : ChannelState) (s t : Side) (f : ChannelOneside → ChannelOneside)

@[simp] theorem modify_side_self : (cs.modify s f).side s = f (cs.side s) := by cases s <;> rfl
@[simp] theorem modify_side_other : (cs.modify s f).side s.other = cs.side s.other := by
  cases s <;> rfl
theorem modify_side_of_ne (h : t ≠ s) : (cs.modify s f).side t = cs.side t := by
  cases s <;> cases t <;> first | rfl | exact absurd rfl h
@[simp] theorem modify_other_side : (cs.modify s.other f).side s = cs.side s := by
  cases s <;> rfl
@[simp] theorem modify_ours_side_theirs : (cs.modify .ours f).side .theirs = cs.side .theirs := rfl
@[simp] theorem modify_theirs_side_ours : (cs.modify .theirs f).side .ours = cs.side .ours := rfl
@[simp] theorem modify_changes : (cs.modify s f).changes = cs.changes := by cases s <;> rfl
@[simp] theorem modify_funder : (cs.modify s f).funder = cs.funder := by cases s <;> rfl
@[simp] theorem modify_feeRate : (cs.modify s f).feeRate = cs.feeRate := by cases s <;> rfl

@[simp] theorem bump_side : cs.bump.side s = cs.side s := by cases s <;> rfl
@[simp] theorem bump_changes : cs.bump.changes = cs.changes + 1 := rfl
@[simp] theorem bump_funder : cs.bump.funder = cs.funder := rfl
@[simp] theorem bump_feeRate : cs.bump.feeRate = cs.feeRate := rfl

@[simp] theorem swap_side : cs.swap.side s = cs.side s.other := by cases s <;> rfl
@[simp] theorem swap_changes : cs.swap.changes = cs.changes := rfl
@[simp] theorem swap_funder : cs.swap.funder = cs.funder.other := rfl
@[simp] theorem swap_swap : cs.swap.swap = cs := by cases cs; simp [swap]

theorem swap_modify : (cs.modify s f).swap = cs.swap.modify s.other f := by cases s <;> rfl
theorem swap_bump : cs.bump.swap = cs.swap.bump := rfl

end ChannelState

/-! ### The funding operations -/

/-- Stands for `funding_htlc_by_id` of `funding.c`, which is not in the source; modelled from
its uses in `packets.c`: the index of the HTLC `id` among those `side` offered (`-1`, here
`none`, when there is none). -/
def fundingHtlcById (cs : ChannelState) (id : UInt64) (side : Side) : Option Nat :=
  (cs.side side).htlcs.findIdx? (·.id == id)

/-- Stands for `funding_add_htlc` of `funding.c`, which is not in the source; modelled from
`add_htlc` of §4.1: the HTLC joins `side`'s offers and its amount leaves `side`'s balance;
`NULL` (here `none`) when `afford` refuses the add. Returns the state and the new HTLC, which
the source returns as a pointer into the state. -/
def fundingAddHtlc (afford : ChannelState → Side → Nat → Bool) (cs : ChannelState)
    (msatoshis : Nat) (expiry : AbsLocktime) (rhash : Sha256) (id : UInt64) (side : Side) :
    Option (ChannelState × ChannelHtlc) :=
  if afford cs side msatoshis then
    let htlc : ChannelHtlc := ⟨id, msatoshis, expiry, rhash⟩
    some ((cs.modify side fun o => ⟨o.payMsat - msatoshis, o.htlcs ++ [htlc]⟩).bump, htlc)
  else none

/-- Stands for `funding_fail_htlc` of `funding.c`, which is not in the source; modelled from
`fail_htlc` of §4.1: HTLC number `index` of `side` is removed and its amount returns to `side`.
The callers pass an index found by `fundingHtlcById`; another leaves the state as is. -/
def fundingFailHtlc (cs : ChannelState) (index : Nat) (side : Side) : ChannelState :=
  match (cs.side side).htlcs[index]? with
  | none => cs
  | some h => (cs.modify side fun o => ⟨o.payMsat + h.msatoshis, o.htlcs.eraseIdx index⟩).bump

/-- Stands for `funding_fulfill_htlc` of `funding.c`, which is not in the source; modelled from
`fulfill_htlc` of §4.1: HTLC number `index` of `side` is removed and its amount goes to the
other side. -/
def fundingFulfillHtlc (cs : ChannelState) (index : Nat) (side : Side) : ChannelState :=
  match (cs.side side).htlcs[index]? with
  | none => cs
  | some h =>
    ((cs.modify side fun o => { o with htlcs := o.htlcs.eraseIdx index }).modify side.other
      fun o => { o with payMsat := o.payMsat + h.msatoshis }).bump

/-! ### What the operations do to the HTLC lists -/

theorem mem_eraseIdx_iff_of_nodup {α : Type} {l : List α} (hn : l.Nodup) {n : Nat} {a : α}
    (ha : l[n]? = some a) {x : α} : x ∈ l.eraseIdx n ↔ x ∈ l ∧ x ≠ a := by
  rw [List.mem_eraseIdx_iff_getElem?, List.mem_iff_getElem?]
  constructor
  · rintro ⟨i, hi, hx⟩
    refine ⟨⟨i, hx⟩, fun he => hi ?_⟩
    subst he
    exact List.getElem?_inj (List.getElem?_eq_some_iff.1 hx).1 hn (hx.trans ha.symm)
  · rintro ⟨⟨i, hx⟩, hne⟩
    exact ⟨i, fun h => hne (by subst h; exact Option.some.inj (hx.symm.trans ha)), hx⟩

theorem ids_eraseIdx_nodup {l : List ChannelHtlc} (hn : (ids l).Nodup) (n : Nat) :
    (ids (l.eraseIdx n)).Nodup :=
  hn.sublist ((List.eraseIdx_sublist l n).map _)

/-- **Removing the HTLC found by id.** In an id-unique list, erasing the entry at the index of
`x` leaves exactly the other HTLCs. -/
theorem mem_eraseIdx_iff {l : List ChannelHtlc} (hn : (ids l).Nodup) {n : Nat}
    {x : ChannelHtlc} (hx : l[n]? = some x) {y : ChannelHtlc} :
    y ∈ l.eraseIdx n ↔ y ∈ l ∧ y.id ≠ x.id := by
  rw [mem_eraseIdx_iff_of_nodup hn.of_map hx]
  refine and_congr_right fun hy => ⟨fun hne he => hne ?_, fun hne he => hne (he ▸ rfl)⟩
  exact eq_of_id_eq hn hy (List.mem_iff_getElem?.2 ⟨n, hx⟩) he

theorem mem_ids_eraseIdx_iff {l : List ChannelHtlc} (hn : (ids l).Nodup) {n : Nat}
    {x : ChannelHtlc} (hx : l[n]? = some x) {i : UInt64} :
    i ∈ ids (l.eraseIdx n) ↔ i ∈ ids l ∧ i ≠ x.id := by
  simp only [mem_ids, mem_eraseIdx_iff hn hx]
  constructor
  · rintro ⟨h, ⟨hm, hne⟩, rfl⟩; exact ⟨⟨h, hm, rfl⟩, hne⟩
  · rintro ⟨⟨h, hm, rfl⟩, hne⟩; exact ⟨h, ⟨hm, hne⟩, rfl⟩

section
variable {cs : ChannelState} {id : UInt64} {s : Side} {n : Nat}

theorem fundingHtlcById_eq_some (h : fundingHtlcById cs id s = some n) :
    ∃ x, (cs.side s).htlcs[n]? = some x ∧ x.id = id := by
  obtain ⟨hn, hp, -⟩ := List.findIdx?_eq_some_iff_getElem.1 h
  exact ⟨_, List.getElem?_eq_getElem hn, by simpa using hp⟩

theorem fundingHtlcById_isSome :
    (fundingHtlcById cs id s).isSome ↔ id ∈ ids (cs.side s).htlcs := by
  simp [fundingHtlcById, List.findIdx?_isSome, mem_ids]

theorem fundingHtlcById_eq_none : fundingHtlcById cs id s = none ↔ id ∉ ids (cs.side s).htlcs := by
  rw [← fundingHtlcById_isSome, Option.not_isSome_iff_eq_none]

theorem fundingAddHtlc_eq_some {afford : ChannelState → Side → Nat → Bool} {m : Nat}
    {e : AbsLocktime} {r : Sha256} {p : ChannelState × ChannelHtlc} :
    fundingAddHtlc afford cs m e r id s = some p ↔ afford cs s m = true ∧
      p = ((cs.modify s fun o => ⟨o.payMsat - m, o.htlcs ++ [⟨id, m, e, r⟩]⟩).bump,
        ⟨id, m, e, r⟩) := by
  unfold fundingAddHtlc
  by_cases ha : afford cs s m = true
  · simp only [ha, if_true, Option.some.injEq, true_and]
    exact eq_comm
  · simp [ha]

theorem fundingFailHtlc_of_getElem? {x : ChannelHtlc} (hx : (cs.side s).htlcs[n]? = some x) :
    fundingFailHtlc cs n s =
      (cs.modify s fun o => ⟨o.payMsat + x.msatoshis, o.htlcs.eraseIdx n⟩).bump := by
  simp [fundingFailHtlc, hx]

theorem fundingFulfillHtlc_of_getElem? {x : ChannelHtlc} (hx : (cs.side s).htlcs[n]? = some x) :
    fundingFulfillHtlc cs n s =
      ((cs.modify s fun o => { o with htlcs := o.htlcs.eraseIdx n }).modify s.other
        fun o => { o with payMsat := o.payMsat + x.msatoshis }).bump := by
  simp [fundingFulfillHtlc, hx]

end

/-! ### Exchanging the sides -/

theorem fundingHtlcById_swap (cs : ChannelState) (id : UInt64) (s : Side) :
    fundingHtlcById cs.swap id s.other = fundingHtlcById cs id s := by
  simp [fundingHtlcById]

theorem fundingFailHtlc_swap (cs : ChannelState) (n : Nat) (s : Side) :
    fundingFailHtlc cs.swap n s.other = (fundingFailHtlc cs n s).swap := by
  unfold fundingFailHtlc
  simp only [ChannelState.swap_side, Side.other_other]
  split
  · rfl
  · cases s <;> rfl

theorem fundingFulfillHtlc_swap (cs : ChannelState) (n : Nat) (s : Side) :
    fundingFulfillHtlc cs.swap n s.other = (fundingFulfillHtlc cs n s).swap := by
  unfold fundingFulfillHtlc
  simp only [ChannelState.swap_side, Side.other_other]
  split
  · rfl
  · cases s <;> rfl

end Lightning
