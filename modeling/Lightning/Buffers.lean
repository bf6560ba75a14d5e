import Lightning.Peer

/-!
# The staging buffers

The design of §4.2 of the spec, as an abstract model: each side's changes land first in one
staging state (theirs in ours, ours in theirs) and are replayed on the other when the commit
that carries them is revoked. `Buffers` keeps, per staging state, the HTLCs each side offers, and
per side the changes the other staging state has not had yet.

`Buffers.TheirStep` is one change of theirs: made on our staging state, or replayed from the
front of their pending changes on theirs. A change of ours is a change of theirs seen from the
other peer (`Buffers.mirror`), so `Buffers.Step` is one of the two.

`Buffers.Consistent` says what makes the replays sound: every list is id-unique, the HTLCs a
side offers in its target state are among those of its source state, a pending add is in the
source and not yet in the target, a pending fail or fulfill names an HTLC still in the target
and already gone from the source, and no pending add of one side is a pending removal of the
other. Every step keeps it (`Buffers.Consistent.step`), and under it a replay never meets a
duplicate add or a missing HTLC (`Buffers.Consistent.replay_add_fresh`,
`Buffers.Consistent.replay_remove_found`).
-/

namespace Lightning

/-! ### What a change adds and removes -/

namespace HtlcStaging

/-- The HTLC an add offers. -/
def added : HtlcStaging → Option ChannelHtlc
  | .add h => some h
  | _ => none

/-- The id a fail or a fulfill removes. -/
def removes : HtlcStaging → Option UInt64
  | .add _ => none
  | .fulfill id _ => some id
  | .fail id => some id

theorem added_eq_none {s : HtlcStaging} {id : UInt64} (h : s.removes = some id) :
    s.added = none := by
  cases s <;> simp_all [added, removes]

end HtlcStaging

/-- The HTLCs that `l`'s adds offer. -/
def adds (l : List HtlcStaging) : List ChannelHtlc := l.filterMap HtlcStaging.added

/-- The ids that `l`'s fails and fulfills remove. -/
def removals (l : List HtlcStaging) : List UInt64 := l.filterMap HtlcStaging.removes

section
variable {l l' : List HtlcStaging} {s : HtlcStaging} {h : ChannelHtlc} {id : UInt64}

@[simp] theorem adds_nil : adds [] = [] := rfl
@[simp] theorem removals_nil : removals [] = [] := rfl
@[simp] theorem adds_append : adds (l ++ l') = adds l ++ adds l' :=
  List.filterMap_append _ _ _
@[simp] theorem removals_append : removals (l ++ l') = removals l ++ removals l' :=
  List.filterMap_append _ _ _
@[simp] theorem adds_cons_add : adds (.add h :: l) = h :: adds l := rfl
@[simp] theorem removals_cons_add : removals (.add h :: l) = removals l := rfl

theorem adds_cons_of_removes (hs : s.removes = some id) : adds (s :: l) = adds l := by
  simp [adds, HtlcStaging.added_eq_none hs]

theorem removals_cons_of_removes (hs : s.removes = some id) :
    removals (s :: l) = id :: removals l := by
  simp [removals, hs]

theorem mem_adds : h ∈ adds l ↔ .add h ∈ l := by
  simp only [adds, List.mem_filterMap]
  constructor
  · rintro ⟨s, hs, he⟩
    cases s <;> simp_all [HtlcStaging.added]
  · exact fun hm => ⟨_, hm, rfl⟩

theorem mem_removals : id ∈ removals l ↔ ∃ s ∈ l, s.removes = some id := by
  simp [removals]

end

/-! ### The buffers and their consistency -/

/-- **One side's pending changes** `pend`: made by that side and had by the staging state where
they land first (the source), not yet by the other (the target). That side's offers are `src`
in the source and `dst` in the target; the other side's offers, which its fails and fulfills
remove, are `csrc` and `cdst`; `orems` are the other side's pending removals. -/
structure Pending (src dst csrc cdst : List ChannelHtlc) (pend : List HtlcStaging)
    (orems : List UInt64) : Prop where
  sub : ∀ h ∈ dst, h ∈ src
  addsMem : ∀ h ∈ adds pend, h ∈ src ∧ h.id ∉ ids dst
  addsNodup : (ids (adds pend)).Nodup
  removalsMem : ∀ id ∈ removals pend, id ∈ ids cdst ∧ id ∉ ids csrc
  removalsNodup : (removals pend).Nodup
  disjoint : ∀ h ∈ adds pend, h.id ∉ orems

/-- **The staging buffers of one peer**: the offers of theirs and of ours in our staging state
(`lt`, `lo`) and in theirs (`rt`, `ro`); their changes that our staging state has had and
theirs not yet (`theirs`), and ours that theirs has had and ours not yet (`ours`). -/
structure Buffers where
  lt : List ChannelHtlc
  lo : List ChannelHtlc
  rt : List ChannelHtlc
  ro : List ChannelHtlc
  theirs : List HtlcStaging
  ours : List HtlcStaging
  deriving DecidableEq, Repr

namespace Buffers

/-- The buffers as the other peer keeps them. -/
def mirror (b : Buffers) : Buffers := ⟨b.ro, b.rt, b.lo, b.lt, b.ours, b.theirs⟩

@[simp] theorem mirror_mirror (b : Buffers) : b.mirror.mirror = b := rfl

/-- **Consistent buffers.** Every list id-unique, and each side's pending changes as `Pending`
says: theirs from our staging state to theirs, ours from theirs to ours. -/
structure Consistent (b : Buffers) : Prop where
  nodupLt : (ids b.lt).Nodup
  nodupLo : (ids b.lo).Nodup
  nodupRt : (ids b.rt).Nodup
  nodupRo : (ids b.ro).Nodup
  theirs : Pending b.lt b.rt b.lo b.ro b.theirs (removals b.ours)
  ours : Pending b.ro b.lo b.rt b.lt b.ours (removals b.theirs)

theorem consistent_empty : Consistent ⟨[], [], [], [], [], []⟩ :=
  ⟨List.nodup_nil, List.nodup_nil, List.nodup_nil, List.nodup_nil,
    ⟨by simp, by simp, List.nodup_nil, by simp, List.nodup_nil, by simp⟩,
    ⟨by simp, by simp, List.nodup_nil, by simp, List.nodup_nil, by simp⟩⟩

theorem Consistent.mirror {b : Buffers} (h : b.Consistent) : b.mirror.Consistent :=
  ⟨h.nodupRo, h.nodupRt, h.nodupLo, h.nodupLt, h.ours, h.theirs⟩

/-- **A replay**: the front of their pending changes, replayed on their staging state. -/
inductive Replay : Buffers → Buffers → Prop
  | add {b : Buffers} {h : ChannelHtlc} {rest : List HtlcStaging}
      (hb : b.theirs = .add h :: rest) :
      Replay b { b with rt := b.rt ++ [h], theirs := rest }
  | remove {b : Buffers} {s : HtlcStaging} {rest : List HtlcStaging} {n : Nat}
      {x : ChannelHtlc} (hb : b.theirs = s :: rest) (hs : s.removes = some x.id)
      (hx : b.ro[n]? = some x) :
      Replay b { b with ro := b.ro.eraseIdx n, theirs := rest }

/-- **One change of theirs**: an add or a removal made on our staging state and queued, or a
replay. -/
inductive TheirStep : Buffers → Buffers → Prop
  | add {b : Buffers} (h : ChannelHtlc) (hl : h.id ∉ ids b.lt) (hr : h.id ∉ ids b.rt) :
      TheirStep b { b with lt := b.lt ++ [h], theirs := b.theirs ++ [.add h] }
  | remove {b : Buffers} {s : HtlcStaging} {n : Nat} {x : ChannelHtlc}
      (hs : s.removes = some x.id) (hx : b.lo[n]? = some x) :
      TheirStep b { b with lo := b.lo.eraseIdx n, theirs := b.theirs ++ [s] }
  | replay {b b' : Buffers} (h : Replay b b') : TheirStep b b'

/-- One change of either side. -/
def Step (b b' : Buffers) : Prop := TheirStep b b' ∨ TheirStep b.mirror b'.mirror

/-! ### Every step keeps the buffers consistent -/

theorem nodup_ids_concat {l : List ChannelHtlc} {h : ChannelHtlc} (hn : (ids l).Nodup)
    (hh : h.id ∉ ids l) : (ids (l ++ [h])).Nodup := by
  simpa [List.nodup_append] using ⟨hn, hh⟩

theorem nodup_ids_concat' {l : List UInt64} {i : UInt64} (hn : l.Nodup) (hi : i ∉ l) :
    (l ++ [i]).Nodup := by
  simpa [List.nodup_append] using ⟨hn, hi⟩

theorem not_mem_ids_of_subset {l l' : List ChannelHtlc} (hs : ∀ y ∈ l, y ∈ l') {i : UInt64}
    (h : i ∉ ids l') : i ∉ ids l := fun hm => by
  obtain ⟨y, hy, rfl⟩ := mem_ids.1 hm
  exact h (id_mem_ids (hs y hy))

theorem mem_ids_of_eraseIdx {l : List ChannelHtlc} {n : Nat} {i : UInt64}
    (h : i ∈ ids (l.eraseIdx n)) : i ∈ ids l :=
  ((List.eraseIdx_sublist l n).map _).subset h

variable {b : Buffers}

theorem Consistent.add (hc : b.Consistent) {h : ChannelHtlc} (hl : h.id ∉ ids b.lt)
    (hr : h.id ∉ ids b.rt) :
    Consistent { b with lt := b.lt ++ [h], theirs := b.theirs ++ [.add h] } := by
  obtain ⟨n1, n2, n3, n4, T, O⟩ := hc
  -- their pending adds are in `lt`, which has no HTLC `h.id`
  have hnew : h.id ∉ ids (adds b.theirs) := fun hm => by
    obtain ⟨y, hy, he⟩ := mem_ids.1 hm
    exact hl (he ▸ id_mem_ids (T.addsMem y hy).1)
  refine ⟨nodup_ids_concat n1 hl, n2, n3, n4,
    ⟨fun y hy => List.mem_append_left _ (T.sub y hy), ?_, ?_, by simpa using T.removalsMem,
      by simpa using T.removalsNodup, ?_⟩,
    ⟨O.sub, O.addsMem, O.addsNodup, fun i hi => ?_, O.removalsNodup, by simpa using O.disjoint⟩⟩
  · simp only [adds_append, adds_cons_add, adds_nil, List.mem_append, List.mem_singleton]
    rintro y (hy | rfl)
    · exact ⟨.inl (T.addsMem y hy).1, (T.addsMem y hy).2⟩
    · exact ⟨.inr rfl, hr⟩
  · simpa using nodup_ids_concat T.addsNodup hnew
  · simp only [adds_append, adds_cons_add, adds_nil, List.mem_append, List.mem_singleton]
    rintro y (hy | rfl)
    · exact T.disjoint y hy
    · exact fun hm => hl (O.removalsMem _ hm).1
  · exact ⟨by simp [(O.removalsMem i hi).1], (O.removalsMem i hi).2⟩

theorem Consistent.remove (hc : b.Consistent) {s : HtlcStaging} {n : Nat} {x : ChannelHtlc}
    (hs : s.removes = some x.id) (hx : b.lo[n]? = some x) :
    Consistent { b with lo := b.lo.eraseIdx n, theirs := b.theirs ++ [s] } := by
  obtain ⟨n1, n2, n3, n4, T, O⟩ := hc
  have hxlo : x.id ∈ ids b.lo := id_mem_ids (List.mem_iff_getElem?.2 ⟨n, hx⟩)
  have hrem : removals (b.theirs ++ [s]) = removals b.theirs ++ [x.id] := by
    simp [removals_cons_of_removes hs]
  have hadd : adds (b.theirs ++ [s]) = adds b.theirs := by
    simp [adds_cons_of_removes hs]
  refine ⟨n1, ids_eraseIdx_nodup n2 n, n3, n4,
    ⟨T.sub, by simpa [hadd] using T.addsMem, by simpa [hadd] using T.addsNodup, ?_, ?_,
      by simpa [hadd] using T.disjoint⟩,
    ⟨fun y hy => O.sub y (List.mem_of_mem_eraseIdx hy),
      fun y hy => ⟨(O.addsMem y hy).1, fun hm => (O.addsMem y hy).2 (mem_ids_of_eraseIdx hm)⟩,
      O.addsNodup, O.removalsMem, O.removalsNodup, ?_⟩⟩
  · rw [hrem]
    simp only [List.mem_append, List.mem_singleton]
    rintro i (hi | rfl)
    · exact ⟨(T.removalsMem i hi).1, fun hm => (T.removalsMem i hi).2 (mem_ids_of_eraseIdx hm)⟩
    · refine ⟨?_, fun hm => ((mem_ids_eraseIdx_iff n2 hx).1 hm).2 rfl⟩
      obtain ⟨y, hy, he⟩ := mem_ids.1 hxlo
      exact he ▸ id_mem_ids (O.sub y hy)
  · rw [hrem]
    exact nodup_ids_concat' T.removalsNodup fun hm => (T.removalsMem _ hm).2 hxlo
  · rw [hrem]
    intro y hy hm
    simp only [List.mem_append, List.mem_singleton] at hm
    rcases hm with hm | hm
    · exact O.disjoint y hy hm
    · exact (O.addsMem y hy).2 (hm ▸ hxlo)

theorem Consistent.replay_add (hc : b.Consistent) {h : ChannelHtlc} {rest : List HtlcStaging}
    (hb : b.theirs = .add h :: rest) :
    Consistent { b with rt := b.rt ++ [h], theirs := rest } := by
  obtain ⟨n1, n2, n3, n4, T, O⟩ := hc
  rw [hb] at T O
  have hh := T.addsMem h (by simp)
  have hnd : h.id ∉ ids (adds rest) ∧ (ids (adds rest)).Nodup := by simpa using T.addsNodup
  refine ⟨n1, n2, nodup_ids_concat n3 hh.2, n4,
    ⟨?_, fun y hy => ?_, hnd.2, by simpa using T.removalsMem, by simpa using T.removalsNodup,
      fun y hy => T.disjoint y (by simp [hy])⟩,
    ⟨O.sub, O.addsMem, O.addsNodup, fun i hi => ?_, O.removalsNodup, by simpa using O.disjoint⟩⟩
  · simp only [List.mem_append, List.mem_singleton]
    rintro y (hy | rfl)
    · exact T.sub y hy
    · exact hh.1
  · have hy' := T.addsMem y (by simp [hy])
    simp only [ids_append, ids_cons, ids_nil, List.mem_append, List.mem_singleton, not_or]
    exact ⟨hy'.1, hy'.2, fun he => hnd.1 (he ▸ id_mem_ids hy)⟩
  · simp only [ids_append, ids_cons, ids_nil, List.mem_append, List.mem_singleton, not_or]
    exact ⟨(O.removalsMem i hi).1, (O.removalsMem i hi).2,
      fun he => T.disjoint h (by simp) (he ▸ hi)⟩

theorem Consistent.replay_remove (hc : b.Consistent) {s : HtlcStaging} {rest : List HtlcStaging}
    {n : Nat} {x : ChannelHtlc} (hb : b.theirs = s :: rest) (hs : s.removes = some x.id)
    (hx : b.ro[n]? = some x) :
    Consistent { b with ro := b.ro.eraseIdx n, theirs := rest } := by
  obtain ⟨n1, n2, n3, n4, T, O⟩ := hc
  rw [hb] at T O
  have hadd : adds (s :: rest) = adds rest := adds_cons_of_removes hs
  have hrem : removals (s :: rest) = x.id :: removals rest := removals_cons_of_removes hs
  have hxo : x.id ∉ ids b.lo := (T.removalsMem x.id (by simp [hrem])).2
  have hnd : x.id ∉ removals rest ∧ (removals rest).Nodup := by
    simpa [hrem] using T.removalsNodup
  refine ⟨n1, n2, n3, ids_eraseIdx_nodup n4 n,
    ⟨T.sub, by simpa [hadd] using T.addsMem, by simpa [hadd] using T.addsNodup, fun i hi => ?_,
      hnd.2, by simpa [hadd] using T.disjoint⟩,
    ⟨fun y hy => ?_, fun y hy => ?_, O.addsNodup, O.removalsMem, O.removalsNodup,
      fun y hy hm => O.disjoint y hy (by simp [hrem, hm])⟩⟩
  · have hi' := T.removalsMem i (by simp [hrem, hi])
    exact ⟨(mem_ids_eraseIdx_iff n4 hx).2 ⟨hi'.1, fun he => hnd.1 (he ▸ hi)⟩, hi'.2⟩
  · exact (mem_eraseIdx_iff n4 hx).2 ⟨O.sub y hy, fun he => hxo (he ▸ id_mem_ids hy)⟩
  · exact ⟨(mem_eraseIdx_iff n4 hx).2 ⟨(O.addsMem y hy).1,
      fun he => O.disjoint y hy (by simp [hrem, he])⟩, (O.addsMem y hy).2⟩

theorem Consistent.replay (hc : b.Consistent) {b' : Buffers} (hs : Replay b b') :
    b'.Consistent := by
  cases hs with
  | add hb => exact hc.replay_add hb
  | remove hb hs hx => exact hc.replay_remove hb hs hx

/-- **Step lemma**: a change of theirs keeps the buffers consistent. -/
theorem Consistent.theirStep (hc : b.Consistent) {b' : Buffers} (hs : TheirStep b b') :
    b'.Consistent := by
  cases hs with
  | add h hl hr => exact hc.add hl hr
  | remove hs hx => exact hc.remove hs hx
  | replay h => exact hc.replay h

/-- **Step lemma**: a change of either side keeps the buffers consistent. -/
theorem Consistent.step (hc : b.Consistent) {b' : Buffers} (hs : Step b b') : b'.Consistent :=
  hs.elim hc.theirStep fun hs => (hc.mirror.theirStep hs).mirror

theorem Consistent.replays (hc : b.Consistent) {b' : Buffers}
    (hs : Relation.ReflTransGen Replay b b') : b'.Consistent := by
  induction hs with
  | refl => exact hc
  | tail _ hs ih => exact ih.replay hs

/-- **Frame of the replays**: they touch only their staging state, and take from the front of
their pending changes. -/
theorem replays_frame {b b' : Buffers} (h : Relation.ReflTransGen Replay b b') :
    b'.lt = b.lt ∧ b'.lo = b.lo ∧ b'.ours = b.ours ∧ b'.ro.Sublist b.ro ∧
      ∀ s ∈ b'.theirs, s ∈ b.theirs := by
  induction h with
  | refl => exact ⟨rfl, rfl, rfl, .refl _, fun _ h => h⟩
  | tail _ hs ih =>
    obtain ⟨h1, h2, h3, h4, h5⟩ := ih
    cases hs with
    | add hb => exact ⟨h1, h2, h3, h4, fun s hs => h5 s (by rw [hb]; exact .tail _ hs)⟩
    | remove hb _ _ =>
      exact ⟨h1, h2, h3, (List.eraseIdx_sublist _ _).trans h4,
        fun s hs => h5 s (by rw [hb]; exact .tail _ hs)⟩

theorem steps_of_replays {b b' : Buffers} (h : Relation.ReflTransGen Replay b b') :
    Relation.ReflTransGen Step b b' :=
  h.mono fun _ _ h => .inl (.replay h)

theorem steps_of_mirror {b b' : Buffers} (h : Relation.ReflTransGen TheirStep b.mirror b'.mirror) :
    Relation.ReflTransGen Step b b' :=
  h.lift mirror fun _ _ h => .inr h

/-! ### Replays are sound -/

/-- The front add of their pending changes is not yet in their staging state. -/
theorem Consistent.replay_add_fresh (hc : b.Consistent) {h : ChannelHtlc}
    {rest : List HtlcStaging} (hb : b.theirs = .add h :: rest) : h.id ∉ ids b.rt :=
  (hc.theirs.addsMem h (by simp [hb])).2

/-- The front fail or fulfill of their pending changes finds its HTLC in their staging state. -/
theorem Consistent.replay_remove_found (hc : b.Consistent) {s : HtlcStaging}
    {rest : List HtlcStaging} {id : UInt64} (hb : b.theirs = s :: rest)
    (hs : s.removes = some id) : ∃ (n : Nat) (x : ChannelHtlc), b.ro[n]? = some x ∧ x.id = id := by
  obtain ⟨x, hx, rfl⟩ := mem_ids.1 (hc.theirs.removalsMem id
    (by simp [hb, removals_cons_of_removes hs])).1
  obtain ⟨n, hn⟩ := List.mem_iff_getElem?.1 hx
  exact ⟨n, x, hn, rfl⟩

/-! ### Pending fulfills -/

/-- Every pending fulfill of theirs carries a preimage, under `sha`, of the HTLC of ours that it
names in their staging state. -/
def Preimaged (sha : Sha256 → Sha256) (b : Buffers) : Prop :=
  ∀ id r, .fulfill id r ∈ b.theirs → ∃ x ∈ b.ro, x.id = id ∧ sha r = x.rhash

theorem Preimaged.replay {sha : Sha256 → Sha256} (hp : b.Preimaged sha) (hc : b.Consistent)
    {b' : Buffers} (hs : Replay b b') : b'.Preimaged sha := by
  cases hs with
  | add hb => exact fun id r hm => hp id r (by rw [hb]; exact List.mem_cons_of_mem _ hm)
  | @remove _ _ _ x hb hs hx =>
    intro id r hm
    obtain ⟨y, hy, rfl, hr⟩ := hp id r (by rw [hb]; exact List.mem_cons_of_mem _ hm)
    have hnd := hc.theirs.removalsNodup
    rw [hb, removals_cons_of_removes hs] at hnd
    -- the other pending removals name other HTLCs than the one replayed
    have hne : y.id ≠ x.id := fun he =>
      (List.nodup_cons.1 hnd).1 (he ▸ mem_removals.2 ⟨_, hm, rfl⟩)
    exact ⟨y, (mem_eraseIdx_iff hc.nodupRo hx).2 ⟨hy, hne⟩, rfl, hr⟩

theorem Preimaged.replays {sha : Sha256 → Sha256} (hp : b.Preimaged sha) (hc : b.Consistent)
    {b' : Buffers} (hs : Relation.ReflTransGen Replay b b') : b'.Preimaged sha := by
  induction hs with
  | refl => exact hp
  | tail hs1 hs ih => exact ih.replay (hc.replays hs1) hs

end Buffers

end Lightning
