import Clockchain.V1.Arrival

/-!
# Edge pins

An edge is one author's chain of pins between two subjects. A current edge follows both
subjects to their heads, and only its author's events move its heads.
-/

namespace Clockchain.V1
open Relation Maps Programs
set_option autoImplicit false

/-- `e` continues the assertion `base` of `edge`: the same author, ends and edge, with the
assertion in its past. -/
def Continues (C : Candidates) (edge : Hash) (base : Signed) (ends : Pins) (e : Hash) : Prop :=
  ∃ t pins past, C[e]? = some t ∧ t.envelope.author = base.envelope.author ∧
    edgeOf e t = some edge ∧ pinsOf t = some pins ∧ pins.SameEnds ends ∧
    coneKeys C e = some past ∧ edge ∈ past

/-- The pin shows what its subject's only head selects, and nothing was revised since its
basis. -/
def Pin.Followed (C : Candidates) (p : Projection) (pin : Pin) : Prop :=
  ∃ reading ∈ p.subjects, reading.subject = pin.subject ∧ ∃ head, reading.frontier.toList = [head] ∧
    (∃ row ∈ p.rows, row.event = head ∧ row.revision = some pin.revision) ∧
    (∃ rev ∈ p.revisions, rev.id = pin.revision ∧ rev.body = pin.body) ∧
    ∃ past basisPast, coneKeys C head = some past ∧ pin.basis ∈ past ∧
      coneKeys C pin.basis = some basisPast ∧
      ∀ x ∈ past, x ∉ basisPast → ∀ t, C[x]? = some t → t.envelope.payload.revises = false

/-- An event of the edge that was pending is valid among the events of `C'`. -/
def Completes (cr : Crypto) (C C' : Candidates) (edge : Hash) : Prop :=
  ∃ out out' e t st, classify cr C = some out ∧ classify cr C' = some out' ∧ C[e]? = some t ∧
    edgeOf e t = some edge ∧ out[e]? = some st ∧ st.state = .pending ∧ Admitted out' e

/-! ## The history of an edge -/

namespace Verdicts
variable {cr : Crypto} {C : Candidates} {out : BTreeMap Status} {s : Subjects}
variable (verdicts : Verdicts cr C out s)
include verdicts

theorem edge_anc {edge e : Hash} (h : EdgeValid C out edge e) : (history cr C).Anc edge e := by
  induction verdicts.linked.acyclic h with
  | intro e _ ih =>
    obtain ⟨event, hs, _, chained⟩ := verdicts.chained h
    rcases chained.rooted with rfl | ⟨p, hp⟩
    · exact ReflTransGen.refl
    · have hparent : (history cr C).parent p e := ⟨event, hs, hp⟩
      exact (ih p hparent (verdicts.linked.parent h hparent)).tail hparent

theorem edge_cone {edge e : Hash} (h : EdgeValid C out edge e) :
    ∃ past, coneKeys C e = some past ∧ ∀ a, a ∈ past ↔ (history cr C).Anc a e :=
  coneKeys_spec fun _ ha => (verdicts.linked.anc h ha).mem

theorem continues {edge e : Hash} {base : Signed} {ends : Pins} (h : EdgeValid C out edge e)
    (hbase : C[edge]? = some base) (hends : pinsOf base = some ends) :
    Continues C edge base ends e := by
  obtain ⟨event, hs, hedge, chained⟩ := verdicts.chained h
  obtain ⟨t, pins, basePins, ht, hauthor, hpins, hbasePins, hsame⟩ := chained.same
  obtain rfl := Option.some.inj (hbase.symm.trans ht)
  obtain rfl := Option.some.inj (hends.symm.trans hbasePins)
  obtain ⟨past, hpast, hanc⟩ := verdicts.edge_cone h
  exact ⟨event, pins, past, hs, hauthor, hedge, hpins, hsame, hpast,
    (hanc edge).mpr (verdicts.edge_anc h)⟩

/-- No head of an edge is in the past of another. -/
theorem heads_antichain {edge h k : Hash} {past : BTreeSet} (hh : h ∈ edgeHeads cr C out edge)
    (hk : k ∈ edgeHeads cr C out edge) (hpast : coneKeys C h = some past) (hmem : k ∈ past) :
    k = h := by
  obtain ⟨past', hpast', hanc⟩ := verdicts.edge_cone hh.1
  obtain rfl := Option.some.inj (hpast.symm.trans hpast')
  exact ((hanc k).mp hmem).eq_or_before.resolve_right (hk.2 h hh.1)

/-! ## Current pins -/

theorem followed {A : Authority} {p : Projection} (projected : Projected cr C out A p) {pin : Pin}
    {head : Hash} (holds : pin.Holds C out s) (current : pin.Current cr (validOf C out) A head) :
    pin.Followed C p := by
  have branch := verdicts.branch
  have hF : head ∈ (history cr (validOf C out)).Frontier A.revokes
      (actsOf (validOf C out) pin.subject) := by
    rw [current.single]
    rfl
  obtain ⟨⟨t, ht, hsubject⟩, _⟩ := hF
  obtain ⟨g, hg, hkind, _⟩ := branch.genesis_exists ht
  rw [hsubject] at hg
  obtain ⟨reading, hreading, hname⟩ : ∃ reading ∈ p.subjects, reading.subject = pin.subject :=
    List.mem_map.mp (projected.named ▸ genesesOf_mem.mpr ⟨g, hg, hkind⟩)
  have hfrontier : ∀ e, e ∈ reading.frontier ↔ e = head := by
    intro e
    rw [(projected.subjects reading hreading).frontier, hname, current.single]
    rfl
  have hhead : head ∈ validOf C out := mem_of_getElem? ht
  obtain ⟨past, hpast, hanc⟩ := coneKeys_spec (branch.known hhead)
  have hbasis := branch.lawful.anc_mem current.basis hhead
  obtain ⟨basisPast, hbasisPast, hbasisAnc⟩ := coneKeys_spec (branch.known hbasis)
  refine ⟨reading, hreading, hname, head, ?_, ?_, ?_, past, basisPast, hpast, ?_, hbasisPast, ?_⟩
  · have hnodup := nodup_toList reading.frontier
    have hall : ∀ e, e ∈ reading.frontier.toList ↔ e = head := fun e =>
      Std.ExtTreeSet.mem_toList.trans (hfrontier e)
    exact List.perm_singleton.mp
      ((List.perm_ext_iff_of_nodup hnodup (List.nodup_singleton head)).mpr
      fun e => (hall e).trans List.mem_singleton.symm)
  · have hkey : head ∈ C.keys := Std.ExtTreeMap.mem_keys.mpr (branch.within.mem hhead)
    obtain ⟨row, hrow, rfl⟩ := List.mem_map.mp (projected.events ▸ hkey)
    have reads := projected.rows row hrow
    obtain ⟨rev, hrev⟩ := Option.isSome_iff_exists.mp (reads.revision.mpr hhead)
    obtain ⟨c, u, hc, hu, hid⟩ := current.selected
    obtain ⟨d, v, hd, hv, rfl⟩ := reads.selected hrev
    obtain rfl := hc.unique branch.free_within hd
    obtain rfl := Option.some.inj (hu.symm.trans hv)
    exact ⟨row, hrow, rfl, by rw [hrev, hid]⟩
  · obtain ⟨rev, hrev, hbody⟩ := holds.body
    rw [verdicts.reads.revisions] at hrev
    obtain ⟨_, _, _, _, hid⟩ := (revisions_get branch.free_within).mp hrev
    refine ⟨rev, ?_, hid, hbody⟩
    rw [projected.revisions]
    exact List.mem_map.mpr ⟨_, Std.ExtTreeMap.mem_toList_iff_getElem?_eq_some.mpr hrev, rfl⟩
  · exact (hanc _).mpr (branch.within.anc current.basis)
  · intro x hx hxb t ht
    have hxhead := (branch.within.anc_lift branch.closed hhead ((hanc x).mp hx))
    refine current.unrevised (branch.within.get hxhead.1 ht) hxhead.2 fun h => hxb ?_
    exact (hbasisAnc x).mpr (branch.within.anc h)

/-- A current edge shows the pins of its only head, and both are followed. -/
theorem current_followed {A : Authority} {p : Projection} (projected : Projected cr C out A p)
    {r : EdgeReading} (hr : r ∈ p.edges) (hcurrent : r.status = .current) :
    ∃ pins, r.pins = [pins] ∧ pins.source.Followed C p ∧ pins.target.Followed C p := by
  have reads := projected.edges r hr
  obtain ⟨pins, hpins, ⟨source, hsource⟩, target, htarget⟩ := reads.current hcurrent
  have hmap := reads.pins
  rw [hpins] at hmap
  obtain ⟨h, hh⟩ : ∃ h, h ∈ r.heads.toList := by
    refine List.exists_mem_of_ne_nil _ fun hnil => ?_
    simp [hnil] at hmap
  obtain ⟨pins', hmem, hshown⟩ := mapM_some hmap h hh
  obtain rfl := List.mem_singleton.mp hmem
  have hvalid := ((reads.heads h).mp (Std.ExtTreeSet.mem_toList.mp hh)).1
  obtain ⟨event, hs, _, chained⟩ := verdicts.chained hvalid
  obtain ⟨pins, hof, hsourceHolds, htargetHolds⟩ := chained.pins
  have heq : pins = pins' := by
    simpa [pinsAt, hs, hof] using hshown
  subst heq
  exact ⟨pins, hpins, verdicts.followed projected hsourceHolds hsource,
    verdicts.followed projected htargetHolds htarget⟩

end Verdicts

/-! ## Arrivals -/

section
variable {cr : Crypto} {C C' : Candidates} {out out' : BTreeMap Status} {s s' : Subjects}
variable (verdicts : Verdicts cr C out s) (verdicts' : Verdicts cr C' out' s')
variable (within : Within C C')
include verdicts verdicts' within

/-- Foreign arrivals add no event to an edge. -/
theorem edge_valid_iff {edge : Hash} {base : Signed} (hbase : C[edge]? = some base)
    (foreign : ∀ x t, x ∉ C → C'[x]? = some t → t.envelope.author ≠ base.envelope.author)
    (complete : ∀ e t st, C[e]? = some t → edgeOf e t = some edge → out[e]? = some st →
      st.state = .pending → ¬ Admitted out' e) (e : Hash) :
    EdgeValid C' out' edge e ↔ EdgeValid C out edge e := by
  constructor
  · intro h
    obtain ⟨t, st', ht, hedge, hst', hvalid⟩ := h
    by_cases he : e ∈ C
    · have htC := within.get he ht
      obtain ⟨st, hst⟩ := verdicts.get he
      have hadmitted : Admitted out' e := admitted_iff.mpr ⟨st', hst', hvalid⟩
      have hpending : st.state ≠ .pending := fun h =>
        complete e t st htC hedge hst h hadmitted
      obtain ⟨v, hv, hsame⟩ :=
        verdict_persists verdicts verdicts' htC (within.extends e) st hst hpending
      obtain rfl := Option.some.inj (hst'.symm.trans hv)
      exact ⟨t, st, htC, hedge, hst, hsame ▸ hvalid⟩
    · obtain ⟨u, hu, _, chained⟩ := verdicts'.chained ⟨t, st', ht, hedge, hst', hvalid⟩
      obtain rfl := Option.some.inj (ht.symm.trans hu)
      obtain ⟨b, _, _, hb, hauthor, _⟩ := chained.same
      obtain rfl := Option.some.inj ((within.sub hbase).symm.trans hb)
      exact absurd hauthor (foreign e t he ht)
  · rintro ⟨t, st, ht, hedge, hst, hvalid⟩
    obtain ⟨st', hst', hsame⟩ := verdict_persists verdicts verdicts' ht (within.extends e) st hst
      (by simp [hvalid])
    exact ⟨t, st', within.sub ht, hedge, hst', hsame.trans hvalid⟩

/-- The same events of an edge have the same heads. -/
theorem edgeHeads_eq {edge : Hash}
    (same : ∀ e, EdgeValid C' out' edge e ↔ EdgeValid C out edge e) :
    edgeHeads cr C' out' edge = edgeHeads cr C out edge := by
  ext e
  simp only [edgeHeads, Set.mem_ofPred_eq, same]
  refine and_congr_right fun he => forall_congr' fun x => forall_congr' fun hx => not_congr ?_
  have hanc := (within.extends x).anc_iff fun a ha => (verdicts.linked.anc hx ha).mem
  constructor
  · intro hbefore
    refine ((hanc e).mp hbefore.anc).eq_or_before.resolve_left ?_
    rintro rfl
    exact verdicts'.edge_irrefl ((same e).mpr he) hbefore
  · exact fun hbefore => within.before hbefore

/-- Foreign arrivals leave the reading of an edge its heads and its pins. -/
theorem edge_reading_stays {A A' : Authority} {p p' : Projection}
    (projected : Projected cr C out A p) (projected' : Projected cr C' out' A' p')
    {r : EdgeReading} (hr : r ∈ p.edges)
    (foreign : ∀ x t, x ∉ C → C'[x]? = some t → t.envelope.author ≠ r.author)
    (complete : ∀ e t st, C[e]? = some t → edgeOf e t = some r.edge → out[e]? = some st →
      st.state = .pending → ¬ Admitted out' e) :
    ∃ r' ∈ p'.edges, r'.edge = r.edge ∧ r'.heads = r.heads ∧ r'.pins = r.pins := by
  have reads := projected.edges r hr
  obtain ⟨base, pins, decision, hbase, hauthor, hp⟩ := reads.asserted
  have same := edge_valid_iff verdicts verdicts' within hbase (hauthor ▸ foreign) complete
  obtain ⟨_, st', _, _, hst', hvalid'⟩ := (same r.edge).mpr reads.valid
  have hlisted : r.edge ∈ assertsOf out' C'.toList := by
    refine List.mem_map.mpr ⟨(r.edge, base), List.mem_filter.mpr ⟨?_, ?_⟩, rfl⟩
    · exact Std.ExtTreeMap.mem_toList_iff_getElem?_eq_some.mpr (within.sub hbase)
    · simp [hp, Payload.kind, hst', hvalid']
  obtain ⟨r', hr', hedge⟩ := List.mem_map.mp (projected'.asserts ▸ hlisted)
  have reads' := projected'.edges r' hr'
  have hheads : r'.heads = r.heads := by
    refine Std.ExtTreeSet.ext_mem fun {e} => ?_
    rw [reads'.heads, reads.heads, hedge, edgeHeads_eq verdicts verdicts' within same]
  refine ⟨r', hr', hedge, hheads, ?_⟩
  have hpins : r'.heads.toList.mapM (pinsAt C') = r.heads.toList.mapM (pinsAt C) := by
    rw [hheads]
    refine mapM_congr fun h hh => ?_
    obtain ⟨t, ht⟩ := mem_iff.mp ((reads.heads h).mp (Std.ExtTreeSet.mem_toList.mp hh)).1.mem
    rw [pinsAt, pinsAt, ht, within.sub ht]
  rw [reads'.pins, reads.pins] at hpins
  exact Option.some.inj hpins

end

/-- What a projection says of an edge: its history continues the assertion, its heads are
incomparable, a current edge follows both of its pins, and only events of its author move
its heads and its pins. -/
theorem edge_pins_kept (cr : Crypto) (C : Candidates) (free : CollisionFree cr C) {p : Projection}
    (hp : project cr C = some p) {r : EdgeReading} (hr : r ∈ p.edges) :
    (∃ base ends decision, C[r.edge]? = some base ∧ base.envelope.author = r.author ∧
      base.envelope.payload = .edgeAssert r.relation ends decision ∧
      ∀ e ∈ r.history, Continues C r.edge base ends e) ∧
    (∀ h ∈ r.heads, ∀ k ∈ r.heads, ∀ past, coneKeys C h = some past → k ∈ past → k = h) ∧
    (r.status = .current → ∃ pins, r.pins = [pins] ∧ pins.source.Followed C p ∧
      pins.target.Followed C p) ∧
    ∀ X : Candidates, (∀ x ∈ X, x ∉ C) → CollisionFree cr (C ∪ X) →
      (∀ (x : Hash) (t : Signed), X[x]? = some t → t.envelope.author ≠ r.author) →
      ¬ Completes cr C (C ∪ X) r.edge →
      ∃ p', project cr (C ∪ X) = some p' ∧
        ∃ r' ∈ p'.edges, r'.edge = r.edge ∧ r'.heads = r.heads ∧ r'.pins = r.pins := by
  obtain ⟨out, s, A, p₀, hout, verdicts, _, _, hp₀, projected⟩ := project_spec free
  obtain rfl := Option.some.inj (hp.symm.trans hp₀)
  have reads := projected.edges r hr
  obtain ⟨base, ends, decision, hbase, hauthor, hassert⟩ := reads.asserted
  refine ⟨⟨base, ends, decision, hbase, hauthor, hassert, fun e he => ?_⟩, ?_,
    verdicts.current_followed projected hr, fun X fresh free' foreign complete => ?_⟩
  · exact verdicts.continues ((reads.history e).mp he) hbase (by simp [pinsOf, hassert])
  · intro h hh k hk past hpast hmem
    exact verdicts.heads_antichain ((reads.heads h).mp hh) ((reads.heads k).mp hk) hpast hmem
  · obtain ⟨out', s', A', p', hout', verdicts', _, _, hp', projected'⟩ := project_spec free'
    have hget : ∀ k : Hash, (C ∪ X)[k]? = X[k]?.or C[k]? := fun k => getElem?_union_eq
    have within : Within C (C ∪ X) := by
      refine ⟨fun {e t} ht => ?_⟩
      have hnone : X[e]? = none := by
        by_contra hsome
        obtain ⟨u, hu⟩ := Option.ne_none_iff_exists'.mp hsome
        exact fresh e (mem_of_getElem? hu) (mem_of_getElem? ht)
      simp [hget, hnone, ht]
    refine ⟨p', hp', edge_reading_stays verdicts verdicts' within projected projected' hr ?_ ?_⟩
    · intro x t hx ht
      rw [hget, Option.or_eq_some_iff] at ht
      exact foreign x t (ht.resolve_right fun h => hx (mem_of_getElem? h.2))
    · intro e t st ht hedge hst hpending hadmitted
      exact complete ⟨out, out', e, t, st, hout, hout', ht, hedge, hst, hpending, hadmitted⟩

namespace Sample

/-- `digests`, and those of events `9` to `12`, each under its own id. -/
def farDigests : List ((Nat × Nat × Nat) × Hash) :=
  digests ++
  [((52, 49, 9), 0x6d7750e40f4c68b663da4ab8a6e67dbae0d92f7f8dd939db110dec30dc56c876),
   ((52, 49, 10), 0x1dedd873b393150a87744a14461168be4909b7bbbdef6b6ec2be31aeee04c6f9),
   ((52, 49, 11), 0x4a5639684f088b8ccff07ffbaec240df013c49bb043da627cd0ce58526c065b1),
   ((52, 49, 12), 0x1be614ddf2569c0bfb6859d57e98e527f4bc9d134dffb7bd97dfc5b9c858992a),
   ((82, 9, 9), 0x4198e150e743fb119b06daa7ab7ee69267ab731667534bd7c6c4c0c844323410),
   ((82, 10, 10), 0xff39360dafb9da94f00fdeefbc80d5bd7fe08b4c1ceade15471006b6da4c8c2e),
   ((82, 11, 11), 0x7f491f4d4e57abaa4bd2e80834f66eaf118f182be702f68d6cdc11d83a8449ae),
   ((82, 12, 12), 0xd961a861072059955380bdecb6ea05cfe7f4f841ee410ca003dcc4704324de62)]

def farCrypto : Crypto where
  sha256 bytes := (farDigests.lookup (bytes.length, (bytes.getD (bytes.length - 33) 0).toNat,
    (bytes.getLastD 0).toNat)).getD 0
  authorKey := crypto.authorKey

/-- The pins of the subjects `1` and `9` at their Geneses. -/
def ends : Pins :=
  ⟨⟨1, 1, revisionId farCrypto 1 1, 7⟩, ⟨9, 9, revisionId farCrypto 9 9, 8⟩⟩

def edgeAssert (author : Hash) (relation : String) (pins : Pins) : Envelope :=
  ⟨0, author, none, none, none, [], none,
    .edgeAssert relation pins (decision .edgeAssert [] .none (.pins pins))⟩

def edgeReaffirm (author edge parent : Hash) (old new : Pins) : Envelope :=
  ⟨0, author, none, none, none, [parent], none, .edgeReaffirm edge [⟨parent, old⟩] new
    (decision .edgeReaffirm [parent] (.parentPins [⟨parent, old⟩]) (.pins new))⟩

end Sample

/-- Two subjects and an edge from the first to the second. -/
def related : Candidates := Sample.candidates
  [(1, Sample.genesis Sample.alice 7), (9, Sample.genesis Sample.bob 8),
   (10, Sample.edgeAssert Sample.carol "influence" Sample.ends)]

/-- A reaffirmation by another author. -/
def reaffirmed : Candidates := Sample.candidates
  [(11, Sample.edgeReaffirm Sample.alice 10 10 Sample.ends Sample.ends)]

theorem related_free : CollisionFree Sample.farCrypto related := by decide +kernel

theorem edge_pins_kept_related : ∃ p r, project Sample.farCrypto related = some p ∧ r ∈ p.edges ∧
    r.edge = 10 ∧ r.status = .current ∧
    (∃ pins, r.pins = [pins] ∧ pins.source.Followed related p ∧ pins.target.Followed related p) ∧
    ∃ p', project Sample.farCrypto (related ∪ reaffirmed) = some p' ∧
      ∃ r' ∈ p'.edges, r'.edge = r.edge ∧ r'.heads = r.heads ∧ r'.pins = r.pins := by
  have free := related_free
  have free' : CollisionFree Sample.farCrypto (related ∪ reaffirmed) := by decide +kernel
  have h : (do
      let p ← project Sample.farCrypto related
      let r ← p.edges[0]?
      return r.edge = 10 && r.author = Sample.carol && r.status = .current) = some true := by
    decide +kernel
  obtain ⟨p, hp, h⟩ := Option.bind_eq_some_iff.mp h
  obtain ⟨r, hr, h⟩ := Option.bind_eq_some_iff.mp h
  simp only [Option.pure_def, Option.some.injEq, Bool.and_eq_true, decide_eq_true_eq] at h
  obtain ⟨⟨hedge, hauthor⟩, hcurrent⟩ := h
  obtain ⟨_, _, hfollowed, hstays⟩ :=
    edge_pins_kept Sample.farCrypto related free hp (List.mem_of_getElem? hr)
  refine ⟨p, r, hp, List.mem_of_getElem? hr, hedge, hcurrent, hfollowed hcurrent,
    hstays reaffirmed ?_ free' ?_ ?_⟩
  · have hkeys : (reaffirmed.keys.all fun x => !related.contains x) = true := by decide
    intro x hx
    simpa using List.all_eq_true.mp hkeys x (Std.ExtTreeMap.mem_keys.mpr hx)
  · have hauthors : (reaffirmed.toList.all fun item => item.2.envelope.author ≠ Sample.carol) =
        true := by decide
    intro x t ht
    simpa [hauthor] using List.all_eq_true.mp hauthors (x, t)
      (Std.ExtTreeMap.mem_toList_iff_getElem?_eq_some.mpr ht)
  · -- No event was pending.
    have hnone : (classify Sample.farCrypto related).any (fun out => out.toList.all fun item =>
        item.2.state ≠ .pending) = true := by decide +kernel
    rintro ⟨out, _, e, _, st, hout, _, _, _, hst, hpending, _⟩
    rw [hout, Option.any_some, List.all_eq_true] at hnone
    simpa [hpending] using hnone (e, st) (Std.ExtTreeMap.mem_toList_iff_getElem?_eq_some.mpr hst)

end Clockchain.V1
