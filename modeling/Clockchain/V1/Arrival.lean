import Clockchain.V1.Extension
import Clockchain.V1.Revocation

/-!
# Arrival of events

What has been admitted or refused stays so when events arrive; only a pending event
changes state. An admitted event depends on nothing but the events it reaches.
-/

namespace Clockchain.V1
open Relation Maps Programs
set_option autoImplicit false

section
variable {cr : Crypto} {C C' : Candidates} {out out' : BTreeMap Status} {s s' : Subjects}

/-! ## Subject events -/

/-- What the loop can evaluate in the larger set it can evaluate in the smaller. -/
theorem Settled.back {e : Hash} (h : Settled C' e) (hext : Extends cr C C' e) {t : Signed}
    (ht : C[e]? = some t) : Settled C e := by
  induction h generalizing t with
  | @alone e u hu hsubject hfree =>
    obtain rfl := Option.some.inj (hu.symm.trans (hext.self ht))
    refine .alone ht hsubject (hfree.imp_right ?_)
    rintro ⟨p, hp, hstray⟩
    refine ⟨p, hp, ?_⟩
    cases hpC : C[p]? with
    | none => rfl
    | some v => rwa [(hext.look (.parent ht hp)).self hpC] at hstray
  | @after e u hu hsubject _ ih =>
    obtain rfl := Option.some.inj (hu.symm.trans (hext.self ht))
    by_cases hknown : ∀ p ∈ parentsOf u, p ∈ C
    · refine .after ht hsubject fun p hp => ?_
      obtain ⟨v, hv⟩ := mem_iff.mp (hknown p hp)
      exact ih p hp (hext.look (.parent ht hp)) hv
    · simp only [not_forall] at hknown
      obtain ⟨p, hp, hnot⟩ := hknown
      refine .alone ht hsubject (Or.inr ⟨p, hp, ?_⟩)
      rw [Std.ExtTreeMap.getElem?_eq_none hnot]
      rfl

theorem Verdicts.valid_settled (verdicts : Verdicts cr C out s) {e : Hash} {t : Signed}
    {st : Status} (ht : C[e]? = some t) (hsubject : isSubject t = true)
    (hst : out[e]? = some st) (hvalid : st.state = .valid) : Settled C e := by
  by_contra hnot
  rw [verdicts.subjectCycle ht hsubject hnot] at hst
  simp [← Option.some.inj hst] at hvalid

variable (verdicts : Verdicts cr C out s) (verdicts' : Verdicts cr C' out' s')
include verdicts verdicts'

theorem subject_step {e : Hash} {t : Signed} (ht : C[e]? = some t) (hsubject : isSubject t = true)
    (hset : Settled C e) (hext : Extends cr C C' e)
    (keeps : t.envelope.payload.kind ≠ .genesis →
      (∀ p ∈ parentsOf t, (C[p]?).any isSubject = true) →
      ∀ p ∈ parentsOf t, Persists out[p]? out'[p]?) : Persists out[e]? out'[e]? := by
  have ht' := hext.self ht
  by_cases hset' : Settled C' e
  · rw [← verdicts.subject ht hsubject hset, ← verdicts'.subject ht' hsubject hset']
    exact evaluate_persists verdicts verdicts' ht hext keeps
  · intro a ha hpending
    refine ⟨_, verdicts'.subjectCycle ht' hsubject hset', ?_⟩
    cases hstate : a.state with
    | invalid => rfl
    | pending => exact absurd hstate hpending
    | valid =>
      -- The parents of a valid event are valid in both, so the loop gets to the event.
      refine absurd (Settled.after ht' hsubject fun p hp => ?_) hset'
      obtain ⟨u, st, hu, husub, hst, hvalid⟩ := verdicts.sound.parent ht hsubject ha hstate hp
      by_cases hkind : t.envelope.payload.kind = .genesis
      · have hnil := ((verdicts.sound.obeys ht hsubject ha hstate).genesis hkind).2.2
        simp [hnil] at hp
      · have hall : ∀ q ∈ parentsOf t, (C[q]?).any isSubject = true := by
          intro q hq
          obtain ⟨v, _, hv, hvsub, _⟩ := verdicts.sound.parent ht hsubject ha hstate hq
          simp [hv, hvsub]
        obtain ⟨st', hst', heq⟩ := keeps hkind hall p hp st hst (by simp [hvalid])
        exact verdicts'.valid_settled ((hext.look (.parent ht hp)).self hu) husub hst'
          (heq.trans hvalid)

theorem subject_persists {e : Hash} {t : Signed} (ht : C[e]? = some t)
    (hsubject : isSubject t = true) (hext : Extends cr C C' e) : Persists out[e]? out'[e]? := by
  by_cases hset : Settled C e
  · induction hset generalizing t with
    | @alone e u hu hsub hfree =>
      refine subject_step verdicts verdicts' hu hsub (.alone hu hsub hfree) hext fun hkind hall =>
        ?_
      obtain ⟨p, hp, hstray⟩ := hfree.resolve_left hkind
      rw [hall p hp] at hstray
      exact absurd hstray (by simp)
    | @after e u hu hsub hparents ih =>
      refine subject_step verdicts verdicts' hu hsub (.after hu hsub hparents) hext
        fun hkind hall p hp => ?_
      obtain ⟨v, hv, hvsub⟩ := (Option.any_eq_true _ _).mp (hall p hp)
      exact ih p hp hv hvsub (hext.look (.parent hu hp))
  · intro a ha hpending
    obtain rfl := Option.some.inj ((verdicts.subjectCycle ht hsubject hset).symm.trans ha)
    have hset' : ¬ Settled C' e := fun h => hset (h.back hext ht)
    exact ⟨_, verdicts'.subjectCycle (hext.self ht) hsubject hset', rfl⟩

theorem valid_stays (within : Within C C') {e : Hash} {t : Signed}
    (h : (validOf C out)[e]? = some t) : (validOf C' out')[e]? = some t := by
  obtain ⟨ht, hsubject, st, hst, hvalid⟩ := validOf_get.mp h
  obtain ⟨st', hst', heq⟩ := subject_persists verdicts verdicts' ht hsubject
    (within.extends e) st hst
    (by simp [hvalid])
  exact validOf_get.mpr ⟨within.sub ht, hsubject, st', hst', heq.trans hvalid⟩

/-- An event that is valid in the larger set is valid in the smaller one that holds its past. -/
theorem valid_back_past (within : Within C C') {e : Hash} {t : Signed}
    (known : ∀ d, (history cr (validOf C' out')).Anc d e → d ∈ C)
    (h : (validOf C' out')[e]? = some t) : (validOf C out)[e]? = some t := by
  have branch := verdicts'.branch
  obtain ⟨ht, hsubject, st, hst, hvalid⟩ := validOf_get.mp h
  -- All it reaches is in its past: only edges and attestations look elsewhere.
  have hreach : ∀ d, Reaches cr C' e d → (history cr (validOf C' out')).Anc d e := by
    intro d hd
    induction hd using ReflTransGen.head_induction_on with
    | refl => exact .refl
    | @head a c hlook _ ih =>
      obtain ⟨u, hu⟩ := mem_iff.mp (branch.lawful.anc_mem ih (mem_of_getElem? h))
      have huC' := branch.within.sub hu
      have husub := (branch.law hu).subject
      cases hlook with
      | parent hs hp =>
        obtain rfl := Option.some.inj (huC'.symm.trans hs)
        exact .head ⟨u, hu, hp⟩ ih
      | subject hs hnamed =>
        obtain rfl := Option.some.inj (huC'.symm.trans hs)
        obtain ⟨genesis, hgenesis, -, hanc⟩ := branch.genesis_exists hu
        rw [subjectOf, hnamed, Option.getD_some] at hgenesis hanc
        exact hanc.trans ih
      | pin hs hpins _ _ =>
        obtain rfl := Option.some.inj (huC'.symm.trans hs)
        cases hp : u.envelope.payload <;> simp [pinsOf, isSubject, hp, Payload.kind] at hpins husub
      | edge hs hedge =>
        obtain rfl := Option.some.inj (huC'.symm.trans hs)
        rw [(edgeOf_subject hedge).1] at husub
        cases husub
      | target hs hp =>
        obtain rfl := Option.some.inj (huC'.symm.trans hs)
        simp [isSubject, hp, Payload.kind] at husub
      | revision hs hp _ _ _ =>
        obtain rfl := Option.some.inj (huC'.symm.trans hs)
        simp [isSubject, hp, Payload.kind] at husub
  have hext : Extends cr C' C e := fun d hd u hu => within.get (known d (hreach d hd)) hu
  obtain ⟨st', hst', heq⟩ := subject_persists verdicts' verdicts ht hsubject hext st hst
    (by simp [hvalid])
  exact validOf_get.mpr ⟨hext.self ht, hsubject, st', hst', heq.trans hvalid⟩

/-- An event of a causally closed set is valid in the larger set only if it is in the smaller. -/
theorem valid_back (closed : Closed C) (within : Within C C') {e : Hash} {t : Signed} (he : e ∈ C)
    (h : (validOf C' out')[e]? = some t) : (validOf C out)[e]? = some t :=
  valid_back_past verdicts verdicts' within (fun _ hanc =>
    (within.anc_lift closed he (verdicts'.branch.within.anc hanc)).1) h

/-! ## Pins -/

omit verdicts verdicts' in
theorem Selects.mono {V W : Candidates} (h : Within V W) {e c : Hash} (hc : Selects cr V e c) :
    Selects cr W e c := by
  induction hc with
  | create hs hb => exact .create (h.sub hs) hb
  | choose hs hr ht hb hid => exact .choose (h.sub hs) hr (h.sub ht) hb hid
  | keep hs hb hr hp _ ih => exact .keep (h.sub hs) hb hr hp ih

/-- A valid event selects one revision, with one body, in both. -/
theorem selected_same {b : Hash} (hext : Extends cr C C' b) (hb : b ∈ validOf C out)
    (hb' : b ∈ validOf C' out') : ∃ (r : Hash) (rev rev' : Revision),
      s.selected[b]? = some r ∧ s'.selected[b]? = some r ∧ s.revisions[r]? = some rev ∧
        s'.revisions[r]? = some rev' ∧ rev'.body = rev.body := by
  have cone := verdicts.branch.cone_branch hb
  have hcone := verdicts.branch.coneOf_eq verdicts'.branch hext hb hb'
  have cone' : Branch cr C' (coneOf C b) := hcone ▸ verdicts'.branch.cone_branch hb'
  have hmem : b ∈ coneOf C b := (verdicts.branch.cone_part hb).mem_iff.mpr
    ⟨verdicts.branch.within.mem hb, ReflTransGen.refl⟩
  have hW : Within (coneOf C b) (validOf C out) := ⟨fun {a t} ht => by
    obtain ⟨htC, ha⟩ := (verdicts.branch.cone_part hb a t).mp ht
    exact verdicts.branch.within.get
      (verdicts.branch.within.anc_lift verdicts.branch.closed hb ha).1 htC⟩
  have hW' : Within (coneOf C b) (validOf C' out') := ⟨fun {a t} ht => by
    rw [← hcone] at ht
    obtain ⟨htC, ha⟩ := (verdicts'.branch.cone_part hb' a t).mp ht
    exact verdicts'.branch.within.get
      (verdicts'.branch.within.anc_lift verdicts'.branch.closed hb' ha).1 htC⟩
  obtain ⟨c, hc, _⟩ := cone.selects_exists hmem
  obtain ⟨t, ht, hnew⟩ := hc.creator
  obtain ⟨body, hbody⟩ := Option.isSome_iff_exists.mp hnew
  obtain ⟨r, hr⟩ := mem_iff.mp (verdicts.reads.total b hb)
  obtain ⟨r', hr'⟩ := mem_iff.mp (verdicts'.reads.total b hb')
  have hfree := verdicts.branch.free_within
  have hfree' := verdicts'.branch.free_within
  obtain rfl := verdicts.reads.selected.get hfree hr (hc.mono hW) (hW.sub ht)
  obtain rfl := verdicts'.reads.selected.get hfree' hr' (hc.mono hW') (hW'.sub ht)
  obtain ⟨rev, hrev, _, hrb⟩ := revisions_created hfree (hW.sub ht) hbody
  obtain ⟨rev', hrev', _, hrb'⟩ := revisions_created hfree' (hW'.sub ht) hbody
  exact ⟨_, rev, rev', hr, hr', by rw [verdicts.reads.revisions, hrev],
    by rw [verdicts'.reads.revisions, hrev'], hrb'.trans hrb.symm⟩

theorem checkPin_persists {pin : Pin} (hsubject : Extends cr C C' pin.subject)
    (hbasis : Extends cr C C' pin.basis) :
    Persists (checkPin pin C out s) (checkPin pin C' out' s') := by
  unfold checkPin
  refine persists_missing ?_ fun hmissing _ => ?_
  · simp only [Bool.not_eq_true', List.isEmpty_eq_false_iff, ne_eq, List.dedup_eq_nil,
      List.filter_eq_nil_iff, List.mem_cons, List.not_mem_nil, or_false, forall_eq_or_imp,
      forall_eq, contains_eq_false, not_not]
    refine mt fun h => ⟨?_, ?_⟩
    · obtain ⟨t, ht⟩ := mem_iff.mp h.1
      exact mem_of_getElem? (hsubject.self ht)
    · obtain ⟨t, ht⟩ := mem_iff.mp h.2
      exact mem_of_getElem? (hbasis.self ht)
  refine persists_bind fun basis hb => ⟨basis, hbasis.self hb, ?_⟩
  refine persists_bind fun genesis hg => ⟨genesis, hsubject.self hg, ?_⟩
  refine persists_guard Iff.rfl fun hguard => persists_bind fun st hst => ?_
  simp only [Bool.or_eq_true, decide_eq_true_eq, Bool.not_eq_true', not_or,
    Bool.not_eq_false] at hguard
  obtain ⟨st', hst'⟩ := mem_iff.mp
    ((verdicts'.mem pin.basis).mpr (mem_of_getElem? (hbasis.self hb)))
  have hkeeps := subject_persists verdicts verdicts' hb hguard.1.2 hbasis
  rw [hst, hst'] at hkeeps
  refine ⟨st', hst', ?_⟩
  cases hstate : st.state with
  | pending =>
    intro a ha hpending
    simp [← Option.some.inj ha] at hpending
  | invalid =>
    simp only [hkeeps.value (by simp [hstate]), hstate]
    exact .refl _
  | valid =>
    have hstate' : st'.state = .valid := (hkeeps.value (by simp [hstate])).trans hstate
    have hmem : pin.basis ∈ validOf C out :=
      mem_of_getElem? (validOf_get.mpr ⟨hb, hguard.1.2, st, hst, hstate⟩)
    have hmem' : pin.basis ∈ validOf C' out' :=
      mem_of_getElem? (validOf_get.mpr ⟨hbasis.self hb, hguard.1.2, st', hst', hstate'⟩)
    obtain ⟨r, rev, rev', hr, hr', hrev, hrev', hbody⟩ :=
      selected_same verdicts verdicts' hbasis hmem hmem'
    simp only [hstate', hr, hr', Option.bind_eq_bind, Option.bind_some]
    refine persists_guard Iff.rfl fun hrevision => ?_
    obtain rfl := not_not.mp hrevision
    simp only [hrev, hrev', Option.bind_some, hbody]
    exact .refl _

omit verdicts verdicts' in
theorem checkPin_status {pin : Pin} {status : Status} (h : checkPin pin C out s = some status)
    (hvalid : status.state = .valid) : status = .valid := by
  unfold checkPin at h
  obtain ⟨_, h⟩ := passed_pending h hvalid
  obtain ⟨_, _, h⟩ := Option.bind_eq_some_iff.mp h
  obtain ⟨_, _, h⟩ := Option.bind_eq_some_iff.mp h
  obtain ⟨_, h⟩ := passed_invalid h hvalid
  obtain ⟨st, _, h⟩ := Option.bind_eq_some_iff.mp h
  cases hstate : st.state with
  | valid =>
    simp only [hstate] at h
    obtain ⟨_, _, h⟩ := Option.bind_eq_some_iff.mp h
    obtain ⟨_, h⟩ := passed_invalid h hvalid
    obtain ⟨_, _, h⟩ := Option.bind_eq_some_iff.mp h
    obtain ⟨_, h⟩ := passed_invalid h hvalid
    exact (Option.some.inj h).symm
  | _ =>
    simp only [hstate] at h
    simp [← Option.some.inj h] at hvalid

/-- Both pins of an event. -/
def ExtendsPins (cr : Crypto) (C C' : Candidates) (pins : Pins) : Prop :=
  ∀ pin, pin = pins.source ∨ pin = pins.target →
    Extends cr C C' pin.subject ∧ Extends cr C C' pin.basis

theorem checkPins_persists {pins : Pins} (hext : ExtendsPins cr C C' pins) :
    Persists (checkPins pins C out s) (checkPins pins C' out' s') := by
  have hsource := checkPin_persists verdicts verdicts' (hext _ (Or.inl rfl)).1
    (hext _ (Or.inl rfl)).2
  have htarget := checkPin_persists verdicts verdicts' (hext _ (Or.inr rfl)).1
    (hext _ (Or.inr rfl)).2
  have returns' := checkPin_some verdicts'.reads verdicts'.branch.free_within
    fun ht _ => (verdicts'.mem _).mpr (mem_of_getElem? ht)
  unfold checkPins
  refine persists_bind fun a ha => ?_
  obtain ⟨b, hb⟩ := returns' pins.source
  refine ⟨b, hb, persists_bind fun c hc => ?_⟩
  obtain ⟨d, hd⟩ := returns' pins.target
  refine ⟨d, hd, ?_⟩
  rw [ha, hb] at hsource
  rw [hc, hd] at htarget
  by_cases hainv : a.state = .invalid
  · have hbinv := (hsource.value (by simp [hainv])).trans hainv
    rw [if_pos hainv, if_pos hbinv]
    exact fun _ h _ => ⟨b, rfl, by rw [← Option.some.inj h, hainv, hbinv]⟩
  by_cases hcinv : c.state = .invalid
  · have hdinv := (htarget.value (by simp [hcinv])).trans hcinv
    rw [if_neg hainv, if_pos hcinv]
    intro _ h _
    by_cases hbinv : b.state = .invalid
    · exact ⟨b, if_pos hbinv, by rw [← Option.some.inj h, hcinv, hbinv]⟩
    · exact ⟨d, by rw [if_neg hbinv, if_pos hdinv]; rfl, by rw [← Option.some.inj h, hcinv, hdinv]⟩
  intro x hx hpending
  rw [if_neg hainv, if_neg hcinv] at hx
  dsimp only at hx
  -- The pins are not pending, so both are valid and nothing is missing.
  have hboth : a.state = .valid ∧ c.state = .valid := by
    refine ⟨State.eq_valid hainv fun hap => hpending ?_,
      State.eq_valid hcinv fun hcp => hpending ?_⟩
    · split_ifs at hx
      · rw [← Option.some.inj hx, Status.pending_state]
      · rw [← Option.some.inj hx, hap]
    · split_ifs at hx with _ h2
      · rw [← Option.some.inj hx, Status.pending_state]
      · rw [← Option.some.inj hx, h2]
      · rw [← Option.some.inj hx, hcp]
  have hb' := checkPin_status hb ((hsource.value (by simp [hboth.1])).trans hboth.1)
  have hd' := checkPin_status hd ((htarget.value (by simp [hboth.2])).trans hboth.2)
  obtain rfl := checkPin_status ha hboth.1
  obtain rfl := checkPin_status hc hboth.2
  subst hb' hd'
  exact ⟨x, hx, rfl⟩

/-! ## Edge events -/

theorem evaluateAssert_persists {e : Envelope} {relation : String} {pins : Pins} {d : Decision}
    (hext : ExtendsPins cr C C' pins) :
    Persists (evaluateAssert C out s e relation pins d)
      (evaluateAssert C' out' s' e relation pins d) := by
  unfold evaluateAssert
  refine persists_guard Iff.rfl fun _ => persists_guard Iff.rfl fun _ =>
    persists_guard Iff.rfl fun _ => persists_bind fun a ha => ?_
  obtain ⟨b, hb⟩ := checkPins_some verdicts'.reads verdicts'.branch.free_within
    (fun ht _ => (verdicts'.mem _).mpr (mem_of_getElem? ht)) pins
  refine ⟨b, hb, ?_⟩
  have hpins := checkPins_persists verdicts verdicts' hext
  rw [ha, hb] at hpins
  by_cases hvalid : a.state = .valid
  · have hvalid' := (hpins.value (by simp [hvalid])).trans hvalid
    obtain ⟨t, ht, _⟩ := (checkPins_valid ha hvalid).1.genesis
    simp only [hvalid, hvalid', ne_eq, not_true, if_false, ht,
      (hext _ (Or.inl rfl)).1.self ht]
    exact .refl _
  · intro x hx hpending
    rw [if_pos hvalid] at hx
    obtain rfl := Option.some.inj hx
    have heq := hpins.value hpending
    exact ⟨b, by rw [if_pos (by rwa [heq])]; rfl, heq⟩

omit verdicts verdicts' in
theorem anyM_congr {α : Type} {f g : α → Option Bool} {l : List α} (h : ∀ x ∈ l, f x = g x) :
    l.anyM f = l.anyM g := by
  induction l with
  | nil => rfl
  | cons x l ih =>
    simp only [List.anyM, h x List.mem_cons_self, ih fun y hy => h y (List.mem_cons_of_mem x hy)]

/-- The history of a reaffirmation is looked at the same way in both. -/
theorem evaluateReaffirmed_persists {e : Envelope} {edge : Hash} {base : Signed}
    {old : List ParentPins} {new : Pins} {d : Decision}
    (hparents : ∀ p ∈ e.parents, Extends cr C C' p ∧ EdgeValid C out edge p ∧
      EdgeValid C' out' edge p) (hpins : ExtendsPins cr C C' new) :
    Persists (evaluateReaffirmed C out s e base old new d)
      (evaluateReaffirmed C' out' s' e base old new d) := by
  have hcone : ∀ p ∈ e.parents, cone C' p = cone C p := by
    intro p hp
    obtain ⟨hext, hvalid, hvalid'⟩ := hparents p hp
    obtain ⟨hrun, hpart⟩ := verdicts.linked.cone_part hvalid
    obtain ⟨hrun', hpart'⟩ := verdicts'.linked.cone_part hvalid'
    rw [hrun, hrun', hext.part_eq (fun a ha => (verdicts.linked.anc hvalid ha).mem) hpart hpart']
  have hcomparable : comparable C' e.parents = comparable C e.parents := by
    unfold comparable
    rw [anyM_congr fun p hp => by rw [hcone p hp]]
  unfold evaluateReaffirmed
  rw [hcomparable]
  refine persists_bind fun b hb => ⟨b, hb, persists_guard Iff.rfl fun _ =>
    persists_bind fun basePins hbase => ⟨basePins, hbase, persists_guard Iff.rfl fun _ =>
    persists_guard Iff.rfl fun hold => ?_⟩⟩
  have hmisquoted : old.anyM (ParentPins.misquoted C') = old.anyM (ParentPins.misquoted C) := by
    refine anyM_congr fun o ho => ?_
    have hp : o.parent ∈ e.parents := by
      rw [← not_not.mp hold]
      exact List.mem_map_of_mem ho
    obtain ⟨hext, ⟨t, _, ht, _⟩, _⟩ := hparents o.parent hp
    simp only [ParentPins.misquoted, ht, hext.self ht]
  rw [hmisquoted]
  exact persists_bind fun c hc => ⟨c, hc, persists_guard Iff.rfl fun _ =>
    persists_guard Iff.rfl fun _ => checkPins_persists verdicts verdicts' hpins⟩

theorem evaluateReaffirm_persists {e : Envelope} {edge : Hash} {old : List ParentPins}
    {new : Pins} {d : Decision} (hext : ∀ p ∈ e.parents ++ [edge], Extends cr C C' p)
    (hpins : ExtendsPins cr C C' new)
    (keeps : ∀ p ∈ e.parents ++ [edge], ∀ t, C[p]? = some t → isSubject t = false →
      isAttestation t = false → Persists out[p]? out'[p]?) :
    Persists (evaluateReaffirm C out s e edge old new d)
      (evaluateReaffirm C' out' s' e edge old new d) := by
  unfold evaluateReaffirm
  refine persists_guard Iff.rfl fun _ => persists_missing ?_ fun hmissing _ => ?_
  · simp only [sortedSet_isEmpty, Bool.not_eq_true', List.isEmpty_eq_false_iff, ne_eq,
      List.filter_eq_nil_iff, contains_eq_false, not_not]
    refine mt fun hall p hp => ?_
    obtain ⟨t, ht⟩ := mem_iff.mp (hall p hp)
    exact mem_of_getElem? ((hext p hp).self ht)
  have known : ∀ p ∈ e.parents ++ [edge], ∃ t, C[p]? = some t ∧ C'[p]? = some t := by
    simp only [sortedSet_isEmpty, Bool.not_eq_true', List.isEmpty_eq_false_iff, ne_eq, not_not,
      List.filter_eq_nil_iff, contains_eq_false] at hmissing
    intro p hp
    obtain ⟨t, ht⟩ := mem_iff.mp (hmissing p hp)
    exact ⟨t, ht, (hext p hp).self ht⟩
  have hmem : ∀ p ∈ e.parents, p ∈ e.parents ++ [edge] := fun p hp => List.mem_append_left _ hp
  have helsewhere : e.parents.anyM (elsewhere C' edge) = e.parents.anyM (elsewhere C edge) := by
    refine anyM_congr fun p hp => ?_
    obtain ⟨t, ht, ht'⟩ := known p (hmem p hp)
    simp only [elsewhere, ht, ht']
  refine persists_bind fun base hbase =>
    ⟨base, (hext edge (by simp)).self hbase, persists_guard Iff.rfl fun hkind => ?_⟩
  rw [helsewhere]
  refine persists_bind fun b hb => ⟨b, hb, persists_guard Iff.rfl fun hnone => ?_⟩
  rw [Bool.not_eq_true] at hnone
  have hedge : ∀ p ∈ e.parents ++ [edge], ∃ t, C[p]? = some t ∧ edgeOf p t = some edge := by
    intro p hp
    rcases List.mem_append.mp hp with hp | hp
    · exact anyM_elsewhere (hnone ▸ hb) p hp
    · obtain rfl := List.mem_singleton.mp hp
      refine ⟨base, hbase, ?_⟩
      cases hp : base.envelope.payload <;> simp [hp, Payload.kind, edgeOf] at hkind ⊢
  have hkeeps : ∀ p ∈ e.parents ++ [edge], Persists out[p]? out'[p]? := by
    intro p hp
    obtain ⟨t, ht, hedge⟩ := hedge p hp
    exact keeps p hp t ht (edgeOf_subject hedge).1 (edgeOf_subject hedge).2
  refine persists_bind fun states hstates => ?_
  obtain ⟨states', hstates'⟩ :
      ∃ states', (e.parents ++ [edge]).mapM (fun p => out'[p]?) = some states' := by
    refine ⟨_, mapM_spec (g := fun p => out'[p]?.getD .valid) fun p hp => ?_⟩
    obtain ⟨t, _, ht'⟩ := known p hp
    obtain ⟨st, hst⟩ := mem_iff.mp ((verdicts'.mem p).mpr (mem_of_getElem? ht'))
    simp [hst]
  have kept : Kept out out' (e.parents ++ [edge]) states states' := ⟨hstates, hstates', hkeeps⟩
  refine ⟨states', hstates', persists_failing kept.invalid (fun hinvalid _ => ?_)
    fun hinvalid hinvalid' a ha hvalid => ?_⟩
  · refine persists_guard Iff.rfl fun _ => persists_missing (fun hpending' => ?_)
      fun hpending _ => ?_
    · by_contra hpending
      exact kept.none (states_valid hstates hinvalid hpending) (by simp) hpending'
    have hall := states_valid hstates hinvalid hpending
    have hparents : ∀ p ∈ e.parents, Extends cr C C' p ∧ EdgeValid C out edge p ∧
        EdgeValid C' out' edge p := by
      intro p hp
      obtain ⟨t, ht, hedge⟩ := hedge p (hmem p hp)
      obtain ⟨st, hst⟩ := hall p (hmem p hp)
      obtain ⟨st', hst'⟩ := kept.valid hall p (hmem p hp)
      exact ⟨hext p (hmem p hp), ⟨t, st, ht, hedge, hst⟩,
        ⟨t, st', (hext p (hmem p hp)).self ht, hedge, hst'⟩⟩
    exact evaluateReaffirmed_persists verdicts verdicts' hparents hpins
  · obtain ⟨_, ha⟩ := passed_invalid ha hvalid
    obtain ⟨hpending, _⟩ := passed_pending ha hvalid
    exact kept.none (states_valid hstates hinvalid hpending) (by simp) hinvalid'

theorem evaluateAttestation_persists {e : Envelope} {k : TargetKind} {target : Hash}
    {artifact : String} (hrevision : k = .revision → target ∈ s.revisions → target ∈ s'.revisions)
    (hevent : k = .event → ∀ t, C[target]? = some t → C'[target]? = some t ∧
      (isAttestation t = false → Persists out[target]? out'[target]?)) :
    Persists (some (evaluateAttestation C out s e k target artifact))
      (some (evaluateAttestation C' out' s' e k target artifact)) := by
  unfold evaluateAttestation
  by_cases hparents : (!e.parents.isEmpty) = true
  · simp only [if_pos hparents]
    exact .refl _
  by_cases hkind : artifact.isEmpty = true
  · simp only [if_neg hparents, if_pos hkind]
    exact .refl _
  simp only [if_neg hparents, if_neg hkind]
  cases k with
  | revision =>
    by_cases hr : target ∈ s.revisions
    · simp only [contains_iff.mpr hr, contains_iff.mpr (hrevision rfl hr)]
      exact .refl _
    · intro a ha hpending
      simp [contains_eq_false.mpr hr] at ha
      simp [← ha] at hpending
  | event =>
    cases ht : C[target]? with
    | none =>
      intro a ha hpending
      simp [← Option.some.inj ha] at hpending
    | some t =>
      obtain ⟨ht', hkeeps⟩ := hevent rfl t ht
      simp only [ht']
      by_cases hatt : t.envelope.payload.kind = .attestation
      · simp only [if_pos hatt]
        exact .refl _
      · obtain ⟨st, hst⟩ := mem_iff.mp ((verdicts.mem target).mpr (mem_of_getElem? ht))
        obtain ⟨st', hst'⟩ := mem_iff.mp ((verdicts'.mem target).mpr (mem_of_getElem? ht'))
        have hkeeps := hkeeps (by simp [isAttestation, hatt])
        rw [hst, hst'] at hkeeps
        simp only [if_neg hatt, hst, hst', Option.map_some]
        cases hstate : st.state with
        | pending =>
          intro a ha hpending
          simp [← Option.some.inj ha] at hpending
        | invalid =>
          simp only [hkeeps.value (by simp [hstate]), hstate]
          exact .refl _
        | valid =>
          simp only [hkeeps.value (by simp [hstate]), hstate]
          exact .refl _

theorem evaluateEdge_persists {e : Hash} {t : Signed} (ht : C[e]? = some t)
    (hext : Extends cr C C' e)
    (keeps : ∀ d, Looks cr C d e → d ∈ edgeDeps t ∨ isAttestation t = true → ∀ u,
      C[d]? = some u → isSubject u = false → isAttestation u = false →
      Persists out[d]? out'[d]?) :
    Persists (evaluateEdge e C out s) (evaluateEdge e C' out' s') := by
  have hpins : ∀ pins, pinsOf t = some pins → ExtendsPins cr C C' pins :=
    fun pins hpins pin hpin => ⟨hext.look (.pin ht hpins hpin (Or.inl rfl)),
      hext.look (.pin ht hpins hpin (Or.inr rfl))⟩
  unfold evaluateEdge
  refine persists_bind fun t' ht' => ⟨t', hext.self ht', persists_guard Iff.rfl fun _ => ?_⟩
  obtain rfl := Option.some.inj (ht.symm.trans ht')
  cases hp : t.envelope.payload with
  | edgeAssert relation pins d =>
    exact evaluateAssert_persists verdicts verdicts' (hpins pins (by simp [pinsOf, hp]))
  | edgeReaffirm edge old new d =>
    have hlooks : ∀ p ∈ t.envelope.parents ++ [edge], Looks cr C p e := by
      intro p hmem
      rcases List.mem_append.mp hmem with hmem | hmem
      · exact .parent ht hmem
      · exact .edge ht (by simp [edgeOf, hp, List.mem_singleton.mp hmem])
    refine evaluateReaffirm_persists verdicts verdicts' (fun p hmem => hext.look (hlooks p hmem))
      (hpins new (by simp [pinsOf, hp])) fun p hmem => keeps p (hlooks p hmem) (Or.inl ?_)
    simpa [edgeDeps, hp, parentsOf] using hmem
  | attestation k target artifactKind artifact =>
    refine evaluateAttestation_persists verdicts verdicts' (fun hk hr => ?_) fun hk u hu => ?_
    · -- The creator of the revision is valid in both.
      subst hk
      rw [verdicts.reads.revisions] at hr
      obtain ⟨rev, hrev⟩ := mem_iff.mp hr
      obtain ⟨c, u, hu, hof, hid⟩ := (revisions_get verdicts.branch.free_within).mp hrev
      obtain ⟨hrid, _, _, hbody⟩ := revisionOf_some hof
      obtain ⟨huC, husub, st, hst, hvalid⟩ := validOf_get.mp hu
      have hlook : Looks cr C c e := .revision ht hp huC (by simp [hbody]) (hrid.symm.trans hid)
      obtain ⟨st', hst', heq⟩ := subject_persists verdicts verdicts' huC husub (hext.look hlook) st
        hst (by simp [hvalid])
      have hu' := validOf_get.mpr ⟨(hext.look hlook).self huC, husub, st', hst', heq.trans hvalid⟩
      obtain ⟨rev', hrev', _⟩ := revisions_created verdicts'.branch.free_within hu' hbody
      rw [verdicts'.reads.revisions, ← hid, hrid]
      exact mem_of_getElem? hrev'
    · subst hk
      have hlook : Looks cr C target e := .target ht hp
      refine ⟨(hext.look hlook).self hu, fun hatt => ?_⟩
      cases hsub : isSubject u with
      | true => exact subject_persists verdicts verdicts' hu hsub (hext.look hlook)
      | false =>
        have hmedia : isAttestation t = true := by simp [isAttestation, hp, Payload.kind]
        exact keeps target hlook (Or.inr hmedia) u hu hsub hatt
  | _ => exact .refl _

/-! ## All events -/

omit verdicts verdicts' in
theorem edgeDeps_looks {e d : Hash} {t : Signed} (ht : C[e]? = some t) (hd : d ∈ edgeDeps t) :
    Looks cr C d e := by
  cases hp : t.envelope.payload with
  | edgeReaffirm edge old new dec =>
    simp only [edgeDeps, hp, List.mem_append, List.mem_singleton] at hd
    rcases hd with hd | hd
    · exact .parent ht hd
    · exact .edge ht (by simp [edgeOf, hp, hd])
  | _ =>
    simp only [edgeDeps, hp] at hd
    exact .parent ht hd

omit verdicts verdicts' in
theorem EdgeSettled.back {e : Hash} (h : EdgeSettled C' e) (hext : Extends cr C C' e) {t : Signed}
    (ht : C[e]? = some t) : EdgeSettled C e := by
  induction h generalizing t with
  | @after e u hu hsubject hmedia _ ih =>
    obtain rfl := Option.some.inj (hu.symm.trans (hext.self ht))
    refine .after ht hsubject hmedia fun d hd v hv hvsub hvatt => ?_
    have hext := hext.look (edgeDeps_looks ht hd)
    exact ih d hd v (hext.self hv) hvsub hvatt hext hv

omit verdicts verdicts' in
theorem edgeOf_some {t : Signed} (hsub : isSubject t = false) (hatt : isAttestation t = false)
    (e : Hash) : ∃ edge, edgeOf e t = some edge := by
  cases hp : t.envelope.payload <;>
    simp [hp, isSubject, isAttestation, Payload.kind, edgeOf] at hsub hatt ⊢

omit verdicts' in
/-- What a valid edge event waited for is valid. -/
theorem edge_deps_valid {edge e d : Hash} {t : Signed} (h : EdgeValid C out edge e)
    (ht : C[e]? = some t) (hd : d ∈ edgeDeps t) : EdgeValid C out edge d := by
  obtain ⟨u, hu, hedge, chained⟩ := verdicts.chained h
  obtain rfl := Option.some.inj (ht.symm.trans hu)
  rcases edgeOf_cases hedge with ⟨relation, pins, dec, hp, _⟩ | ⟨old, new, dec, hp⟩
  · simp only [edgeDeps, hp] at hd
    exact chained.parents d hd
  · simp only [edgeDeps, hp, List.mem_append, List.mem_singleton] at hd
    rcases hd with hd | rfl
    · exact chained.parents d hd
    · obtain ⟨base, hbase, hkind, heq | hvalid⟩ := chained.base
      · subst heq
        obtain rfl := Option.some.inj (ht.symm.trans hbase)
        simp [hp, Payload.kind] at hkind
      · exact hvalid

omit verdicts' in
theorem Verdicts.valid_edge_settled {edge e : Hash} (h : EdgeValid C out edge e) :
    EdgeSettled C e := by
  obtain ⟨t, st, ht, hedge, hst, hvalid⟩ := h
  by_contra hnot
  rw [verdicts.edgeCycle ht (edgeOf_subject hedge).1 (edgeOf_subject hedge).2 hnot] at hst
  simp [← Option.some.inj hst] at hvalid

theorem edge_persists {e : Hash} {t : Signed} (ht : C[e]? = some t)
    (hsub : isSubject t = false) (hatt : isAttestation t = false) (hext : Extends cr C C' e) :
    Persists out[e]? out'[e]? := by
  by_cases hset : EdgeSettled C e
  · induction hset generalizing t with
    | @after e u hu hsub hatt hdeps ih =>
      obtain rfl := Option.some.inj (hu.symm.trans ht)
      have keeps : ∀ d ∈ edgeDeps u, ∀ v, C[d]? = some v → isSubject v = false →
          isAttestation v = false → Persists out[d]? out'[d]? :=
        fun d hd v hv hvsub hvatt =>
          ih d hd v hv hvsub hvatt hv hvsub hvatt (hext.look (edgeDeps_looks ht hd))
      by_cases hset' : EdgeSettled C' e
      · rw [← verdicts.edge ht hsub hatt (.after ht hsub hatt hdeps),
          ← verdicts'.edge (hext.self ht) hsub hatt hset']
        exact evaluateEdge_persists verdicts verdicts' ht hext fun d _ hd => keeps d
          (hd.resolve_right (by simp [hatt]))
      · intro a ha hpending
        refine ⟨_, verdicts'.edgeCycle (hext.self ht) hsub hatt hset', ?_⟩
        cases hstate : a.state with
        | invalid => rfl
        | pending => exact absurd hstate hpending
        | valid =>
          -- What a valid event waited for is valid in both, so the loop gets to the event.
          obtain ⟨edge, hedge⟩ := edgeOf_some hsub hatt e
          have hvalid : EdgeValid C out edge e := ⟨u, a, ht, hedge, ha, hstate⟩
          refine absurd (EdgeSettled.after (hext.self ht) hsub hatt fun d hd w hw hwsub hwatt => ?_)
            hset'
          obtain ⟨v, st, hv, hvedge, hst, hstv⟩ := edge_deps_valid verdicts hvalid ht hd
          have hv' := (hext.look (edgeDeps_looks ht hd)).self hv
          obtain rfl := Option.some.inj (hw.symm.trans hv')
          obtain ⟨st', hst', heq⟩ := keeps d hd w hv hwsub hwatt st hst (by simp [hstv])
          exact verdicts'.valid_edge_settled ⟨w, st', hw, hvedge, hst', heq.trans hstv⟩
  · intro a ha hpending
    obtain rfl := Option.some.inj ((verdicts.edgeCycle ht hsub hatt hset).symm.trans ha)
    have hset' : ¬ EdgeSettled C' e := fun h => hset (h.back hext ht)
    exact ⟨_, verdicts'.edgeCycle (hext.self ht) hsub hatt hset', rfl⟩

/-- A verdict that is not pending persists when what the event reaches does. -/
theorem verdict_persists {e : Hash} {t : Signed} (ht : C[e]? = some t)
    (hext : Extends cr C C' e) : Persists out[e]? out'[e]? := by
  cases hsub : isSubject t with
  | true => exact subject_persists verdicts verdicts' ht hsub hext
  | false =>
    cases hatt : isAttestation t with
    | false => exact edge_persists verdicts verdicts' ht hsub hatt hext
    | true =>
      rw [← verdicts.media ht hatt, ← verdicts'.media (hext.self ht) hatt]
      exact evaluateEdge_persists verdicts verdicts' ht hext fun d hlook _ u hu husub huatt =>
        edge_persists verdicts verdicts' hu husub huatt (hext.look hlook)

end

/-- `out` calls `e` invalid. -/
def Refused (out : BTreeMap Status) (e : Hash) : Prop :=
  (out[e]?).any fun st => st.state = .invalid

theorem refused_iff {out : BTreeMap Status} {e : Hash} :
    Refused out e ↔ ∃ st : Status, out[e]? = some st ∧ st.state = .invalid := by
  simp [Refused, Option.any_eq_true]

/-- Events that arrive leave admitted events admitted and refused events refused; an
admitted event is admitted wherever the events it reaches are known. -/
theorem admission_stable (cr : Crypto) (C C' : Candidates) (free : CollisionFree cr C)
    (free' : CollisionFree cr C') {out out' : BTreeMap Status} (hout : classify cr C = some out)
    (hout' : classify cr C' = some out') :
    (Within C C' → (∀ e, Admitted out e → Admitted out' e) ∧ ∀ e, Refused out e → Refused out' e) ∧
      ∀ e, Admitted out e → (∀ d, Reaches cr C e d → C'[d]? = C[d]?) → Admitted out' e := by
  obtain ⟨_, s, hrun, verdicts⟩ := classify_spec free
  obtain rfl := Option.some.inj (hout.symm.trans hrun)
  obtain ⟨_, s', hrun', verdicts'⟩ := classify_spec free'
  obtain rfl := Option.some.inj (hout'.symm.trans hrun')
  have hpersists : ∀ {e : Hash} {st : Status}, Extends cr C C' e → out[e]? = some st →
      st.state ≠ .pending → ∃ st' : Status, out'[e]? = some st' ∧ st'.state = st.state := by
    intro e st hext hst hpending
    obtain ⟨t, ht⟩ := mem_iff.mp ((verdicts.mem e).mp (mem_of_getElem? hst))
    exact verdict_persists verdicts verdicts' ht hext st hst hpending
  refine ⟨fun within => ⟨fun e he => ?_, fun e he => ?_⟩, fun e he hagree => ?_⟩
  · obtain ⟨st, hst, hstate⟩ := admitted_iff.mp he
    obtain ⟨st', hst', heq⟩ := hpersists (within.extends e) hst (by simp [hstate])
    exact admitted_iff.mpr ⟨st', hst', heq.trans hstate⟩
  · obtain ⟨st, hst, hstate⟩ := refused_iff.mp he
    obtain ⟨st', hst', heq⟩ := hpersists (within.extends e) hst (by simp [hstate])
    exact refused_iff.mpr ⟨st', hst', heq.trans hstate⟩
  · obtain ⟨st, hst, hstate⟩ := admitted_iff.mp he
    have hext : Extends cr C C' e := fun d hd t ht => by rw [hagree d hd, ht]
    obtain ⟨st', hst', heq⟩ := hpersists hext hst (by simp [hstate])
    exact admitted_iff.mpr ⟨st', hst', heq.trans hstate⟩

/-- A revoke arrives after the correction it does not acknowledge. -/
theorem admission_stable_overridden : ∃ out out', classify Sample.crypto delegated = some out ∧
    classify Sample.crypto overridden = some out' ∧
    (Within delegated overridden → (∀ e, Admitted out e → Admitted out' e) ∧
      ∀ e, Refused out e → Refused out' e) ∧
    ∀ e, Admitted out e → (∀ d, Reaches Sample.crypto delegated e d →
      overridden[d]? = delegated[d]?) → Admitted out' e := by
  have free := delegated_run.1
  have free' := overridden_run.1
  obtain ⟨out, _, hout, _⟩ := classify_spec free
  obtain ⟨out', _, hout', _⟩ := classify_spec free'
  exact ⟨out, out', hout, hout',
    admission_stable Sample.crypto delegated overridden free free' hout hout'⟩

end Clockchain.V1
