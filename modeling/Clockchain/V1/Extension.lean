import Clockchain.V1.Soundness

/-!
# Verdicts under extension

Two candidate sets that agree on what an event looks at give it one verdict, as long as
the first does not leave it pending.
-/

namespace Clockchain.V1
open Relation Maps Programs
set_option autoImplicit false

/-! ## Verdicts that persist -/

/-- Unless `x` is pending, `y` is a verdict of the same state. -/
def Persists (x y : Option Status) : Prop :=
  ∀ a, x = some a → a.state ≠ .pending → ∃ b : Status, y = some b ∧ b.state = a.state

section
variable {x x' : Option Status}

theorem Persists.refl (x : Option Status) : Persists x x := fun a ha _ => ⟨a, ha, rfl⟩

theorem Persists.value {a b : Status} (h : Persists (some a) (some b))
    (hstate : a.state ≠ .pending) : b.state = a.state := by
  obtain ⟨_, hb, heq⟩ := h a rfl hstate
  rw [Option.some.inj hb, heq]

section
variable {c c' : Prop} [Decidable c] [Decidable c']

theorem persists_guard {y : Option Status} (hc : c ↔ c') (h : ¬ c → Persists x x') :
    Persists (if c then y else x) (if c' then y else x') := by
  by_cases hx : c
  · rw [if_pos hx, if_pos (hc.mp hx)]
    exact .refl y
  · rw [if_neg hx, if_neg (mt hc.mpr hx)]
    exact h hx

/-- What is missing from the larger set is missing from the smaller. -/
theorem persists_missing {r r' : Reason} {m m' : List Hash} (hc : c' → c)
    (h : ¬ c → ¬ c' → Persists x x') :
    Persists (if c then pure (Status.pending r m) else x)
      (if c' then pure (Status.pending r' m') else x') := by
  by_cases hx : c
  · rw [if_pos hx]
    intro a ha hpending
    rw [← Option.some.inj ha] at hpending
    exact absurd rfl hpending
  · rw [if_neg hx, if_neg (mt hc hx)]
    exact h hx (mt hc hx)

/-- A check may come to fail, where what follows it did not end well. -/
theorem persists_failing {r : Reason} (hc : c → c') (h : ¬ c → ¬ c' → Persists x x')
    (hturn : ¬ c → c' → ∀ a, x = some a → a.state ≠ .valid) :
    Persists (if c then pure (Status.invalid r) else x)
      (if c' then pure (Status.invalid r) else x') := by
  by_cases hx : c
  · rw [if_pos hx, if_pos (hc hx)]
    exact .refl _
  · by_cases hx' : c'
    · rw [if_neg hx, if_pos hx']
      intro a ha hpending
      refine ⟨_, rfl, ?_⟩
      cases hstate : a.state with
      | invalid => rfl
      | pending => exact absurd hstate hpending
      | valid => exact absurd hstate (hturn hx hx' a ha)
    · rw [if_neg hx, if_neg hx']
      exact h hx hx'

end

theorem persists_bind {α β : Type} {y : Option α} {y' : Option β} {f : α → Option Status}
    {f' : β → Option Status}
    (h : ∀ a, y = some a → ∃ b, y' = some b ∧ Persists (f a) (f' b)) :
    Persists (y >>= f) (y' >>= f') := by
  cases hy : y with
  | none => intro _ ha; exact absurd ha (by simp)
  | some a =>
    obtain ⟨b, hb, hp⟩ := h a hy
    rw [hb]
    exact hp

end

/-! ## What an event looks at -/

/-- The admission of `e` looks at `d`. -/
inductive Looks (cr : Crypto) (C : Candidates) : Hash → Hash → Prop where
  | parent {d e : Hash} {s : Signed} : C[e]? = some s → d ∈ parentsOf s → Looks cr C d e
  | subject {d e : Hash} {s : Signed} : C[e]? = some s → s.envelope.subject = some d →
      Looks cr C d e
  | pin {d e : Hash} {s : Signed} {pins : Pins} {pin : Pin} : C[e]? = some s →
      pinsOf s = some pins → pin = pins.source ∨ pin = pins.target →
      d = pin.subject ∨ d = pin.basis → Looks cr C d e
  | edge {d e : Hash} {s : Signed} : C[e]? = some s → edgeOf e s = some d → Looks cr C d e
  | target {d e artifact : Hash} {s : Signed} {k : String} : C[e]? = some s →
      s.envelope.payload = .attestation .event d k artifact → Looks cr C d e
  | revision {d e r artifact : Hash} {s t : Signed} {k : String} : C[e]? = some s →
      s.envelope.payload = .attestation .revision r k artifact → C[d]? = some t →
      t.envelope.payload.newBody.isSome → revisionId cr (subjectOf d t) d = r → Looks cr C d e

/-- `d` is reached from `e`. -/
def Reaches (cr : Crypto) (C : Candidates) (e d : Hash) : Prop := ReflTransGen (Looks cr C) d e

/-- `C'` has every event of `C` that is reached from `e`. -/
def Extends (cr : Crypto) (C C' : Candidates) (e : Hash) : Prop :=
  ∀ d, Reaches cr C e d → ∀ t : Signed, C[d]? = some t → C'[d]? = some t

section
variable {cr : Crypto} {C C' : Candidates} {d e : Hash}

theorem Within.extends (h : Within C C') (e : Hash) : Extends cr C C' e :=
  fun _ _ _ ht => h.sub ht

theorem Extends.look (h : Extends cr C C' e) (hd : Looks cr C d e) : Extends cr C C' d :=
  fun _ hreach => h _ (ReflTransGen.tail hreach hd)

theorem Extends.self (h : Extends cr C C' e) {s : Signed} (hs : C[e]? = some s) :
    C'[e]? = some s :=
  h e ReflTransGen.refl s hs

theorem Extends.anc (h : Extends cr C C' e) (hd : (history cr C).Anc d e) : Extends cr C C' d := by
  induction hd using ReflTransGen.head_induction_on with
  | refl => exact h
  | head hp _ ih =>
    obtain ⟨s, hs, hp⟩ := hp
    exact ih.look (.parent hs hp)

/-- Ancestry is the same in both, as far as the past is known in the first. -/
theorem Extends.anc_iff (h : Extends cr C C' e)
    (known : ∀ a, (history cr C).Anc a e → a ∈ C) (a : Hash) :
    (history cr C').Anc a e ↔ (history cr C).Anc a e := by
  constructor
  · intro ha
    induction ha using ReflTransGen.head_induction_on with
    | refl => exact ReflTransGen.refl
    | @head b c hp _ ih =>
      obtain ⟨s, hs, hp⟩ := hp
      obtain ⟨t, ht⟩ := mem_iff.mp (known c ih)
      obtain rfl := Option.some.inj (hs.symm.trans ((h.anc ih).self ht))
      exact ReflTransGen.head ⟨s, ht, hp⟩ ih
  · intro ha
    induction ha using ReflTransGen.head_induction_on with
    | refl => exact ReflTransGen.refl
    | head hp hc ih =>
      obtain ⟨s, hs, hp⟩ := hp
      exact ReflTransGen.head ⟨s, (h.anc hc).self hs, hp⟩ ih

/-- The past of `e`, known in the first set, is the same part of both. -/
theorem Extends.part_eq (h : Extends cr C C' e)
    (known : ∀ a, (history cr C).Anc a e → a ∈ C) {K K' : Candidates}
    (part : IsPart K C fun a => (history cr C).Anc a e)
    (part' : IsPart K' C' fun a => (history cr C').Anc a e) : K' = K := by
  refine ext_graph fun a t => ?_
  rw [part' a t, part a t]
  refine (and_congr_right fun _ => h.anc_iff known a).trans (and_congr_left fun ha => ?_)
  refine ⟨fun ht => ?_, (h.anc ha).self⟩
  obtain ⟨u, hu⟩ := mem_iff.mp (known a ha)
  rw [← ht, (h.anc ha).self hu, hu]

end

/-! ## Subject events -/

section
variable {cr : Crypto} {C C' W W' : Candidates} (branch : Branch cr C W)
variable (branch' : Branch cr C' W')

theorem Branch.coneOf_eq (branch : Branch cr C W) (branch' : Branch cr C' W') {e : Hash}
    (h : Extends cr C C' e) (he : e ∈ W) (he' : e ∈ W') : coneOf C' e = coneOf C e :=
  h.part_eq (branch.known he) (branch.cone_part he) (branch'.cone_part he')

include branch branch' in
theorem body_eq {e : Hash} (h : Extends cr C C' e) (he : e ∈ W) (he' : e ∈ W') :
    body cr C' e = body cr C e := by
  have cone := branch.cone_branch he
  have cone' : Branch cr C' (coneOf C e) :=
    branch.coneOf_eq branch' h he he' ▸ branch'.cone_branch he'
  have hmem : e ∈ coneOf C e :=
    (branch.cone_part he).mem_iff.mpr ⟨branch.within.mem he, ReflTransGen.refl⟩
  obtain ⟨c, hc, _⟩ := cone.selects_exists hmem
  obtain ⟨t, ht, hb⟩ := hc.creator
  obtain ⟨b, hb⟩ := Option.isSome_iff_exists.mp hb
  rw [cone.body_spec hmem hc ht hb, cone'.body_spec hmem hc ht hb]

include branch branch' in
/-- The checks from the decision on only look at the pasts of the parents. -/
theorem evaluateAuthority_eq {e : Envelope} (h : ∀ p ∈ e.parents, Extends cr C C' p)
    (hp : ∀ p ∈ e.parents, p ∈ W) (hp' : ∀ p ∈ e.parents, p ∈ W') :
    evaluateAuthority cr C' e = evaluateAuthority cr C e := by
  have hcones : e.parents.map (coneOf C') = e.parents.map (coneOf C) :=
    List.map_congr_left fun p hmem => branch.coneOf_eq branch' (h p hmem) (hp p hmem) (hp' p hmem)
  have hpayload : ∀ past view g parent, parent ∈ e.parents →
      evaluatePayload cr C' past view g parent e = evaluatePayload cr C past view g parent e := by
    intro past view g parent hmem
    cases hkind : e.payload with
    | correction b d =>
      simp only [evaluatePayload, hkind,
        body_eq branch branch' (h parent hmem) (hp parent hmem) (hp' parent hmem)]
    | _ => simp only [evaluatePayload, hkind]
  unfold evaluateAuthority
  cases e.payload.decision with
  | none => rfl
  | some d =>
    refine guard_same fun _ => guard_same fun _ => bind_same fun parent hparent => ?_
    rw [branch'.cones_some hp', branch.cones_some hp, hcones]
    refine bind_same fun cones _ => guard_same fun _ => bind_same fun view _ =>
      bind_same fun g _ => guard_same fun _ => bind_same fun grant _ => guard_same fun _ =>
      bind_same fun b _ => guard_same fun _ => ?_
    exact hpayload _ view g parent (List.mem_of_getElem? hparent)

end

section
variable {cr : Crypto} {C C' : Candidates} {out out' : BTreeMap Status} {s s' : Subjects}

theorem states_spec {ps : List Hash} {states : List Status}
    (h : ps.mapM (fun p => out[p]?) = some states) (P : State) :
    states.any (fun st => st.state = P) = true ↔
      ∃ p ∈ ps, ∃ st : Status, out[p]? = some st ∧ st.state = P := by
  have hmap : ps.mapM (fun p => out[p]?) = some (ps.map fun p => out[p]?.getD .valid) :=
    mapM_spec fun p hp => by
      obtain ⟨st, _, hst⟩ := mapM_some h p hp
      simp [hst]
  obtain rfl := Option.some.inj (h.symm.trans hmap)
  simp only [List.any_map, List.any_eq_true, Function.comp_apply, decide_eq_true_eq]
  refine exists_congr fun p => and_congr_right fun hp => ?_
  obtain ⟨st, _, hst⟩ := mapM_some h p hp
  simp [hst]

/-- Where no state of `ps` is invalid or pending, all are valid. -/
theorem states_valid {ps : List Hash} {states : List Status}
    (h : ps.mapM (fun p => out[p]?) = some states)
    (hinvalid : ¬ states.any (fun st => st.state = .invalid) = true)
    (hpending : ¬ states.any (fun st => st.state = .pending) = true) :
    ∀ p ∈ ps, ∃ st : Status, out[p]? = some st ∧ st.state = .valid := by
  intro p hp
  obtain ⟨st, _, hst⟩ := mapM_some h p hp
  refine ⟨st, hst, State.eq_valid (fun hs => hinvalid ?_) fun hs => hpending ?_⟩
  · exact (states_spec h _).mpr ⟨p, hp, st, hst, hs⟩
  · exact (states_spec h _).mpr ⟨p, hp, st, hst, hs⟩

/-- The states of events whose verdicts persist. -/
structure Kept (out out' : BTreeMap Status) (ps : List Hash) (states states' : List Status) :
    Prop where
  first : ps.mapM (fun p => out[p]?) = some states
  second : ps.mapM (fun p => out'[p]?) = some states'
  keeps : ∀ p ∈ ps, Persists out[p]? out'[p]?

namespace Kept
variable {ps : List Hash} {states states' : List Status}

theorem invalid (h : Kept out out' ps states states')
    (hany : states.any (fun st => st.state = .invalid) = true) :
    states'.any (fun st => st.state = .invalid) = true := by
  obtain ⟨p, hp, st, hst, hstate⟩ := (states_spec h.first _).mp hany
  obtain ⟨st', hst', heq⟩ := h.keeps p hp st hst (by simp [hstate])
  exact (states_spec h.second _).mpr ⟨p, hp, st', hst', heq.trans hstate⟩

theorem valid (h : Kept out out' ps states states')
    (hall : ∀ p ∈ ps, ∃ st : Status, out[p]? = some st ∧ st.state = .valid) :
    ∀ p ∈ ps, ∃ st : Status, out'[p]? = some st ∧ st.state = .valid := by
  intro p hp
  obtain ⟨st, hst, hstate⟩ := hall p hp
  obtain ⟨st', hst', heq⟩ := h.keeps p hp st hst (by simp [hstate])
  exact ⟨st', hst', heq.trans hstate⟩

theorem none (h : Kept out out' ps states states')
    (hall : ∀ p ∈ ps, ∃ st : Status, out[p]? = some st ∧ st.state = .valid) {P : State}
    (hP : P ≠ .valid) : ¬ states'.any (fun st => st.state = P) = true := by
  intro hany
  obtain ⟨p, hp, st, hst, hstate⟩ := (states_spec h.second _).mp hany
  obtain ⟨st', hst', hvalid⟩ := h.valid hall p hp
  obtain rfl := Option.some.inj (hst.symm.trans hst')
  exact hP (hstate.symm.trans hvalid)

end Kept

variable (verdicts : Verdicts cr C out s) (verdicts' : Verdicts cr C' out' s')
include verdicts verdicts'

theorem evaluateParents_persists {e : Envelope} (hext : ∀ p ∈ e.parents, Extends cr C C' p)
    (hsubject : ∀ subject, e.subject = some subject → Extends cr C C' subject)
    (keeps : (∀ p ∈ e.parents, (C[p]?).any isSubject = true) →
      ∀ p ∈ e.parents, Persists out[p]? out'[p]?) :
    Persists (evaluateParents cr C out e) (evaluateParents cr C' out' e) := by
  have hmem : ∀ p ∈ e.parents, p ∈ C → p ∈ C' := by
    intro p hp hC
    obtain ⟨t, ht⟩ := mem_iff.mp hC
    exact mem_of_getElem? ((hext p hp).self ht)
  unfold evaluateParents
  refine persists_missing ?_ fun hmissing _ => ?_
  · simp only [Bool.not_eq_true', List.isEmpty_eq_false_iff, ne_eq, List.filter_eq_nil_iff,
      contains_eq_false, not_not]
    exact mt fun hall p hp => hmem p hp (hall p hp)
  have known : ∀ p ∈ e.parents, ∃ t, C[p]? = some t ∧ C'[p]? = some t := by
    simp only [Bool.not_eq_true', List.isEmpty_eq_false_iff, ne_eq, not_not,
      List.filter_eq_nil_iff, contains_eq_false] at hmissing
    intro p hp
    obtain ⟨t, ht⟩ := mem_iff.mp (hmissing p hp)
    exact ⟨t, ht, (hext p hp).self ht⟩
  have hsame : ∀ p ∈ e.parents, C'[p]? = C[p]? := by
    intro p hp
    obtain ⟨t, ht, ht'⟩ := known p hp
    rw [ht, ht']
  refine persists_guard ?_ fun hstray => ?_
  · rw [List.any_eq_true, List.any_eq_true]
    exact exists_congr fun p => and_congr_right fun hp => by rw [hsame p hp]
  have hkind : ∀ p ∈ e.parents, (C[p]?).any isSubject = true := by
    simpa using hstray
  refine persists_bind fun states hstates => ?_
  obtain ⟨states', hstates'⟩ : ∃ states', e.parents.mapM (fun p => out'[p]?) = some states' := by
    refine ⟨_, mapM_spec (g := fun p => out'[p]?.getD .valid) fun p hp => ?_⟩
    obtain ⟨t, _, ht'⟩ := known p hp
    obtain ⟨st, hst⟩ := mem_iff.mp ((verdicts'.mem p).mpr (mem_of_getElem? ht'))
    simp [hst]
  have kept : Kept out out' e.parents states states' := ⟨hstates, hstates', keeps hkind⟩
  refine ⟨states', hstates', persists_failing kept.invalid (fun hinvalid hinvalid' => ?_)
    fun hinvalid hinvalid' a ha hvalid => ?_⟩
  · refine persists_bind fun subject hnamed => ⟨subject, hnamed, ?_⟩
    have hoffence : firstOffence C' subject e = firstOffence C subject e := by
      simp only [firstOffence]
      rw [mapM_congr fun p hp => by rw [hsame p hp]]
    rw [hoffence]
    refine persists_bind fun offence ho => ⟨offence, ho, ?_⟩
    cases offence with
    | some reason => exact .refl _
    | none =>
      refine persists_missing (fun hpending' => ?_) fun hpending _ => ?_
      · by_contra hpending
        exact kept.none (states_valid hstates hinvalid hpending) (by simp) hpending'
      have hall := states_valid hstates hinvalid hpending
      cases hgenesis : C[subject]? with
      | none =>
        intro a ha hstate
        rw [← Option.some.inj ha] at hstate
        exact absurd rfl hstate
      | some genesis =>
        simp only [(hsubject subject hnamed).self hgenesis]
        refine persists_guard Iff.rfl fun _ => ?_
        have hbranch : ∀ p ∈ e.parents, p ∈ validOf C out ∧ p ∈ validOf C' out' := by
          intro p hp
          obtain ⟨t, ht, ht'⟩ := known p hp
          have hsub : isSubject t = true := by simpa [ht] using hkind p hp
          exact ⟨mem_of_getElem? (validOf_get.mpr ⟨ht, hsub, hall p hp⟩),
            mem_of_getElem? (validOf_get.mpr ⟨ht', hsub, kept.valid hall p hp⟩)⟩
        rw [evaluateAuthority_eq verdicts.branch verdicts'.branch hext
          (fun p hp => (hbranch p hp).1) fun p hp => (hbranch p hp).2]
        exact .refl _
  · -- A valid verdict has found every parent valid, and then none is invalid later.
    obtain ⟨subject, _, ha⟩ := Option.bind_eq_some_iff.mp ha
    obtain ⟨offence, _, ha⟩ := Option.bind_eq_some_iff.mp ha
    cases offence with
    | some reason =>
      simp only at ha
      simp [← Option.some.inj ha] at hvalid
    | none =>
      obtain ⟨hpending, _⟩ := passed_pending ha hvalid
      exact kept.none (states_valid hstates hinvalid hpending) (by simp) hinvalid'

theorem evaluate_persists {e : Hash} {t : Signed} (ht : C[e]? = some t)
    (hext : Extends cr C C' e)
    (keeps : t.envelope.payload.kind ≠ .genesis →
      (∀ p ∈ parentsOf t, (C[p]?).any isSubject = true) →
      ∀ p ∈ parentsOf t, Persists out[p]? out'[p]?) :
    Persists (evaluate cr e C out) (evaluate cr e C' out') := by
  simp only [evaluate, ht, hext.self ht, Option.bind_eq_bind, Option.bind_some]
  cases headerOffence t.envelope with
  | some reason => exact .refl _
  | none =>
    refine persists_guard Iff.rfl fun hkind => ?_
    refine evaluateParents_persists verdicts verdicts' (fun p hp => ?_) (fun subject hs => ?_)
      (keeps hkind)
    · exact hext.look (.parent ht hp)
    · exact hext.look (.subject ht hs)

end

end Clockchain.V1
