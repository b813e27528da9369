import Clockchain.V1.Selection

/-!
# Evaluating one event

The checks of `evaluate` return a verdict whenever the parents they look at are settled,
and a valid verdict says what each check established.
-/

namespace Clockchain.V1
open Relation Maps Programs
set_option autoImplicit false

/-! ## Guards -/

section
variable {c : Prop} [Decidable c] {x : Option Status} {status : Status}

/-- A valid verdict has passed a guard that would have been its end. -/
theorem passed_other {y : Status} (h : (if c then pure y else x) = some status)
    (hvalid : status.state = .valid) (hy : c → y.state ≠ .valid) : ¬ c ∧ x = some status := by
  by_cases hc : c
  · rw [if_pos hc] at h
    obtain rfl := Option.some.inj h
    exact absurd hvalid (hy hc)
  · exact ⟨hc, by rwa [if_neg hc] at h⟩

theorem passed_invalid {reason : Reason}
    (h : (if c then pure (Status.invalid reason) else x) = some status)
    (hvalid : status.state = .valid) : ¬ c ∧ x = some status :=
  passed_other h hvalid fun _ => by simp

theorem passed_pending {reason : Reason} {missing : List Hash}
    (h : (if c then pure (Status.pending reason missing) else x) = some status)
    (hvalid : status.state = .valid) : ¬ c ∧ x = some status :=
  passed_other h hvalid fun _ => by simp

/-- A guarded program returns when what is behind the guard does. -/
theorem guard_returns {y : Status} (h : ¬ c → ∃ status, x = some status) :
    ∃ status, (if c then pure y else x) = some status := by
  by_cases hc : c
  · exact ⟨y, if_pos hc⟩
  · rw [if_neg hc]
    exact h hc

omit [Decidable c] in
theorem bind_returns {α : Type} {y : Option α} {f : α → Option Status} {a : α} (hy : y = some a)
    (h : ∃ status, f a = some status) : ∃ status, (y >>= f) = some status := by
  rw [hy]
  exact h

omit [Decidable c] in
theorem bind_same {α : Type} {y : Option α} {f g : α → Option Status}
    (h : ∀ a, y = some a → f a = g a) : (y >>= f) = (y >>= g) := by
  cases y with
  | none => rfl
  | some a => exact h a rfl

theorem guard_same {x' y : Option Status} (h : ¬ c → x = x') :
    (if c then y else x) = if c then y else x' := by
  by_cases hc : c
  · rw [if_pos hc, if_pos hc]
  · rw [if_neg hc, if_neg hc, h hc]

end

/-! ## The header -/

/-- What `headerOffence` lets through. -/
structure Envelope.Headed (e : Envelope) : Prop where
  genesis : e.payload.kind = .genesis → e.subject = none ∧ e.grant = none ∧ e.parents = []
  parents : e.payload.kind ≠ .genesis → e.parents ≠ []
  single : e.payload.kind ≠ .genesis → e.payload.kind ≠ .resolve → e.parents.length = 1
  subject : e.payload.kind ≠ .genesis → ∃ subject, e.subject = some subject
  grant : e.payload.kind ≠ .genesis → ∃ grant, e.grant = some grant

theorem headerOffence_none {e : Envelope} (h : headerOffence e = none) : e.Headed := by
  simp only [headerOffence] at h
  split_ifs at h with hprecision hkind hgenesis hparents hsubject
  · simp only [Bool.and_eq_true, Option.isNone_iff_eq_none, List.isEmpty_iff] at hgenesis
    obtain ⟨⟨⟨hs, hg⟩, hp⟩, _⟩ := hgenesis
    exact ⟨fun _ => ⟨hs, hg, hp⟩, fun hne => absurd hkind hne, fun hne => absurd hkind hne,
      fun hne => absurd hkind hne, fun hne => absurd hkind hne⟩
  · simp only [Bool.or_eq_true, Bool.and_eq_true, decide_eq_true_eq, List.isEmpty_iff, not_or,
      not_and, not_not] at hparents
    simp only [Bool.or_eq_true, Option.isNone_iff_eq_none, not_or, ← ne_eq,
      Option.ne_none_iff_exists'] at hsubject
    exact ⟨fun heq => absurd heq hkind, fun _ => hparents.1.1, fun _ => hparents.1.2,
      fun _ => hsubject.1.1, fun _ => hsubject.2⟩

/-! ## The payload -/

section
variable {cr : Crypto} {C past : Candidates} {view : Authority} {grant parent : Hash}
variable {e : Envelope} {status : Status}

theorem evaluatePayload_delegate {k i : Hash} {d : Decision}
    (h : evaluatePayload cr C past view grant parent e = some status)
    (hvalid : status.state = .valid) (hp : e.payload = .delegate k i d) : i = grant := by
  simp only [evaluatePayload, hp] at h
  exact not_not.mp (passed_invalid h hvalid).1

theorem evaluatePayload_revoke {t : Hash} {c : Bool} {d : Decision}
    (h : evaluatePayload cr C past view grant parent e = some status)
    (hvalid : status.state = .valid) (hp : e.payload = .revoke t c d) :
    t ∈ view.active ∧ inScope view grant t = some true := by
  simp only [evaluatePayload, hp] at h
  obtain ⟨hactive, h⟩ := passed_invalid h hvalid
  obtain ⟨b, hb, h⟩ := Option.bind_eq_some_iff.mp h
  obtain ⟨hscope, _⟩ := passed_invalid h hvalid
  obtain rfl : b = true := by simpa using hscope
  exact ⟨by simpa using hactive, hb⟩

theorem evaluatePayload_selecting {r : Hash} {ds : List Disposition} {d : Decision}
    (h : evaluatePayload cr C past view grant parent e = some status)
    (hvalid : status.state = .valid) (hp : e.payload = .resolve (.revision r) ds d) :
    ∃ rev, (revisions cr past)[r]? = some rev := by
  simp only [evaluatePayload, hp] at h
  obtain ⟨_, h⟩ := passed_invalid h hvalid
  cases hrev : (revisions cr past)[r]? with
  | some rev => exact ⟨rev, rfl⟩
  | none =>
    simp only [checkSelected, hrev] at h
    simp [← Option.some.inj h] at hvalid

end

theorem Branch.stray_spec {cr : Crypto} {C W : Candidates} (branch : Branch cr C W)
    {d : Disposition} (hd : d.parent ∈ W) (c : Hash) :
    Decides (d.stray W c) (d.action = .selected ∧ ¬ (history cr W).Anc c d.parent) := by
  by_cases haction : d.action = .selected
  · obtain ⟨K, hK, hpart⟩ := @cone_spec cr W d.parent fun a ha => branch.lawful.anc_mem ha hd
    refine ⟨!K.contains c, by simp [Disposition.stray, haction, hK], ?_⟩
    rw [Bool.not_eq_true', contains_eq_false, hpart.mem_iff]
    simp only [haction, true_and, not_and]
    exact ⟨fun h ha => h (branch.lawful.anc_mem ha hd) ha, fun h _ => h⟩
  · exact ⟨false, by simp [Disposition.stray, haction], by simp [haction]⟩

namespace Branch
variable {cr : Crypto} {C W : Candidates} (branch : Branch cr C W)
variable {e : Envelope} (hparents : ∀ p ∈ e.parents, p ∈ W)
variable {past : Candidates} (hpast : past = (e.parents.map (coneOf C)).foldl (· ∪ ·) ∅)
variable {view : Authority} (reads : view.Reads cr past)
include branch hparents hpast reads

theorem checkSelected_some (r : Hash) {ds : List Disposition}
    (hds : ds.map Disposition.parent = e.parents) :
    ∃ status, checkSelected cr past view e r ds = some status := by
  have pastBranch : Branch cr C past := hpast ▸ branch.past_branch hparents
  have hpart : IsPart past C fun a => ∃ p ∈ e.parents, (history cr C).Anc a p :=
    hpast ▸ branch.past_part hparents
  unfold checkSelected
  cases hrev : (revisions cr past)[r]? with
  | none => exact ⟨_, rfl⟩
  | some rev =>
    obtain ⟨c, t, ht, hof, _⟩ := (revisions_get pastBranch.free_within).mp hrev
    obtain ⟨effect, heffect, _⟩ := reads.effect (mem_of_getElem? ht)
    obtain ⟨_, hc, _⟩ := revisionOf_some hof
    simp only [hc, heffect, Option.bind_eq_bind, Option.bind_some]
    refine guard_returns fun _ => guard_returns fun _ => guard_returns fun _ => ?_
    have hmem : ∀ d ∈ ds, d.parent ∈ past := by
      intro d hd
      have hpar := hds ▸ List.mem_map_of_mem (f := Disposition.parent) hd
      exact hpart.mem_iff.mpr
        ⟨branch.within.mem (hparents _ hpar), d.parent, hpar, ReflTransGen.refl⟩
    obtain ⟨b, hb, _⟩ := Decides.anyM fun d (hd : d ∈ ds) =>
      (pastBranch.stray_spec (hmem d hd) c)
    exact ⟨_, by rw [hb]; rfl⟩

/-- The payload checks return once the decision is known to be there. -/
theorem evaluatePayload_some {g parent : Hash} (hdecision : e.payload.decision.isSome)
    (hsubject : e.payload.kind ≠ .edgeAssert ∧ e.payload.kind ≠ .edgeReaffirm)
    (hparent : parent ∈ e.parents) :
    ∃ status, evaluatePayload cr C past view g parent e = some status := by
  have pastBranch : Branch cr C past := hpast ▸ branch.past_branch hparents
  cases hp : e.payload with
  | correction body d =>
    obtain ⟨c, hc, _⟩ := branch.selects_exists (hparents parent hparent)
    obtain ⟨t, ht, hb⟩ := hc.creator
    obtain ⟨b, hb⟩ := Option.isSome_iff_exists.mp hb
    simp only [evaluatePayload, hp, branch.body_spec (hparents parent hparent) hc ht hb]
    exact guard_returns fun _ => ⟨_, rfl⟩
  | delegate k i d =>
    simp only [evaluatePayload, hp]
    exact guard_returns fun _ => guard_returns fun _ => guard_returns fun _ =>
      guard_returns fun _ => ⟨_, rfl⟩
  | revoke t c d =>
    simp only [evaluatePayload, hp]
    refine guard_returns fun hactive => ?_
    obtain ⟨⟨d, hd⟩, _⟩ := (reads.active t).mp (by simpa using hactive)
    obtain ⟨b, hb, _⟩ := pastBranch.inScope_spec reads g hd
    simp only [hb, Option.bind_eq_bind, Option.bind_some]
    exact guard_returns fun _ => guard_returns fun _ => ⟨_, rfl⟩
  | resolve selection ds d =>
    simp only [evaluatePayload, hp]
    refine guard_returns fun hguard => ?_
    cases selection with
    | mergedBody b => exact ⟨_, rfl⟩
    | revision r =>
      refine branch.checkSelected_some hparents hpast reads r ?_
      simp only [Bool.or_eq_true, decide_eq_true_eq, not_or, not_not] at hguard
      exact hguard.1.2
  | genesis => simp [hp, Payload.decision] at hdecision
  | attestation => simp [hp, Payload.decision] at hdecision
  | edgeAssert => simp [hp, Payload.kind] at hsubject
  | edgeReaffirm => simp [hp, Payload.kind] at hsubject

end Branch

/-! ## Authority -/

theorem lapsed_spec {cr : Crypto} {c : Candidates} {g : Hash} (h : ∃ A, derive cr c = some A) :
    Decides (lapsed cr g c) (∃ A, derive cr c = some A ∧ g ∉ A.active) := by
  obtain ⟨A, hA⟩ := h
  exact ⟨!A.active.contains g, by simp [lapsed, hA], by simp [hA]⟩

/-- What the checks from the decision on establish of a valid event. -/
structure Authorized (cr : Crypto) (C : Candidates) (e : Envelope) (status : Status)
    (g : Hash) (cones : List Candidates) (view : Authority) : Prop where
  named : e.grant = some g
  walked : e.parents.mapM (cone C) = some cones
  derived : derive cr (cones.foldl (· ∪ ·) ∅) = some view
  active : g ∈ view.active
  holder : ∃ grant : Grant, view.grants[g]? = some grant ∧ grant.holder = e.author
  each : ∀ c ∈ cones, ∃ A, derive cr c = some A ∧ g ∈ A.active
  payload : ∃ parent, e.parents[0]? = some parent ∧
    evaluatePayload cr C (cones.foldl (· ∪ ·) ∅) view g parent e = some status

theorem anyM_false {α : Type} {f : α → Option Bool} {l : List α} (h : l.anyM f = some false) :
    ∀ x ∈ l, f x = some false := by
  induction l with
  | nil => simp
  | cons x l ih =>
    rw [List.anyM] at h
    obtain ⟨b, hb, h⟩ := Option.bind_eq_some_iff.mp h
    cases b with
    | true => simp at h
    | false =>
      intro y hy
      rcases List.mem_cons.mp hy with rfl | hy
      · exact hb
      · exact ih h y hy

theorem evaluateAuthority_valid {cr : Crypto} {C : Candidates} {e : Envelope} {status : Status}
    (h : evaluateAuthority cr C e = some status) (hvalid : status.state = .valid) :
    ∃ g cones view, Authorized cr C e status g cones view := by
  unfold evaluateAuthority at h
  cases hd : e.payload.decision with
  | none =>
    simp only [hd] at h
    simp [← Option.some.inj h] at hvalid
  | some d =>
    simp only [hd] at h
    obtain ⟨_, h⟩ := passed_invalid h hvalid
    obtain ⟨_, h⟩ := passed_invalid h hvalid
    obtain ⟨parent, hparent, h⟩ := Option.bind_eq_some_iff.mp h
    obtain ⟨cones, hcones, h⟩ := Option.bind_eq_some_iff.mp h
    obtain ⟨_, h⟩ := passed_invalid h hvalid
    obtain ⟨view, hview, h⟩ := Option.bind_eq_some_iff.mp h
    obtain ⟨g, hg, h⟩ := Option.bind_eq_some_iff.mp h
    obtain ⟨hactive, h⟩ := passed_invalid h hvalid
    obtain ⟨grant, hgrant, h⟩ := Option.bind_eq_some_iff.mp h
    obtain ⟨hholder, h⟩ := passed_invalid h hvalid
    obtain ⟨b, hlapsed, h⟩ := Option.bind_eq_some_iff.mp h
    obtain ⟨hnot, h⟩ := passed_invalid h hvalid
    obtain rfl : b = false := by simpa using hnot
    refine ⟨g, cones, view, hg, hcones, hview, by simpa using hactive,
      ⟨grant, hgrant, by simpa using hholder⟩, fun c hc => ?_, parent, hparent, h⟩
    have hc := anyM_false hlapsed c hc
    obtain ⟨A, hA, hactive⟩ := Option.bind_eq_some_iff.mp hc
    exact ⟨A, hA, by simpa using hactive⟩

namespace Branch
variable {cr : Crypto} {C W : Candidates} (branch : Branch cr C W)
variable {e : Envelope} (hparents : ∀ p ∈ e.parents, p ∈ W)
include branch hparents

theorem evaluateAuthority_some (headed : e.Headed) (hgenesis : e.payload.kind ≠ .genesis)
    (hsubject : e.payload.kind ≠ .edgeAssert ∧ e.payload.kind ≠ .edgeReaffirm) :
    ∃ status, evaluateAuthority cr C e = some status := by
  have pastBranch := branch.past_branch hparents
  unfold evaluateAuthority
  cases hd : e.payload.decision with
  | none => exact ⟨_, rfl⟩
  | some d =>
    obtain ⟨parent, hparent⟩ : ∃ parent, e.parents[0]? = some parent := by
      cases hp : e.parents with
      | nil => exact absurd hp (headed.parents hgenesis)
      | cons p ps => exact ⟨p, rfl⟩
    obtain ⟨view, hview, reads⟩ := pastBranch.derive_spec
    obtain ⟨g, hg⟩ := headed.grant hgenesis
    simp only [hparent, branch.cones_some hparents, Option.bind_eq_bind, Option.bind_some,
      hview, hg]
    refine guard_returns fun _ => guard_returns fun _ => guard_returns fun _ =>
      guard_returns fun hactive => ?_
    obtain ⟨hissued, _⟩ := (reads.active g).mp (by simpa using hactive)
    obtain ⟨grant, hgrant⟩ := mem_iff.mp (reads.grant_mem.mpr hissued)
    have hlapsed : ∀ c ∈ e.parents.map (coneOf C),
        Decides (lapsed cr g c) (∃ A, derive cr c = some A ∧ g ∉ A.active) := by
      intro c hc
      obtain ⟨p, hp, rfl⟩ := List.mem_map.mp hc
      obtain ⟨A, hA, _⟩ := (branch.cone_branch (hparents p hp)).derive_spec
      exact lapsed_spec ⟨A, hA⟩
    obtain ⟨b, hb, _⟩ := Decides.anyM hlapsed
    simp only [hgrant, hb, Option.bind_some]
    refine guard_returns fun _ => guard_returns fun _ => ?_
    exact branch.evaluatePayload_some hparents rfl reads (by simp [hd]) hsubject
      (List.mem_of_getElem? hparent)

end Branch

/-! ## The parents -/

theorem parentOffence_none {subject : Hash} {e : Envelope} {p : Hash} {parent : Envelope}
    (h : parentOffence subject e p parent = none) :
    (if parent.payload.kind = .genesis then some p else parent.subject) = some subject ∧
      parent.subjectKey = e.subjectKey := by
  by_cases h1 : (if parent.payload.kind = .genesis then some p else parent.subject) = some subject
  · by_cases h2 : parent.subjectKey = e.subjectKey
    · exact ⟨h1, h2⟩
    · simp [parentOffence, h1, h2] at h
  · simp [parentOffence, h1] at h

/-- What `evaluate` established of a valid event that is not a Genesis. -/
structure Accepted (cr : Crypto) (C : Candidates) (out : BTreeMap Status) (e : Envelope)
    (status : Status) (subject : Hash) : Prop where
  named : e.subject = some subject
  known : ∀ p ∈ e.parents, ∃ t : Signed, C[p]? = some t ∧ isSubject t = true ∧
    parentOffence subject e p t.envelope = none
  valid : ∀ p ∈ e.parents, ∃ st : Status, out[p]? = some st ∧ st.state = .valid
  genesis : ∃ t : Signed, C[subject]? = some t ∧ t.envelope.payload.kind = .genesis
  authority : evaluateAuthority cr C e = some status

theorem evaluateParents_valid {cr : Crypto} {C : Candidates} {out : BTreeMap Status}
    {e : Envelope} {status : Status} (h : evaluateParents cr C out e = some status)
    (hvalid : status.state = .valid) : ∃ subject, Accepted cr C out e status subject := by
  unfold evaluateParents at h
  obtain ⟨hmissing, h⟩ := passed_pending h hvalid
  obtain ⟨hstray, h⟩ := passed_invalid h hvalid
  obtain ⟨states, hstates, h⟩ := Option.bind_eq_some_iff.mp h
  obtain ⟨hinvalid, h⟩ := passed_invalid h hvalid
  obtain ⟨subject, hsubject, h⟩ := Option.bind_eq_some_iff.mp h
  obtain ⟨offence, hoffence, h⟩ := Option.bind_eq_some_iff.mp h
  cases offence with
  | some reason =>
    simp only at h
    simp [← Option.some.inj h] at hvalid
  | none =>
    obtain ⟨hpending, h⟩ := passed_pending h hvalid
    cases hgenesis : C[subject]? with
    | none =>
      simp only [hgenesis] at h
      simp [← Option.some.inj h] at hvalid
    | some genesis =>
      simp only [hgenesis] at h
      obtain ⟨hkind, h⟩ := passed_invalid h hvalid
      refine ⟨subject, hsubject, ?_, ?_, ⟨genesis, hgenesis, not_not.mp hkind⟩, h⟩
      · intro p hp
        obtain ⟨parents, hparents, hfind⟩ := Option.bind_eq_some_iff.mp hoffence
        obtain ⟨⟨q, parent⟩, hmem, hq⟩ := mapM_some hparents p hp
        obtain ⟨t, ht, heq⟩ := Option.bind_eq_some_iff.mp hq
        obtain ⟨rfl, rfl⟩ := Prod.mk.inj (Option.some.inj heq)
        refine ⟨t, ht, ?_, ?_⟩
        · simp only [List.any_eq_true, not_exists, not_and] at hstray
          simpa [ht] using hstray p hp
        · have := List.findSome?_eq_none_iff.mp (Option.some.inj hfind) _ hmem
          exact this
      · intro p hp
        obtain ⟨st, hmem, hst⟩ := mapM_some hstates p hp
        refine ⟨st, hst, ?_⟩
        simp only [List.any_eq_true, decide_eq_true_eq, not_exists, not_and] at hinvalid hpending
        cases hstate : st.state with
        | valid => rfl
        | invalid => exact absurd hstate (hinvalid st hmem)
        | pending => exact absurd hstate (hpending st hmem)

theorem evaluate_valid {cr : Crypto} {C : Candidates} {out : BTreeMap Status} {id : Hash}
    {s : Signed} {status : Status} (hs : C[id]? = some s)
    (h : evaluate cr id C out = some status) (hvalid : status.state = .valid) :
    s.envelope.Headed ∧ (s.envelope.payload.kind ≠ .genesis →
      ∃ subject, Accepted cr C out s.envelope status subject) := by
  simp only [evaluate, hs, Option.bind_eq_bind, Option.bind_some] at h
  cases hheader : headerOffence s.envelope with
  | some reason =>
    simp only [hheader] at h
    simp [← Option.some.inj h] at hvalid
  | none =>
    refine ⟨headerOffence_none hheader, fun hkind => ?_⟩
    simp only [hheader, if_neg hkind] at h
    exact evaluateParents_valid h hvalid

/-! ## What a valid event obeys -/

theorem obeys_genesis {cr : Crypto} {C : Candidates} {id : Hash} {s : Signed}
    (headed : s.envelope.Headed)
    (hkind : s.envelope.payload.kind = .genesis) : Obeys cr C id s where
  subject := by simp [isSubject, hkind]
  genesis := headed.genesis
  header hne := absurd hkind hne
  single _ := by
    have : parentsOf s = [] := (headed.genesis hkind).2.2
    simp [this]
  parent p hp := by
    have : parentsOf s = [] := (headed.genesis hkind).2.2
    simp [this] at hp
  grant hne := absurd hkind hne
  issuer hp := by simp [hp, Payload.kind] at hkind
  target hr := by
    unfold revoked at hr
    split at hr
    · simp [*, Payload.kind] at hkind
    · simp at hr
  selects hp := by simp [hp, Payload.kind] at hkind

namespace Branch
variable {cr : Crypto} {C W : Candidates} (branch : Branch cr C W)
include branch

/-- The strict past of an event whose parents are in `W`. -/
theorem past_before {id : Hash} {s : Signed} (hs : C[id]? = some s)
    (hparents : ∀ p ∈ parentsOf s, p ∈ W) :
    IsPart (((parentsOf s).map (coneOf C)).foldl (· ∪ ·) ∅) C
      fun a => (history cr C).Before a id := by
  refine (branch.past_part hparents).congr fun a => ?_
  rw [History.before_iff]
  constructor
  · rintro ⟨p, hp, ha⟩
    exact ⟨p, ha, (parent_iff hs).mpr hp⟩
  · rintro ⟨p, ha, hp⟩
    exact ⟨p, (parent_iff hs).mp hp, ha⟩

theorem obeys {id subject : Hash} {s : Signed} {status : Status} (hs : C[id]? = some s)
    (hsubject : isSubject s = true) (headed : s.envelope.Headed)
    (hkind : s.envelope.payload.kind ≠ .genesis)
    (accepted : ∃ out, Accepted cr C out s.envelope status subject)
    (hvalid : status.state = .valid) (hparents : ∀ p ∈ parentsOf s, p ∈ W) : Obeys cr C id s := by
  obtain ⟨out, accepted⟩ := accepted
  obtain ⟨g, cones, view, auth⟩ := evaluateAuthority_valid accepted.authority hvalid
  obtain rfl : (parentsOf s).map (coneOf C) = cones :=
    Option.some.inj ((branch.cones_some hparents).symm.trans auth.walked)
  have pastBranch := branch.past_branch hparents
  have reads := pastBranch.derive_reads auth.derived
  have hpast := branch.past_before hs hparents
  have hsigner : signer cr id s = g := by simp [signer, auth.named]
  obtain ⟨parent, _, hpayload⟩ := auth.payload
  -- What is issued in the past is issued, in `C`, strictly before the event.
  have hissued :
    ∀ t, (∃ d, (history cr (((parentsOf s).map (coneOf C)).foldl (· ∪ ·) ∅)).issues d t)
      → ∃ d, (history cr C).issues d t ∧ (history cr C).Before d id := by
    rintro t ⟨d, hd⟩
    exact ⟨d, hpast.within.issues hd, (hpast.mem_iff.mp (pastBranch.lawful.issues_mem hd)).2⟩
  exact {
    subject := hsubject
    genesis := fun h => absurd h hkind
    header := fun _ => ⟨by simp [accepted.named], headed.parents hkind⟩
    single := fun hresolve => (headed.single hkind hresolve).le
    parent := by
      intro p hp
      obtain ⟨t, ht, _, hoffence⟩ := accepted.known p hp
      obtain ⟨hsub, hkey⟩ := parentOffence_none hoffence
      refine ⟨t, ht, ?_, hkey⟩
      have hid : subjectOf id s = subject := by simp [subjectOf, accepted.named]
      rw [hid]
      split_ifs at hsub with hgenesis
      · have htW := branch.within.get (hparents p hp) ht
        simp only [subjectOf, ((branch.law htW).genesis hgenesis).1, Option.getD_none]
        exact Option.some.inj hsub
      · simp [subjectOf, hsub]
    grant := fun _ => ⟨g, auth.named, hissued g ((reads.active g).mp auth.active).1⟩
    issuer := by
      intro k i d hp
      rw [auth.named, evaluatePayload_delegate hpayload hvalid hp]
    target := by
      intro t c hr
      have hp : ∃ d, s.envelope.payload = .revoke t c d := by
        unfold revoked at hr
        split at hr
        case h_1 d hp =>
          simp only [Option.some.injEq, Prod.mk.injEq] at hr
          exact ⟨d, by rw [hp, hr.1, hr.2]⟩
        case h_2 => simp at hr
      obtain ⟨d, hp⟩ := hp
      obtain ⟨hactive, hscope⟩ := evaluatePayload_revoke hpayload hvalid hp
      obtain ⟨hissue, _⟩ := (reads.active t).mp hactive
      refine ⟨hissued t hissue, ?_⟩
      obtain ⟨e, he⟩ := hissue
      obtain ⟨b, hb, hspec⟩ := pastBranch.inScope_spec reads g he
      obtain rfl := Option.some.inj (hscope.symm.trans hb)
      rw [hsigner]
      refine (hspec.mp rfl).imp hpast.within.above ?_
      exact And.imp_right (hpast.within.root_iff branch.free he).mp
    selects := by
      intro r ds d hp
      obtain ⟨rev, hrev⟩ := evaluatePayload_selecting hpayload hvalid hp
      obtain ⟨c, t, ht, hof, hid⟩ := (revisions_get pastBranch.free_within).mp hrev
      obtain ⟨hrevid, _, _, hbody⟩ := revisionOf_some hof
      obtain ⟨htC, hbefore⟩ := (hpast c t).mp ht
      exact ⟨c, t, hbefore, htC, by simp [hbody], hrevid.symm.trans hid⟩ }

/-! ## Returning -/

/-- `evaluate` returns once the event may be evaluated. -/
theorem evaluate_some {out : BTreeMap Status} {id : Hash} {s : Signed} (hs : C[id]? = some s)
    (hsubject : isSubject s = true) (hready : subjectReady C out s = true)
    (hout : ∀ (p : Hash) (st : Status), out[p]? = some st → st.state = .valid → p ∈ W) :
    ∃ status, evaluate cr id C out = some status := by
  simp only [evaluate, hs, Option.bind_eq_bind, Option.bind_some]
  cases hheader : headerOffence s.envelope with
  | some reason => exact ⟨_, rfl⟩
  | none =>
    have headed := headerOffence_none hheader
    refine guard_returns fun hkind => ?_
    unfold evaluateParents
    refine guard_returns fun hmissing => guard_returns fun hstray => ?_
    -- Every parent is a known subject event, so the loop has settled it.
    have hknown : ∀ p ∈ parentsOf s, p ∈ out := by
      simp only [subjectReady, Bool.or_eq_true, decide_eq_true_eq, hkind, false_or] at hready
      have hall := hready.resolve_left hstray
      simpa using hall
    have hstates : s.envelope.parents.mapM (fun p => out[p]?) =
        some (s.envelope.parents.map fun p => out[p]?.getD .valid) := by
      apply mapM_spec
      intro p hp
      obtain ⟨st, hst⟩ := mem_iff.mp (hknown p hp)
      simp [hst]
    obtain ⟨subject, hnamed⟩ := headed.subject hkind
    have hparents : s.envelope.parents.mapM (fun p => do
        return (p, (← C[p]?).envelope)) =
        some (s.envelope.parents.map fun p => (p, (C[p]?.getD s).envelope)) := by
      apply mapM_spec
      intro p hp
      have hpC : p ∈ C := by
        simp only [Bool.not_eq_true', List.isEmpty_eq_false_iff, ne_eq, not_not,
          List.filter_eq_nil_iff, contains_eq_false] at hmissing
        exact hmissing p hp
      obtain ⟨t, ht⟩ := mem_iff.mp hpC
      simp [ht]
    simp only [hstates, Option.bind_eq_bind, Option.bind_some]
    refine guard_returns fun hinvalid => ?_
    obtain ⟨offence, hoffence⟩ : ∃ offence, firstOffence C subject s.envelope = some offence :=
      ⟨_, by rw [firstOffence, hparents]; rfl⟩
    simp only [hnamed, Option.bind_some, hoffence]
    cases offence with
    | some reason => exact ⟨_, rfl⟩
    | none =>
      refine guard_returns fun hpending => ?_
      cases hgenesis : C[subject]? with
      | none => exact ⟨_, rfl⟩
      | some genesis =>
        refine guard_returns fun _ => branch.evaluateAuthority_some ?_ headed hkind ?_
        · -- No parent is invalid or pending, so all are valid.
          intro p hp
          obtain ⟨st, hst⟩ := mem_iff.mp (hknown p hp)
          refine hout p st hst ?_
          have hmem : st ∈ s.envelope.parents.map fun p => out[p]?.getD .valid :=
            List.mem_map.mpr ⟨p, hp, by simp [hst]⟩
          simp only [List.any_eq_true, decide_eq_true_eq, not_exists, not_and] at hinvalid hpending
          cases hstate : st.state with
          | valid => rfl
          | invalid => exact absurd hstate (hinvalid st hmem)
          | pending => exact absurd hstate (hpending st hmem)
        · constructor <;> intro h <;> simp [isSubject, h] at hsubject

end Branch

/-- A verdict only depends on the verdicts of the parents. -/
theorem evaluate_congr {cr : Crypto} {C : Candidates} {out out' : BTreeMap Status} {id : Hash}
    {s : Signed} (hs : C[id]? = some s) (hready : subjectReady C out s = true)
    (hle : ∀ p st, p ∈ parentsOf s → out[p]? = some st → out'[p]? = some st) :
    evaluate cr id C out' = evaluate cr id C out := by
  simp only [evaluate, hs, Option.bind_eq_bind, Option.bind_some]
  cases hheader : headerOffence s.envelope with
  | some reason => rfl
  | none =>
    by_cases hkind : s.envelope.payload.kind = .genesis
    · simp only [if_pos hkind]
    · simp only [if_neg hkind, evaluateParents]
      by_cases hstray : (s.envelope.parents.any fun p => !(C[p]?).any isSubject) = true
      · simp only [if_pos hstray]
      · have hstates : s.envelope.parents.mapM (fun p => out'[p]?) =
            s.envelope.parents.mapM fun p => out[p]? := by
          apply mapM_congr
          intro p hp
          simp only [subjectReady, Bool.or_eq_true, decide_eq_true_eq, hkind, false_or] at hready
          have hall := List.all_eq_true.mp (hready.resolve_left hstray) p hp
          obtain ⟨st, hst⟩ := mem_iff.mp (contains_iff.mp hall)
          rw [hst, hle p st hp hst]
        rw [hstates]

end Clockchain.V1
