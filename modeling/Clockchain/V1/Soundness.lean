import Clockchain.V1.Totality

/-!
# Soundness of admission

A valid event is signed by the holder of a grant that the Genesis of its subject
delegated, step by step, in the event's own past.
-/

namespace Clockchain.V1
open Relation Maps Programs
set_option autoImplicit false

/-- `grant` was delegated to `holder` from the root grant of `subject`, before `e`. -/
inductive Chain (cr : Crypto) (W : Candidates) (subject e : Hash) : Hash → Hash → Prop where
  | root {s : Signed} : W[subject]? = some s → s.envelope.payload.kind = .genesis →
      (history cr W).Before subject e →
      Chain cr W subject e (rootGrant cr subject) s.envelope.author
  | delegate {issuer grantee d : Hash} {s : Signed} {decision : Decision} :
      Chain cr W subject e issuer s.envelope.author → W[d]? = some s →
      s.envelope.payload = .delegate grantee issuer decision → subjectOf d s = subject →
      (history cr W).Before d e → Chain cr W subject e d grantee

theorem Chain.later {cr : Crypto} {W : Candidates} {subject d e grant holder : Hash}
    (h : Chain cr W subject d grant holder) (hde : (history cr W).Before d e) :
    Chain cr W subject e grant holder := by
  induction h with
  | root hs hkind hbefore => exact .root hs hkind (hbefore.trans hde)
  | delegate _ hs hp hsubject hbefore ih => exact .delegate ih hs hp hsubject (hbefore.trans hde)

theorem Chain.holder {cr : Crypto} {W : Candidates} {subject e grant holder : Hash}
    (h : Chain cr W subject e grant holder) :
    (∃ s, W[subject]? = some s ∧ s.envelope.payload.kind = .genesis ∧
      s.envelope.author = holder) ∨
    ∃ d s issuer decision, W[d]? = some s ∧ subjectOf d s = subject ∧
      s.envelope.payload = .delegate holder issuer decision := by
  cases h with
  | root hs hkind _ => exact Or.inl ⟨_, hs, hkind, rfl⟩
  | delegate _ hs hp hsubject _ => exact Or.inr ⟨_, _, _, _, hs, hsubject, hp⟩

namespace Verdicts
variable {cr : Crypto} {C : Candidates} {out : BTreeMap Status} {s : Subjects}
variable (verdicts : Verdicts cr C out s)
include verdicts

theorem accepted {e : Hash} {event : Signed} (hs : (validOf C out)[e]? = some event) :
    event.envelope.Headed ∧ (event.envelope.payload.kind ≠ .genesis →
      ∃ st subject, st.state = .valid ∧ Accepted cr C out event.envelope st subject) := by
  obtain ⟨hC, hsubject, st, hst, hvalid⟩ := validOf_get.mp hs
  have hsettled : Settled C e := by
    by_contra hnot
    obtain rfl := Option.some.inj (hst.symm.trans (verdicts.subjectCycle hC hsubject hnot))
    simp at hvalid
  obtain ⟨headed, h⟩ := evaluate_valid hC ((verdicts.subject hC hsubject hsettled).trans hst) hvalid
  refine ⟨headed, fun hkind => ?_⟩
  obtain ⟨subject, accepted⟩ := h hkind
  exact ⟨st, subject, hvalid, accepted⟩

theorem authorized {e : Hash} {event : Signed} (hs : (validOf C out)[e]? = some event)
    (hkind : event.envelope.payload.kind ≠ .genesis) : ∃ st g view, st.state = .valid ∧
      Authorized cr C event.envelope st g ((parentsOf event).map (coneOf C)) view ∧
      view.Reads cr (((parentsOf event).map (coneOf C)).foldl (· ∪ ·) ∅) ∧
      IsPart (((parentsOf event).map (coneOf C)).foldl (· ∪ ·) ∅) C
        fun a => (history cr C).Before a e := by
  have branch := verdicts.branch
  have hparents : ∀ p ∈ parentsOf event, p ∈ validOf C out := fun p hp => branch.closed.parent hs hp
  obtain ⟨_, h⟩ := verdicts.accepted hs
  obtain ⟨st, subject, hvalid, accepted⟩ := h hkind
  obtain ⟨g, cones, view, auth⟩ := evaluateAuthority_valid accepted.authority hvalid
  obtain rfl : (parentsOf event).map (coneOf C) = cones :=
    Option.some.inj ((branch.cones_some hparents).symm.trans auth.walked)
  exact ⟨st, g, view, hvalid, auth, (branch.past_branch hparents).derive_reads auth.derived,
    branch.past_before (branch.within.sub hs) hparents⟩

/-- The grant a valid event names was delegated to its author. -/
theorem chain {e : Hash} {event : Signed} (hs : (validOf C out)[e]? = some event)
    (hkind : event.envelope.payload.kind ≠ .genesis) : ∃ g, event.envelope.grant = some g ∧
      Chain cr (validOf C out) (subjectOf e event) e g event.envelope.author := by
  have branch := verdicts.branch
  induction e using branch.wellFounded.transGen.induction generalizing event with
  | _ e ih =>
    obtain ⟨st, g, view, _, auth, reads, hpart⟩ := verdicts.authorized hs hkind
    refine ⟨g, auth.named, ?_⟩
    obtain ⟨grant, hgrant, hholder⟩ := auth.holder
    obtain ⟨d, t, ht, hissued⟩ := reads.grants.mp hgrant
    obtain ⟨htC, hbeforeC⟩ := (hpart d t).mp ht
    obtain ⟨hd, hbefore⟩ :=
      branch.within.before_lift branch.closed (mem_of_getElem? hs) hbeforeC
    have htW := branch.within.get hd htC
    have hsubject := (branch.subject_anc hs htW hbefore.anc).1
    rw [← hholder]
    rcases issued_kind hissued with ⟨hgenesis, rfl, _, hauthor, _⟩ | ⟨k, i, dec, hp, rfl, _, hk, _⟩
    · have heq : d = subjectOf e event := (branch.genesis_subject htW hgenesis).symm.trans hsubject
      rw [hauthor]
      subst heq
      exact .root htW hgenesis hbefore
    · obtain ⟨i', hi', hchain⟩ := ih g hbefore htW (by simp [hp, Payload.kind])
      have hi : i' = i := Option.some.inj (hi'.symm.trans ((branch.law htW).issuer hp))
      rw [hk]
      subst hi
      exact .delegate (hsubject ▸ hchain.later hbefore) htW hp hsubject hbefore

end Verdicts

def Admitted (out : BTreeMap Status) (e : Hash) : Prop :=
  (out[e]?).map Status.state = some .valid

instance (out : BTreeMap Status) (e : Hash) : Decidable (Admitted out e) :=
  inferInstanceAs (Decidable (_ = _))

theorem admitted_iff {out : BTreeMap Status} {e : Hash} :
    Admitted out e ↔ ∃ st : Status, out[e]? = some st ∧ st.state = .valid := by
  simp [Admitted]

def Authority.Entitles (A : Authority) (grant holder : Hash) : Prop :=
  grant ∈ A.active ∧ ∃ g : Grant, A.grants[grant]? = some g ∧ g.holder = holder

/-- What admission guarantees of the event `e` of `C`. -/
structure Entitled (cr : Crypto) (C : Candidates) (out : BTreeMap Status) (e : Hash)
    (event : Signed) : Prop where
  /-- The reflexive cone holds valid events of one subject and key, and one Genesis. -/
  cone : ∃ K, cone C e = some K ∧ e ∈ K ∧ subjectOf e event ∈ K ∧
    ∀ (a : Hash) (t : Signed), K[a]? = some t → C[a]? = some t ∧ isSubject t = true ∧
      Admitted out a ∧ subjectOf a t = subjectOf e event ∧
      t.envelope.subjectKey = event.envelope.subjectKey ∧
      (t.envelope.payload.kind = .genesis ↔ a = subjectOf e event)
  /-- The named grant is the author's, after each parent and after all of them. -/
  grant : event.envelope.payload.kind ≠ .genesis → ∃ g, event.envelope.grant = some g ∧
    (∀ p ∈ parentsOf event, ∃ K A, V1.cone C p = some K ∧ derive cr K = some A ∧
      A.Entitles g event.envelope.author) ∧
    (∃ cones A, (parentsOf event).mapM (V1.cone C) = some cones ∧
      derive cr (cones.foldl (· ∪ ·) ∅) = some A ∧ A.Entitles g event.envelope.author) ∧
    Chain cr (validOf C out) (subjectOf e event) e g event.envelope.author
  /-- No other key signs a valid event of the subject. -/
  author : (∃ t, (validOf C out)[subjectOf e event]? = some t ∧
      t.envelope.payload.kind = .genesis ∧ t.envelope.author = event.envelope.author) ∨
    ∃ d t issuer decision, (validOf C out)[d]? = some t ∧ subjectOf d t = subjectOf e event ∧
      t.envelope.payload = .delegate event.envelope.author issuer decision

/-- A valid subject event is entitled to what it does. -/
theorem admission_sound (cr : Crypto) (C : Candidates) (free : CollisionFree cr C)
    {out : BTreeMap Status} (hout : classify cr C = some out) {e : Hash} {event : Signed}
    (hs : C[e]? = some event) (hsubject : isSubject event = true) (hvalid : Admitted out e) :
    Entitled cr C out e event := by
  obtain ⟨out', s, hout', verdicts⟩ := classify_spec free
  obtain rfl := Option.some.inj (hout.symm.trans hout')
  have branch := verdicts.branch
  obtain ⟨st, hst, hstate⟩ := admitted_iff.mp hvalid
  have hW : (validOf C out)[e]? = some event := validOf_get.mpr ⟨hs, hsubject, st, hst, hstate⟩
  have he := mem_of_getElem? hW
  obtain ⟨genesis, hg, hgenesis, hganc⟩ := branch.genesis_exists hW
  have hpart := branch.cone_part he
  refine ⟨⟨coneOf C e, branch.cone_some he, ?_, ?_, fun a t ht => ?_⟩, fun hkind => ?_, ?_⟩
  · exact hpart.mem_iff.mpr ⟨mem_of_getElem? hs, ReflTransGen.refl⟩
  · exact hpart.mem_iff.mpr ⟨branch.within.mem (mem_of_getElem? hg), branch.within.anc hganc⟩
  · obtain ⟨htC, ha⟩ := (hpart a t).mp ht
    obtain ⟨haW, ha⟩ := branch.within.anc_lift branch.closed he ha
    have htW := branch.within.get haW htC
    obtain ⟨_, htsub, st', hst', hstate'⟩ := validOf_get.mp htW
    obtain ⟨hsame, hkey⟩ := branch.subject_anc hW htW ha
    refine ⟨htC, htsub, admitted_iff.mpr ⟨st', hst', hstate'⟩, hsame, hkey, ?_, ?_⟩
    · exact fun hkind => branch.genesis_unique hW htW hkind ha
    · rintro rfl
      rwa [Option.some.inj (htW.symm.trans hg)]
  · have hparents : ∀ p ∈ parentsOf event, p ∈ validOf C out :=
      fun p hp => branch.closed.parent hW hp
    obtain ⟨_, g, view, _, auth, reads, hpast⟩ := verdicts.authorized hW hkind
    obtain ⟨grant, hgrant, hholder⟩ := auth.holder
    obtain ⟨g', hg', hchain⟩ := verdicts.chain hW hkind
    obtain rfl := Option.some.inj (auth.named.symm.trans hg')
    refine ⟨g, auth.named, fun p hp => ?_, ⟨_, view, auth.walked, auth.derived, auth.active, grant,
      hgrant, hholder⟩, hchain⟩
    obtain ⟨A, hA, hactive⟩ := auth.each _ (List.mem_map_of_mem hp)
    refine ⟨coneOf C p, A, branch.cone_some (hparents p hp), hA, hactive, ?_⟩
    -- The grant is issued on the cone by the event that issues it in the whole past.
    have coneReads := (branch.cone_branch (hparents p hp)).derive_reads hA
    obtain ⟨⟨d, t, grant', ht, hissued⟩, _⟩ := (coneReads.active g).mp hactive
    obtain ⟨d', t', ht', hissued'⟩ := reads.grants.mp hgrant
    have hcone := (branch.cone_part (hparents p hp)).within
    obtain rfl := branch.free.issues_event ⟨t, grant', hcone.sub ht, hissued⟩
      ⟨t', grant, hpast.within.sub ht', hissued'⟩
    obtain rfl := Option.some.inj ((hcone.sub ht).symm.trans (hpast.within.sub ht'))
    have heq : grant' = grant := by simpa using hissued.symm.trans hissued'
    exact ⟨grant', coneReads.grants.mpr ⟨d, t, ht, hissued⟩, heq ▸ hholder⟩
  · by_cases hkind : event.envelope.payload.kind = .genesis
    · rw [branch.genesis_subject hW hkind]
      exact Or.inl ⟨event, hW, hkind, rfl⟩
    · obtain ⟨_, _, hchain⟩ := verdicts.chain hW hkind
      exact hchain.holder

def delegated : Candidates := Sample.candidates
  [(1, Sample.genesis Sample.alice 7), (2, Sample.delegate Sample.alice Sample.root 1 Sample.bob),
   (3, Sample.correction Sample.bob 2 2 7 8)]

theorem delegated_run : CollisionFree Sample.crypto delegated ∧ ∃ out event,
    classify Sample.crypto delegated = some out ∧ delegated[(3 : Hash)]? = some event ∧
      isSubject event = true ∧ Admitted out 3 := by
  have h : (do
    let out ← classify Sample.crypto delegated
    let event ← delegated[(3 : Hash)]?
    return isSubject event && decide (Admitted out 3)) = some true := by decide +kernel
  obtain ⟨out, hout, h⟩ := Option.bind_eq_some_iff.mp h
  obtain ⟨event, hevent, h⟩ := Option.bind_eq_some_iff.mp h
  exact ⟨by decide +kernel, out, event, hout, hevent, by simpa using h⟩

theorem admission_sound_delegated : ∃ out event, classify Sample.crypto delegated = some out ∧
    delegated[(3 : Hash)]? = some event ∧ Entitled Sample.crypto delegated out 3 event := by
  obtain ⟨free, out, event, hout, hs, hsubject, hadmitted⟩ := delegated_run
  exact ⟨out, event, hout, hs,
    admission_sound Sample.crypto delegated free hout hs hsubject hadmitted⟩

end Clockchain.V1
