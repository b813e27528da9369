import Clockchain.Standing
import Clockchain.V1.Publishing
import Clockchain.V1.Totality

/-!
# Which signed acts are admitted

The publisher finds its grants active in the projection of everything; admission asks it of the
cone of the parent. What else admission checks of a Delegate or a Revoke the publisher has checked,
so the act is admitted exactly when the grants it names stand on that cone.
-/

namespace Clockchain.V1
open Relation Maps Programs
set_option autoImplicit false

/-- On the cone of `parent` alone the grant is active. -/
def Stands (cr : Crypto) (C : Candidates) (parent g : Hash) : Prop :=
  ∃ K view, cone C parent = some K ∧ derive cr K = some view ∧ g ∈ view.active

namespace Publisher

/-- The target of a Revoke. -/
def targets (payload : Payload) : List Hash :=
  match operation payload with
  | some (.revoke target _) => [target]
  | _ => []

/-- The grants an act names: the one it is signed with, and its target. -/
def AuthorityEvent.grants (ev : AuthorityEvent) : List Hash :=
  ev.grant.toList ++ targets ev.envelope.payload

/-- What an operator asks the publisher to sign. -/
inductive Request where
  | delegate (grantee : Hash)
  | revoke (choice : RevokeChoice)

def Request.sign (cr : Crypto) (verify : Verify) (key : SecretKey) (ctx : Context)
    (rationale : String) (evidence : List Hash) : Request → Except String AuthorityEvent
  | .delegate grantee => Publisher.delegate cr verify key ctx grantee rationale evidence
  | .revoke choice => Publisher.revoke cr verify key ctx choice rationale evidence

/-! ## What the builders have checked -/

/-- The event can be the parent of an act. -/
def Context.Extendable (ctx : Context) (parent : Hash) : Prop :=
  parent ∈ ctx.frontier ∨ ∃ r, ctx.event parent = some r ∧ r.state ≠ .invalid ∧
    r.state ≠ .pending ∧ r.effect = .none

/-- The payload of an act under the grant `g`, which the checks of the publisher let through. -/
inductive Drafted (cr : Crypto) (ctx : Context) (g parent : Hash) : Payload → Prop where
  | delegate {grantee : Hash} {d : Decision} (known : cr.authorKey grantee = true)
      (fresh : ∀ r ∈ ctx.grants, r.holder ≠ grantee)
      (records : d.records .delegate [parent] = true) (old : d.old = .none)
      (new : d.new = .grant g grantee) : Drafted cr ctx g parent (.delegate grantee g d)
  | revoke {target : Hash} {cascade : Bool} {d : Decision} {row : GrantRow}
      (listed : ctx.grant target = some row) (active : row.status = .active)
      (scope : inScope ctx g target = true)
      (records : d.records .revoke [parent] = true) (old : d.old = .activeGrant target)
      (new : d.new = .revokedGrant target cascade) :
      Drafted cr ctx g parent (.revoke target cascade d)

theorem Drafted.kind {cr : Crypto} {ctx : Context} {g parent : Hash} {p : Payload}
    (h : Drafted cr ctx g parent p) : p.kind = .delegate ∨ p.kind = .revoke := by
  cases h with
  | delegate => exact Or.inl rfl
  | revoke => exact Or.inr rfl

theorem Drafted.decision {cr : Crypto} {ctx : Context} {g parent : Hash} {p : Payload}
    (h : Drafted cr ctx g parent p) :
    ∃ d, p.decision = some d ∧ d.records p.kind [parent] = true := by
  cases h with
  | delegate _ _ records => exact ⟨_, rfl, records⟩
  | revoke _ _ _ records => exact ⟨_, rfl, records⟩

theorem isSubject_act {s : Signed}
    (h : s.envelope.payload.kind = .delegate ∨ s.envelope.payload.kind = .revoke) :
    isSubject s = true := by
  rcases h with h | h <;> simp [isSubject, h]

/-- Of the payload admission asks only that the target stands. -/
theorem Drafted.evaluate {cr : Crypto} {ctx : Context} {g parent : Hash} {e : Envelope}
    (h : Drafted cr ctx g parent e.payload) {D K : Candidates} {view : Authority}
    (listed : ∀ {x : Hash} {grant : Grant}, view.grants[x]? = some grant →
      ∃ row ∈ ctx.grants, row.grant = x ∧ row.holder = grant.holder)
    (reached : ∀ {target : Hash} {row : GrantRow}, ctx.grant target = some row →
      inScope ctx g target = true → target ∈ view.active →
      V1.inScope view g target = some true) :
    ∃ st, evaluatePayload cr D K view g parent e = some st ∧
      (st.state = .valid ↔ ∀ target ∈ targets e.payload, target ∈ view.active) := by
  generalize hp : e.payload = p at h
  cases h with
  | @delegate grantee d known fresh records old new =>
    have hfresh : (view.grants.toList.any fun item => item.2.holder = grantee) = false := by
      rw [List.any_eq_false]
      rintro ⟨x, grant⟩ hitem
      obtain ⟨row, hrow, -, hholder⟩ :=
        listed (Std.ExtTreeMap.mem_toList_iff_getElem?_eq_some.mp hitem)
      rw [decide_eq_true_iff, ← hholder]
      exact fresh row hrow
    refine ⟨.valid, ?_, iff_of_true rfl nofun⟩
    simp only [evaluatePayload, hp, known, hfresh, old, new]
    simp
  | @revoke target cascade d row hlisted _ scope records old new =>
    have htargets : targets (.revoke target cascade d) = [target] := rfl
    rw [htargets, List.forall_mem_singleton]
    by_cases hactive : target ∈ view.active
    · refine ⟨.valid, ?_, iff_of_true rfl hactive⟩
      simp only [evaluatePayload, hp, reached hlisted scope hactive, old, new]
      simp [hactive]
    · refine ⟨.invalid .revocationScope, ?_, iff_of_false (fun h => by cases h) hactive⟩
      simp [evaluatePayload, hp, hactive]

/-- An act that a builder signed. -/
structure Signs (cr : Crypto) (ctx : Context) (author g parent : Hash) (e : Envelope) : Prop where
  signing : ∃ row ∈ ctx.grants, row.grant = g ∧ row.holder = author ∧ row.status = .active
  onto : ctx.Extendable parent
  drafted : Drafted cr ctx g parent e.payload
  header : e = { (Header.fromContext ctx g parent).envelope e.payload with author := author }

section
variable {cr : Crypto} {verify : Verify} {key : SecretKey} {ctx : Context} {ev : AuthorityEvent}
variable {rationale : String} {evidence : List Hash}

theorem records_of {kind : Kind} {parent : Hash} {d : Decision}
    (h : decision kind rationale evidence parent = .ok d) : d.records kind [parent] = true := by
  obtain ⟨hkind, hrationale, hevidence, hparents, -, -⟩ := decision_ok h
  simp [Decision.records, hkind, hparents, hrationale, hevidence]

theorem Context.grant_mem {id : Hash} {row : GrantRow} (h : ctx.grant id = some row) :
    row ∈ ctx.grants ∧ row.grant = id :=
  ⟨List.mem_of_find?_eq_some h, by simpa using List.find?_some h⟩

theorem delegate_signs {grantee : Hash}
    (h : delegate cr verify key ctx grantee rationale evidence = .ok ev) :
    ∃ g parent, Signs cr ctx key.author g parent ev.envelope := by
  simp only [delegate, bind_ok] at h
  obtain ⟨signing, hsigning, parent, hparent, h⟩ := h
  obtain ⟨hmem, hholder, hactive⟩ := Context.signingGrant_ok hsigning
  obtain ⟨-, hfrontier⟩ := Context.soleHead_ok hparent
  cases hfind : ctx.grants.find? fun g => g.holder = grantee with
  | some g =>
    rw [hfind] at h
    cases h
  | none =>
    rw [hfind] at h
    simp only [delegateOn, unless_ok, bind_ok, Bool.not_eq_true', Bool.not_eq_false] at h
    obtain ⟨hknown, -, d, hd, hsign⟩ := h
    have henvelope := sign_ok hsign
    have hrecords := records_of hd
    refine ⟨signing.grant, parent, ⟨signing, hmem, rfl, hholder, hactive⟩,
      Or.inl (by rw [hfrontier]; exact List.mem_singleton_self parent), ?_, ?_⟩
    · rw [henvelope]
      refine .delegate hknown (fun r hr heq => ?_) hrecords (decision_ok hd).2.2.2.2.1 rfl
      exact List.find?_eq_none.mp hfind r hr (decide_eq_true heq)
    · rw [henvelope]
      rfl

theorem revokeParent_ok {choice : Option Hash} {parent : Hash}
    (h : revokeParent ctx choice = .ok parent) : ctx.Extendable parent := by
  cases choice with
  | none =>
    obtain ⟨-, hfrontier⟩ := Context.soleHead_ok h
    exact Or.inl (by rw [hfrontier]; exact List.mem_singleton_self parent)
  | some p =>
    simp only [revokeParent, unless_ok] at h
    obtain ⟨-, h⟩ := h
    cases hevent : ctx.event p with
    | none =>
      rw [hevent] at h
      cases h
    | some e =>
      simp only [hevent, unless_ok, Bool.or_eq_true, decide_eq_true_eq, not_or, ne_eq, not_not] at h
      obtain ⟨⟨hinvalid, hpending⟩, heffect, h⟩ := h
      obtain rfl := Except.ok.inj h
      exact Or.inr ⟨e, hevent, hinvalid, hpending, heffect⟩

theorem revoke_signs {choice : RevokeChoice}
    (h : revoke cr verify key ctx choice rationale evidence = .ok ev) :
    ∃ g parent, Signs cr ctx key.author g parent ev.envelope := by
  simp only [revoke, bind_ok] at h
  obtain ⟨signing, hsigning, h⟩ := h
  obtain ⟨hmem, hholder, hactive⟩ := Context.signingGrant_ok hsigning
  cases htarget : ctx.grant choice.target with
  | none =>
    rw [htarget] at h
    cases h
  | some target =>
    simp only [htarget, unless_ok, bind_ok, Bool.not_eq_true', Bool.not_eq_false] at h
    obtain ⟨hstatus, hscope, -, parent, hparent, _, -, d, hd, hsign⟩ := h
    obtain ⟨-, htargeted⟩ := Context.grant_mem htarget
    have henvelope := sign_ok hsign
    have hrecords := records_of hd
    refine ⟨signing.grant, parent, ⟨signing, hmem, rfl, hholder, hactive⟩,
      revokeParent_ok hparent, ?_, ?_⟩
    · rw [henvelope]
      exact .revoke (htargeted ▸ htarget) (not_not.mp hstatus) hscope hrecords rfl rfl
    · rw [henvelope]
      rfl

/-- What the publisher signs has passed its checks. -/
theorem Request.sign_signs {request : Request}
    (h : request.sign cr verify key ctx rationale evidence = .ok ev) :
    ∃ g parent, Signs cr ctx key.author g parent ev.envelope := by
  cases request with
  | delegate grantee => exact delegate_signs h
  | revoke choice => exact revoke_signs h

end

/-! ## What admission finds -/

section
variable {cr : Crypto} {C : Candidates} {out : BTreeMap Status} {subjects : Subjects}
variable {A : Authority} {ctx : Context} (verdicts : Verdicts cr C out subjects)
variable (reads : A.Reads cr (validOf C out)) (lists : ctx.Reads cr C out A)
include verdicts reads lists

omit reads in
/-- An event that can be extended is valid and not suppressed. -/
theorem Context.Extendable.eligible {parent : Hash} (h : ctx.Extendable parent) :
    (∃ q, (validOf C out)[parent]? = some q ∧ subjectOf parent q = ctx.subject) ∧
      (history cr (validOf C out)).Eligible A.revokes parent := by
  rcases h with h | ⟨r, hr, hinvalid, hpending, heffect⟩
  · obtain ⟨hacts, heligible, -⟩ := (lists.frontier parent).mp h
    exact ⟨hacts, heligible⟩
  · have hshows := lists.shown hr
    obtain ⟨t, ht, -, hsubject, -⟩ := hshows.known
    have hvalid := hshows.valid.mp ⟨hinvalid, hpending⟩
    refine ⟨⟨t, verdicts.branch.within.get hvalid ht, hsubject⟩, ?_⟩
    exact (reasonOf_none verdicts.branch.lawful hvalid).mp
      ((hshows.effect hvalid).symm.trans heffect)

omit verdicts reads in
theorem Context.Reads.row {row : GrantRow} (h : row ∈ ctx.grants) {grant : Grant}
    (hgrant : A.grants[row.grant]? = some grant) :
    row.holder = grant.holder ∧ row.issuer = grant.issuer ∧
      row.issuedByEvent = grant.issuedByEvent := by
  obtain ⟨found, hfound, hholder, hissuer, hissued⟩ := (lists.grants row h).grant
  obtain rfl := Option.some.inj (hgrant.symm.trans hfound)
  exact ⟨hholder, hissuer, hissued⟩

omit reads lists in
theorem cone_within {parent : Hash} (hparent : parent ∈ validOf C out) :
    Within (coneOf C parent) (validOf C out) := by
  have branch := verdicts.branch
  refine ⟨fun {e t} ht => ?_⟩
  obtain ⟨htC, hanc⟩ := (branch.cone_part hparent e t).mp ht
  exact branch.within.get (branch.within.anc_lift branch.closed hparent hanc).1 htC

omit lists in
/-- The grants of a cone are grants of the whole. -/
theorem cone_grant {parent : Hash} (hparent : parent ∈ validOf C out) {view : Authority}
    (hview : view.Reads cr (coneOf C parent)) {g : Hash} {grant : Grant}
    (h : view.grants[g]? = some grant) : A.grants[g]? = some grant := by
  obtain ⟨e, t, ht, hissued⟩ := hview.grants.mp h
  exact reads.grants.mpr ⟨e, t, (cone_within verdicts hparent).sub ht, hissued⟩

/-- A grant of the cone is listed, since its event is of the subject of the parent. -/
theorem cone_listed {parent : Hash} {q : Signed} (hq : (validOf C out)[parent]? = some q)
    (hsubject : subjectOf parent q = ctx.subject) {view : Authority}
    (hview : view.Reads cr (coneOf C parent)) {g : Hash} {grant : Grant}
    (h : view.grants[g]? = some grant) : ∃ row ∈ ctx.grants, row.grant = g ∧
      row.holder = grant.holder := by
  have hparent := mem_of_getElem? hq
  have branch := verdicts.branch
  have hgrant := cone_grant verdicts reads hparent hview h
  obtain ⟨e, t, ht, hissued⟩ := hview.grants.mp h
  obtain ⟨htC, hanc⟩ := (branch.cone_part hparent e t).mp ht
  have htW := (cone_within verdicts hparent).sub ht
  have hsame := (branch.subject_anc hq htW
    (branch.within.anc_lift branch.closed hparent hanc).2).1.trans hsubject
  have hof : grant.subject = ctx.subject := by
    rcases issued_kind hissued with ⟨hgenesis, -, -, -, hsub⟩ | ⟨_, _, _, _, -, -, -, hsub⟩
    · rw [hsub, ← hsame, branch.genesis_subject htW hgenesis]
    · rw [← hsame, subjectOf, hsub]
      rfl
  obtain ⟨row, hrow, rfl⟩ := lists.listed.mpr ⟨grant, hgrant, hof⟩
  exact ⟨row, hrow, rfl, (lists.row hrow hgrant).1⟩

end

/-! ## The verdict on an act -/

section
variable {cr : Crypto} {C D : Candidates} {out out' : BTreeMap Status}
    {subjects subjects' : Subjects}
variable {A : Authority} {ctx : Context} (verdicts : Verdicts cr C out subjects)
variable (verdicts' : Verdicts cr D out' subjects') (within : Within C D)
variable (reads : A.Reads cr (validOf C out)) (lists : ctx.Reads cr C out A)
include verdicts verdicts' within

include lists

/-- Everything that admission checks of the header and the parent holds of a signed act. -/
theorem Signs.acts {author g parent : Hash} {e : Envelope}
    (h : Signs cr ctx author g parent e) : Acts D out' e parent ctx.subject g := by
  have branch := verdicts.branch
  obtain ⟨⟨q, hq, hsubject⟩, -⟩ := h.onto.eligible verdicts lists
  obtain ⟨genesis, hgenesis, hkind, hkey⟩ := lists.genesis
  have hqD := valid_stays verdicts verdicts' within hq
  obtain ⟨hqC, hqsub, st, hst, hvalid⟩ := validOf_get.mp hqD
  have heparents : e.parents = [parent] := by rw [h.header]; rfl
  have hsame : q.envelope.subjectKey = some ctx.subjectKey := by
    obtain ⟨t, ht, -, hanc⟩ := branch.genesis_exists hq
    rw [hsubject] at ht hanc
    obtain rfl := Option.some.inj (ht.symm.trans hgenesis)
    exact (branch.subject_anc hq ht hanc).2.symm.trans hkey
  have hnamed : (if q.envelope.payload.kind = .genesis then some parent else q.envelope.subject) =
      some ctx.subject := by
    split
    · next hq' => rw [← hsubject, branch.genesis_subject hq hq']
    · next hq' =>
      obtain ⟨named, hsome⟩ := Option.isSome_iff_exists.mp ((branch.law hq).header hq').1
      rw [← hsubject, subjectOf, hsome]
      rfl
  have hekey : e.subjectKey = some ctx.subjectKey := by rw [h.header]; rfl
  refine ⟨heparents, h.drafted.kind, ?_, heparents ▸ h.drafted.decision, ?_,
    ⟨q, hqC, hqsub, ?_⟩, ⟨st, hst, hvalid⟩, ?_⟩
  · rw [h.header]
    exact ⟨rfl, rfl, rfl⟩
  · rw [hekey]
    rfl
  · rw [parentOffence, hnamed, hsame, hekey]
    simp
  · exact ⟨genesis, within.sub (branch.within.sub hgenesis), hkind⟩

include reads

omit verdicts' within in
/-- A listed grant that the cone has is in scope there when it is in scope in the file. -/
theorem inScope_cone {signer target parent : Hash} {row : GrantRow}
    (hrow : ctx.grant target = some row) (hscope : inScope ctx signer target = true)
    (hparent : parent ∈ validOf C out) {view : Authority}
    (hview : view.Reads cr (coneOf C parent)) (hactive : target ∈ view.active) :
    V1.inScope view signer target = some true := by
  obtain ⟨hlisted, rfl⟩ := Context.grant_mem hrow
  have cone := verdicts.branch.cone_branch hparent
  obtain ⟨d, hd⟩ := ((hview.active row.grant).mp hactive).1
  obtain ⟨grant, hgrant⟩ := mem_iff.mp (hview.grant_mem.mpr ⟨d, hd⟩)
  obtain ⟨answer, hanswer, hspec⟩ := cone.inScope_spec hview signer hd
  rw [hanswer, hspec.mpr]
  rw [inScope, hrow] at hscope
  by_cases hself : signer = row.grant
  · simp only [if_pos hself, Option.isNone_iff_eq_none] at hscope
    refine Or.inr ⟨hself, (Branch.grant_root_iff hview hgrant).mpr ?_⟩
    rw [← (lists.row hlisted (cone_grant verdicts reads hparent hview hgrant)).2.1, hscope]
  · simp only [if_neg hself, List.contains_iff_mem] at hscope
    obtain ⟨above, hlineage, habove⟩ := (lists.grants row hlisted).lineage
    rw [hlineage, List.dropLast_concat, habove] at hscope
    exact Or.inl (cone.above_lift hd (verdicts.branch.within.above hscope))

omit within verdicts' reads lists in
theorem stands_iff {parent g : Hash} (hparent : parent ∈ validOf C out) {view : Authority}
    (hview : derive cr (coneOf C parent) = some view) : Stands cr C parent g ↔ g ∈ view.active := by
  constructor
  · rintro ⟨K, found, hcone, hderive, hg⟩
    rw [verdicts.branch.cone_some hparent] at hcone
    obtain rfl := Option.some.inj hcone
    obtain rfl := Option.some.inj (hview.symm.trans hderive)
    exact hg
  · intro hg
    exact ⟨_, view, verdicts.branch.cone_some hparent, hview, hg⟩

/-- Admission marks a signed act valid exactly when the grants it names stand. -/
theorem Signs.admitted_iff {author g parent : Hash} {ev : AuthorityEvent}
    (h : Signs cr ctx author g parent ev.envelope) (hs : D[ev.id]? = some ev.signed.toSigned) :
    Admitted out' ev.id ↔ ∀ g ∈ ev.grants, Stands cr C parent g := by
  have acts := h.acts verdicts verdicts' within lists
  obtain ⟨⟨q, hq, hsubject⟩, -⟩ := h.onto.eligible verdicts lists
  have hparent := mem_of_getElem? hq
  have hqD := valid_stays verdicts verdicts' within hq
  have hparentD := mem_of_getElem? hqD
  obtain ⟨view, hview, hreads, hlapsed, hgranted⟩ :=
    acts.evaluate_spec verdicts'.branch hparentD hs rfl
  have hcone := verdicts.branch.coneOf_eq verdicts'.branch (within.extends parent) hparent hparentD
  rw [hcone] at hview hreads
  have hauthor : ev.envelope.author = author := by rw [h.header]
  have hgrant : ev.grant = some g := by rw [AuthorityEvent.grant, h.header]; rfl
  have hsub : isSubject ev.signed.toSigned = true := isSubject_act acts.kind
  have hsettled : Settled D ev.id := by
    refine .after hs hsub fun p hp => ?_
    obtain rfl : p = parent := by
      have hparents : parentsOf ev.signed.toSigned = [parent] := acts.parents
      rw [hparents] at hp
      exact List.mem_singleton.mp hp
    obtain ⟨ht, hqsub, st, hst, hvalid⟩ := validOf_get.mp hqD
    exact verdicts'.valid_settled ht hqsub hst hvalid
  have hverdict := verdicts'.subject hs hsub hsettled
  have hstands : ∀ g : Hash, Stands cr C parent g ↔ g ∈ view.active :=
    fun g => stands_iff verdicts hparent hview
  simp only [hstands, AuthorityEvent.grants, hgrant, Option.toList_some, List.forall_mem_append,
    List.forall_mem_singleton]
  by_cases hactive : g ∈ view.active
  · obtain ⟨grant, hviewgrant⟩ :=
      mem_iff.mp (hreads.grant_mem.mpr ((hreads.active g).mp hactive).1)
    obtain ⟨signing, hsigning, rfl, hholder, -⟩ := h.signing
    have hwhole := cone_grant verdicts reads hparent hreads hviewgrant
    have hsame : grant.holder = ev.envelope.author := by
      rw [hauthor, ← hholder, (lists.row hsigning hwhole).1]
    rw [hcone] at hgranted
    rw [hgranted grant hviewgrant hsame hactive] at hverdict
    have hdrafted : ∃ st,
        evaluatePayload cr D (coneOf C parent) view signing.grant parent ev.envelope = some st ∧
        (st.state = .valid ↔ ∀ target ∈ targets ev.envelope.payload, target ∈ view.active) :=
      h.drafted.evaluate (fun hx => cone_listed verdicts reads lists hq hsubject hreads hx)
        fun hrow hscope htarget =>
          inScope_cone verdicts reads lists hrow hscope hparent hreads htarget
    obtain ⟨st, hst, hvalid⟩ := hdrafted
    rw [Admitted, ← hverdict, hst, Option.map_some, Option.some.injEq, hvalid]
    exact (and_iff_right hactive).symm
  · rw [hlapsed hactive] at hverdict
    refine iff_of_false (fun hadmitted => ?_) fun hall => hactive hall.1
    rw [Admitted, ← hverdict] at hadmitted
    cases hadmitted

omit within verdicts' reads verdicts in
/-- The grants an act names are listed and active. -/
theorem Signs.named {author g parent : Hash} {ev : AuthorityEvent}
    (h : Signs cr ctx author g parent ev.envelope) :
    ∀ x ∈ ev.grants, (∃ row, ctx.grant x = some row) ∧ x ∈ A.active := by
  have hgrant : ev.grant = some g := by rw [AuthorityEvent.grant, h.header]; rfl
  rw [AuthorityEvent.grants, hgrant, Option.toList_some, List.forall_mem_append,
    List.forall_mem_singleton]
  constructor
  · obtain ⟨signing, hsigning, rfl, -, hactive⟩ := h.signing
    refine ⟨?_, (lists.grants signing hsigning).active.mp hactive⟩
    exact Option.isSome_iff_exists.mp
      (List.find?_isSome.mpr ⟨signing, hsigning, decide_eq_true rfl⟩)
  · have hdrafted := h.drafted
    generalize ev.envelope.payload = p at hdrafted
    cases hdrafted with
    | delegate => exact nofun
    | @revoke target cascade d row hlisted hactive =>
      obtain ⟨hmem, rfl⟩ := Context.grant_mem hlisted
      exact List.forall_mem_singleton.mpr
        ⟨⟨row, hlisted⟩, (lists.grants row hmem).active.mp hactive⟩

omit within verdicts' in
/-- When no relinquishment precedes the parent, an active grant stands on its cone exactly when it
was issued there. -/
theorem stands_iff_issued {parent g : Hash} (hparent : ctx.Extendable parent)
    (kept : ¬ ∃ r, (history cr (validOf C out)).Relinquishes r ∧
      (history cr (validOf C out)).Before r parent) {row : GrantRow} (hrow : ctx.grant g = some row)
    (hactive : g ∈ A.active) : Stands cr C parent g ↔ row.issuedByEvent ∈ ctx.past parent := by
  have branch := verdicts.branch
  obtain ⟨⟨q, hq, hsubject⟩, heligible⟩ := hparent.eligible verdicts lists
  have hmem := mem_of_getElem? hq
  have cone := branch.cone_branch hmem
  have hwithin := cone_within verdicts hmem
  obtain ⟨view, hview, hreads⟩ := cone.derive_spec
  obtain ⟨hlisted, rfl⟩ := Context.grant_mem hrow
  obtain ⟨⟨d, hd⟩, huncut, huncovered⟩ := (reads.active row.grant).mp hactive
  have hissued : row.issuedByEvent = d := by
    obtain ⟨t, grant, ht, hi⟩ := hd
    rw [(lists.row hlisted (reads.grants.mpr ⟨d, t, ht, hi⟩)).2.2, issued_by hi]
  have hclean : ∀ e, (history cr (coneOf C parent)).mem e →
      ¬ (history cr (validOf C out)).Suppressed A.revokes e := by
    intro e he
    have hanc := ((branch.cone_part hmem).mem_iff.mp he).2
    exact heligible.past_clean kept (branch.within.anc_lift branch.closed hmem hanc).2
  rw [stands_iff verdicts hmem hview, hreads.active, hissued, lists.past_iff branch hq hsubject]
  constructor
  · rintro ⟨⟨d', hd'⟩, -⟩
    obtain rfl := branch.lawful.issues_event hd (hwithin.issues hd')
    have hanc := ((branch.cone_part hmem).mem_iff.mp (cone.lawful.issues_mem hd')).2
    exact (branch.within.anc_lift branch.closed hmem hanc).2
  · intro hanc
    have hdmem : d ∈ coneOf C parent := (branch.cone_part hmem).mem_iff.mpr
      ⟨branch.within.mem (branch.lawful.issues_mem hd), branch.within.anc hanc⟩
    have hdcone := (hwithin.issues_iff hdmem).mpr hd
    have huntouched := (hwithin.embeds (branch.free.within branch.within)).untouched cone.lawful
      branch.lawful hreads.effective reads.effective hclean hdcone ⟨huncovered, huncut⟩
    exact ⟨⟨d, hdcone⟩, huntouched.uncut, huntouched.uncovered⟩

end

/-! ## The acts that admission refuses -/

theorem forM_unit {ε α : Type} {f : α → Except ε Unit} {items : List α} :
    items.forM f = .ok () ↔ ∀ x ∈ items, f x = .ok () := by
  induction items with
  | nil => exact iff_of_true rfl nofun
  | cons x items ih =>
    change (f x >>= fun _ => items.forM f) = _ ↔ _
    rw [bind_ok, List.forall_mem_cons, ← ih]
    exact ⟨fun ⟨_, hx, h⟩ => ⟨hx, h⟩, fun ⟨hx, h⟩ => ⟨(), hx, h⟩⟩

theorem issuedInPast_ok {ctx : Context} {parent : Hash} {grants : List Hash} :
    issuedInPast ctx parent grants = .ok () ↔ ∀ g ∈ grants,
      ∃ row, ctx.grant g = some row ∧ row.issuedByEvent ∈ ctx.past parent := by
  rw [issuedInPast, forM_unit]
  refine forall₂_congr fun g _ => ?_
  cases hrow : ctx.grant g with
  | none => exact iff_of_false (fun h => by cases h) (fun ⟨row, h, _⟩ => by cases h)
  | some row =>
    simp only [Option.some.injEq, exists_eq_left']
    by_cases hpast : row.issuedByEvent ∈ ctx.past parent
    · have hcontains := List.contains_iff_mem.mpr hpast
      rw [if_neg (by rw [hcontains]; decide)]
      exact iff_of_true rfl hpast
    · have hcontains : (ctx.past parent).contains row.issuedByEvent = false := by
        rw [← Bool.not_eq_true, List.contains_iff_mem]
        exact hpast
      rw [if_pos (by rw [hcontains]; rfl)]
      exact iff_of_false (fun h => by cases h) hpast

/-- No event of the past shows the relinquishment of the root. -/
def Context.Kept (ctx : Context) (parent : Hash) : Prop :=
  ∀ x ∈ ctx.past parent, ∀ r, ctx.event x = some r → r.effect ≠ .rootRelinquished

theorem Context.Kept.kept {cr : Crypto} {C : Candidates} {out : BTreeMap Status} {A : Authority}
    {ctx : Context} {subjects : Subjects} (verdicts : Verdicts cr C out subjects)
    (lists : ctx.Reads cr C out A) {parent : Hash} (h : ctx.Kept parent) {q : Signed}
    (hq : (validOf C out)[parent]? = some q) (hsubject : subjectOf parent q = ctx.subject) :
    ¬ ∃ r, (history cr (validOf C out)).Relinquishes r ∧
      (history cr (validOf C out)).Before r parent := by
  rintro ⟨r, hrel, hbefore⟩
  have branch := verdicts.branch
  have hmem := branch.lawful.anc_mem hbefore.anc (mem_of_getElem? hq)
  obtain ⟨t, ht⟩ := mem_iff.mp hmem
  have hof := (branch.subject_anc hq ht hbefore.anc).1.trans hsubject
  obtain ⟨row, hrow⟩ := lists.events (branch.within.sub ht) (branch.law ht).subject hof
  refine h r ((lists.past_iff branch hq hsubject).mpr hbefore.anc) row hrow ?_
  exact ((lists.shown hrow).effect hmem).trans (reasonOf_relinquished.mpr hrel)

/-- A signed act is admitted exactly when the grants it names stand on the cone of its parent:
unless the root was relinquished in that past, when they were issued there. -/
theorem act_admitted_iff (cr : Crypto) (verify : Verify) (key : SecretKey) (C : Candidates)
    (instanceId subject : Hash) (request : Request) (rationale : String) (evidence : List Hash)
    {p : Projection} {ctx : Context} {ev : AuthorityEvent} {out : BTreeMap Status}
    (free : CollisionFree cr C) (free' : CollisionFree cr (C.insert ev.id ev.signed.toSigned))
    (same : ∀ t : Signed, C[ev.id]? = some t → t = ev.signed.toSigned)
    (hproject : project cr C = some p)
    (hcontext : (Snapshot.of p).context cr instanceId subject = .ok ctx)
    (hsign : request.sign cr verify key ctx rationale evidence = .ok ev)
    (hout : classify cr (C.insert ev.id ev.signed.toSigned) = some out) :
    ∃ parent, ev.parent = some parent ∧
      (Admitted out ev.id ↔ ∀ g ∈ ev.grants, Stands cr C parent g) ∧
      (ctx.Kept parent → (Admitted out ev.id ↔ issuedInPast ctx parent ev.grants = .ok ())) := by
  obtain ⟨outC, subjects, A, found, -, verdicts, -, reads, hfound, projected⟩ := project_spec free
  obtain rfl := Option.some.inj (hproject.symm.trans hfound)
  obtain ⟨_, subjects', hrun, verdicts'⟩ := classify_spec free'
  obtain rfl := Option.some.inj (hout.symm.trans hrun)
  obtain ⟨lists, -⟩ := context_reads verdicts reads projected hcontext
  obtain ⟨g, parent, hsigns⟩ := Request.sign_signs hsign
  have within : Within C (C.insert ev.id ev.signed.toSigned) := by
    refine ⟨fun {e t} ht => ?_⟩
    rw [Std.ExtTreeMap.getElem?_insert]
    split
    · next heq =>
      obtain rfl : ev.id = e := Std.LawfulEqCmp.eq_of_compare heq
      rw [same t ht]
    · exact ht
  have hiff := hsigns.admitted_iff verdicts verdicts' within reads lists
    Std.ExtTreeMap.getElem?_insert_self
  refine ⟨parent, by rw [AuthorityEvent.parent, hsigns.header]; rfl, hiff, fun hkept => ?_⟩
  obtain ⟨⟨q, hq, hsubject⟩, -⟩ := hsigns.onto.eligible verdicts lists
  rw [hiff, issuedInPast_ok]
  refine forall₂_congr fun x hx => ?_
  obtain ⟨⟨row, hrow⟩, hactive⟩ := hsigns.named lists x hx
  rw [stands_iff_issued verdicts reads lists hsigns.onto (hkept.kept verdicts lists hq hsubject)
    hrow hactive, hrow]
  simp only [Option.some.injEq, exists_eq_left']

namespace ActSample
open V1.Sample

/-- Bob corrects and Carol is delegated on that, while Alice revokes Bob without acknowledging it:
Carol's grant is active, but not in the past of the sole head. -/
def sidelined : Candidates := Sample.candidates
  [(1, Sample.genesis alice 7), (2, Sample.delegate alice root 1 bob),
   (3, Sample.correction bob 2 2 7 8), (4, Sample.delegate alice root 3 carol),
   (5, Sample.revoke alice root 2 2 false)]

def carolKey : SecretKey := ⟨carol, fun _ => List.replicate 64 0, by simp⟩

def anySignature : Verify := fun _ _ _ => true

/-- The digests of the derived identifiers, and `6` for what Carol signs. -/
def crypto : Crypto where
  sha256 bytes := if bytes.length < 100 then Sample.crypto.sha256 bytes else 6
  authorKey := Sample.crypto.authorKey

/-- Whether the identifiers collide, and the verdict on what Carol signs. -/
def verdict : Option (Bool × Option State) := do
  let p ← project crypto sidelined
  let ctx ← ((Snapshot.of p).context crypto 0 1).toOption
  let ev ← ((Request.delegate dave).sign crypto anySignature carolKey ctx "reason" [40]).toOption
  let all := sidelined.insert ev.id ev.signed.toSigned
  let out ← classify crypto all
  return (decide (CollisionFree crypto all) && !sidelined.contains ev.id,
    (out[ev.id]?).map Status.state)

theorem toOption_some {ε α : Type} {x : Except ε α} {a : α} (h : x.toOption = some a) :
    x = .ok a := by
  cases x with
  | error e => cases h
  | ok b => exact congrArg _ (Option.some.inj h)

theorem verdict_invalid : ∃ p ctx ev out, project crypto sidelined = some p ∧
    (Snapshot.of p).context crypto 0 1 = .ok ctx ∧
    (Request.delegate dave).sign crypto anySignature carolKey ctx "reason" [40] = .ok ev ∧
    CollisionFree crypto (sidelined.insert ev.id ev.signed.toSigned) ∧ ev.id ∉ sidelined ∧
    classify crypto (sidelined.insert ev.id ev.signed.toSigned) = some out ∧
    (out[ev.id]?).map Status.state = some .invalid := by
  have h : verdict = some (true, some .invalid) := by decide +kernel
  simp only [verdict, Option.bind_eq_bind, Option.bind_eq_some_iff] at h
  obtain ⟨p, hp, ctx, hctx, ev, hev, out, hout, h⟩ := h
  obtain ⟨hfree, hstate⟩ := Prod.mk.inj (Option.some.inj h)
  rw [Bool.and_eq_true, decide_eq_true_iff, Bool.not_eq_true'] at hfree
  refine ⟨p, ctx, ev, out, hp, toOption_some hctx, toOption_some hev, hfree.1, fun hmem => ?_, hout,
    hstate⟩
  rw [← Std.ExtTreeMap.contains_iff_mem, hfree.2] at hmem
  cases hmem

end ActSample

open ActSample in
/-- The act that Carol's publisher signs is refused. -/
theorem delegate_refused : ∃ p ctx ev out, project crypto sidelined = some p ∧
    (Snapshot.of p).context crypto 0 1 = .ok ctx ∧
    (Request.delegate V1.Sample.dave).sign crypto anySignature carolKey ctx "reason" [40] = .ok ev ∧
    classify crypto (sidelined.insert ev.id ev.signed.toSigned) = some out ∧
    ¬ Admitted out ev.id := by
  obtain ⟨p, ctx, ev, out, hp, hctx, hev, -, -, hout, hstate⟩ := verdict_invalid
  refine ⟨p, ctx, ev, out, hp, hctx, hev, hout, fun h => ?_⟩
  rw [Admitted, hstate] at h
  cases h

open ActSample in
theorem act_admitted_iff_sidelined : ∃ (ctx : Context) (ev : AuthorityEvent)
    (out : BTreeMap Status) (parent : Hash),
    (Request.delegate V1.Sample.dave).sign crypto anySignature carolKey ctx "reason" [40] = .ok ev ∧
    ev.parent = some parent ∧
    (Admitted out ev.id ↔ ∀ g ∈ ev.grants, Stands crypto sidelined parent g) ∧
    (ctx.Kept parent → (Admitted out ev.id ↔ issuedInPast ctx parent ev.grants = .ok ())) := by
  obtain ⟨p, ctx, ev, out, hp, hctx, hev, free', hnew, hout, -⟩ := verdict_invalid
  have free : CollisionFree crypto sidelined := by decide +kernel
  obtain ⟨parent, h⟩ := act_admitted_iff crypto anySignature carolKey sidelined 0 1
    (.delegate V1.Sample.dave) "reason" [40] free free'
    (fun t ht => absurd (mem_of_getElem? ht) hnew) hp hctx hev hout
  exact ⟨ctx, ev, out, parent, hev, h⟩

end Publisher

end Clockchain.V1
