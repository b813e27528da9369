import Clockchain.Newest
import Clockchain.V1.Acting
import Clockchain.V1.Inertness
import Clockchain.V1.Submission

/-!
# Acts that take effect

A Delegate or a Revoke that passes the checks of a submission extends the sole head under an active
grant. Once the node holds it as valid, the fold lets it take effect: a Delegate always, a Revoke
unless it silences an effective revoke outside the past of its parent.
-/

namespace Clockchain.V1
open Relation Maps Programs
set_option autoImplicit false

/-- `D` is `C` and the event `t` under the id `n`, which no event of `C` waits for. -/
structure Arrives (C D : Candidates) (n : Hash) (t : Signed) : Prop where
  fresh : n ∉ C
  here : D[n]? = some t
  within : Within C D
  rest : ∀ {x : Hash} {u : Signed}, D[x]? = some u → x = n ∨ C[x]? = some u
  unawaited : ∀ {x : Hash} {u : Signed}, C[x]? = some u → n ∉ parentsOf u

theorem arrives_insert {C : Candidates} {n : Hash} {t : Signed} (fresh : n ∉ C)
    (unawaited : ∀ (x : Hash) (u : Signed), C[x]? = some u → n ∉ parentsOf u) :
    Arrives C (C.insert n t) n t where
  fresh := fresh
  here := Std.ExtTreeMap.getElem?_insert_self
  within := by
    refine ⟨fun {x u} hu => ?_⟩
    rw [Std.ExtTreeMap.getElem?_insert]
    split
    · next heq =>
      obtain rfl : n = x := Std.LawfulEqCmp.eq_of_compare heq
      exact absurd (mem_of_getElem? hu) fresh
    · exact hu
  rest {x u} hu := by
    rw [Std.ExtTreeMap.getElem?_insert] at hu
    split at hu
    · next heq => exact Or.inl (Std.LawfulEqCmp.eq_of_compare heq).symm
    · exact Or.inr hu
  unawaited hu := unawaited _ _ hu

/-- A grant is of the subject of the event that issued it. -/
theorem Branch.grant_subject {cr : Crypto} {C W : Candidates} (branch : Branch cr C W) {e g : Hash}
    {t : Signed} {grant : Grant} (ht : W[e]? = some t)
    (h : issued cr e t.envelope = some (some (g, grant))) : grant.subject = subjectOf e t := by
  rcases issued_kind h with ⟨hkind, -, -, -, hsubject⟩ | ⟨_, _, _, -, -, -, -, hsubject⟩
  · rw [hsubject, branch.genesis_subject ht hkind]
  · rw [subjectOf, hsubject, Option.getD_some]

section
variable {cr : Crypto} {C D : Candidates} {out out' : BTreeMap Status} {s s' : Subjects}
variable (verdicts : Verdicts cr C out s) (verdicts' : Verdicts cr D out' s')
variable {n parent g : Hash} {t : Signed} (arrives : Arrives C D n t)
include verdicts verdicts' arrives

omit verdicts in
/-- No event of `C` has the arrived one in its past. -/
theorem Arrives.past_known {x : Hash} (hx : x ∈ validOf D out') (hne : x ≠ n) {d : Hash}
    (h : (history cr (validOf D out')).Anc d x) : d ∈ C := by
  have branch' := verdicts'.branch
  have hmem := branch'.lawful.anc_mem h hx
  obtain ⟨u, hu⟩ := mem_iff.mp hmem
  refine (arrives.rest (branch'.within.sub hu)).elim (fun heq => ?_) mem_of_getElem?
  subst heq
  rcases ReflTransGen.cases_head h with heq | ⟨c, ⟨v, hv, hparent⟩, -⟩
  · exact absurd heq.symm hne
  · rcases arrives.rest (branch'.within.sub hv) with rfl | hvC
    · exact absurd (TransGen.single ⟨v, hv, hparent⟩) (branch'.lawful.before_irrefl c)
    · exact absurd hparent (arrives.unawaited hvC)

variable (hn : (validOf D out')[n]? = some t)
include hn

theorem Arrives.newest (hparents : parentsOf t = [parent]) (hparent : parent ∈ validOf C out)
    (hsigner : signer cr n t = g) (hissued : ∃ d, (history cr (validOf C out)).issues d g) :
    History.Embeds.Newest (history cr (validOf C out)) (history cr (validOf D out')) id id n parent
      g where
  fresh := by
    refine ⟨mem_of_getElem? hn, ?_⟩
    rintro ⟨e, he, rfl⟩
    exact arrives.fresh (verdicts.branch.within.mem he)
  rest {x} hx := by
    by_cases heq : x = n
    · exact Or.inl heq
    · obtain ⟨u, hu⟩ := mem_iff.mp hx
      have hback := valid_back_past verdicts verdicts' arrives.within
        (fun d hd => arrives.past_known verdicts' hx heq hd) hu
      exact Or.inr ⟨x, mem_of_getElem? hback, rfl⟩
  parent {q} := by
    rw [parent_iff hn, hparents, List.mem_singleton]
    rfl
  parent_mem := hparent
  signer := (history_signer hn).trans hsigner
  issued := hissued

end

namespace Publisher

/-! ## What the checks of a submission say -/

theorem failing_nil {ok : Bool} {message : String} : failing ok message = [] ↔ ok = true := by
  cases ok <;> simp [failing]

section
variable {cr : Crypto} {h : Health} {ctx : Context} {ev : AuthorityEvent} {act : Act}

/-- No authority check fails: the signing grant is active and held by the author, the parent is
the sole head, and a Revoke's target is active and in scope. -/
structure Passes (ctx : Context) (ev : AuthorityEvent) (act : Act) : Prop where
  signing : ∃ row, ctx.grant act.grant = some row ∧ row.status = .active ∧
    row.holder = ev.envelope.author
  head : ctx.frontier = [act.parent]
  kept : ctx.frozen = false
  delegate : ∀ {grantee issuer : Hash}, act.operation = .delegate grantee issuer →
    ∀ r ∈ ctx.grants, r.holder ≠ grantee
  revoke : ∀ {target : Hash} {cascade : Bool}, act.operation = .revoke target cascade →
    (∃ row, ctx.grant target = some row ∧ row.status = .active) ∧
      inScope ctx act.grant target = true

theorem operationCheck_ok {grant : Hash} {op : Operation}
    (hok : (operationCheck ctx grant op).2 = []) :
    (∀ {grantee issuer : Hash}, op = .delegate grantee issuer →
      ∀ r ∈ ctx.grants, r.holder ≠ grantee) ∧
    (∀ {target : Hash} {cascade : Bool}, op = .revoke target cascade →
      (∃ row, ctx.grant target = some row ∧ row.status = .active) ∧
        inScope ctx grant target = true) := by
  cases op with
  | delegate grantee issuer =>
    refine ⟨fun heq => ?_, fun heq => by cases heq⟩
    obtain ⟨rfl, rfl⟩ := Operation.delegate.inj heq
    intro r hr hholder
    cases hfind : ctx.grants.find? fun g => g.holder = grantee with
    | some g => simp [operationCheck, hfind] at hok
    | none => exact List.find?_eq_none.mp hfind r hr (decide_eq_true hholder)
  | revoke target cascade =>
    refine ⟨fun heq => (by cases heq), fun heq => ?_⟩
    obtain ⟨rfl, rfl⟩ := Operation.revoke.inj heq
    simp only [operationCheck, List.append_eq_nil_iff, failing_nil, Option.any_eq_true,
      decide_eq_true_eq] at hok
    exact hok

theorem checkEvent_ok (hok : (checkEvent ctx cr h ev act).2.authority = []) :
    Passes ctx ev act := by
  simp only [checkEvent, List.append_eq_nil_iff, failing_nil, Option.any_eq_true, holds,
    Bool.and_eq_true, decide_eq_true_eq, Bool.not_eq_true'] at hok
  obtain ⟨⟨⟨-, row, hrow, hactive, hholder⟩, hhead, hfrozen⟩, hoperation⟩ := hok
  obtain ⟨hdelegate, hrevoke⟩ := operationCheck_ok hoperation
  exact ⟨⟨row, hrow, hactive, hholder⟩, hhead, hfrozen, hdelegate, hrevoke⟩

/-- The header of the event says what `act` says. -/
theorem act_some (hact : ev.act = some act) : ev.grant = some act.grant ∧
    ev.parent = some act.parent ∧ ev.operation = some act.operation := by
  simp only [AuthorityEvent.act, Option.bind_eq_bind, Option.bind_eq_some_iff, Option.pure_def,
    Option.some.injEq] at hact
  obtain ⟨grant, hgrant, parent, hparent, op, hop, rfl⟩ := hact
  exact ⟨hgrant, hparent, hop⟩

theorem operation_delegate {p : Payload} {grantee issuer : Hash}
    (hop : operation p = some (.delegate grantee issuer)) :
    ∃ d, p = .delegate grantee issuer d := by
  cases p <;> simp [operation] at hop
  obtain ⟨rfl, rfl⟩ := hop
  exact ⟨_, rfl⟩

theorem operation_revoke {p : Payload} {target : Hash} {cascade : Bool}
    (hop : operation p = some (.revoke target cascade)) :
    ∃ d, p = .revoke target cascade d := by
  cases p <;> simp [operation] at hop
  obtain ⟨rfl, rfl⟩ := hop
  exact ⟨_, rfl⟩

/-- An event that revokes is a Revoke. -/
theorem operation_of_revoke {W : Candidates} (hn : W[ev.id]? = some ev.signed.toSigned)
    {op : Operation} (hop : ev.operation = some op) {target : Hash} {c : Bool}
    (h : (history cr W).revoke ev.id target c) : op = .revoke target c := by
  have hrevoked := (revoke_iff hn).mp h
  rw [AuthorityEvent.operation, AuthorityEvent.envelope] at hop
  cases hp : ev.signed.envelope.payload <;> simp [revoked, hp] at hrevoked
  obtain ⟨rfl, rfl⟩ := hrevoked
  rw [hp] at hop
  exact (Option.some.inj hop).symm

theorem revoke_of_operation {W : Candidates} (hn : W[ev.id]? = some ev.signed.toSigned)
    {target : Hash} {c : Bool} (hop : ev.operation = some (.revoke target c)) :
    (history cr W).revoke ev.id target c := by
  obtain ⟨d, hp⟩ := operation_revoke hop
  rw [AuthorityEvent.envelope] at hp
  refine (revoke_iff hn).mpr ?_
  rw [revoked, hp]

theorem operation_kind {p : Payload} {op : Operation} (hop : operation p = some op) :
    p.kind = .delegate ∨ p.kind = .revoke := by
  cases op with
  | delegate grantee issuer =>
    obtain ⟨d, rfl⟩ := operation_delegate hop
    exact Or.inl rfl
  | revoke target cascade =>
    obtain ⟨d, rfl⟩ := operation_revoke hop
    exact Or.inr rfl

end

/-! ## The fold with the act -/

theorem singleton_of_head {l : List Hash} {p : Hash} (hlen : l.length ≤ 1) (h : l[0]? = some p) :
    l = [p] := by
  obtain ⟨hlt, hget⟩ := List.getElem?_eq_some_iff.mp h
  obtain ⟨a, rfl⟩ := List.length_eq_one_iff.mp (Nat.le_antisymm hlen hlt)
  rw [← hget, List.getElem_singleton]

theorem Context.grant_some {ctx : Context} {r : GrantRow} (hr : r ∈ ctx.grants) {id : Hash}
    (hname : r.grant = id) : ∃ g, ctx.grant id = some g :=
  Option.isSome_iff_exists.mp (List.find?_isSome.mpr ⟨r, hr, decide_eq_true hname⟩)

/-- A revoke that silences an act has a target above the grant of the act. -/
theorem silences_under {H : History Hash Hash} {q e : Hash} (h : H.Silences q e) :
    ∃ target c, H.revoke q target c ∧ H.Under target (H.signer e) := by
  have hcovers : ∀ {x : Hash}, H.Covers q x → ∃ target c, H.revoke q target c ∧
      H.Under target x := by
    rintro x ⟨target, c, hrevoke, hcover⟩
    refine ⟨target, c, hrevoke, ?_⟩
    rcases hcover with rfl | ⟨-, hunder⟩
    · exact .refl
    · exact hunder
  rcases h with ⟨hcover, -⟩ | hcut
  · exact hcovers hcover
  · obtain ⟨i, j, _, hij, hj, hcover, -, -⟩ := History.cuts_iff_under.mp hcut
    obtain ⟨target, c, hrevoke, hunder⟩ := hcovers hcover
    exact ⟨target, c, hrevoke, (hunder.tail hij).trans hj⟩

/-- The effective revokes under the target of a Revoke lie in the past of its parent. -/
def Spares (cr : Crypto) (C : Candidates) (revokes : BTreeSet) (ctx : Context) (act : Act) : Prop :=
  ∀ target cascade, act.operation = .revoke target cascade → ∀ r ∈ revokes, ∀ u : Signed,
    C[r]? = some u → ∀ row ∈ ctx.grants, row.grant = signer cr r u → target ∈ row.lineage →
      r ∈ ctx.past act.parent

section
variable {cr : Crypto} {C D : Candidates} {out out' : BTreeMap Status} {s s' : Subjects}
variable {A A' : Authority} {ctx ctx' : Context} {ev : AuthorityEvent} {act : Act}
variable (verdicts : Verdicts cr C out s) (verdicts' : Verdicts cr D out' s')
variable (reads : A.Reads cr (validOf C out)) (reads' : A'.Reads cr (validOf D out'))
variable (lists : ctx.Reads cr C out A) (lists' : ctx'.Reads cr D out' A')
variable (passes : Passes ctx ev act) (hact : ev.act = some act)

include lists passes in
theorem Passes.parent : (∃ q, (validOf C out)[act.parent]? = some q ∧
    subjectOf act.parent q = ctx.subject) ∧
      (history cr (validOf C out)).Eligible A.revokes act.parent := by
  obtain ⟨hacts, heligible, -⟩ := (lists.frontier act.parent).mp (by
    rw [passes.head]
    exact List.mem_singleton_self _)
  exact ⟨hacts, heligible⟩

include lists passes in
theorem Passes.active : act.grant ∈ A.active := by
  obtain ⟨row, hrow, hactive, -⟩ := passes.signing
  obtain ⟨hmem, hname⟩ := Context.grant_mem hrow
  exact hname ▸ (lists.grants row hmem).active.mp hactive

include reads lists passes in
theorem Passes.untouched : (history cr (validOf C out)).Untouched A.revokes act.grant := by
  obtain ⟨-, huncut, huncovered⟩ := (reads.active _).mp (passes.active lists)
  exact ⟨huncovered, huncut⟩

include lists in
/-- The grants under a listed one are listed, with it in their lineage. -/
theorem Context.Reads.under (branch : Branch cr C (validOf C out))
    (reads : A.Reads cr (validOf C out)) {target x : Hash} {row : GrantRow}
    (hrow : ctx.grant target = some row) (hx : ∃ d, (history cr (validOf C out)).issues d x)
    (h : (history cr (validOf C out)).Under target x) :
    ∃ r ∈ ctx.grants, r.grant = x ∧ target ∈ r.lineage := by
  obtain ⟨hmem, hname⟩ := Context.grant_mem hrow
  obtain ⟨grant, hgrant, hof⟩ := lists.listed.mp ⟨row, hmem, hname⟩
  obtain ⟨d, hd⟩ := hx
  obtain ⟨u, below, hu, hissued⟩ := id hd
  have hsubject : below.subject = ctx.subject := by
    rw [← hof]
    obtain ⟨e, v, hv, hi⟩ := reads.grants.mp hgrant
    rcases reflTransGen_iff_eq_or_transGen.mp h with rfl | habove
    · have hsame := reads.grants.mpr ⟨d, u, hu, hissued⟩
      exact congrArg Grant.subject (Option.some.inj (hsame.symm.trans hgrant))
    · obtain ⟨a, b, ha, hb, hab⟩ := branch.lawful.above_before habove
      obtain rfl := branch.lawful.issues_event ha ⟨v, grant, hv, hi⟩
      obtain rfl := branch.lawful.issues_event hb hd
      rw [branch.grant_subject hu hissued, branch.grant_subject hv hi,
        (branch.subject_anc hu hv hab.anc).1]
  obtain ⟨r, hr, rfl⟩ := lists.listed.mpr ⟨below, reads.grants.mpr ⟨d, u, hu, hissued⟩, hsubject⟩
  obtain ⟨above, hlineage, habove⟩ := (lists.grants r hr).lineage
  refine ⟨r, hr, rfl, ?_⟩
  rw [hlineage, List.mem_append, List.mem_singleton, habove]
  exact (reflTransGen_iff_eq_or_transGen.mp h).symm.imp_right Eq.symm

variable (arrives : Arrives C D ev.id ev.signed.toSigned)
variable (hn : (validOf D out')[ev.id]? = some ev.signed.toSigned)
include verdicts verdicts' reads lists passes hact arrives hn

/-- The act is the newest of the fold, on the sole head and through its grant. -/
theorem Passes.newest : History.Embeds.Newest (history cr (validOf C out))
    (history cr (validOf D out')) id id ev.id act.parent act.grant := by
  obtain ⟨⟨q, hq, -⟩, -⟩ := passes.parent lists
  obtain ⟨hgrant, hparent, hop⟩ := act_some hact
  have hkind : ev.signed.envelope.payload.kind ≠ .resolve := by
    rcases operation_kind hop with h | h <;> rw [AuthorityEvent.envelope] at h <;> simp [h]
  refine arrives.newest verdicts verdicts' hn ?_ (mem_of_getElem? hq) ?_ ?_
  · exact singleton_of_head ((verdicts'.branch.law hn).single hkind) hparent
  · rw [AuthorityEvent.grant, AuthorityEvent.envelope] at hgrant
    rw [signer, hgrant, Option.getD_some]
  · exact ((reads.active _).mp (passes.active lists)).1

/-- A Revoke silences no effective revoke where it spares those under its target. -/
theorem Passes.spared (spares : Spares cr C A.effectiveRevokes ctx act) :
    ∀ r ∈ A.revokes, ¬ (history cr (validOf D out')).Silences ev.id (id r) := by
  intro r hr hsil
  have branch := verdicts.branch
  have emb := valid_embeds verdicts verdicts' arrives.within
  have newest := passes.newest verdicts verdicts' reads lists hact arrives hn
  have hmem := (reads.effective.revokes hr).mem branch.lawful
  obtain ⟨u, hu⟩ := mem_iff.mp hmem
  obtain ⟨d, hd, -⟩ := branch.lawful.signer_issued hmem
  obtain ⟨target, c, hrevoke, hunder⟩ := silences_under hsil
  rw [emb.signer hmem] at hunder
  obtain ⟨x, hx, heq, -⟩ := emb.under_lift branch.lawful hd hunder
  obtain rfl : x = target := heq
  obtain ⟨-, -, hop⟩ := act_some hact
  have hoperation := operation_of_revoke hn hop hrevoke
  obtain ⟨⟨row, hrow, -⟩, -⟩ := passes.revoke hoperation
  obtain ⟨below, hbelow, hname, hlineage⟩ := lists.under branch reads hrow ⟨d, hd⟩ hx
  obtain ⟨⟨q, hq, hsubject⟩, -⟩ := passes.parent lists
  have hpast := spares x c hoperation r hr u (branch.within.sub hu) below hbelow
    (hname.trans (history_signer hu)) hlineage
  exact emb.newest_spares_past branch.lawful verdicts'.branch.lawful newest
    ((lists.past_iff branch hq hsubject).mp hpast) hsil

/-- A relinquishing act is signed through the root grant of the subject. -/
theorem Passes.root (hrel : (history cr (validOf D out')).Relinquishes ev.id) :
    relinquishes cr ctx act = true := by
  have newest := passes.newest verdicts verdicts' reads lists hact arrives hn
  obtain ⟨-, -, hop⟩ := act_some hact
  obtain ⟨c, hrevoke, hroot⟩ := hrel
  rw [newest.signer] at hrevoke hroot
  have hoperation := operation_of_revoke hn hop hrevoke
  obtain ⟨row, hrow, -, -⟩ := passes.signing
  obtain ⟨hmem, hname⟩ := Context.grant_mem hrow
  obtain ⟨grant, hgrant, hsubject⟩ := lists.listed.mp ⟨row, hmem, hname⟩
  obtain ⟨e, u, hu, hissued⟩ := reads.grants.mp hgrant
  rcases issued_kind hissued with ⟨-, hself, -, -, hof⟩ | ⟨_, i, _, -, -, hissuer, -, -⟩
  · rw [hof] at hsubject
    rw [relinquishes, hoperation]
    simp only [id, decide_true, Bool.true_and, decide_eq_true_eq]
    rw [hself, hsubject]
  · have hi : (history cr (validOf C out)).issuer i act.grant :=
      ⟨e, u, grant, hu, hissued, hissuer⟩
    have emb := valid_embeds verdicts verdicts' arrives.within
    exact absurd hi ((emb.root_iff ⟨u, grant, hu, hissued⟩).mp hroot i)

include reads' lists'
variable (hsame : ctx'.subject = ctx.subject)
include hsame

omit reads' lists' in
theorem Passes.parent_kept : ∃ q, (validOf D out')[act.parent]? = some q ∧
    subjectOf act.parent q = ctx'.subject ∧ subjectOf ev.id ev.signed.toSigned = ctx'.subject := by
  obtain ⟨⟨q, hq, hsubject⟩, -⟩ := passes.parent lists
  have hq' := valid_stays verdicts verdicts' arrives.within hq
  have newest := passes.newest verdicts verdicts' reads lists hact arrives hn
  have hparent : (history cr (validOf D out')).Anc act.parent ev.id :=
    .single (newest.parent.mpr rfl)
  have hown := (verdicts'.branch.subject_anc hn hq' hparent).1
  exact ⟨q, hq', hsubject.trans hsame.symm, (hown.symm.trans hsubject).trans hsame.symm⟩

omit reads' hsame in
/-- An act that relinquishes names the root grant as its signer and its target. -/
theorem Passes.relinquished (hrel : relinquishes cr ctx' act = true) :
    (history cr (validOf D out')).Relinquishes ev.id := by
  have newest := passes.newest verdicts verdicts' reads lists hact arrives hn
  obtain ⟨-, -, hop⟩ := act_some hact
  obtain ⟨genesis, hgenesis, -⟩ := lists'.genesis
  rw [relinquishes] at hrel
  split at hrel
  · next target cascade hoperation =>
    rw [Bool.and_eq_true, decide_eq_true_eq, decide_eq_true_eq] at hrel
    obtain ⟨htarget, hroot⟩ := hrel
    refine ⟨cascade, ?_, ?_⟩
    · rw [newest.signer, id, ← htarget]
      exact revoke_of_operation hn (hop.trans (congrArg some hoperation))
    · rw [newest.signer, id, ← htarget, hroot]
      exact verdicts'.branch.root_grant hgenesis
  · cases hrel

/-- The node shows the act valid, and eligible exactly if the act relinquishes the root or the node
shows its parent eligible. -/
theorem Passes.shown_iff :
    ∃ row, ctx'.event ev.id = some row ∧ row.state ≠ .invalid ∧ row.state ≠ .pending ∧
      ((row.effect = .none ∨ relinquishes cr ctx' act = true ∧ row.effect = .rootRelinquished) ↔
        relinquishes cr ctx' act = true ∨
          ∀ above, ctx'.event act.parent = some above → above.effect = .none) := by
  have branch' := verdicts'.branch
  have newest := passes.newest verdicts verdicts' reads lists hact arrives hn
  obtain ⟨q, hq, hparent, hown⟩ := passes.parent_kept verdicts verdicts' reads lists hact arrives hn
    hsame
  obtain ⟨row, hrow⟩ := lists'.events arrives.here (branch'.law hn).subject hown
  obtain ⟨above, habove⟩ := lists'.events (branch'.within.sub hq) (branch'.law hq).subject hparent
  have hmem := mem_of_getElem? hn
  obtain ⟨hinvalid, hpending⟩ := (lists'.shown hrow).valid.mpr hmem
  refine ⟨row, hrow, hinvalid, hpending, ?_⟩
  rw [(lists'.shown hrow).effect hmem]
  by_cases hrel : (history cr (validOf D out')).Relinquishes ev.id
  · have hroot : relinquishes cr ctx' act = true := by
      rw [relinquishes, hsame]
      exact passes.root verdicts verdicts' reads lists hact arrives hn hrel
    exact iff_of_true (Or.inr ⟨hroot, reasonOf_relinquished.mpr hrel⟩) (Or.inl hroot)
  · have hnot : ¬ relinquishes cr ctx' act = true := fun hroot =>
      hrel (passes.relinquished verdicts verdicts' reads lists lists' hact arrives hn hroot)
    obtain ⟨-, -, hkept, -⟩ := passes.parent lists
    have hparentRel : ¬ (history cr (validOf D out')).Relinquishes act.parent := fun h =>
      hkept (((valid_embeds verdicts verdicts' arrives.within).relinquishes_iff
        verdicts.branch.lawful branch'.lawful newest.parent_mem).mp h)
    have heligible : (∀ x, ctx'.event act.parent = some x → x.effect = .none) ↔
        (history cr (validOf D out')).Eligible A'.revokes act.parent := by
      rw [← reasonOf_none branch'.lawful (mem_of_getElem? hq),
        ← (lists'.shown habove).effect (mem_of_getElem? hq)]
      constructor
      · exact fun h => h above habove
      · intro h x hx
        rw [← Option.some.inj (habove.symm.trans hx), h]
    rw [or_iff_left fun h => hnot h.1, or_iff_right hnot, heligible, reasonOf_none branch'.lawful hmem,
      (valid_embeds verdicts verdicts' arrives.within).newest_eligible_iff verdicts.branch.lawful
        branch'.lawful newest reads.effective reads'.effective (passes.untouched reads lists) hrel]
    exact ⟨fun h => ⟨mem_of_getElem? hq, hparentRel, h⟩, fun h => h.2.2⟩

/-- Where the act spares the revokes under its target, its parent stays eligible. -/
theorem Passes.parent_eligible (spares : Spares cr C A.effectiveRevokes ctx act) :
    ∀ above, ctx'.event act.parent = some above → above.effect = .none := by
  intro above habove
  have branch' := verdicts'.branch
  have newest := passes.newest verdicts verdicts' reads lists hact arrives hn
  have emb := valid_embeds verdicts verdicts' arrives.within
  obtain ⟨q, hq, -, -⟩ := passes.parent_kept verdicts verdicts' reads lists hact arrives hn hsame
  have hmem := mem_of_getElem? hq
  obtain ⟨-, hkept, hnot, hsup⟩ := passes.parent lists
  rw [(lists'.shown habove).effect hmem, reasonOf_none branch'.lawful hmem]
  refine ⟨hmem, fun h => hnot ((emb.relinquishes_iff verdicts.branch.lawful branch'.lawful
    hkept).mp h), fun h => hsup ?_⟩
  exact emb.past_suppressed verdicts.branch.lawful branch'.lawful newest reads.effective
    reads'.effective (passes.spared verdicts verdicts' reads lists hact arrives hn spares)
    Relation.ReflTransGen.refl h

/-- The grant that a Delegate issues is active, held by the grantee under the signing grant. -/
theorem Passes.granted {grantee issuer : Hash} (hop : act.operation = .delegate grantee issuer) :
    ∃ g, ctx'.grant ev.id = some g ∧ g.holder = grantee ∧ g.issuer = some issuer ∧
      g.status = .active := by
  have branch' := verdicts'.branch
  have newest := passes.newest verdicts verdicts' reads lists hact arrives hn
  obtain ⟨hgrant, -, hoperation⟩ := act_some hact
  rw [hop] at hoperation
  obtain ⟨d, hp⟩ := operation_delegate hoperation
  rw [AuthorityEvent.envelope] at hp
  have hkind : ev.signed.envelope.payload.kind ≠ .genesis := by
    rw [hp]
    exact fun h => by cases h
  obtain ⟨subject, hsubject⟩ :=
    Option.isSome_iff_exists.mp ((branch'.law hn).header hkind).1
  have hissued : issued cr ev.id ev.signed.envelope =
      some (some (ev.id, ⟨ev.id, some issuer, grantee, subject⟩)) := by
    rw [issued, hp, hsubject]
    rfl
  have hentry := reads'.grants.mpr ⟨ev.id, ev.signed.toSigned, hn, hissued⟩
  have hof : subject = ctx'.subject := by
    obtain ⟨⟨q, hq, hsubjectq⟩, -⟩ := passes.parent lists
    have hparent : (history cr (validOf D out')).Anc act.parent ev.id :=
      .single (newest.parent.mpr rfl)
    have hown : subjectOf ev.id ev.signed.toSigned = subject := by
      rw [subjectOf, hsubject, Option.getD_some]
    rw [hsame, ← hsubjectq, ← hown,
      (branch'.subject_anc hn (valid_stays verdicts verdicts' arrives.within hq) hparent).1]
  obtain ⟨r, hr, hname⟩ := lists'.listed.mpr ⟨_, hentry, hof⟩
  obtain ⟨g, hg⟩ := Context.grant_some hr hname
  obtain ⟨hmem, hgname⟩ := Context.grant_mem hg
  obtain ⟨hholder, hissuer, -⟩ := lists'.row hmem (hgname ▸ hentry)
  refine ⟨g, hg, hholder, hissuer, (lists'.grants g hmem).active.mpr ?_⟩
  rw [hgname, reads'.active]
  have hissuerH : (history cr (validOf D out')).issuer (id act.grant) ev.id := by
    have hsigned := (branch'.law hn).issuer hp
    rw [AuthorityEvent.grant, AuthorityEvent.envelope] at hgrant
    obtain rfl := Option.some.inj (hgrant.symm.trans hsigned)
    exact ⟨ev.id, ev.signed.toSigned, _, hn, hissued, rfl⟩
  have hissuesH : (history cr (validOf D out')).issues ev.id ev.id :=
    ⟨ev.signed.toSigned, _, hn, hissued⟩
  have hrevokes : ¬ (history cr (validOf D out')).Revokes ev.id := by
    rintro ⟨target, c, hrevoke⟩
    cases operation_of_revoke hn hoperation hrevoke
  have huntouched := (valid_embeds verdicts verdicts' arrives.within).issued_untouched
    verdicts.branch.lawful branch'.lawful newest reads.effective reads'.effective
    (passes.untouched reads lists) hrevokes hissuesH hissuerH
  exact ⟨⟨ev.id, hissuesH⟩, huntouched.uncut, huntouched.uncovered⟩

/-- The target of a Revoke is tombstoned, with every grant below it when it cascades. -/
theorem Passes.revoked {target : Hash} {cascade : Bool}
    (hop : act.operation = .revoke target cascade) :
    ∃ t, ctx'.grant target = some t ∧ t.status = .tombstoned ∧
      (cascade = true → ∀ g ∈ ctx'.descendants target, g.status = .tombstoned) := by
  have branch' := verdicts'.branch
  have newest := passes.newest verdicts verdicts' reads lists hact arrives hn
  obtain ⟨-, -, hoperation⟩ := act_some hact
  rw [hop] at hoperation
  have hrevoke : (history cr (validOf D out')).revoke ev.id target cascade :=
    revoke_of_operation hn hoperation
  have heffective : ev.id ∈ A'.revokes :=
    (valid_embeds verdicts verdicts' arrives.within).newest_effective verdicts.branch.lawful
      branch'.lawful newest reads.effective reads'.effective (passes.untouched reads lists)
      ⟨target, cascade, hrevoke⟩
  have htombstoned : ∀ g ∈ ctx'.grants, (history cr (validOf D out')).Covers ev.id g.grant →
      g.status = .tombstoned := by
    intro g hg hcover
    obtain ⟨grant, hgrant, -⟩ := (lists'.grants g hg).grant
    obtain ⟨e, u, hu, hissued⟩ := reads'.grants.mp hgrant
    refine (lists'.grants g hg).tombstoned.mpr ⟨fun hactive => ?_, ?_⟩
    · exact ((reads'.active _).mp hactive).2.2 ⟨ev.id, heffective, hcover⟩
    · exact (reads'.tombstones _).mpr ⟨⟨e, u, grant, hu, hissued⟩, ev.id, heffective, hcover⟩
  obtain ⟨⟨row, hrow, -⟩, -⟩ := passes.revoke hop
  obtain ⟨hmem, hname⟩ := Context.grant_mem hrow
  obtain ⟨grant, hgrant, hof⟩ := lists.listed.mp ⟨row, hmem, hname⟩
  obtain ⟨e, u, hu, hissued⟩ := reads.grants.mp hgrant
  have hgrant' : A'.grants[target]? = some grant := reads'.grants.mpr
    ⟨e, u, (valid_within verdicts verdicts' arrives.within).sub hu, hissued⟩
  obtain ⟨r, hr, hrname⟩ := lists'.listed.mpr ⟨grant, hgrant', hof.trans hsame.symm⟩
  obtain ⟨t, ht⟩ := Context.grant_some hr hrname
  obtain ⟨htmem, htname⟩ := Context.grant_mem ht
  refine ⟨t, ht, htombstoned t htmem ⟨target, cascade, hrevoke, Or.inl htname.symm⟩, ?_⟩
  intro hcascade g hg
  obtain ⟨hgmem, hbelow⟩ := List.mem_filter.mp hg
  rw [Bool.and_eq_true, decide_eq_true_eq, List.contains_iff_mem] at hbelow
  obtain ⟨above, hlineage, habove⟩ := (lists'.grants g hgmem).lineage
  rw [hlineage, List.mem_append, List.mem_singleton] at hbelow
  have hup := (habove target).mp (hbelow.2.resolve_right fun h => hbelow.1 h.symm)
  exact htombstoned g hgmem ⟨target, cascade, hrevoke, Or.inr ⟨hcascade, hup.to_reflTransGen⟩⟩

/-- The operation holds in what the node shows. -/
def Enacted (op : Operation) (shown : Shown) : Prop :=
  match op, shown with
  | .delegate grantee issuer, .delegate g =>
    g.holder = grantee ∧ g.issuer = some issuer ∧ g.status = .active
  | .revoke target cascade, .revoke t _ below _ => t.grant = target ∧ t.status = .tombstoned ∧
      (cascade = true → ∀ g ∈ below, g.status = .tombstoned)
  | _, _ => False

theorem Passes.read : ∃ shown,
    readOperation cr ctx' ev act true act.operation = .ok shown ∧
      Enacted act.operation shown := by
  cases hop : act.operation with
  | delegate grantee issuer =>
    obtain ⟨g, hg, hholder, hissuer, hactive⟩ :=
      passes.granted verdicts verdicts' reads reads' lists
      lists' hact arrives hn hsame hop
    refine ⟨.delegate g, ?_, ?_⟩
    · simp [readOperation, hg, hholder, hissuer, hactive]
      rfl
    · exact ⟨hholder, hissuer, hactive⟩
  | revoke target cascade =>
    obtain ⟨t, ht, htomb, hbelow⟩ :=
      passes.revoked verdicts verdicts' reads reads' lists lists' hact
      arrives hn hsame hop
    refine ⟨.revoke t cascade (ctx'.descendants target) (relinquishes cr ctx' act), ?_, ?_⟩
    · cases cascade with
      | false =>
        simp [readOperation, ht, htomb]
        rfl
      | true =>
        have hnone : (ctx'.descendants target).find? (fun g => g.status ≠ .tombstoned) = none := by
          rw [List.find?_eq_none]
          intro g hg
          simp [hbelow rfl g hg]
        simp only [readOperation, ht, htomb, hnone]
        rfl
    · exact ⟨(Context.grant_mem ht).2, htomb, hbelow⟩

omit verdicts verdicts' reads reads' lists lists' passes hact arrives hn hsame in
theorem readback_ok {debug : String → String} {row : EventRow} {shown : Shown} {back : Readback}
    (hrow : ctx'.event ev.id = some row) (hinvalid : row.state ≠ .invalid)
    (hpending : row.state ≠ .pending)
    (hshown : readOperation cr ctx' ev act true act.operation = .ok shown) :
    readback cr debug ctx' ev act true = .ok back ↔
      (row.effect = .none ∨ relinquishes cr ctx' act = true ∧ row.effect = .rootRelinquished) ∧
        back = ⟨row.state, row.effect, ctx'.frontier, ctx'.frontier.contains ev.id, ctx'.state,
          ctx'.frozen, (ctx'.grants.filter fun g => g.status = .active).map GrantRow.grant,
          shown⟩ := by
  unfold readback
  simp only [hrow, hinvalid, hpending, hshown]
  by_cases h : row.effect = .none ∨
      relinquishes cr ctx' act = true ∧ row.effect = .rootRelinquished
  · have hkept : (!(!true || row.effect = .none ||
        (relinquishes cr ctx' act && row.effect = .rootRelinquished))) = false := by
      rcases h with h | ⟨hroot, h⟩ <;> simp [*]
    simp only [hkept, h, true_and]
    exact ⟨fun heq => (Except.ok.inj heq).symm, fun heq => congrArg Except.ok heq.symm⟩
  · have hlost : (!(!true || row.effect = .none ||
        (relinquishes cr ctx' act && row.effect = .rootRelinquished))) = true := by
      rw [not_or, not_and] at h
      cases hroot : relinquishes cr ctx' act with
      | false => simp [h.1]
      | true => simp [h.1, h.2 hroot]
    simp only [hlost, h, false_and, iff_false]
    exact fun heq => by cases heq

/-- What is read back is the act in effect, exactly if the node shows it eligible. -/
theorem Passes.readback (debug : String → String) :
    ∃ shown, readOperation cr ctx' ev act true act.operation = .ok shown.operation ∧
      Enacted act.operation shown.operation ∧ ∀ back, Publisher.readback cr debug ctx' ev act true =
        .ok back ↔ (relinquishes cr ctx' act = true ∨
          ∀ above, ctx'.event act.parent = some above → above.effect = .none) ∧ back = shown := by
  obtain ⟨row, hrow, hinvalid, hpending, heffect⟩ := passes.shown_iff verdicts verdicts' reads
    reads' lists lists' hact arrives hn hsame
  obtain ⟨shown, hshown, henacted⟩ :=
    passes.read verdicts verdicts' reads reads' lists lists' hact arrives hn hsame
  refine ⟨⟨row.state, row.effect, ctx'.frontier, ctx'.frontier.contains ev.id, ctx'.state,
    ctx'.frozen, (ctx'.grants.filter fun g => g.status = .active).map GrantRow.grant, shown⟩,
    hshown, henacted, fun back => ?_⟩
  rw [readback_ok hrow hinvalid hpending hshown, heffect]

end

/-! ## Whole submissions -/

section
variable {cr : Crypto} {debug : String → String} {h : Health} {ctx : Context} {ev : AuthorityEvent}
variable {act : Act}

/-- Without the flag that overrides them, no check may fail. -/
theorem precheck_ok (fresh : ctx.event ev.id = none) {checked : Trust × List String} :
    precheck cr debug h ctx ev act false = .ok checked ↔ h.writable debug = .ok () ∧
      (ctx.event act.parent).isSome = true ∧
      issuedInPast ctx act.parent (act.grant :: match act.operation with
        | .revoke target _ => [target]
        | .delegate .. => []) = .ok () ∧
      (checkEvent ctx cr h ev act).2.identity = [] ∧
      (checkEvent ctx cr h ev act).2.authority = [] ∧
      checked = ((checkEvent ctx cr h ev act).1, []) := by
  generalize hcheck : checkEvent ctx cr h ev act = result
  obtain ⟨trust, identity, authority⟩ := result
  simp only [precheck, hcheck, fresh, Option.isNone_none, if_true, bind_ok, unless_ok, mapError_ok]
  constructor
  · rintro ⟨_, hwritable, hparent, _, hissued, hwarnings, hchecked⟩
    have hnil : identity ++ authority = [] := by simpa using hwarnings
    obtain ⟨rfl, rfl⟩ := List.append_eq_nil_iff.mp hnil
    rw [Option.isNone_iff_eq_none] at hparent
    exact ⟨hwritable, Option.isSome_iff_ne_none.mpr hparent, hissued, rfl, rfl,
      (Except.ok.inj hchecked).symm⟩
  · rintro ⟨hwritable, hparent, hissued, rfl, rfl, rfl⟩
    rw [Option.isSome_iff_ne_none] at hparent
    exact ⟨(), hwritable, mt Option.isNone_iff_eq_none.mp hparent, (), hissued, by simp, rfl⟩

end

theorem failures_none {f : Failures} (hidentity : f.identity = []) (hauthority : f.authority = []) :
    f = ⟨[], []⟩ := by
  cases f
  cases hidentity
  cases hauthority
  rfl

/-- The event is new to `C`, passes every check against the context of its snapshot, and is valid
once it is added. -/
structure Checked (cr : Crypto) (h : Health) (C : Candidates) (instanceId subject : Hash)
    (ev : AuthorityEvent) (act : Act) (p p' : Projection) (ctx ctx' : Context)
    (out : BTreeMap Status) : Prop where
  free : CollisionFree cr (C.insert ev.id ev.signed.toSigned)
  fresh : ev.id ∉ C
  acts : ev.act = some act
  folded : project cr C = some p
  context : (Snapshot.of p).context cr instanceId subject = .ok ctx
  passes : (checkEvent ctx cr h ev act).2 = ⟨[], []⟩
  folded' : project cr (C.insert ev.id ev.signed.toSigned) = some p'
  classified : classify cr (C.insert ev.id ev.signed.toSigned) = some out
  valid : Admitted out ev.id
  context' : (Snapshot.of p').context cr instanceId subject = .ok ctx'

section
variable {cr : Crypto} {h : Health} {C : Candidates} {instanceId subject : Hash}
variable {ev : AuthorityEvent} {act : Act} {p p' : Projection} {ctx ctx' : Context}
variable {out : BTreeMap Status}

/-- What is read back of a checked act that no event waits for. -/
theorem Checked.readback (checked : Checked cr h C instanceId subject ev act p p' ctx ctx' out)
    (unawaited : ∀ (x : Hash) (u : Signed), C[x]? = some u → ev.id ∉ parentsOf u)
    (debug : String → String) :
    (∃ shown, readOperation cr ctx' ev act true act.operation = .ok shown.operation ∧
      Enacted act.operation shown.operation ∧ ∀ back, Publisher.readback cr debug ctx' ev act true =
        .ok back ↔ (relinquishes cr ctx' act = true ∨
          ∀ above, ctx'.event act.parent = some above → above.effect = .none) ∧ back = shown) ∧
      (Spares cr C p.authority.effectiveRevokes ctx act →
        ∀ above, ctx'.event act.parent = some above → above.effect = .none) := by
  have arrives := arrives_insert (t := ev.signed.toSigned) checked.fresh unawaited
  obtain ⟨outC, subjects, A, p₀, -, verdicts, -, reads, hp₀, projected⟩ :=
    project_spec (checked.free.within arrives.within)
  obtain ⟨out', subjects', A', p₁, hout', verdicts', -, reads', hp₁, projected'⟩ :=
    project_spec checked.free
  obtain rfl := Option.some.inj (checked.folded.symm.trans hp₀)
  obtain rfl := Option.some.inj (checked.folded'.symm.trans hp₁)
  obtain rfl := Option.some.inj (checked.classified.symm.trans hout')
  obtain ⟨lists, hsubject⟩ := context_reads verdicts reads projected checked.context
  obtain ⟨lists', hsubject'⟩ := context_reads verdicts' reads' projected' checked.context'
  have passes : Passes ctx ev act := checkEvent_ok (by rw [checked.passes])
  have hn : (validOf (C.insert ev.id ev.signed.toSigned) out)[ev.id]? =
      some ev.signed.toSigned := by
    obtain ⟨st, hst, hstate⟩ := admitted_iff.mp checked.valid
    refine validOf_get.mpr ⟨arrives.here, isSubject_act ?_, st, hst, hstate⟩
    exact operation_kind (act_some checked.acts).2.2
  have hsame := hsubject'.trans hsubject.symm
  rw [projected.authority]
  exact ⟨passes.readback verdicts verdicts' reads reads' lists lists' checked.acts arrives hn hsame
      debug,
    passes.parent_eligible verdicts verdicts' reads reads' lists lists' checked.acts arrives hn
      hsame⟩

end

/-- A submission that overrides nothing, of an event which the node then holds as valid, ends with
the act in effect: unless the event is a Revoke with an effective revoke under its target outside
the past of its parent, or a retained event has waited for it. -/
theorem submit_takes_effect (cr : Crypto) (debug : String → String) (h : Health) (C : Candidates)
    (instanceId subject : Hash) (ev : AuthorityEvent) (act : Act) (post : Reply)
    {p p' : Projection} {ctx ctx' : Context} {out : BTreeMap Status} {checked : Trust × List String}
    (free : CollisionFree cr (C.insert ev.id ev.signed.toSigned)) (fresh : ev.id ∉ C)
    (unawaited : ∀ (x : Hash) (u : Signed), C[x]? = some u → ev.id ∉ parentsOf u)
    (hact : ev.act = some act) (hp : project cr C = some p)
    (hctx : (Snapshot.of p).context cr instanceId subject = .ok ctx)
    (hchecked : precheck cr debug h ctx ev act false = .ok checked)
    (spares : Spares cr C p.authority.effectiveRevokes ctx act)
    (hp' : project cr (C.insert ev.id ev.signed.toSigned) = some p')
    (hout : classify cr (C.insert ev.id ev.signed.toSigned) = some out)
    (hvalid : Admitted out ev.id) (hpost : acknowledged cr debug ev post = .ok ())
    (hctx' : (Snapshot.of p').context cr instanceId subject = .ok ctx') :
    ∃ receipt, submit cr debug h ctx ev act false post ctx' = .ok receipt ∧
      receipt.overridden = [] ∧ Enacted act.operation receipt.readback.operation := by
  -- The context shows only events that the node retains.
  have hnew : ctx.event ev.id = none := by
    obtain ⟨outC, subjects, A, p₀, -, verdicts, -, reads, hp₀, projected⟩ :=
      project_spec (free.within (arrives_insert fresh unawaited).within)
    obtain rfl := Option.some.inj (hp.symm.trans hp₀)
    obtain ⟨lists, -⟩ := context_reads verdicts reads projected hctx
    cases hevent : ctx.event ev.id with
    | none => rfl
    | some r =>
      obtain ⟨t, ht, -⟩ := (lists.shown hevent).known
      exact absurd (mem_of_getElem? ht) fresh
  obtain ⟨-, -, -, hidentity, hauthority, hresult⟩ := (precheck_ok hnew).mp hchecked
  have hpasses := failures_none hidentity hauthority
  obtain ⟨⟨shown, -, henacted, hback⟩, hspared⟩ := Checked.readback
    ⟨free, fresh, hact, hp, hctx, hpasses, hp', hout, hvalid, hctx'⟩ unawaited debug
  have hshown := (hback shown).mpr ⟨Or.inr (hspared spares), rfl⟩
  refine ⟨⟨checked.1, checked.2, .admitted post, shown⟩, ?_, by rw [hresult], henacted⟩
  unfold submit
  simp only [hchecked, hnew, hpost, Option.isNone_none, hshown]
  rfl

namespace ActSample
open V1.Sample

/-- Bob has a grant and has corrected; nobody is revoked. -/
def appointed : Candidates := Sample.candidates
  [(1, Sample.genesis alice 7), (2, Sample.delegate alice root 1 bob),
   (3, Sample.correction bob 2 2 7 8)]

/-- Alice revokes Bob on the sole head. -/
def revocation : Envelope := Sample.revoke alice root 3 2 true

theorem revocation_canonical : revocation.Canonical := by decide

def revoking : AuthorityEvent := ⟨⟨⟨revocation, revocation_canonical⟩, 4, []⟩⟩

def revokingAct : Act := ⟨root, 3, .revoke 2 true⟩

/-- A node that runs this build, with Alice as its curator. -/
def filterOf (cr : Crypto) : FilterIdentity :=
  ⟨foldV1 cr, canonVersion, constantsVersion, ttTaxonomy, [alice], trustPolicy, 3⟩

def healthOf (cr : Crypto) : Health where
  ledger := "v1"
  posture := "open"
  semantic := "ready"
  instanceId := 0
  fold := foldV1 cr
  filterVersion := (filterOf cr).version cr
  curators := [alice]
  maxHops := 3

def health : Health := healthOf Sample.crypto

def reply : Reply := ⟨true, "201 Created", some 4, Sample.crypto.sha256 [], "valid", ""⟩

theorem health_consistent {cr : Crypto} (hkey : cr.authorKey alice = true) :
    (healthOf cr).filterConsistent cr = true := by
  have hcurators : ¬ ([alice].isEmpty = true ∨ ¬ Increasing [alice] ∨
      ([alice].any fun k => !cr.authorKey k) = true) := by
    simp [Increasing, hkey]
  have hgoverned : FilterIdentity.governed cr (healthOf cr).curators (healthOf cr).maxHops =
      .ok (filterOf cr) := by
    change FilterIdentity.governed cr [alice] 3 = _
    rw [FilterIdentity.governed, if_neg hcurators, if_neg (by decide)]
    rfl
  simp only [Health.filterConsistent, hgoverned]
  exact decide_eq_true rfl

theorem identity_passes {cr : Crypto} {ctx : Context} {ev : AuthorityEvent} {act : Act}
    (hkey : cr.authorKey alice = true) (hinstance : ev.envelope.instanceId = 0) :
    (checkEvent ctx cr (healthOf cr) ev act).2.identity = [] := by
  simp only [checkEvent, List.append_eq_nil_iff, failing_nil, health_consistent hkey, and_true,
    decide_eq_true_eq]
  exact ⟨hinstance.symm, decide_eq_true rfl⟩

/-- `{:?}` of a plain text. -/
def quoted (s : String) : String := "\"" ++ s ++ "\""

theorem acknowledges : acknowledged Sample.crypto quoted revoking reply = .ok () := rfl

/-- What the folds without and with the Revoke say, as far as the submission asks. -/
def enacted : Option Bool := do
  let all := appointed.insert revoking.id revoking.signed.toSigned
  let p ← project Sample.crypto appointed
  let p' ← project Sample.crypto all
  let ctx ← ((Snapshot.of p).context Sample.crypto 0 1).toOption
  let _ ← ((Snapshot.of p').context Sample.crypto 0 1).toOption
  let out ← classify Sample.crypto all
  return decide (CollisionFree Sample.crypto all) && !appointed.contains revoking.id &&
    appointed.toList.all (fun item => !(parentsOf item.2).contains revoking.id) &&
    (ctx.event revoking.id).isNone && (ctx.event revokingAct.parent).isSome &&
    (issuedInPast ctx revokingAct.parent [root, 2]).toOption.isSome &&
    (checkEvent ctx Sample.crypto health revoking revokingAct).2.authority.isEmpty &&
    p.authority.effectiveRevokes.isEmpty && decide (Admitted out revoking.id)

theorem enacted_true : enacted = some true := by decide +kernel

end ActSample

theorem unawaited_of {C : Candidates} {n : Hash}
    (h : ∀ item ∈ C.toList, (parentsOf item.2).contains n = false) :
    ∀ (x : Hash) (u : Signed), C[x]? = some u → n ∉ parentsOf u := by
  intro x u hu hmem
  have hno := h (x, u) (Std.ExtTreeMap.mem_toList_iff_getElem?_eq_some.mpr hu)
  rw [List.contains_iff_mem.mpr hmem] at hno
  cases hno

open ActSample in
theorem submit_takes_effect_revoking : ∃ ctx ctx' receipt,
    submit V1.Sample.crypto quoted health ctx revoking revokingAct false reply ctx' = .ok receipt ∧
      receipt.overridden = [] ∧ Enacted revokingAct.operation receipt.readback.operation := by
  have h := enacted_true
  simp only [enacted, Option.bind_eq_bind, Option.bind_eq_some_iff] at h
  obtain ⟨p, hp, p', hp', ctx, hctx, ctx', hctx', out, hout, h⟩ := h
  simp only [Option.pure_def, Option.some.injEq, Bool.and_eq_true, decide_eq_true_eq,
    Bool.not_eq_true', List.all_eq_true, List.isEmpty_iff, Option.isNone_iff_eq_none] at h
  obtain ⟨⟨⟨⟨⟨⟨⟨⟨free, hfresh⟩, hunawaited⟩, hnew⟩, hparent⟩, hissued⟩, hauthority⟩, hnone⟩,
    hvalid⟩ := h
  have fresh : revoking.id ∉ appointed := by
    rw [← Std.ExtTreeMap.contains_iff_mem, hfresh]
    exact Bool.false_ne_true
  have hissued' : issuedInPast ctx revokingAct.parent [V1.Sample.root, 2] = .ok () := by
    obtain ⟨⟨⟩, hu⟩ := Option.isSome_iff_exists.mp hissued
    exact toOption_some hu
  have hspares :
      Spares V1.Sample.crypto appointed p.authority.effectiveRevokes ctx revokingAct := by
    intro _ _ _ r hr
    rw [Std.ExtTreeSet.isEmpty_iff.mp hnone] at hr
    exact absurd hr Std.ExtTreeSet.not_mem_empty
  obtain ⟨receipt, hreceipt⟩ := submit_takes_effect V1.Sample.crypto quoted health appointed 0 1
    revoking revokingAct reply free fresh (unawaited_of hunawaited) rfl hp (toOption_some hctx)
    ((precheck_ok hnew).mpr ⟨rfl, hparent, hissued',
      identity_passes (by decide) rfl, hauthority, rfl⟩) hspares hp'
    hout hvalid acknowledges (toOption_some hctx')
  exact ⟨ctx, ctx', receipt, hreceipt⟩

end Publisher

end Clockchain.V1
