import Clockchain.V1.Arrival
import Clockchain.V1.Grants
import Clockchain.V1.RoundTrip
import Clockchain.V1.Soundness

/-!
# What the publisher signs

An act that `delegate` or `revoke` signed is checked by admission on the cone of its one
parent. The publisher reads the projection of everything instead, so the grants it finds
active need not stand on that cone.
-/

namespace Clockchain.V1
open Relation Maps Programs
set_option autoImplicit false

/-! ## Admission of an act on one parent -/

theorem empty_union {K : Candidates} : ∅ ∪ K = K := by
  apply ext_graph
  intro k v
  rw [getElem?_union_eq]
  simp

/-- A Delegate or a Revoke of `subject` on the known event `q`, under the grant `g`. -/
structure Acts (D : Candidates) (out : BTreeMap Status) (e : Envelope) (parent subject g : Hash) :
    Prop where
  parents : e.parents = [parent]
  kind : e.payload.kind = .delegate ∨ e.payload.kind = .revoke
  named : e.subject = some subject ∧ e.grant = some g ∧ e.assertedTime = none
  decision : ∃ d, e.payload.decision = some d ∧ d.records e.payload.kind e.parents = true
  keyed : e.subjectKey.isSome
  known : ∃ q : Signed, D[parent]? = some q ∧ isSubject q = true ∧
    parentOffence subject e parent q.envelope = none
  valid : ∃ st : Status, out[parent]? = some st ∧ st.state = .valid
  genesis : ∃ t : Signed, D[subject]? = some t ∧ t.envelope.payload.kind = .genesis

section
variable {cr : Crypto} {D W : Candidates} {out : BTreeMap Status} {e : Envelope}
variable {parent subject g : Hash} (acts : Acts D out e parent subject g)
include acts

theorem Acts.header : headerOffence e = none := by
  obtain ⟨hsubject, hgrant, htime⟩ := acts.named
  have hkey : e.subjectKey.isNone = false := by simpa using acts.keyed
  rcases acts.kind with hkind | hkind <;>
    simp [headerOffence, htime, hkind, acts.parents, hsubject, hgrant, hkey]

theorem Acts.offence : firstOffence D subject e = some none := by
  obtain ⟨q, hq, _, hoffence⟩ := acts.known
  simp [firstOffence, acts.parents, hq, hoffence]

/-- What admission asks of such an act beyond its header is asked on the cone of the parent. -/
theorem Acts.evaluate_spec (branch : Branch cr D W) (hparent : parent ∈ W) {id : Hash} {s : Signed}
    (hs : D[id]? = some s) (he : s.envelope = e) : ∃ view,
      derive cr (coneOf D parent) = some view ∧ view.Reads cr (coneOf D parent) ∧
      (g ∉ view.active → evaluate cr id D out = some (.invalid .parentAuthority)) ∧
      ∀ grant : Grant, view.grants[g]? = some grant → grant.holder = e.author → g ∈ view.active →
        evaluate cr id D out = evaluatePayload cr D (coneOf D parent) view g parent e := by
  obtain ⟨view, hview, reads⟩ := (branch.cone_branch hparent).derive_spec
  obtain ⟨hsubject, hgrant, htime⟩ := acts.named
  obtain ⟨d, hd, hrecords⟩ := acts.decision
  obtain ⟨q, hq, hqsubject, _⟩ := acts.known
  obtain ⟨st, hst, hvalid⟩ := acts.valid
  obtain ⟨genesis, hgenesis, hkind⟩ := acts.genesis
  have hgenesiskind : e.payload.kind ≠ .genesis := by
    rcases acts.kind with h | h <;> simp [h]
  have hresolve : e.payload.kind ≠ .resolve := by
    rcases acts.kind with h | h <;> simp [h]
  have hparents : evaluate cr id D out = evaluateAuthority cr D e := by
    have hmissing : (e.parents.filter fun p => !D.contains p) = [] := by
      simp [acts.parents, mem_of_getElem? hq]
    have hstray : (e.parents.any fun p => !(D[p]?).any isSubject) = false := by
      rw [acts.parents]
      simp only [List.any_cons, List.any_nil, hq, Option.any_some, hqsubject]
      rfl
    have hstates : e.parents.mapM (fun p => out[p]?) = some [st] := by
      rw [acts.parents, List.mapM_cons, hst]
      rfl
    simp only [evaluate, hs, Option.bind_eq_bind, Option.bind_some, he, acts.header,
      evaluateParents, hmissing, hstray, hstates, hsubject, acts.offence, hgenesis, hkind]
    simp [hgenesiskind, hvalid]
  have hauthority : evaluateAuthority cr D e =
      if g ∈ view.active then do
        if (← view.grants[g]?).holder ≠ e.author then return .invalid .parentAuthority
        evaluatePayload cr D (coneOf D parent) view g parent e
      else some (.invalid .parentAuthority) := by
    have hcones : e.parents.mapM (cone D) = some [coneOf D parent] := by
      rw [acts.parents, List.mapM_cons, branch.cone_some hparent]
      rfl
    have hlapsed : g ∈ view.active → lapsed cr g (coneOf D parent) = some false := by
      intro hactive
      simp [lapsed, hview, hactive]
    rw [acts.parents] at hrecords hcones
    simp only [evaluateAuthority, hd, hrecords, htime, hcones, hgrant, List.foldl_cons,
      List.foldl_nil, empty_union, hview, Option.bind_eq_bind, Option.bind_some, acts.parents]
    by_cases hactive : g ∈ view.active
    · simp [hresolve, hactive, hlapsed hactive]
    · simp [hresolve, hactive]
  refine ⟨view, hview, reads, fun h => ?_, fun grant hg hholder hactive => ?_⟩
  · rw [hparents, hauthority, if_neg h]
  · rw [hparents, hauthority, if_pos hactive]
    simp [hg, hholder]

end

/-! ## Signing -/

theorem Decoded.sign_ok {cr : Crypto} {verify : Verify} {key : SecretKey} {e : Envelope}
    {d : Decoded} (h : Decoded.sign cr verify key e = .ok d) :
    d.envelope = { e with author := key.author } := by
  obtain ⟨p, hp, h⟩ := bind_ok.mp h
  obtain ⟨p', sig, hp', hlen, hb, _⟩ := decode_ok.mp h
  obtain ⟨rfl, _⟩ := List.append_inj' hb ((key.length p).trans hlen.symm)
  exact (envelope_reads _ p (preimage_ok.mp hp').2.1).unique
    (envelope_reads _ p (preimage_ok.mp hp).2.1)

namespace Publisher
variable {cr : Crypto} {verify : Verify} {key : SecretKey} {ctx : Context}

theorem sign_ok {e : Envelope} {ev : AuthorityEvent} (h : sign cr verify key e = .ok ev) :
    ev.envelope = { e with author := key.author } := by
  obtain ⟨d, hd, h⟩ := bind_ok.mp h
  have hsigned : Decoded.sign cr verify key e = .ok d := by
    cases hs : Decoded.sign cr verify key e with
    | error e => rw [hs] at hd; cases hd
    | ok d' => rw [hs] at hd; exact congrArg _ (Except.ok.inj hd)
  have heq : ev = ⟨d⟩ := by
    unfold AuthorityEvent.fromSigned at h
    dsimp only at h
    cases hop : operation d.envelope.payload with
    | none =>
      rw [hop] at h
      cases h
    | some op =>
      cases hdecision : d.envelope.payload.decision with
      | none =>
        simp only [hop, hdecision, unless_ok] at h
        cases h.2.2.2
      | some record =>
        cases op <;> simp only [hop, hdecision, unless_ok, bind_ok] at h
        case delegate =>
          obtain ⟨_, _, _, _, _, _, _, _, _, _, h⟩ := h
          exact (Except.ok.inj h).symm
        case revoke =>
          obtain ⟨_, _, _, _, _, _, _, h⟩ := h
          exact (Except.ok.inj h).symm
  rw [heq]
  exact Decoded.sign_ok hsigned

theorem Context.signingGrant_ok {author : Hash} {g : GrantRow}
    (h : ctx.signingGrant author = .ok g) :
    g ∈ ctx.grants ∧ g.holder = author ∧ g.status = .active := by
  unfold Context.signingGrant at h
  dsimp only at h
  split at h
  · next g' hg =>
    obtain rfl := Except.ok.inj h
    have hmem : g' ∈ [g'] := List.mem_singleton_self g'
    rw [← hg, List.mem_filter, List.mem_filter] at hmem
    simpa [and_assoc] using hmem
  · split at h <;> cases h
  · cases h

theorem Context.soleHead_ok {head : Hash} (h : ctx.soleHead = .ok head) :
    ctx.frozen = false ∧ ctx.frontier = [head] := by
  unfold Context.soleHead at h
  dsimp only at h
  rw [unless_ok, Bool.not_eq_true] at h
  obtain ⟨hfrozen, h⟩ := h
  refine ⟨hfrozen, ?_⟩
  cases hfrontier : ctx.frontier with
  | nil =>
    rw [hfrontier] at h
    cases h
  | cons a rest =>
    cases rest with
    | nil =>
      rw [hfrontier] at h
      rw [Except.ok.inj h]
    | cons b rest =>
      rw [hfrontier] at h
      cases h

/-- The decision of an authority event, before its values are filled in. -/
theorem decision_ok {kind : Kind} {rationale : String} {evidence : List Hash} {parent : Hash}
    {d : Decision} (h : decision kind rationale evidence parent = .ok d) :
    d.kind = kind ∧ d.rationale.isEmpty = false ∧ d.evidence.isEmpty = false ∧
      d.parents = [parent] ∧ d.old = .none ∧ d.new = .none := by
  obtain ⟨_, hrationale, h⟩ := bind_ok.mp h
  rw [unless_ok, Bool.not_eq_true] at h
  obtain ⟨hevidence, h⟩ := h
  obtain ⟨set, hset, h⟩ := bind_ok.mp h
  obtain rfl := Except.ok.inj h
  refine ⟨rfl, ?_, ?_, rfl, rfl, rfl⟩
  · unfold validateRationale validateKeyField at hrationale
    rw [unless_ok, Bool.not_eq_true] at hrationale
    exact hrationale.1
  · have hsorted : set = evidence.insertionSort (· ≤ ·) := by
      unfold evidenceSet at hset
      dsimp only at hset
      split at hset
      · cases hset
      · rw [unless_ok] at hset
        exact (Except.ok.inj hset.2).symm
    rw [hsorted, List.isEmpty_eq_false_iff, ← List.length_pos_iff, List.length_insertionSort]
    rwa [List.isEmpty_eq_false_iff, ← List.length_pos_iff] at hevidence

end Publisher

end Clockchain.V1
