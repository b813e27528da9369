import Clockchain.V1.Arrival
import Clockchain.V1.Bodies

/-!
# Recovery

A cascading revoke signed through the root grant stays effective whatever arrives, so
what it covers and does not acknowledge stays without effect.
-/

namespace Clockchain.V1
open Relation Maps
set_option autoImplicit false

/-- The grants of the subtree of `K` have lost their effect outside the cut of `R`. -/
structure Recovered (cr : Crypto) (C : Candidates) (out : BTreeMap Status) (p : Projection)
    (R : Signed) (K : Hash) : Prop where
  inactive : ∀ g, (history cr (validOf C out)).Under K g → g ∉ p.authority.active
  outside : ∀ {g e : Hash} {t : Signed}, (history cr (validOf C out)).Under K g →
    C[e]? = some t → signer cr e t = g → (∀ q ∈ parentsOf R, ¬ (history cr C).Anc e q) →
    ¬ p.Clear e ∧ (∀ r ∈ p.subjects, e ∉ r.frontier) ∧ e ∉ p.authority.effectiveRevokes

/-- Recovery by a cascading revoke of the root is permanent. -/
theorem recovery_permanent (cr : Crypto) (C C' : Candidates) (free : CollisionFree cr C)
    (free' : CollisionFree cr C') (within : Within C C') {out out' : BTreeMap Status}
    (hout : classify cr C = some out) (hout' : classify cr C' = some out') {R K : Hash}
    {t : Signed} (ht : C[R]? = some t) (hvalid : Admitted out R)
    (hrevoked : revoked t = some (K, true)) (hsigner : signer cr R t = rootGrant cr (subjectOf R t))
    (hroot : ∀ q, Admitted out' q → ¬ RelinquishesRoot cr C' (subjectOf R t) q) :
    ∃ p, project cr C' = some p ∧ Recovered cr C' out' p t K := by
  obtain ⟨_, s, hrun, verdicts⟩ := classify_spec free
  obtain rfl := Option.some.inj (hout.symm.trans hrun)
  obtain ⟨_, s', A, p, hrun', verdicts', _, reads, hp, projected⟩ := project_spec free'
  obtain rfl := Option.some.inj (hout'.symm.trans hrun')
  have branch := verdicts'.branch
  have hsubject : isSubject t = true := by
    cases hp : t.envelope.payload <;> simp [revoked, hp] at hrevoked
    simp [isSubject, hp, Payload.kind]
  -- The revoke is still admitted, and nothing silences it.
  have hR : (validOf C' out')[R]? = some t := by
    obtain ⟨st, hst, hstate⟩ := admitted_iff.mp hvalid
    obtain ⟨st', hst', heq⟩ := verdict_persists verdicts verdicts' ht (within.extends R) st hst
      (by simp [hstate])
    exact validOf_get.mpr ⟨within.sub ht, hsubject, st', hst', heq.trans hstate⟩
  have hrevoke : (history cr (validOf C' out')).revoke R K true := (revoke_iff hR).mpr hrevoked
  obtain ⟨genesis, hgenesis, _, _⟩ := branch.genesis_exists hR
  have hsignerR : (history cr (validOf C' out')).signer R = rootGrant cr (subjectOf R t) :=
    (history_signer hR).trans hsigner
  have hkeep : ∀ q, (history cr (validOf C' out')).Relinquishes q →
      (history cr (validOf C' out')).signer q ≠ (history cr (validOf C' out')).signer R := by
    intro q hq heq
    obtain ⟨u, c, hu, hr, hs⟩ := (branch.relinquishes_iff hgenesis).mp ⟨hq, heq.trans hsignerR⟩
    obtain ⟨huC, _, st, hst, hstate⟩ := validOf_get.mp hu
    exact hroot q (admitted_iff.mpr ⟨st, hst, hstate⟩) ⟨u, c, huC, hr, hs⟩
  have heffective : R ∈ A.revokes := reads.effective.root_mem branch.lawful ⟨K, true, hrevoke⟩
    (hsignerR ▸ branch.root_grant hgenesis) hkeep
  have habove : (history cr (validOf C' out')).Above
      ((history cr (validOf C' out')).signer R) K := by
    refine (branch.lawful.scope hrevoke).resolve_right ?_
    rintro ⟨heq, hK⟩
    exact hkeep R ⟨true, heq ▸ hrevoke, heq ▸ hK⟩ rfl
  have hcovers : ∀ g, (history cr (validOf C' out')).Under K g →
      (history cr (validOf C' out')).Covers R g :=
    fun g hg => ⟨K, true, hrevoke, Or.inr ⟨rfl, hg⟩⟩
  refine ⟨p, hp, fun g hg hactive => ?_, fun {g e u} hg hu hs houtside => ?_⟩
  · rw [projected.authority, reads.active] at hactive
    exact hactive.2.2 ⟨R, heffective, hcovers g hg⟩
  have hsilenced : e ∈ validOf C' out' → ¬ (history cr (validOf C' out')).Relinquishes e ∧
      (history cr (validOf C' out')).Silences R e := by
    intro he
    have hsig : (history cr (validOf C' out')).signer e = g :=
      (history_signer (branch.within.get he hu)).trans hs
    refine ⟨fun hrel => ?_, Or.inl ⟨hsig ▸ hcovers g hg, fun hbefore => ?_⟩⟩
    · obtain ⟨c, _, hrootg⟩ := hrel
      obtain ⟨i, _, hi⟩ := TransGen.tail'_iff.mp (TransGen.trans_left habove hg)
      exact hrootg i (hsig ▸ hi)
    · obtain ⟨q, hq, hparent⟩ := History.before_iff.mp hbefore
      exact houtside q ((parent_iff hR).mp hparent) (branch.within.anc hq)
  have hineligible : ¬ (history cr (validOf C' out')).Eligible A.revokes e := by
    rintro ⟨he, hrel, hsup⟩
    exact hsup (.struck ⟨he, hrel, R, heffective, (hsilenced he).2⟩)
  refine ⟨fun hclear => ?_, fun r hr hfrontier => ?_, fun he => ?_⟩
  · exact hineligible ((clear_iff verdicts' reads projected).mp hclear)
  · exact hineligible (((projected.subjects r hr).frontier e).mp hfrontier).2.1
  · rw [projected.authority] at he
    obtain ⟨hrev, hfree⟩ := (reads.effective.mem_iff e).mp he
    obtain ⟨hrel, hsilences⟩ := hsilenced (hrev.mem branch.lawful)
    exact hfree.resolve_left hrel R heffective hsilences

def revived : Candidates := Sample.candidates
  [(1, Sample.genesis Sample.alice 7), (2, Sample.delegate Sample.alice Sample.root 1 Sample.bob),
   (3, Sample.correction Sample.bob 2 2 7 8), (4, Sample.revoke Sample.alice Sample.root 2 2 true),
   (5, Sample.delegate Sample.bob 2 3 Sample.carol), (6, Sample.correction Sample.carol 5 5 8 9)]

theorem recovery_permanent_revived : ∃ out' t p, classify Sample.crypto revived = some out' ∧
    overridden[(4 : Hash)]? = some t ∧ project Sample.crypto revived = some p ∧
    Recovered Sample.crypto revived out' p t 2 := by
  have h : (do
    let out ← classify Sample.crypto overridden
    let out' ← classify Sample.crypto revived
    let t ← overridden[(4 : Hash)]?
    return decide (Admitted out 4) && (revoked t = some (2, true) : Bool) &&
      (signer Sample.crypto 4 t = rootGrant Sample.crypto (subjectOf 4 t) : Bool) &&
      (subjectOf 4 t = 1 : Bool) && (revived.toList.all fun item =>
        !decide (RelinquishesRoot Sample.crypto revived 1 item.1)) &&
      overridden.toList.all fun item => revived[item.1]? = some item.2) = some true := by
    decide +kernel
  obtain ⟨out, hout, h⟩ := Option.bind_eq_some_iff.mp h
  obtain ⟨out', hout', h⟩ := Option.bind_eq_some_iff.mp h
  obtain ⟨t, ht, h⟩ := Option.bind_eq_some_iff.mp h
  simp only [Option.pure_def, Option.some.injEq, Bool.and_eq_true, decide_eq_true_eq,
    List.all_eq_true, Bool.not_eq_true', decide_eq_false_iff_not] at h
  obtain ⟨⟨⟨⟨⟨hvalid, hrevoked⟩, hsigner⟩, hsubject⟩, hroot⟩, hwithin⟩ := h
  have within : Within overridden revived := ⟨fun {e s} hs =>
    hwithin (e, s) (Std.ExtTreeMap.mem_toList_iff_getElem?_eq_some.mpr hs)⟩
  obtain ⟨p, hp, hrecovered⟩ := recovery_permanent Sample.crypto overridden revived
    (by decide +kernel) (by decide +kernel) within hout hout' ht hvalid hrevoked hsigner (by
      rintro q _ hq
      obtain ⟨u, c, hu, hr, hs⟩ := id hq
      rw [hsubject] at hq
      exact hroot (q, u) (Std.ExtTreeMap.mem_toList_iff_getElem?_eq_some.mpr hu) hq)
  exact ⟨out', t, p, hout', ht, hp, hrecovered⟩

end Clockchain.V1
