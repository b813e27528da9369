import Clockchain.V1.Effects

/-!
# What `derive` computes

On a branch `derive` returns, and the authority it returns reads the history of the
branch. `inScope` then decides issuance ancestry.
-/

namespace Clockchain.V1
open Relation Maps Programs
set_option autoImplicit false

/-- The revokes an authority holds effective. -/
def Authority.revokes (A : Authority) : Set Hash := {r | r ∈ A.effectiveRevokes}

structure Authority.Reads (cr : Crypto) (W : Candidates) (A : Authority) : Prop where
  grants : ∀ {g : Hash} {grant : Grant}, A.grants[g]? = some grant ↔
    ∃ e s, W[e]? = some s ∧ issued cr e s.envelope = some (some (g, grant))
  effective : (history cr W).Effective A.revokes
  tombstones : ∀ g, g ∈ A.tombstones ↔ (∃ d, (history cr W).issues d g) ∧
    ∃ r ∈ A.revokes, (history cr W).Covers r g
  canceled : ∀ g, g ∈ A.canceled ↔ ∃ r ∈ A.revokes, (history cr W).Cuts r g
  active : ∀ g, g ∈ A.active ↔ (∃ d, (history cr W).issues d g) ∧
    (¬ ∃ r ∈ A.revokes, (history cr W).Cuts r g) ∧ ¬ ∃ r ∈ A.revokes, (history cr W).Covers r g
  tainted : ∃ start, taint W start = some A.effects ∧ Owns cr W A.revokes start
  effects : ∀ e, e ∈ A.effects ↔ e ∈ W
  reason : ∀ {e : Hash} {effect : Effect}, A.effects[e]? = some effect →
    effect.reason = reasonOf (history cr W) A.revokes e

theorem Authority.Reads.effect {cr : Crypto} {W : Candidates} {A : Authority}
    (reads : A.Reads cr W) {e : Hash} (he : e ∈ W) : ∃ effect, A.effects[e]? = some effect ∧
      effect.reason = reasonOf (history cr W) A.revokes e := by
  obtain ⟨effect, heffect⟩ := mem_iff.mp ((reads.effects e).mpr he)
  exact ⟨effect, heffect, reads.reason heffect⟩

theorem Authority.Reads.grant_mem {cr : Crypto} {W : Candidates} {A : Authority}
    (reads : A.Reads cr W) {g : Hash} : g ∈ A.grants ↔ ∃ d, (history cr W).issues d g := by
  rw [mem_iff]
  constructor
  · rintro ⟨grant, h⟩
    obtain ⟨e, s, hs, hi⟩ := reads.grants.mp h
    exact ⟨e, s, grant, hs, hi⟩
  · rintro ⟨e, s, grant, hs, hi⟩
    exact ⟨grant, reads.grants.mpr ⟨e, s, hs, hi⟩⟩

namespace Branch
variable {cr : Crypto} {C W : Candidates} (branch : Branch cr C W)
include branch

theorem derive_spec : ∃ A, derive cr W = some A ∧ A.Reads cr W := by
  obtain ⟨p, hp, complete⟩ := branch.provenance_spec
  obtain ⟨order, horder, hissued, hsorted⟩ := order_spec complete
  obtain ⟨relinquishments, hrelinquishments, hrel⟩ := branch.relinquishments_spec complete
  obtain ⟨effective, heffective, hstage⟩ := branch.strata_spec complete hissued hsorted hrel
    (Scan.maxDepth ⟨W, revokesOf W, p⟩)
  have heff : ∀ r ∈ effective, (history cr W).Revokes r :=
    fun r hr => (Kernel.stage_arg ((hstage r).mp hr)).1
  obtain ⟨canceled, hcanceled, hcancel⟩ := branch.cancellations_spec complete heff hissued hsorted
  obtain ⟨tombstones, htombstones, htomb⟩ := branch.tombstones_spec complete heff
  obtain ⟨start, hstart, howns⟩ := branch.effects_spec complete heff hrel hcancel
  obtain ⟨effects, htaint, inv, hreason⟩ := branch.taint_spec howns
  refine ⟨⟨p.grants, .ofList (p.grants.keys.filter fun g =>
    !canceled.contains g && !tombstones.contains g), tombstones, effective,
    .ofList canceled.keys, effects⟩, ?_, ?_⟩
  · simp [derive, hp, horder, hrelinquishments, heffective, hcanceled, htombstones, hstart, htaint]
  have hkernel : (history cr W).Effective {r | r ∈ effective} := by
    have hset : {r | r ∈ effective} = Kernel.stage (history cr W).Revokes (history cr W).Attacks
        (history cr W).rank (Scan.maxDepth ⟨W, revokesOf W, p⟩) := Set.ext hstage
    rw [hset]
    exact branch.lawful.stage_effective fun r hr => branch.rank_le_maxDepth complete hr
  exact {
    grants := complete.grant
    effective := hkernel
    tombstones := htomb
    canceled := fun g => by
      rw [mem_ofSet, Std.ExtTreeMap.mem_keys, hcancel.mem]
      rfl
    active := fun g => by
      rw [mem_ofSet, List.mem_filter, Std.ExtTreeMap.mem_keys, complete.grant_mem]
      refine and_congr_right fun hg => ?_
      simp only [Bool.and_eq_true, Bool.not_eq_true', contains_eq_false, set_contains_eq_false,
        hcancel.mem, htomb, hg, true_and]
      rfl
    tainted := ⟨start, htaint, howns⟩
    effects := inv.mem
    reason := fun {e effect} he => by
      obtain ⟨effect', he', h⟩ := hreason e ((inv.mem e).mp (mem_of_getElem? he))
      obtain rfl := Option.some.inj (he.symm.trans he')
      exact h }

theorem derive_reads {A : Authority} (h : derive cr W = some A) : A.Reads cr W := by
  obtain ⟨B, hB, reads⟩ := branch.derive_spec
  obtain rfl := Option.some.inj (h.symm.trans hB)
  exact reads

/-! ## Scope -/

theorem inScopeAbove_spec {A : Authority} (reads : A.Reads cr W) (signer : Hash) {fuel : Nat}
    {g d : Hash} (hg : (history cr W).issues d g) (hfuel : (history cr W).depth g ≤ fuel) :
    Decides (inScopeAbove A signer fuel g) ((history cr W).Above signer g) := by
  induction fuel generalizing g d with
  | zero =>
    have := branch.lawful.depth_pos g
    omega
  | succ fuel ih =>
    obtain ⟨grant, hgrant⟩ := mem_iff.mp (reads.grant_mem.mpr ⟨d, hg⟩)
    obtain ⟨e, s, hs, hissue⟩ := reads.grants.mp hgrant
    simp only [inScopeAbove, hgrant, Option.bind_eq_bind, Option.bind_some]
    cases hi : grant.issuer with
    | none =>
      refine ⟨false, rfl, ?_⟩
      simp only [Bool.false_eq_true, false_iff]
      intro habove
      obtain ⟨i, _, e', s', grant', hs', hissue', hi'⟩ := TransGen.tail'_iff.mp habove
      obtain rfl := Option.some.inj (hgrant.symm.trans (reads.grants.mpr ⟨e', s', hs', hissue'⟩))
      simp [hi] at hi'
    | some i =>
      have hissuer : (history cr W).issuer i g := ⟨e, s, grant, hs, hissue, hi⟩
      have habove : (history cr W).Above signer g ↔
          i = signer ∨ (history cr W).Above signer i := by
        constructor
        · intro h
          obtain ⟨j, hj, hjg⟩ := TransGen.tail'_iff.mp h
          obtain rfl := branch.lawful.issuer_unique hissuer hjg
          rcases reflTransGen_iff_eq_or_transGen.mp hj with heq | h
          · exact Or.inl heq
          · exact Or.inr h
        · rintro (rfl | h)
          · exact TransGen.single hissuer
          · exact h.tail hissuer
      obtain ⟨e', _, he', _⟩ := branch.issuer_before hissuer
      have hlt := branch.lawful.depth_lt (TransGen.single hissuer)
      by_cases heq : i = signer
      · exact ⟨true, by simp [heq], by simp [habove, heq]⟩
      · obtain ⟨b, hb, hspec⟩ := ih he' (by omega)
        exact ⟨b, by simp [heq, hb], by simp [habove, heq, hspec]⟩

theorem depth_le_size {A : Authority} (reads : A.Reads cr W) {g d : Hash}
    (hg : (history cr W).issues d g) : (history cr W).depth g ≤ A.grants.size := by
  refine ncard_le_size fun t ht => reads.grant_mem.mpr ?_
  rcases ReflTransGen.cases_head ht with rfl | ⟨u, htu, _⟩
  · exact ⟨d, hg⟩
  · obtain ⟨e, _, he, _⟩ := branch.issuer_before htu
    exact ⟨e, he⟩

omit branch in
theorem grant_root_iff {A : Authority} (reads : A.Reads cr W) {g : Hash} {grant : Grant}
    (hg : A.grants[g]? = some grant) : (history cr W).Root g ↔ grant.issuer = none := by
  obtain ⟨e, s, hs, hissue⟩ := reads.grants.mp hg
  constructor
  · intro hroot
    cases hi : grant.issuer with
    | none => rfl
    | some i => exact absurd ⟨e, s, grant, hs, hissue, hi⟩ (hroot i)
  · rintro hnone i ⟨d, t, grant', ht, hd, hi⟩
    obtain rfl := Option.some.inj (hg.symm.trans (reads.grants.mpr ⟨d, t, ht, hd⟩))
    simp [hnone] at hi

theorem inScope_spec {A : Authority} (reads : A.Reads cr W) (signer : Hash) {g d : Hash}
    (hg : (history cr W).issues d g) : Decides (inScope A signer g)
      ((history cr W).Above signer g ∨ signer = g ∧ (history cr W).Root g) := by
  obtain ⟨grant, hgrant⟩ := mem_iff.mp (reads.grant_mem.mpr ⟨d, hg⟩)
  by_cases heq : signer = g
  · subst heq
    refine ⟨grant.issuer.isNone, by simp [inScope, hgrant], ?_⟩
    simp [grant_root_iff reads hgrant, branch.lawful.above_irrefl signer]
  · refine (branch.inScopeAbove_spec reads signer hg (branch.depth_le_size reads hg)).congr' ?_ ?_
    · simp [inScope, heq]
    · simp [heq]

end Branch

end Clockchain.V1
