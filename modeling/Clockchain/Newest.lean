import Clockchain.Standing

/-!
# The newest act

One act arrives on top of a history: it has one parent, and no act has it as a parent. The
revokes above its grant stay as they were, so an act through an untouched grant is silenced by
nothing; and where it silences no effective revoke itself, its past keeps its standing.
-/

namespace History
open Relation
set_option autoImplicit false

universe u v u' v'
variable {ι : Type u} {γ : Type v} {ι' : Type u'} {γ' : Type v'}

/-- Who issued a grant below which an act is signed is in the past of the act. -/
theorem Lawful.issued_anc {H : History ι γ} (law : H.Lawful) {e d : ι} {j : γ} (he : H.mem e)
    (hj : H.Under j (H.signer e)) (hd : H.issues d j) : H.Anc d e := by
  obtain ⟨s, hs, hanc⟩ := law.signer_issued he
  rcases reflTransGen_iff_eq_or_transGen.mp hj with heq | habove
  · rw [heq] at hs
    exact law.issues_event hs hd ▸ hanc
  · obtain ⟨a, b, ha, hb, hab⟩ := law.above_before habove
    obtain rfl := law.issues_event ha hd
    obtain rfl := law.issues_event hb hs
    exact hab.anc.trans hanc

namespace Embeds
variable {H : History ι γ} {H' : History ι' γ'} {f : ι → ι'} {k : γ → γ'}

/-- `n` is the one act beyond the embedding, on `p` and through `g`. -/
structure Newest (H : History ι γ) (H' : History ι' γ') (f : ι → ι') (k : γ → γ') (n : ι')
    (p : ι) (g : γ) : Prop where
  fresh : Fresh H H' f n
  rest : ∀ {e'}, H'.mem e' → e' = n ∨ ∃ e, H.mem e ∧ f e = e'
  parent : ∀ {q'}, H'.parent q' n ↔ q' = f p
  parent_mem : H.mem p
  signer : H'.signer n = k g
  issued : ∃ d, H.issues d g

variable (emb : Embeds H H' f k) (law : H.Lawful) (law' : H'.Lawful)
variable {n : ι'} {p : ι} {g : γ} (newest : Newest H H' f k n p g)
variable {E : Set ι} {E' : Set ι'} (hE : H.Effective E) (hE' : H'.Effective E')

section
include emb law newest

theorem before_newest {a : ι} (ha : H.mem a) : H'.Before (f a) n ↔ H.Anc a p := by
  rw [before_iff, ← emb.anc_iff law ha newest.parent_mem]
  constructor
  · rintro ⟨q', hanc, hq⟩
    exact newest.parent.mp hq ▸ hanc
  · intro h
    exact ⟨f p, h, newest.parent.mpr rfl⟩

include law'

theorem newest_silences_above {r : ι} (hr : H.mem r) (h : H'.Silences n (f r)) :
    H.Above g (H.signer r) ∨ H'.Relinquishes n := by
  refine (law'.silences_above h).imp_left fun habove => ?_
  obtain ⟨d, hd, -⟩ := law.signer_issued hr
  obtain ⟨e, he⟩ := newest.issued
  rw [newest.signer, emb.signer hr] at habove
  obtain ⟨c', hc, hunder⟩ := TransGen.head'_iff.mp habove
  obtain ⟨c, hcr, rfl, b, hb⟩ := emb.under_lift law hd hunder
  obtain ⟨i, hi, heq⟩ := (emb.issuer hb).mp hc
  obtain ⟨x, -, hx, -⟩ := law.issuer_before hi
  exact emb.grant_inj law law' hx he heq ▸ TransGen.head' hi hcr

/-- The newest act acknowledges its past, and who was issued a grant there. -/
theorem newest_spares_past {e : ι} (he : H.Anc e p) : ¬ H'.Silences n (f e) := by
  have hmem := law.anc_mem he newest.parent_mem
  have hbefore := (emb.before_newest law newest hmem).mpr he
  rintro (⟨-, hout⟩ | hcut)
  · exact hout hbefore
  · obtain ⟨i, j, d, -, hunder, -, hd, hout⟩ := cuts_iff_under.mp hcut
    exact hout ((law'.issued_anc (emb.mem hmem) hunder hd).before hbefore)

include hE hE'

/-- The revokes above the grant of the newest act stay as they were. -/
theorem above_effective {q : ι} (hq : H.mem q) (h : H.Above (H.signer q) g ∨ H.Relinquishes q) :
    f q ∈ E' ↔ q ∈ E := by
  induction hn : H.rank q using Nat.strong_induction_on generalizing q with
  | _ m ih =>
    subst hn
    rw [hE'.mem_iff, hE.mem_iff, emb.revokes_iff hq, emb.relinquishes_iff law law' hq]
    refine and_congr_right fun _ => ?_
    by_cases hrel : H.Relinquishes q
    · simp only [hrel, true_or]
    have habove := h.resolve_right hrel
    simp only [hrel, false_or]
    have hstep : ∀ {r : ι}, H.mem r → H.Silences r q → (f r ∈ E' ↔ r ∈ E) := by
      intro r hr hsil
      refine ih _ (law.attacks_rank ⟨hrel, hsil⟩) hr ?_ rfl
      exact (law.silences_above hsil).imp_left fun hrq => hrq.trans habove
    constructor
    · intro hfree r hr hsil
      have hmem := (hE.revokes hr).mem law
      exact hfree (f r) ((hstep hmem hsil).mpr hr) ((emb.silences_iff law law' hmem hq).mpr hsil)
    · intro hfree q' hq' hsil
      rcases newest.rest ((hE'.revokes hq').mem law') with rfl | ⟨r, hr, rfl⟩
      · -- The newest act reaches nothing above its own grant.
        rcases emb.newest_silences_above law law' newest hq hsil with hdown | hrelinquish
        · exact law.above_irrefl g (hdown.trans habove)
        · obtain ⟨d, hd⟩ := newest.issued
          obtain ⟨_, -, hroot⟩ := hrelinquish
          rw [newest.signer, emb.root_iff hd] at hroot
          obtain ⟨i, -, hi⟩ := TransGen.tail'_iff.mp habove
          exact hroot i hi
      · have hsil' := (emb.silences_iff law law' hr hq).mp hsil
        exact hfree r ((hstep hr hsil').mp hq') hsil'

variable (untouched : H.Untouched E g)
include untouched

/-- An effective revoke that reaches the grant of the newest act is the newest act itself. -/
theorem reaches_newest {q' : ι'} (hq' : q' ∈ E')
    (h : H'.Covers q' (k g) ∨ H'.Cuts q' (k g)) : q' = n := by
  refine (newest.rest ((hE'.revokes hq').mem law')).resolve_right ?_
  rintro ⟨q, hq, rfl⟩
  obtain ⟨d, hd⟩ := newest.issued
  have hlift : H.Covers q g ∨ H.Cuts q g :=
    h.imp (emb.covers_iff law law' hq hd).mp (emb.cuts_lift law law' hq hd)
  have hqE : q ∈ E := (emb.above_effective law law' newest hE hE' hq
    (hlift.elim law.covers_above law.cuts_above)).mp hq'
  rcases hlift with hcover | hcut
  · exact untouched.uncovered ⟨q, hqE, hcover⟩
  · exact untouched.uncut ⟨q, hqE, hcut⟩

/-- An act through an untouched grant keeps its authority. -/
theorem newest_standing (hrel : ¬ H'.Relinquishes n) {q' : ι'} (hq' : q' ∈ E') :
    ¬ H'.Silences q' n := by
  intro hsil
  have hreach : H'.Covers q' (k g) ∨ H'.Cuts q' (k g) := by
    rw [Silences, Overrides, newest.signer] at hsil
    exact hsil.imp_left And.left
  obtain rfl := emb.reaches_newest law law' newest hE hE' untouched hq' hreach
  exact (law'.silences_above hsil).elim (law'.above_irrefl _) hrel

/-- The newest act is eligible exactly on a parent that is not suppressed. -/
theorem newest_eligible_iff (hrel : ¬ H'.Relinquishes n) :
    H'.Eligible E' n ↔ ¬ H'.Suppressed E' (f p) := by
  have hsuppressed : H'.Suppressed E' n ↔ H'.Suppressed E' (f p) := by
    rw [History.suppressed_iff]
    constructor
    · rintro (⟨-, -, q', hq', hsil⟩ | ⟨-, q', hq', hsup⟩)
      · exact absurd hsil (emb.newest_standing law law' newest hE hE' untouched hrel hq')
      · exact newest.parent.mp hq' ▸ hsup
    · intro hsup
      exact Or.inr ⟨hrel, f p, newest.parent.mpr rfl, hsup⟩
  rw [History.Eligible, hsuppressed]
  exact ⟨fun h => h.2.2, fun h => ⟨newest.fresh.1, hrel, h⟩⟩

theorem newest_effective (hrev : H'.Revokes n) : n ∈ E' := by
  refine (hE'.mem_iff n).mpr ⟨hrev, ?_⟩
  by_cases hrel : H'.Relinquishes n
  · exact Or.inl hrel
  · exact Or.inr fun q' hq' =>
      emb.newest_standing law law' newest hE hE' untouched hrel hq'

theorem issued_untouched (hrev : ¬ H'.Revokes n) {j : γ'} (hissues : H'.issues n j)
    (hissuer : H'.issuer (k g) j) : H'.Untouched E' j := by
  have hnot : ∀ q' ∈ E', ¬ (H'.Covers q' (k g) ∨ H'.Cuts q' (k g)) := by
    intro q' hq' h
    obtain rfl := emb.reaches_newest law law' newest hE hE' untouched hq' h
    exact hrev (hE'.revokes hq')
  constructor
  · rintro ⟨q', hq', t, c, hrevoke, hcover⟩
    have hself : t ≠ j := by
      rintro rfl
      obtain ⟨d, hd, hbefore⟩ := law'.target_issued hrevoke
      obtain rfl := law'.issues_event hissues hd
      rcases newest.rest (law'.revoke_mem hrevoke) with rfl | ⟨q, hq, rfl⟩
      · exact law'.before_irrefl _ hbefore
      · exact emb.fresh_not_before law newest.fresh hq hbefore
    obtain ⟨hcascade, hunder⟩ := hcover.resolve_left hself
    obtain ⟨i, hti, hij⟩ :=
      TransGen.tail'_iff.mp ((reflTransGen_iff_eq_or_transGen.mp hunder).resolve_left hself.symm)
    obtain rfl := law'.issuer_unique hissuer hij
    exact hnot q' hq' (Or.inl ⟨t, c, hrevoke, Or.inr ⟨hcascade, hti⟩⟩)
  · rintro ⟨q', hq', hcut⟩
    refine hnot q' hq' ?_
    exact ((law'.cuts_iff hissuer hissues).mp hcut).imp_left And.left

end

/-! ## Where the newest act silences no effective revoke -/

section
variable (spared : ∀ r ∈ E, ¬ H'.Silences n (f r))
include emb law law' newest hE hE' spared

theorem spared_effective {r : ι} (hr : H.mem r) : f r ∈ E' ↔ r ∈ E := by
  induction hn : H.rank r using Nat.strong_induction_on generalizing r with
  | _ m ih =>
    subst hn
    rw [hE'.mem_iff, hE.mem_iff, emb.revokes_iff hr, emb.relinquishes_iff law law' hr]
    refine and_congr_right fun hrev => ?_
    by_cases hrel : H.Relinquishes r
    · simp only [hrel, true_or]
    simp only [hrel, false_or]
    have hstep : ∀ {q : ι}, H.mem q → H.Silences q r → (f q ∈ E' ↔ q ∈ E) :=
      fun hq hsil => ih _ (law.attacks_rank ⟨hrel, hsil⟩) hq rfl
    constructor
    · intro hfree q hq hsil
      have hmem := (hE.revokes hq).mem law
      exact hfree (f q) ((hstep hmem hsil).mpr hq) ((emb.silences_iff law law' hmem hr).mpr hsil)
    · intro hfree q' hq' hsil
      rcases newest.rest ((hE'.revokes hq').mem law') with rfl | ⟨q, hq, rfl⟩
      · exact spared r ((hE.mem_iff r).mpr ⟨hrev, Or.inr hfree⟩) hsil
      · have hsil' := (emb.silences_iff law law' hq hr).mp hsil
        exact hfree q ((hstep hq hsil').mp hq') hsil'

theorem past_suppressed {e : ι} (he : H.Anc e p) (h : H'.Suppressed E' (f e)) :
    H.Suppressed E e := by
  generalize hy : f e = y at h
  induction h generalizing e with
  | struck h =>
    subst hy
    have hmem := law.anc_mem he newest.parent_mem
    obtain ⟨-, hrel, q', hq', hsil⟩ := h
    rw [emb.relinquishes_iff law law' hmem] at hrel
    rcases newest.rest ((hE'.revokes hq').mem law') with rfl | ⟨q, hq, rfl⟩
    · exact absurd hsil (emb.newest_spares_past law law' newest he)
    · exact .struck ⟨hmem, hrel, q,
        (emb.spared_effective law law' newest hE hE' spared hq).mp hq',
        (emb.silences_iff law law' hq hmem).mp hsil⟩
  | inherit hp hrel _ ih =>
    subst hy
    have hmem := law.anc_mem he newest.parent_mem
    rw [emb.relinquishes_iff law law' hmem] at hrel
    obtain ⟨q, hq, rfl⟩ := (emb.parent hmem).mp hp
    exact .inherit hq hrel (ih (ReflTransGen.head hq he) rfl)

/-- The newest act is eligible on an eligible parent. -/
theorem newest_eligible (untouched : H.Untouched E g) (hp : H.Eligible E p)
    (hrel : ¬ H'.Relinquishes n) : H'.Eligible E' n :=
  (emb.newest_eligible_iff law law' newest hE hE' untouched hrel).mpr fun hsup =>
    hp.2.2 (emb.past_suppressed law law' newest hE hE' spared ReflTransGen.refl hsup)

end

end Embeds

end History
