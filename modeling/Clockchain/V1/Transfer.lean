import Clockchain.Sweeps
import Clockchain.V1.Derivation

/-!
# Effects of embedded events

The reason an act has and the revokes behind it are those of the act it is embedded as,
when the two histories agree on what is effective. The taint loop over a closed part of the
events finds what the loop over all of them finds there.
-/

namespace Clockchain.V1
open Relation Maps Programs
set_option autoImplicit false

universe u v u' v'

/-! ## Own effects of embedded acts -/

section
variable {ι : Type u} {γ : Type v} {ι' : Type u'} {γ' : Type v'} {H : History ι γ}
variable {H' : History ι' γ'} {f : ι → ι'} {k : γ → γ'} (emb : History.Embeds H H' f k)
variable (law : H.Lawful) (law' : H'.Lawful) {E : Set ι} {E' : Set ι'} (hE : H.Effective E)
variable (agrees : History.Embeds.Agrees H H' f k E E')
include emb law law'

theorem overrides_iff {q e : ι} (hq : H.mem q) (he : H.mem e) :
    H'.Overrides (f q) (f e) ↔ H.Overrides q e := by
  obtain ⟨d, hd, -⟩ := law.signer_issued he
  rw [History.Overrides, History.Overrides, emb.signer he, emb.covers_iff law law' hq hd,
    emb.before_iff_before law he hq]

include hE agrees

theorem exists_overrides_iff {e : ι} (he : H.mem e) :
    (∃ q ∈ E', H'.Overrides q (f e)) ↔ ∃ q ∈ E, H.Overrides q e :=
  History.Embeds.exists_effective_iff law hE agrees
    (fun _ hq => overrides_iff emb law law' hq he)
    fun _ hq h => emb.within_silences law agrees hq he (Or.inl h)

theorem exists_cut_grant_iff {e : ι} (he : H.mem e) :
    (∃ g, H'.issues (f e) g ∧ ∃ q ∈ E', H'.Cuts q g) ↔ ∃ g, H.issues e g ∧ ∃ q ∈ E, H.Cuts q g := by
  constructor
  · rintro ⟨g', hg', hcut⟩
    obtain ⟨g, hg, rfl⟩ := (emb.issues he).mp hg'
    exact ⟨g, hg, (emb.exists_cuts_iff law law' hE agrees hg).mp hcut⟩
  · rintro ⟨g, hg, hcut⟩
    exact ⟨k g, (emb.issues he).mpr ⟨g, hg, rfl⟩,
      (emb.exists_cuts_iff law law' hE agrees hg).mpr hcut⟩

theorem exists_cut_signer_iff {e : ι} (he : H.mem e) :
    (∃ q ∈ E', H'.Cuts q (H'.signer (f e))) ↔ ∃ q ∈ E, H.Cuts q (H.signer e) := by
  obtain ⟨d, hd, -⟩ := law.signer_issued he
  rw [emb.signer he]
  exact emb.exists_cuts_iff law law' hE agrees hd

theorem ownReason_eq {e : ι} (he : H.mem e) : ownReason H' E' (f e) = ownReason H E e := by
  have hrel := emb.relinquishes_iff law law' he
  have hover := exists_overrides_iff emb law law' hE agrees he
  have hgrant := exists_cut_grant_iff emb law law' hE agrees he
  have hsigner := exists_cut_signer_iff emb law law' hE agrees he
  rw [ownReason, ownReason]
  by_cases h1 : H.Relinquishes e
  · rw [if_pos h1, if_pos (hrel.mpr h1)]
  rw [if_neg h1, if_neg (mt hrel.mp h1)]
  by_cases h2 : ∃ q ∈ E, H.Overrides q e
  · rw [if_pos h2, if_pos (hover.mpr h2)]
  rw [if_neg h2, if_neg (mt hover.mp h2)]
  by_cases h3 : ∃ g, H.issues e g ∧ ∃ q ∈ E, H.Cuts q g
  · rw [if_pos h3, if_pos (hgrant.mpr h3)]
  rw [if_neg h3, if_neg (mt hgrant.mp h3)]
  by_cases h4 : ∃ q ∈ E, H.Cuts q (H.signer e)
  · rw [if_pos h4, if_pos (hsigner.mpr h4)]
  · rw [if_neg h4, if_neg (mt hsigner.mp h4)]

omit emb law' in
/-- The members of `E'` with an embedded property are the embedded members of `E`. -/
theorem image_effective {p : ι → Prop} {p' : ι' → Prop} (h : ∀ q, H.mem q → (p' (f q) ↔ p q))
    (hwithin : ∀ q' ∈ E', p' q' → ∃ q, H.mem q ∧ f q = q') :
    {q | q ∈ E' ∧ p' q} = f '' {q | q ∈ E ∧ p q} := by
  refine Set.ext fun q' => ⟨?_, ?_⟩
  · rintro ⟨hq', hp⟩
    obtain ⟨q, hq, rfl⟩ := hwithin q' hq' hp
    exact ⟨q, ⟨(agrees.mem hq).mp hq', (h q hq).mp hp⟩, rfl⟩
  · rintro ⟨q, ⟨hq, hp⟩, rfl⟩
    have hmem := (hE.revokes hq).mem law
    exact ⟨(agrees.mem hmem).mpr hq, (h q hmem).mpr hp⟩

theorem controllers_eq {e : ι} (he : H.mem e) :
    controllers H' E' (f e) = f '' controllers H E e := by
  have hrel := emb.relinquishes_iff law law' he
  have hover := exists_overrides_iff emb law law' hE agrees he
  have hgrant := exists_cut_grant_iff emb law law' hE agrees he
  rw [controllers, controllers]
  by_cases h1 : H.Relinquishes e
  · rw [if_pos h1, if_pos (hrel.mpr h1), Set.image_singleton]
  rw [if_neg h1, if_neg (mt hrel.mp h1)]
  by_cases h2 : ∃ q ∈ E, H.Overrides q e
  · rw [if_pos h2, if_pos (hover.mpr h2)]
    exact image_effective law hE agrees (fun _ hq => overrides_iff emb law law' hq he)
      fun _ hq h => emb.within_silences law agrees hq he (Or.inl h)
  rw [if_neg h2, if_neg (mt hover.mp h2)]
  by_cases h3 : ∃ g, H.issues e g ∧ ∃ q ∈ E, H.Cuts q g
  · rw [if_pos h3, if_pos (hgrant.mpr h3)]
    refine image_effective law hE agrees (fun q hq => ?_) fun q' hq' h => ?_
    · constructor
      · rintro ⟨g', hg', hcut⟩
        obtain ⟨g, hg, rfl⟩ := (emb.issues he).mp hg'
        exact ⟨g, hg, emb.cuts_lift law law' hq hg hcut⟩
      · rintro ⟨g, hg, hcut⟩
        exact ⟨k g, (emb.issues he).mpr ⟨g, hg, rfl⟩, emb.cuts_map law law' hq hcut⟩
    · obtain ⟨g', hg', hcut⟩ := h
      obtain ⟨g, hg, rfl⟩ := (emb.issues he).mp hg'
      exact agrees.within hq' hg (Or.inr hcut)
  · rw [if_neg h3, if_neg (mt hgrant.mp h3)]
    obtain ⟨d, hd, -⟩ := law.signer_issued he
    rw [emb.signer he]
    exact image_effective law hE agrees
      (fun q hq => ⟨emb.cuts_lift law law' hq hd, emb.cuts_map law law' hq⟩)
      fun q' hq' h => agrees.within hq' hd (Or.inr h)

end

/-! ## The taint loop on a closed part -/

/-- `effects` and `effects'` say the same of the events of `V`. -/
def SameEffects (V : Candidates) (effects effects' : BTreeMap Effect) : Prop :=
  ∀ e ∈ V, effects'[e]? = effects[e]?

section
variable {V V' : Candidates} (closed : Closed V) (within : Within V V')

theorem inheritedControls_same {effects effects' : BTreeMap Effect}
    (same : SameEffects V effects effects') {s : Signed} (hparents : ∀ p ∈ parentsOf s, p ∈ V) :
    inheritedControls effects' s = inheritedControls effects s := by
  have go : ∀ (ps : List Hash) (controls : BTreeSet), (∀ p ∈ ps, p ∈ V) →
      ps.foldlM (fun controls p => do
        let effect ← effects'[p]?
        return if effect.taints then controls ∪ effect.controllingRevokes else controls) controls =
      ps.foldlM (fun controls p => do
        let effect ← effects[p]?
        return if effect.taints then controls ∪ effect.controllingRevokes else controls)
          controls := by
    intro ps
    induction ps with
    | nil => exact fun _ _ => rfl
    | cons p ps ih =>
      intro controls hps
      rw [List.foldlM_cons, List.foldlM_cons, same p (hps p List.mem_cons_self)]
      exact congrArg _ (funext fun c => ih c fun q hq => hps q (List.mem_cons_of_mem p hq))
  exact go _ ∅ hparents

/-- A visit leaves the state alone or marks the event it visits and raises the flag. -/
theorem taintStep_cases {effects : BTreeMap Effect} {changed : Bool} {item : Hash × Signed}
    {t : BTreeMap Effect × Bool} (h : taintStep (effects, changed) item = some t) :
    t = (effects, changed) ∨
      ∃ controls, t = (effects.insert item.1 ⟨.revokedAncestor, controls⟩, true) := by
  obtain ⟨effect, -, h⟩ := Option.bind_eq_some_iff.mp h
  split at h
  · exact Or.inl (Option.some.inj h).symm
  · obtain ⟨controls, -, h⟩ := Option.bind_eq_some_iff.mp h
    split at h
    · exact Or.inl (Option.some.inj h).symm
    · exact Or.inr ⟨controls, (Option.some.inj h).symm⟩

include closed

theorem taintStep_same {effects effects' : BTreeMap Effect} {c c' : Bool} {e : Hash} {s : Signed}
    {t' : BTreeMap Effect × Bool} (hs : V[e]? = some s) (same : SameEffects V effects effects')
    (hc : c = true → c' = true) (h : taintStep (effects', c') (e, s) = some t') :
    ∃ t, taintStep (effects, c) (e, s) = some t ∧ SameEffects V t.1 t'.1 ∧
      (t.2 = true → t'.2 = true) := by
  have hcontrols := inheritedControls_same same fun p hp => closed.parent hs hp
  have hget := same e (mem_of_getElem? hs)
  obtain ⟨effect, heffect, h⟩ := Option.bind_eq_some_iff.mp h
  rw [hget] at heffect
  rw [taintStep, heffect, Option.bind_eq_bind, Option.bind_some]
  split at h
  · next hmarked =>
    obtain rfl := Option.some.inj h
    exact ⟨(effects, c), by rw [if_pos hmarked]; rfl, same, hc⟩
  · next hmarked =>
    obtain ⟨controls, hrun, h⟩ := Option.bind_eq_some_iff.mp h
    rw [hcontrols] at hrun
    rw [if_neg hmarked, hrun, Option.bind_eq_bind, Option.bind_some]
    split at h
    · next hempty =>
      obtain rfl := Option.some.inj h
      exact ⟨(effects, c), by rw [if_pos hempty]; rfl, same, hc⟩
    · next hempty =>
      obtain rfl := Option.some.inj h
      refine ⟨(effects.insert e ⟨.revokedAncestor, controls⟩, true), by rw [if_neg hempty]; rfl,
        fun a ha => ?_, fun _ => rfl⟩
      rw [getElem?_insert, getElem?_insert, same a ha]

include within

theorem taint_follows :
    Follows V'.toList (fun item => V.contains item.1) taintStep (SameEffects V) where
  visit := by
    rintro ⟨e, s⟩ effects effects' c c' t' hmem hkeep same hc h
    have hs :=
      within.get (contains_iff.mp hkeep) (Std.ExtTreeMap.mem_toList_iff_getElem?_eq_some.mp hmem)
    exact taintStep_same closed hs same hc h
  skip := by
    rintro ⟨e, s⟩ effects effects' c' t' hmem hkeep same h
    rcases taintStep_cases h with rfl | ⟨controls, rfl⟩
    · exact ⟨same, fun hc => hc⟩
    · refine ⟨fun a ha => ?_, fun _ => rfl⟩
      have hne : e ≠ a := by
        rintro rfl
        exact contains_eq_false.mp hkeep ha
      rw [getElem?_insert, if_neg hne, same a ha]
  quiet := by
    rintro item ⟨effects, changed⟩ t h hquiet
    rcases taintStep_cases h with rfl | ⟨controls, rfl⟩
    · rfl
    · cases hquiet

omit closed in
theorem toList_part : V.toList = V'.toList.filter fun item => V.contains item.1 := by
  have hpart : V = V'.filter fun e _ => V.contains e := by
    refine ext_graph fun e s => ?_
    rw [Std.ExtTreeMap.getElem?_filter']
    constructor
    · intro hs
      rw [within.sub hs]
      simp [Option.filter, mem_of_getElem? hs]
    · intro hs
      obtain ⟨hs, hmem⟩ := Option.filter_eq_some_iff.mp hs
      exact within.get (contains_iff.mp hmem) hs
  rw [← Std.ExtTreeMap.toList_filter (f := fun e _ => V.contains e), ← hpart]

theorem taint_same {start start' effects effects' : BTreeMap Effect}
    (same : SameEffects V start start') (h : taint V start = some effects)
    (h' : taint V' start' = some effects') : SameEffects V effects effects' := by
  obtain ⟨t, hrun, h⟩ := Option.bind_eq_some_iff.mp h
  obtain ⟨t', hrun', h'⟩ := Option.bind_eq_some_iff.mp h'
  obtain rfl := Option.some.inj h
  obtain rfl := Option.some.inj h'
  rw [toList_part within] at hrun
  exact (taint_follows closed within).settle same (fun hc => hc) (fun hc => by cases hc) hrun hrun'

end

end Clockchain.V1
