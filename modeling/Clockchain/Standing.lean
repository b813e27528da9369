import Clockchain.Embedding

/-!
# Parts without a suppressed act

In a closed part of a history none of whose acts is suppressed, every revoke is effective. A grant
that no effective revoke of the whole touches is then untouched by those of the part.
-/

namespace History
open Relation
set_option autoImplicit false

universe u v u' v'
variable {ι : Type u} {γ : Type v} {ι' : Type u'} {γ' : Type v'}

/-- No effective revoke covers the grant or cuts its issuance. -/
structure Untouched (H : History ι γ) (E : Set ι) (g : γ) : Prop where
  uncovered : ¬ ∃ r ∈ E, H.Covers r g
  uncut : ¬ ∃ r ∈ E, H.Cuts r g

theorem Effective.mem_of_clean {H : History ι γ} {E : Set ι} (law : H.Lawful) (hE : H.Effective E)
    {r : ι} (hr : H.Revokes r) (clean : ¬ H.Suppressed E r) : r ∈ E := by
  refine (hE.mem_iff r).mpr ⟨hr, ?_⟩
  by_cases hrel : H.Relinquishes r
  · exact Or.inl hrel
  · exact Or.inr fun q hq hsil => clean (.struck ⟨hr.mem law, hrel, q, hq, hsil⟩)

/-- An eligible act that no relinquishment precedes has no suppressed act in its past. -/
theorem Eligible.past_clean {H : History ι γ} {E : Set ι} {h : ι} (hh : H.Eligible E h)
    (kept : ¬ ∃ r, H.Relinquishes r ∧ H.Before r h) {c : ι} (hc : H.Anc c h) :
    ¬ H.Suppressed E c := by
  intro hsuppressed
  obtain ⟨r, hr, -, hbefore⟩ := hh.shielded hsuppressed hc
  exact kept ⟨r, hr, hbefore⟩

namespace Embeds
variable {H : History ι γ} {H' : History ι' γ'} {f : ι → ι'} {k : γ → γ'} {E : Set ι} {E' : Set ι'}

theorem effective_map (emb : Embeds H H' f k) (law : H.Lawful) (law' : H'.Lawful)
    (hE : H.Effective E) (hE' : H'.Effective E')
    (clean : ∀ e, H.mem e → ¬ H'.Suppressed E' (f e)) {r : ι} (hr : r ∈ E) : f r ∈ E' := by
  have hrevokes := hE.revokes hr
  have hmem := hrevokes.mem law
  exact hE'.mem_of_clean law' ((emb.revokes_iff hmem).mpr hrevokes) (clean r hmem)

theorem untouched (emb : Embeds H H' f k) (law : H.Lawful) (law' : H'.Lawful)
    (hE : H.Effective E) (hE' : H'.Effective E')
    (clean : ∀ e, H.mem e → ¬ H'.Suppressed E' (f e)) {g : γ} {d : ι} (hd : H.issues d g)
    (h : H'.Untouched E' (k g)) : H.Untouched E g := by
  refine ⟨?_, ?_⟩
  · rintro ⟨r, hr, hcovers⟩
    have hmem := (hE.revokes hr).mem law
    exact h.uncovered ⟨f r, emb.effective_map law law' hE hE' clean hr,
      (emb.covers_iff law law' hmem hd).mpr hcovers⟩
  · rintro ⟨r, hr, hcuts⟩
    have hmem := (hE.revokes hr).mem law
    exact h.uncut ⟨f r, emb.effective_map law law' hE hE' clean hr,
      emb.cuts_map law law' hmem hcuts⟩

end Embeds

end History
