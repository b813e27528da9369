import Clockchain.History

/-!
# Suppression and frontiers

An act whose authority is silenced is struck; what descends from a struck act is
suppressed with it, except that a relinquishment of the root is never suppressed.
The frontier of a subject holds its eligible acts that no eligible act and no
effective revoke of the subject has in its strict past.
-/

namespace History
open Relation
set_option autoImplicit false

universe u v
variable {ι : Type u} {γ : Type v} (H : History ι γ) (E : Set ι)

def Struck (e : ι) : Prop := H.mem e ∧ ¬ H.Relinquishes e ∧ ∃ q ∈ E, H.Silences q e

inductive Suppressed : ι → Prop where
  | struck {e : ι} : H.Struck E e → Suppressed e
  | inherit {p e : ι} : H.parent p e → ¬ H.Relinquishes e → Suppressed p → Suppressed e

def Eligible (e : ι) : Prop := H.mem e ∧ ¬ H.Relinquishes e ∧ ¬ H.Suppressed E e

/-- `S` are the acts of one subject. -/
def Consumed (S : Set ι) (e : ι) : Prop := ∃ x ∈ S, (H.Eligible E x ∨ x ∈ E) ∧ H.Before e x

def Frontier (S : Set ι) : Set ι := {e | e ∈ S ∧ H.Eligible E e ∧ ¬ H.Consumed E S e}

/-- The acts every frontier act has in its past. -/
def Common (S : Set ι) (e : ι) : Prop := ∀ h ∈ H.Frontier E S, H.Anc e h

variable {H E}

theorem Suppressed.mem (law : H.Lawful) {e : ι} (h : H.Suppressed E e) : H.mem e := by
  cases h with
  | struck h => exact h.1
  | inherit hp _ _ => exact (law.parent_mem hp).2

theorem Suppressed.not_relinquishes {e : ι} (h : H.Suppressed E e) : ¬ H.Relinquishes e := by
  cases h with
  | struck h => exact h.2.1
  | inherit _ h _ => exact h

theorem suppressed_iff {e : ι} : H.Suppressed E e ↔
    H.Struck E e ∨ ¬ H.Relinquishes e ∧ ∃ p, H.parent p e ∧ H.Suppressed E p := by
  constructor
  · rintro (h | ⟨hp, hr, h⟩)
    · exact Or.inl h
    · exact Or.inr ⟨hr, _, hp, h⟩
  · rintro (h | ⟨hr, p, hp, h⟩)
    · exact .struck h
    · exact .inherit hp hr h

/-- Suppression reaches every descendant up to the first relinquishment. -/
theorem Suppressed.descend {c h : ι} (hc : H.Suppressed E c) (hanc : H.Anc c h) :
    H.Suppressed E h ∨ ∃ r, H.Relinquishes r ∧ H.Before c r ∧ H.Anc r h := by
  induction hanc with
  | refl => exact Or.inl hc
  | @tail a b hca hab ih =>
    rcases ih with ha | ⟨r, hr, hcr, hra⟩
    · by_cases hb : H.Relinquishes b
      · exact Or.inr ⟨b, hb, TransGen.tail' hca hab, ReflTransGen.refl⟩
      · exact Or.inl (.inherit hab hb ha)
    · exact Or.inr ⟨r, hr, hcr, hra.tail hab⟩

/-- Descendants of a suppressed act become eligible again only behind a relinquishment. -/
theorem Eligible.shielded {c h : ι} (hh : H.Eligible E h) (hc : H.Suppressed E c)
    (hanc : H.Anc c h) : ∃ r, H.Relinquishes r ∧ H.Before c r ∧ H.Before r h := by
  rcases hc.descend hanc with hsup | ⟨r, hr, hcr, hrh⟩
  · exact absurd hsup hh.2.2
  · rcases hrh.eq_or_before with rfl | hbefore
    · exact absurd hr hh.2.1
    · exact ⟨r, hr, hcr, hbefore⟩

theorem Suppressed.source {e : ι} (h : H.Suppressed E e) : ∃ c, H.Struck E c ∧ H.Anc c e := by
  induction h with
  | @struck e h => exact ⟨e, h, ReflTransGen.refl⟩
  | inherit hp _ _ ih =>
    obtain ⟨c, hc, hanc⟩ := ih
    exact ⟨c, hc, hanc.tail hp⟩

/-- An eligible act has a suppressed act in its past exactly when it stands on a relinquishment
that stands on a struck act. -/
theorem Eligible.past_clean_iff {h : ι} (hh : H.Eligible E h) :
    (∀ c, H.Anc c h → ¬ H.Suppressed E c) ↔
      ¬ ∃ r c, H.Relinquishes r ∧ H.Struck E c ∧ H.Before c r ∧ H.Before r h := by
  constructor
  · rintro hclean ⟨r, c, _, hc, hcr, hrh⟩
    exact hclean c (hcr.anc.trans hrh.anc) (.struck hc)
  · intro hnone c hanc hsup
    obtain ⟨d, hd, hdc⟩ := hsup.source
    obtain ⟨r, hr, hdr, hrh⟩ := hh.shielded (.struck hd) (hdc.trans hanc)
    exact hnone ⟨r, d, hr, hd, hdr, hrh⟩

/-- A revoke signed through a root grant that nobody relinquishes is effective. -/
theorem Effective.root_mem (law : H.Lawful) (hE : H.Effective E) {r : ι} (hr : H.Revokes r)
    (hroot : H.Root (H.signer r))
    (hkeep : ∀ q, H.Relinquishes q → H.signer q ≠ H.signer r) : r ∈ E := by
  have hbelow : ∀ i, ¬ H.Above i (H.signer r) := by
    intro i hi
    obtain ⟨j, _, hj⟩ := TransGen.tail'_iff.mp hi
    exact hroot j hj
  refine (hE.mem_iff r).mpr ⟨hr, Or.inr fun q _ hq => ?_⟩
  rcases hq with ⟨hcov, _⟩ | hcut
  · rcases law.covers_above hcov with habove | hrel
    · exact hbelow _ habove
    · obtain ⟨c, hq, _⟩ := id hrel
      obtain ⟨t, c', hq', ht⟩ := hcov
      obtain ⟨rfl, rfl⟩ := law.revoke_unique hq hq'
      rcases ht with ht | ⟨_, ht⟩
      · exact hkeep q hrel ht
      · rcases reflTransGen_iff_eq_or_transGen.mp ht with heq | hlt
        · exact hkeep q hrel heq.symm
        · exact hbelow _ hlt
  · cases hcut with
    | cut hi _ _ _ => exact hroot _ hi
    | up hi _ => exact hroot _ hi

/-- The act that issues a root grant nobody relinquishes keeps its authority. -/
theorem root_not_silenced (law : H.Lawful) {e : ι} (hroot : H.Root (H.signer e))
    {q : ι} (hq : H.Silences q e) : H.Relinquishes q ∧ H.signer q = H.signer e := by
  rcases hq with ⟨hcov, _⟩ | hcut
  · rcases law.covers_above hcov with habove | hrel
    · obtain ⟨j, _, hj⟩ := TransGen.tail'_iff.mp habove
      exact absurd hj (hroot j)
    · obtain ⟨c, hq, _⟩ := id hrel
      obtain ⟨t, c', hq', ht⟩ := hcov
      obtain ⟨rfl, rfl⟩ := law.revoke_unique hq hq'
      refine ⟨hrel, ?_⟩
      rcases ht with ht | ⟨_, ht⟩
      · exact ht
      · rcases reflTransGen_iff_eq_or_transGen.mp ht with heq | hlt
        · exact heq.symm
        · obtain ⟨j, _, hj⟩ := TransGen.tail'_iff.mp hlt
          exact absurd hj (hroot j)
  · cases hcut with
    | cut hi _ _ _ => exact absurd hi (hroot _)
    | up hi _ => exact absurd hi (hroot _)

/-- A subject has a frontier exactly when some eligible act is outside the past of
every effective revoke that is not itself eligible. -/
theorem frontier_nonempty_iff (law : H.Lawful) {S : Set ι} :
    (H.Frontier E S).Nonempty ↔
      ∃ e ∈ S, H.Eligible E e ∧ ¬ ∃ r ∈ S, r ∈ E ∧ ¬ H.Eligible E r ∧ H.Before e r := by
  constructor
  · rintro ⟨h, hS, hel, hfree⟩
    refine ⟨h, hS, hel, ?_⟩
    rintro ⟨r, hr, hE, _, hbefore⟩
    exact hfree ⟨r, hr, Or.inr hE, hbefore⟩
  · rintro ⟨e, hS, hel, hfree⟩
    -- The last eligible act from `e` on is on the frontier.
    obtain ⟨m, ⟨hmS, hm, hem⟩, hlast⟩ := law.exists_last
      (A := {x | x ∈ S ∧ H.Eligible E x ∧ H.Anc e x}) (fun x hx => hx.2.1.1)
      ⟨e, hS, hel, ReflTransGen.refl⟩
    refine ⟨m, hmS, hm, ?_⟩
    rintro ⟨x, hxS, hx, hmx⟩
    by_cases hxel : H.Eligible E x
    · exact hlast x ⟨hxS, hxel, hem.trans hmx.anc⟩ hmx
    · exact hfree ⟨x, hxS, hx.resolve_left hxel, hxel, hem.before hmx⟩

end History
