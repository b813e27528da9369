import Clockchain.Suppression

/-!
# Embeddings of histories

An embedding renames acts and grants and lands on a causally closed part of the
larger history. Ancestry, coverage, cancellation and silencing between embedded acts
are what they were; where two effective sets agree on the embedded acts, so is
everything that follows from them.
-/

namespace History
open Relation
set_option autoImplicit false

universe u v u' v'
variable {ι : Type u} {γ : Type v} {ι' : Type u'} {γ' : Type v'}

structure Embeds (H : History ι γ) (H' : History ι' γ') (f : ι → ι') (k : γ → γ') : Prop where
  mem : ∀ {e}, H.mem e → H'.mem (f e)
  inj : ∀ {a b}, H.mem a → H.mem b → f a = f b → a = b
  parent : ∀ {e p'}, H.mem e → (H'.parent p' (f e) ↔ ∃ p, H.parent p e ∧ f p = p')
  signer : ∀ {e}, H.mem e → H'.signer (f e) = k (H.signer e)
  issues : ∀ {e g'}, H.mem e → (H'.issues (f e) g' ↔ ∃ g, H.issues e g ∧ k g = g')
  issuer : ∀ {d g i'}, H.issues d g → (H'.issuer i' (k g) ↔ ∃ i, H.issuer i g ∧ k i = i')
  revoke : ∀ {r t' c}, H.mem r → (H'.revoke (f r) t' c ↔ ∃ t, H.revoke r t c ∧ k t = t')

namespace Embeds
variable {H : History ι γ} {H' : History ι' γ'} {f : ι → ι'} {k : γ → γ'}
variable (emb : Embeds H H' f k) (law : H.Lawful) (law' : H'.Lawful)
include emb law

theorem anc_lift {x' : ι'} {b : ι} (hb : H.mem b) (h : H'.Anc x' (f b)) :
    ∃ a, H.Anc a b ∧ f a = x' := by
  generalize hy : f b = y at h
  induction h using ReflTransGen.head_induction_on with
  | refl => exact ⟨b, ReflTransGen.refl, hy⟩
  | head hac _ ih =>
    obtain ⟨c, hcb, rfl⟩ := ih
    obtain ⟨a, hpar, rfl⟩ := (emb.parent (law.anc_mem hcb hb)).mp hac
    exact ⟨a, ReflTransGen.head hpar hcb, rfl⟩

omit law in
theorem anc_map {a b : ι} (hb : H.mem b) (law : H.Lawful) (h : H.Anc a b) :
    H'.Anc (f a) (f b) := by
  induction h using ReflTransGen.head_induction_on with
  | refl => exact ReflTransGen.refl
  | head hac hcb ih =>
    exact ReflTransGen.head ((emb.parent (law.anc_mem hcb hb)).mpr ⟨_, hac, rfl⟩) ih

theorem anc_iff {a b : ι} (ha : H.mem a) (hb : H.mem b) :
    H'.Anc (f a) (f b) ↔ H.Anc a b := by
  refine ⟨fun h => ?_, emb.anc_map hb law⟩
  obtain ⟨c, hcb, heq⟩ := emb.anc_lift law hb h
  rwa [emb.inj ha (law.anc_mem hcb hb) heq.symm]

theorem before_lift {x' : ι'} {b : ι} (hb : H.mem b) (h : H'.Before x' (f b)) :
    ∃ a, H.Before a b ∧ f a = x' := by
  obtain ⟨p', hxp, hp⟩ := before_iff.mp h
  obtain ⟨p, hpb, rfl⟩ := (emb.parent hb).mp hp
  obtain ⟨a, hap, rfl⟩ := emb.anc_lift law (law.parent_mem hpb).1 hxp
  exact ⟨a, before_iff.mpr ⟨p, hap, hpb⟩, rfl⟩

theorem before_iff_before {a b : ι} (ha : H.mem a) (hb : H.mem b) :
    H'.Before (f a) (f b) ↔ H.Before a b := by
  constructor
  · intro h
    obtain ⟨c, hcb, heq⟩ := emb.before_lift law hb h
    rwa [emb.inj ha (law.anc_mem hcb.anc hb) heq.symm]
  · intro h
    obtain ⟨p, hap, hpb⟩ := before_iff.mp h
    exact before_iff.mpr ⟨f p, emb.anc_map (law.parent_mem hpb).1 law hap,
      (emb.parent hb).mpr ⟨p, hpb, rfl⟩⟩

theorem under_lift {t' : γ'} {g : γ} {d : ι} (hd : H.issues d g) (h : H'.Under t' (k g)) :
    ∃ t, H.Under t g ∧ k t = t' ∧ ∃ e, H.issues e t := by
  generalize hy : k g = y at h
  induction h using ReflTransGen.head_induction_on with
  | refl => exact ⟨g, ReflTransGen.refl, hy, d, hd⟩
  | head hac _ ih =>
    obtain ⟨c, hcg, rfl, e, he⟩ := ih
    obtain ⟨a, hiss, rfl⟩ := (emb.issuer he).mp hac
    obtain ⟨e', _, he', _⟩ := law.issuer_before hiss
    exact ⟨a, ReflTransGen.head hiss hcg, rfl, e', he'⟩

omit emb in
theorem under_issued {t g : γ} {d : ι} (hd : H.issues d g) (h : H.Under t g) :
    ∃ e, H.issues e t := by
  rcases ReflTransGen.cases_head h with rfl | ⟨c, htc, _⟩
  · exact ⟨d, hd⟩
  · obtain ⟨e, _, he, _⟩ := law.issuer_before htc
    exact ⟨e, he⟩

theorem under_map {t g : γ} {d : ι} (hd : H.issues d g) (h : H.Under t g) :
    H'.Under (k t) (k g) := by
  induction h using ReflTransGen.head_induction_on with
  | refl => exact ReflTransGen.refl
  | head hac hcg ih =>
    obtain ⟨e, he⟩ := under_issued law hd hcg
    exact ReflTransGen.head ((emb.issuer he).mpr ⟨_, hac, rfl⟩) ih

omit law in
theorem root_iff {g : γ} {d : ι} (hd : H.issues d g) : H'.Root (k g) ↔ H.Root g := by
  constructor
  · intro h i hi
    exact h (k i) ((emb.issuer hd).mpr ⟨i, hi, rfl⟩)
  · intro h i' hi'
    obtain ⟨i, hi, _⟩ := (emb.issuer hd).mp hi'
    exact h i hi

omit law in
theorem revokes_iff {r : ι} (hr : H.mem r) : H'.Revokes (f r) ↔ H.Revokes r := by
  constructor
  · rintro ⟨t', c, h⟩
    obtain ⟨t, ht, _⟩ := (emb.revoke hr).mp h
    exact ⟨t, c, ht⟩
  · rintro ⟨t, c, h⟩
    exact ⟨k t, c, (emb.revoke hr).mpr ⟨t, h, rfl⟩⟩

include law'

theorem grant_inj {d e : ι} {g g' : γ} (hd : H.issues d g) (he : H.issues e g')
    (h : k g = k g') : g = g' := by
  have hd' := (emb.issues (law.issues_mem hd)).mpr ⟨g, hd, rfl⟩
  have he' := (emb.issues (law.issues_mem he)).mpr ⟨g', he, rfl⟩
  have := emb.inj (law.issues_mem hd) (law.issues_mem he) (law'.issues_event hd' (h ▸ he'))
  subst this
  exact law.issues_grant hd he

theorem relinquishes_iff {r : ι} (hr : H.mem r) : H'.Relinquishes (f r) ↔ H.Relinquishes r := by
  obtain ⟨d, hd, _⟩ := law.signer_issued hr
  constructor
  · rintro ⟨c, h, hroot⟩
    rw [emb.signer hr] at h hroot
    obtain ⟨t, ht, heq⟩ := (emb.revoke hr).mp h
    obtain ⟨e, he, _⟩ := law.target_issued ht
    obtain rfl := emb.grant_inj law law' he hd heq
    exact ⟨c, ht, (emb.root_iff hd).mp hroot⟩
  · rintro ⟨c, h, hroot⟩
    refine ⟨c, ?_, ?_⟩
    · rw [emb.signer hr]
      exact (emb.revoke hr).mpr ⟨_, h, rfl⟩
    · rw [emb.signer hr]
      exact (emb.root_iff hd).mpr hroot

theorem covers_iff {r d : ι} {g : γ} (hr : H.mem r) (hd : H.issues d g) :
    H'.Covers (f r) (k g) ↔ H.Covers r g := by
  constructor
  · rintro ⟨t', c, h, hcover⟩
    obtain ⟨t, ht, rfl⟩ := (emb.revoke hr).mp h
    obtain ⟨e, he, _⟩ := law.target_issued ht
    refine ⟨t, c, ht, hcover.imp (emb.grant_inj law law' he hd) ?_⟩
    rintro ⟨hc, hunder⟩
    obtain ⟨u, hu, heq, e', he'⟩ := emb.under_lift law hd hunder
    exact ⟨hc, emb.grant_inj law law' he' he heq ▸ hu⟩
  · rintro ⟨t, c, h, hcover⟩
    refine ⟨k t, c, (emb.revoke hr).mpr ⟨t, h, rfl⟩, hcover.imp (congrArg k) ?_⟩
    rintro ⟨hc, hunder⟩
    exact ⟨hc, emb.under_map law hd hunder⟩

theorem cuts_map {r : ι} {g : γ} (hr : H.mem r) (h : H.Cuts r g) : H'.Cuts (f r) (k g) := by
  induction h with
  | @cut i g d hi hd hcov hpast =>
    obtain ⟨e, _, he, _⟩ := law.issuer_before hi
    refine .cut ((emb.issuer hd).mpr ⟨i, hi, rfl⟩)
      ((emb.issues (law.issues_mem hd)).mpr ⟨g, hd, rfl⟩)
      ((emb.covers_iff law law' hr he).mpr hcov) ?_
    rwa [emb.before_iff_before law (law.issues_mem hd) hr]
  | @up i g hi _ ih =>
    obtain ⟨_, d, _, hd, _⟩ := law.issuer_before hi
    exact .up ((emb.issuer hd).mpr ⟨i, hi, rfl⟩) ih

theorem cuts_lift {r d : ι} {g : γ} (hr : H.mem r) (hd : H.issues d g)
    (h : H'.Cuts (f r) (k g)) : H.Cuts r g := by
  generalize hy : k g = y at h
  induction h generalizing g d with
  | @cut i' g' d' hi hd' hcov hpast =>
    subst hy
    obtain ⟨i, hiss, rfl⟩ := (emb.issuer hd).mp hi
    obtain ⟨e, _, he, _⟩ := law.issuer_before hiss
    have hissue := (emb.issues (law.issues_mem hd)).mpr ⟨g, hd, rfl⟩
    obtain rfl := law'.issues_event hissue hd'
    rw [emb.before_iff_before law (law.issues_mem hd) hr] at hpast
    exact .cut hiss hd ((emb.covers_iff law law' hr he).mp hcov) hpast
  | @up i' g' hi _ ih =>
    subst hy
    obtain ⟨i, hiss, rfl⟩ := (emb.issuer hd).mp hi
    obtain ⟨e, _, he, _⟩ := law.issuer_before hiss
    exact .up hiss (ih he rfl)

theorem silences_iff {q e : ι} (hq : H.mem q) (he : H.mem e) :
    H'.Silences (f q) (f e) ↔ H.Silences q e := by
  obtain ⟨d, hd, _⟩ := law.signer_issued he
  rw [Silences, Silences, Overrides, Overrides, emb.signer he, emb.covers_iff law law' hq hd,
    emb.before_iff_before law he hq]
  apply or_congr_right
  exact ⟨emb.cuts_lift law law' hq hd, emb.cuts_map law law' hq⟩

/-! ## What effective revokes decide -/

/-- `E` and `E'` hold the same embedded revokes, and no other revoke of `E'` covers or cuts
an embedded grant. -/
structure Agrees (H : History ι γ) (H' : History ι' γ') (f : ι → ι') (k : γ → γ') (E : Set ι)
    (E' : Set ι') : Prop where
  mem : ∀ {r}, H.mem r → (f r ∈ E' ↔ r ∈ E)
  within : ∀ {q' d g}, q' ∈ E' → H.issues d g → H'.Covers q' (k g) ∨ H'.Cuts q' (k g) →
    ∃ q, H.mem q ∧ f q = q'

section
variable {E : Set ι} {E' : Set ι'} (hE : H.Effective E) (agrees : Agrees H H' f k E E')
include hE agrees

omit emb law' in
theorem exists_effective_iff {p : ι → Prop} {p' : ι' → Prop}
    (h : ∀ q, H.mem q → (p' (f q) ↔ p q))
    (hwithin : ∀ q' ∈ E', p' q' → ∃ q, H.mem q ∧ f q = q') :
    (∃ q ∈ E', p' q) ↔ ∃ q ∈ E, p q := by
  constructor
  · rintro ⟨q', hq', hp⟩
    obtain ⟨q, hq, rfl⟩ := hwithin q' hq' hp
    exact ⟨q, (agrees.mem hq).mp hq', (h q hq).mp hp⟩
  · rintro ⟨q, hq, hp⟩
    have hmem := (hE.revokes hq).mem law
    exact ⟨f q, (agrees.mem hmem).mpr hq, (h q hmem).mpr hp⟩

theorem exists_covers_iff {d : ι} {g : γ} (hd : H.issues d g) :
    (∃ q ∈ E', H'.Covers q (k g)) ↔ ∃ q ∈ E, H.Covers q g :=
  exists_effective_iff law hE agrees (fun _ hq => emb.covers_iff law law' hq hd)
    fun _ hq h => agrees.within hq hd (Or.inl h)

theorem exists_cuts_iff {d : ι} {g : γ} (hd : H.issues d g) :
    (∃ q ∈ E', H'.Cuts q (k g)) ↔ ∃ q ∈ E, H.Cuts q g :=
  exists_effective_iff law hE agrees
    (fun _ hq => ⟨emb.cuts_lift law law' hq hd, emb.cuts_map law law' hq⟩)
    fun _ hq h => agrees.within hq hd (Or.inr h)

omit law' hE in
theorem within_silences {q' : ι'} {e : ι} (hq : q' ∈ E') (he : H.mem e)
    (h : H'.Silences q' (f e)) : ∃ q, H.mem q ∧ f q = q' := by
  obtain ⟨d, hd, _⟩ := law.signer_issued he
  rw [Silences, Overrides, emb.signer he] at h
  exact agrees.within hq hd (h.imp_left And.left)

theorem struck_iff {e : ι} (he : H.mem e) : H'.Struck E' (f e) ↔ H.Struck E e := by
  simp only [Struck, emb.mem he, he, true_and, emb.relinquishes_iff law law' he]
  refine and_congr_right fun _ => exists_effective_iff law hE agrees ?_ fun q' hq h =>
    emb.within_silences law agrees hq he h
  exact fun q hq => emb.silences_iff law law' hq he

theorem suppressed_iff {e : ι} (he : H.mem e) : H'.Suppressed E' (f e) ↔ H.Suppressed E e := by
  constructor
  · intro h
    generalize hy : f e = y at h
    induction h generalizing e with
    | struck h =>
      subst hy
      exact .struck ((emb.struck_iff law law' hE agrees he).mp h)
    | inherit hp hrel _ ih =>
      subst hy
      obtain ⟨p, hpe, rfl⟩ := (emb.parent he).mp hp
      rw [emb.relinquishes_iff law law' he] at hrel
      exact .inherit hpe hrel (ih (law.parent_mem hpe).1 rfl)
  · intro h
    induction h with
    | struck h => exact .struck ((emb.struck_iff law law' hE agrees he).mpr h)
    | @inherit p e hp hrel _ ih =>
      refine .inherit ((emb.parent he).mpr ⟨p, hp, rfl⟩) ?_ (ih (law.parent_mem hp).1)
      rwa [emb.relinquishes_iff law law' he]

theorem eligible_iff {e : ι} (he : H.mem e) : H'.Eligible E' (f e) ↔ H.Eligible E e := by
  simp only [Eligible, emb.mem he, he, true_and, emb.relinquishes_iff law law' he,
    emb.suppressed_iff law law' hE agrees he]

/-- The acts `S'` of a subject are the embedded acts `S` and others without effect. -/
theorem frontier_eq {S : Set ι} {S' : Set ι'} (hS : ∀ e ∈ S, H.mem e ∧ f e ∈ S')
    (rest : ∀ x ∈ S', (∃ e ∈ S, f e = x) ∨ ¬ H'.Eligible E' x ∧ x ∉ E') :
    H'.Frontier E' S' = f '' H.Frontier E S := by
  have hconsumed : ∀ e ∈ S, (H'.Consumed E' S' (f e) ↔ H.Consumed E S e) := by
    intro e he
    constructor
    · rintro ⟨x', hx', hctl, hbefore⟩
      obtain ⟨x, hx, rfl⟩ := (rest x' hx').resolve_right fun h => hctl.elim h.1 h.2
      exact ⟨x, hx, hctl.imp (emb.eligible_iff law law' hE agrees (hS x hx).1).mp
        (agrees.mem (hS x hx).1).mp, (emb.before_iff_before law (hS e he).1 (hS x hx).1).mp hbefore⟩
    · rintro ⟨x, hx, hctl, hbefore⟩
      exact ⟨f x, (hS x hx).2, hctl.imp (emb.eligible_iff law law' hE agrees (hS x hx).1).mpr
        (agrees.mem (hS x hx).1).mpr,
        (emb.before_iff_before law (hS e he).1 (hS x hx).1).mpr hbefore⟩
  apply Set.ext
  intro x'
  constructor
  · rintro ⟨hx', hel, hfree⟩
    obtain ⟨x, hx, rfl⟩ := (rest x' hx').resolve_right fun h => h.1 hel
    exact ⟨x, ⟨hx, (emb.eligible_iff law law' hE agrees (hS x hx).1).mp hel,
      mt (hconsumed x hx).mpr hfree⟩, rfl⟩
  · rintro ⟨x, ⟨hx, hel, hfree⟩, rfl⟩
    exact ⟨(hS x hx).2, (emb.eligible_iff law law' hE agrees (hS x hx).1).mpr hel,
      mt (hconsumed x hx).mp hfree⟩

end

/-! ## Acts through dead grants -/

/-- Acts beyond the embedding. -/
def Fresh (H : History ι γ) (H' : History ι' γ') (f : ι → ι') (n : ι') : Prop :=
  H'.mem n ∧ ¬ ∃ e, H.mem e ∧ f e = n

/-- The fresh acts among `J` sign through grants that effective revokes of the embedded
history have taken away, or through grants issued by fresh acts among `J`. -/
structure Inert (H : History ι γ) (H' : History ι' γ') (f : ι → ι') (k : γ → γ') (E : Set ι)
    (J : Set ι') : Prop where
  quiet : ∀ {n}, Fresh H H' f n → ¬ H'.Relinquishes n
  embedded : ∀ {n d g}, Fresh H H' f n → H.issues d g → H'.signer n = k g →
    n ∈ J ∧ ∃ r ∈ E, H.Covers r g ∨ H.Cuts r g
  fresh : ∀ {n d}, Fresh H H' f n → n ∈ J → Fresh H H' f d → H'.issues d (H'.signer n) →
    d ∈ J ∧ H'.issuer (H'.signer d) (H'.signer n)

section
variable {E : Set ι} {E' : Set ι'} {J : Set ι'} (hE : H.Effective E) (hE' : H'.Effective E')
variable (inert : Inert H H' f k E J)

omit law law' in
theorem fresh_not_before (law : H.Lawful) {n : ι'} (hn : Fresh H H' f n) {r : ι} (hr : H.mem r) :
    ¬ H'.Before n (f r) := by
  intro h
  obtain ⟨a, ha, rfl⟩ := emb.before_lift law hr h
  exact hn.2 ⟨a, law.anc_mem ha.anc hr, rfl⟩

include inert hE

/-- Every fresh act among `J` is silenced by an effective revoke of the embedded history. -/
theorem fresh_silenced {n : ι'} (hn : Fresh H H' f n) (hJ : n ∈ J) :
    ∃ r ∈ E, H'.Silences (f r) n := by
  induction n using law'.acyclic.transGen.induction with
  | _ n ih =>
    obtain ⟨d', hd', hanc⟩ := law'.signer_issued hn.1
    by_cases hold : ∃ d, H.mem d ∧ f d = d'
    · obtain ⟨d, hd, rfl⟩ := hold
      obtain ⟨g, hg, heq⟩ := (emb.issues hd).mp hd'
      obtain ⟨_, r, hr, hlost⟩ := inert.embedded hn hg heq.symm
      have hmem := (hE.revokes hr).mem law
      refine ⟨r, hr, hlost.imp (fun hcov => ⟨?_, emb.fresh_not_before law hn hmem⟩) fun hcut => ?_⟩
      · rw [← heq]
        exact (emb.covers_iff law law' hmem hg).mpr hcov
      · rw [← heq]
        exact emb.cuts_map law law' hmem hcut
    · have hd : Fresh H H' f d' := ⟨law'.issues_mem hd', hold⟩
      obtain ⟨hdJ, hissuer⟩ := inert.fresh hn hJ hd hd'
      have hbefore : H'.Before d' n := by
        refine hanc.eq_or_before.resolve_left ?_
        rintro rfl
        exact law'.above_irrefl _ (TransGen.single hissuer)
      obtain ⟨r, hr, hsil⟩ := ih d' hbefore hd hdJ
      refine ⟨r, hr, Or.inr ?_⟩
      rcases hsil with ⟨hcov, hpast⟩ | hcut
      · exact .cut hissuer hd' hcov hpast
      · exact .up hissuer hcut

omit hE in
/-- A fresh revoke that reaches an embedded grant is among `J`. -/
theorem fresh_above {q : ι'} {d : ι} {g : γ} (hq : Fresh H H' f q) (hd : H.issues d g)
    (h : H'.Covers q (k g) ∨ H'.Cuts q (k g)) : q ∈ J := by
  have habove : H'.Above (H'.signer q) (k g) := by
    rcases h with h | h
    · exact (law'.covers_above h).resolve_right (inert.quiet hq)
    · exact (law'.cuts_above h).resolve_right (inert.quiet hq)
  obtain ⟨x, y, hx, hy, hxy⟩ := law'.above_before habove
  have hdmem := law.issues_mem hd
  obtain rfl := law'.issues_event ((emb.issues hdmem).mpr ⟨g, hd, rfl⟩) hy
  obtain ⟨a, hab, rfl⟩ := emb.before_lift law hdmem hxy
  obtain ⟨i, hi, heq⟩ := (emb.issues (law.anc_mem hab.anc hdmem)).mp hx
  exact (inert.embedded hq hi heq.symm).1

include hE'

/-- What is effective among the embedded revokes does not change. -/
theorem inert_effective {r : ι} (hr : H.mem r) : f r ∈ E' ↔ r ∈ E := by
  induction hn : H'.rank (f r) using Nat.strong_induction_on generalizing r with
  | _ n ih =>
    subst hn
    rw [hE'.mem_iff, hE.mem_iff, emb.revokes_iff hr, emb.relinquishes_iff law law' hr]
    refine and_congr_right fun _ => ?_
    by_cases hrel : H.Relinquishes r
    · simp [hrel]
    simp only [hrel, false_or]
    have hrel' : ¬ H'.Relinquishes (f r) := by rwa [emb.relinquishes_iff law law' hr]
    constructor
    · intro hfree q hq hsil
      have hqmem := (hE.revokes hq).mem law
      have hsil' := (emb.silences_iff law law' hqmem hr).mpr hsil
      exact hfree (f q) ((ih _ (law'.attacks_rank ⟨hrel', hsil'⟩) hqmem rfl).mpr hq) hsil'
    · intro hfree q' hq' hsil
      have hlt := law'.attacks_rank ⟨hrel', hsil⟩
      by_cases hold : ∃ q, H.mem q ∧ f q = q'
      · obtain ⟨q, hq, rfl⟩ := hold
        exact hfree q ((ih _ hlt hq rfl).mp hq') ((emb.silences_iff law law' hq hr).mp hsil)
      · -- A fresh attacker is itself silenced by a revoke of smaller rank.
        have hqfresh : Fresh H H' f q' := ⟨(hE'.revokes hq').mem law', hold⟩
        obtain ⟨d, hd, _⟩ := law.signer_issued hr
        have hJ : q' ∈ J := by
          refine emb.fresh_above law law' inert hqfresh hd ?_
          rw [Silences, Overrides, emb.signer hr] at hsil
          exact hsil.imp_left And.left
        obtain ⟨r₀, hr₀, hsil₀⟩ := emb.fresh_silenced law law' hE inert hqfresh hJ
        have hmem₀ := (hE.revokes hr₀).mem law
        have hlt₀ := law'.attacks_rank ⟨inert.quiet hqfresh, hsil₀⟩
        have hr₀' := (ih _ (hlt₀.trans hlt) hmem₀ rfl).mpr hr₀
        exact (((hE'.mem_iff q').mp hq').2.resolve_left (inert.quiet hqfresh)) _ hr₀' hsil₀

theorem inert_ineffective {n : ι'} (hn : Fresh H H' f n) (hJ : n ∈ J) :
    ¬ H'.Eligible E' n ∧ n ∉ E' := by
  obtain ⟨r, hr, hsil⟩ := emb.fresh_silenced law law' hE inert hn hJ
  have hr' := (emb.inert_effective law law' hE hE' inert ((hE.revokes hr).mem law)).mpr hr
  refine ⟨fun hel => hel.2.2 (.struck ⟨hn.1, inert.quiet hn, f r, hr', hsil⟩), fun hnE => ?_⟩
  exact ((hE'.mem_iff n).mp hnE).2.resolve_left (inert.quiet hn) _ hr' hsil

theorem inert_agrees : Agrees H H' f k E E' where
  mem hr := emb.inert_effective law law' hE hE' inert hr
  within {q' d g} hq hd h := by
    by_contra hold
    have hfresh : Fresh H H' f q' := ⟨(hE'.revokes hq).mem law', hold⟩
    exact (emb.inert_ineffective law law' hE hE' inert hfresh
      (emb.fresh_above law law' inert hfresh hd h)).2 hq

end

end Embeds

end History
