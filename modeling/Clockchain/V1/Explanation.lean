import Clockchain.V1.Totality

/-!
# The explanation of a tainted event

The taint loop of `derive` gives an event the revokes of the suppressed parents it has
marked by then, and does not come back to it. `History.Ahead` says which parents those are,
from the order of the event ids alone.
-/

namespace History
open Relation
set_option autoImplicit false

universe u v
variable {ι : Type u} {γ : Type v} (H : History ι γ) (E : Set ι) (lt : ι → ι → Prop)

/-- Suppressed for its parents alone. -/
def Tainted (e : ι) : Prop := H.Suppressed E e ∧ ¬ H.Struck E e

/-- The struck acts are met at once; pass `n + 1` visits the acts in the order `lt` and meets
those with a parent that is met. -/
inductive Met : Nat → ι → Prop where
  | struck {e : ι} : H.Struck E e → Met 0 e
  | keep {n : Nat} {e : ι} : Met n e → Met (n + 1) e
  | before {n : Nat} {p e : ι} : H.parent p e → ¬ H.Relinquishes e → Met n p → Met (n + 1) e
  | beside {n : Nat} {p e : ι} : H.parent p e → ¬ H.Relinquishes e → lt p e → Met (n + 1) p →
      Met (n + 1) e

/-- `p` is met when a pass comes to meet `e`. -/
def Ahead (p e : ι) : Prop :=
  ∃ n, ¬ H.Met E lt n e ∧ H.Met E lt (n + 1) e ∧ (H.Met E lt n p ∨ lt p e ∧ H.Met E lt (n + 1) p)

variable {H E lt}

theorem Met.suppressed {n : Nat} {e : ι} (h : H.Met E lt n e) : H.Suppressed E e := by
  induction h with
  | struck h => exact .struck h
  | keep _ ih => exact ih
  | before hp hr _ ih => exact .inherit hp hr ih
  | beside hp hr _ _ ih => exact .inherit hp hr ih

theorem Met.le {m n : Nat} {e : ι} (h : H.Met E lt m e) (hmn : m ≤ n) : H.Met E lt n e := by
  induction hmn with
  | refl => exact h
  | step _ ih => exact .keep ih

theorem met_zero {e : ι} : H.Met E lt 0 e ↔ H.Struck E e := by
  constructor
  · intro h
    cases h with
    | struck h => exact h
  · exact .struck

theorem met_succ {n : Nat} {e : ι} : H.Met E lt (n + 1) e ↔ H.Met E lt n e ∨
    ¬ H.Relinquishes e ∧ ∃ p, H.parent p e ∧ (H.Met E lt n p ∨ lt p e ∧ H.Met E lt (n + 1) p) := by
  constructor
  · intro h
    cases h with
    | keep h => exact Or.inl h
    | before hp hr h => exact Or.inr ⟨hr, _, hp, Or.inl h⟩
    | beside hp hr hlt h => exact Or.inr ⟨hr, _, hp, Or.inr ⟨hlt, h⟩⟩
  · rintro (h | ⟨hr, p, hp, h | ⟨hlt, h⟩⟩)
    · exact .keep h
    · exact .before hp hr h
    · exact .beside hp hr hlt h

/-- There is one pass that meets an act. -/
theorem met_once {m n : Nat} {e : ι} (hm : ¬ H.Met E lt m e) (hm' : H.Met E lt (m + 1) e)
    (hn : ¬ H.Met E lt n e) (hn' : H.Met E lt (n + 1) e) : m = n := by
  by_contra hne
  rcases Nat.lt_or_gt_of_ne hne with hlt | hlt
  · exact hn (hm'.le hlt)
  · exact hm (hn'.le hlt)

theorem ahead_iff {n : Nat} {p e : ι} (hn : ¬ H.Met E lt n e) (hn' : H.Met E lt (n + 1) e) :
    H.Ahead E lt p e ↔ H.Met E lt n p ∨ lt p e ∧ H.Met E lt (n + 1) p := by
  constructor
  · rintro ⟨m, hm, hm', h⟩
    obtain rfl := met_once hm hm' hn hn'
    exact h
  · exact fun h => ⟨n, hn, hn', h⟩

theorem Ahead.suppressed {p e : ι} (h : H.Ahead E lt p e) : H.Suppressed E p := by
  obtain ⟨_, _, _, h | ⟨_, h⟩⟩ := h
  · exact h.suppressed
  · exact h.suppressed

theorem Ahead.tainted {p e : ι} (h : H.Ahead E lt p e) : H.Tainted E e := by
  obtain ⟨n, hn, hn', _⟩ := h
  exact ⟨hn'.suppressed, fun h => hn ((met_zero.mpr h).le (Nat.zero_le n))⟩

end History

namespace Clockchain.V1
open Relation Maps Programs
set_option autoImplicit false

universe u v

section
variable {ι : Type u} {γ : Type v} (H : History ι γ) (E : Set ι)

/-- `q` controls `e`, or a suppressed act that `e` is tainted by. -/
inductive Explains (q : ι) : ι → Prop where
  | own {e : ι} : H.Struck E e → q ∈ controllers H E e → Explains q e
  | inherit {p e : ι} : H.Tainted E e → H.parent p e → Explains q p → Explains q e

/-- `q` controls `e`, or a suppressed act that `e` descends from through suppressed acts. -/
inductive Blamed (q : ι) : ι → Prop where
  | own {e : ι} : H.Struck E e → q ∈ controllers H E e → Blamed q e
  | inherit {p e : ι} : H.Suppressed E e → H.parent p e → Blamed q p → Blamed q e

variable {H E}

theorem Explains.suppressed {q e : ι} (h : Explains H E q e) : H.Suppressed E e := by
  cases h with
  | own h _ => exact .struck h
  | inherit h _ _ => exact h.1

theorem Explains.blamed {q e : ι} (h : Explains H E q e) : Blamed H E q e := by
  induction h with
  | own h hq => exact .own h hq
  | inherit ht hp _ ih => exact .inherit ht.1 hp ih

theorem explains_struck {q e : ι} (h : H.Struck E e) :
    Explains H E q e ↔ q ∈ controllers H E e := by
  constructor
  · intro hq
    cases hq with
    | own _ hq => exact hq
    | inherit ht _ _ => exact absurd h ht.2
  · exact .own h

theorem explains_tainted {q e : ι} (h : H.Tainted E e) :
    Explains H E q e ↔ ∃ p, H.parent p e ∧ Explains H E q p := by
  constructor
  · intro hq
    cases hq with
    | own hs _ => exact absurd hs h.2
    | inherit _ hp hq => exact ⟨_, hp, hq⟩
  · rintro ⟨p, hp, hq⟩
    exact .inherit h hp hq

/-! ## What the acts ahead pass on -/

/-- Suppressed acts have no revokes but those that explain them, and all of those. -/
def Exact (H : History ι γ) (E : Set ι) (f : ι → Set ι) : Prop :=
  ∀ e, H.Suppressed E e → ∀ q, q ∈ f e ↔ Explains H E q e

section
variable {lt : ι → ι → Prop} {f : ι → Set ι} (law : H.Lawful)
variable (struck : ∀ {e}, H.Struck E e → ∀ q, q ∈ f e ↔ q ∈ controllers H E e)
include law struck

/-- Taking the union over all suppressed parents is exact. -/
theorem exact_of_union (h : ∀ e, H.Tainted E e → ∀ q, q ∈ f e ↔
    ∃ p, H.parent p e ∧ H.Suppressed E p ∧ q ∈ f p) : Exact H E f := by
  intro e
  induction e using law.acyclic.induction with
  | _ e ih =>
    intro he q
    by_cases hs : H.Struck E e
    · rw [struck hs, explains_struck hs]
    · rw [h e ⟨he, hs⟩, explains_tainted ⟨he, hs⟩]
      constructor
      · rintro ⟨p, hp, hsup, hq⟩
        exact ⟨p, hp, (ih p hp hsup q).mp hq⟩
      · rintro ⟨p, hp, hq⟩
        exact ⟨p, hp, hq.suppressed, (ih p hp hq.suppressed q).mpr hq⟩

omit law struck in
theorem Exact.union (h : Exact H E f) {e : ι} (he : H.Tainted E e) (q : ι) :
    q ∈ f e ↔ ∃ p, H.parent p e ∧ H.Suppressed E p ∧ q ∈ f p := by
  rw [h e he.1, explains_tainted he]
  refine exists_congr fun p => and_congr_right fun _ => ?_
  constructor
  · exact fun hq => ⟨hq.suppressed, (h p hq.suppressed q).mpr hq⟩
  · exact fun ⟨hp, hq⟩ => (h p hp q).mp hq

variable (tainted : ∀ {e}, H.Tainted E e → ∀ q, q ∈ f e ↔
  ∃ p, H.parent p e ∧ H.Ahead E lt p e ∧ q ∈ f p)
include tainted

/-- The acts ahead are enough exactly when each revoke comes through one of them. -/
theorem exact_iff : Exact H E f ↔ ∀ e q, H.Tainted E e → Explains H E q e →
    ∃ p, H.parent p e ∧ H.Ahead E lt p e ∧ Explains H E q p := by
  constructor
  · intro h e q he hq
    obtain ⟨p, hp, hahead, hqp⟩ := (tainted he q).mp ((h e he.1 q).mpr hq)
    exact ⟨p, hp, hahead, (h p hahead.suppressed q).mp hqp⟩
  · intro h e
    induction e using law.acyclic.induction with
    | _ e ih =>
      intro he q
      by_cases hs : H.Struck E e
      · rw [struck hs, explains_struck hs]
      · have ht : H.Tainted E e := ⟨he, hs⟩
        rw [tainted ht]
        constructor
        · rintro ⟨p, hp, hahead, hq⟩
          exact .inherit ht hp ((ih p hp hahead.suppressed q).mp hq)
        · intro hq
          obtain ⟨p, hp, hahead, hqp⟩ := h e q ht hq
          exact ⟨p, hp, hahead, (ih p hp hahead.suppressed q).mpr hqp⟩

end

/-- The revokes an act is blamed on are those of the suppressed acts behind it. -/
theorem blamed_iff {q e : ι} (he : H.Tainted E e) : Blamed H E q e ↔
    ∃ a, TransGen (fun p c => H.parent p c ∧ H.Suppressed E p) a e ∧ Explains H E q a := by
  constructor
  · have hpath : ∀ {e}, Blamed H E q e → Explains H E q e ∨
        ∃ a, TransGen (fun p c => H.parent p c ∧ H.Suppressed E p) a e ∧ Explains H E q a := by
      intro e h
      induction h with
      | own hs hq => exact Or.inl (.own hs hq)
      | @inherit p e _ hp hb ih =>
        have hsup : H.Suppressed E p := by
          cases hb with
          | own hs _ => exact .struck hs
          | inherit hs _ _ => exact hs
        rcases ih with hq | ⟨a, ha, hq⟩
        · exact Or.inr ⟨p, .single ⟨hp, hsup⟩, hq⟩
        · exact Or.inr ⟨a, ha.tail ⟨hp, hsup⟩, hq⟩
    intro h
    rcases hpath h with hq | hpast
    · obtain ⟨p, hp, hq⟩ := (explains_tainted he).mp hq
      exact ⟨p, .single ⟨hp, hq.suppressed⟩, hq⟩
    · exact hpast
  · rintro ⟨a, ha, hq⟩
    have hdown : ∀ {e}, TransGen (fun p c => H.parent p c ∧ H.Suppressed E p) a e →
        H.Suppressed E e → Blamed H E q e := by
      intro e h
      induction h with
      | single hp => exact fun hs => .inherit hs hp.1 hq.blamed
      | tail _ hp ih => exact fun hs => .inherit hs hp.1 (ih hp.2)
    exact hdown ha he.1

end

/-- An own reason is never that of a descendant. -/
theorem ownReason_ne_ancestor {ι : Type u} {γ : Type v} (H : History ι γ) (E : Set ι) (e : ι) :
    ownReason H E e ≠ .revokedAncestor := by
  unfold ownReason
  split_ifs <;> simp

/-! ## One pass -/

/-- The parents of an event whose effects taint it, with what they pass on. -/
def Passes (effects : BTreeMap Effect) (q p : Hash) : Prop :=
  ∃ effect : Effect, effects[p]? = some effect ∧ effect.taints = true ∧
    q ∈ effect.controllingRevokes

/-- Pass `n + 1` of the loop after the visits of `before`. -/
structure Passing (cr : Crypto) (W : Candidates) (E : Set Hash) (start : BTreeMap Effect) (n : Nat)
    (before : List Hash) (effects : BTreeMap Effect) : Prop where
  tainting : Tainting cr W E start effects
  marked : ∀ e, Marked effects e ↔ (history cr W).Relinquishes e ∨
    (history cr W).Met E (· < ·) n e ∨ e ∈ before ∧ (history cr W).Met E (· < ·) (n + 1) e
  inherited : ∀ {e : Hash} {effect : Effect}, effects[e]? = some effect →
    effect.reason = .revokedAncestor → ∀ q, q ∈ effect.controllingRevokes ↔
      ∃ p, (history cr W).parent p e ∧ (history cr W).Ahead E (· < ·) p e ∧ Passes effects q p

theorem Tainting.passes_marked {cr : Crypto} {W : Candidates} {E : Set Hash}
    {start effects : BTreeMap Effect} (inv : Tainting cr W E start effects) {q p : Hash}
    (h : Passes effects q p) : Marked effects p ∧ ¬ (history cr W).Relinquishes p := by
  obtain ⟨effect, heffect, htaints, _⟩ := h
  simp only [Effect.taints, Bool.and_eq_true, decide_eq_true_eq] at htaints
  rw [← inv.relinquished heffect]
  exact ⟨⟨effect, heffect, htaints.1⟩, htaints.2⟩

namespace Branch
variable {cr : Crypto} {C W : Candidates} (branch : Branch cr C W)
variable {E : Set Hash} {start : BTreeMap Effect}
include branch

theorem inherited_union {effects : BTreeMap Effect} (inv : Tainting cr W E start effects)
    {e : Hash} {s : Signed} (hs : W[e]? = some s) :
    ∃ controls, inheritedControls effects s = some controls ∧
      ∀ q, q ∈ controls ↔ ∃ p ∈ parentsOf s, Passes effects q p := by
  refine foldlM_spec (fun before (controls : BTreeSet) => ∀ q, q ∈ controls ↔
    ∃ p ∈ before, Passes effects q p) (by simp) ?_
  intro before p after controls heq hcontrols
  have hp : p ∈ parentsOf s := by simp [heq]
  obtain ⟨effect, he⟩ := inv.get (branch.closed.parent hs hp)
  have hpass : ∀ q, Passes effects q p ↔
      effect.taints = true ∧ q ∈ effect.controllingRevokes := by simp [Passes, he]
  refine ⟨if effect.taints then controls ∪ effect.controllingRevokes else controls,
    by simp [he], fun q => ?_⟩
  have hsplit : (∃ p' ∈ before ++ [p], Passes effects q p') ↔
      q ∈ controls ∨ effect.taints = true ∧ q ∈ effect.controllingRevokes := by
    rw [hcontrols, ← hpass]
    simp [or_and_right, exists_or]
  rw [hsplit]
  cases effect.taints with
  | true => simp [Std.ExtTreeSet.mem_union_iff]
  | false => simp

end Branch

/-- The keys before `e` in the order of a visit are those below `e`. -/
theorem mem_before_iff {W : Candidates} {before after : List Hash} {e : Hash}
    (h : W.keys = before ++ e :: after) {x : Hash} (hx : x ∈ W) : x ∈ before ↔ x < e := by
  have hsorted : W.keys.Pairwise (· < ·) := by
    refine Std.ExtTreeMap.ordered_keys.imp fun h => ?_
    exact compareOfLessAndEq_eq_lt.mp h
  rw [h, List.pairwise_append, List.pairwise_cons] at hsorted
  obtain ⟨-, ⟨hafter, -⟩, hbefore⟩ := hsorted
  constructor
  · exact fun hmem => hbefore x hmem e List.mem_cons_self
  · intro hlt
    have hmem : x ∈ before ++ e :: after := h ▸ Std.ExtTreeMap.mem_keys.mpr hx
    rcases List.mem_append.mp hmem with hmem | hmem
    · exact hmem
    · rcases List.mem_cons.mp hmem with rfl | hmem
      · exact absurd hlt (BitVec.lt_irrefl x)
      · exact absurd (hafter x hmem) (BitVec.lt_asymm hlt)

namespace Passing
variable {cr : Crypto} {C W : Candidates} (branch : Branch cr C W)
variable {E : Set Hash} {start effects : BTreeMap Effect} {n : Nat}
include branch

/-- What is met when an event is marked is marked with it. -/
theorem ahead_marked {before after : List Hash} {e p x : Hash}
    (pass : Passing cr W E start n before effects) (hkeys : W.keys = before ++ e :: after)
    (hx : Marked effects x) (h : (history cr W).Ahead E (· < ·) p x) : Marked effects p := by
  have hp : p ∈ W := h.suppressed.mem branch.lawful
  have hxW : x ∈ W := h.tainted.1.mem branch.lawful
  obtain ⟨m, hm, hm', h⟩ := h
  rw [pass.marked] at hx ⊢
  by_cases hn : (history cr W).Met E (· < ·) n x
  · have hlt : m + 1 ≤ n := by
      by_contra hnot
      exact hm (hn.le (by omega))
    rcases h with h | ⟨_, h⟩
    · exact Or.inr (Or.inl (h.le (by omega)))
    · exact Or.inr (Or.inl (h.le hlt))
  · rcases hx with hrel | hmet | ⟨hbefore, hmet⟩
    · exact absurd hrel hm'.suppressed.not_relinquishes
    · exact absurd hmet hn
    · obtain rfl := History.met_once hm hm' hn hmet
      rcases h with h | ⟨hlt, h⟩
      · exact Or.inr (Or.inl h)
      · have hpe := BitVec.lt_trans hlt ((mem_before_iff hkeys hxW).mp hbefore)
        exact Or.inr (Or.inr ⟨(mem_before_iff hkeys hp).mpr hpe, h⟩)

omit branch in
/-- A marked act that is not a relinquishment is met. -/
theorem marked_iff_met {before after : List Hash} {e p : Hash}
    (pass : Passing cr W E start n before effects) (hkeys : W.keys = before ++ e :: after)
    (hp : p ∈ W) : Marked effects p ∧ ¬ (history cr W).Relinquishes p ↔
      (history cr W).Met E (· < ·) n p ∨ p < e ∧ (history cr W).Met E (· < ·) (n + 1) p := by
  rw [pass.marked, mem_before_iff hkeys hp]
  constructor
  · rintro ⟨hrel | h, hnot⟩
    · exact absurd hrel hnot
    · exact h
  · rintro (h | h)
    · exact ⟨Or.inr (Or.inl h), h.suppressed.not_relinquishes⟩
    · exact ⟨Or.inr (Or.inr h), h.2.suppressed.not_relinquishes⟩

/-- A visit that finds nothing to do. -/
theorem skip {before after : List Hash} {e : Hash}
    (pass : Passing cr W E start n before effects) (hkeys : W.keys = before ++ e :: after)
    (hidle : Marked effects e ∨ ¬ ∃ p, (history cr W).parent p e ∧ Marked effects p ∧
      ¬ (history cr W).Relinquishes p) : Passing cr W E start n (before ++ [e]) effects where
  tainting := pass.tainting
  inherited := pass.inherited
  marked x := by
    have hnew : x = e → (history cr W).Met E (· < ·) (n + 1) x → Marked effects x := by
      rintro rfl hmet
      rcases hidle with hmarked | hnone
      · exact hmarked
      rcases History.met_succ.mp hmet with h | ⟨_, p, hp, h⟩
      · exact (pass.marked x).mpr (Or.inr (Or.inl h))
      · have hpW := (branch.lawful.parent_mem hp).1
        exact absurd ⟨p, hp, (pass.marked_iff_met hkeys hpW).mpr h⟩ hnone
    rw [pass.marked, List.mem_append, List.mem_singleton] at *
    constructor
    · exact Or.imp_right (Or.imp_right (And.imp_left Or.inl))
    · rintro (h | h | ⟨h | h, hmet⟩)
      · exact Or.inl h
      · exact Or.inr (Or.inl h)
      · exact Or.inr (Or.inr ⟨h, hmet⟩)
      · exact hnew h hmet

/-- A visit that marks an event with what its marked parents pass on. -/
theorem work {before after : List Hash} {e : Hash} {controls : BTreeSet}
    (pass : Passing cr W E start n before effects) (hkeys : W.keys = before ++ e :: after)
    (hnew : ¬ Marked effects e)
    (hready : ∃ p, (history cr W).parent p e ∧ Marked effects p ∧
      ¬ (history cr W).Relinquishes p)
    (hcontrols : ∀ q, q ∈ controls ↔ ∃ p, (history cr W).parent p e ∧ Passes effects q p)
    (htainting : Tainting cr W E start (effects.insert e ⟨.revokedAncestor, controls⟩)) :
    Passing cr W E start n (before ++ [e]) (effects.insert e ⟨.revokedAncestor, controls⟩) := by
  have hrel : ¬ (history cr W).Relinquishes e := fun h => hnew ((pass.marked e).mpr (Or.inl h))
  have hn : ¬ (history cr W).Met E (· < ·) n e :=
    fun h => hnew ((pass.marked e).mpr (Or.inr (Or.inl h)))
  have hn' : (history cr W).Met E (· < ·) (n + 1) e := by
    obtain ⟨p, hp, hmarked⟩ := hready
    have hpW := (branch.lawful.parent_mem hp).1
    exact History.met_succ.mpr (Or.inr ⟨hrel, p, hp, (pass.marked_iff_met hkeys hpW).mp hmarked⟩)
  have hkeep : ∀ {q p}, p ≠ e → (Passes (effects.insert e ⟨.revokedAncestor, controls⟩) q p ↔
      Passes effects q p) := by
    intro q p hp
    simp only [Passes, getElem?_insert, if_neg (Ne.symm hp)]
  refine ⟨htainting, fun x => ?_, fun {x effect} hx hreason q => ?_⟩
  · have hmarked : Marked (effects.insert e ⟨.revokedAncestor, controls⟩) x ↔
        Marked effects x ∨ x = e := by
      by_cases hxe : e = x
      · subst hxe
        simp [Marked]
      · simp [Marked, getElem?_insert, hxe, Ne.symm hxe]
    rw [hmarked, pass.marked, List.mem_append, List.mem_singleton]
    constructor
    · rintro ((h | h | ⟨h, hmet⟩) | rfl)
      · exact Or.inl h
      · exact Or.inr (Or.inl h)
      · exact Or.inr (Or.inr ⟨Or.inl h, hmet⟩)
      · exact Or.inr (Or.inr ⟨Or.inr rfl, hn'⟩)
    · rintro (h | h | ⟨h | h, hmet⟩)
      · exact Or.inl (Or.inl h)
      · exact Or.inl (Or.inr (Or.inl h))
      · exact Or.inl (Or.inr (Or.inr ⟨h, hmet⟩))
      · exact Or.inr h
  · rw [getElem?_insert] at hx
    split at hx
    case isTrue heq =>
      subst heq
      obtain rfl := Option.some.inj hx
      rw [hcontrols]
      refine exists_congr fun p => ?_
      constructor
      · rintro ⟨hp, hpass⟩
        have hpW := (branch.lawful.parent_mem hp).1
        have hne : p ≠ e := fun heq => branch.lawful.before_irrefl e (TransGen.single (heq ▸ hp))
        have hmet := (pass.marked_iff_met hkeys hpW).mp (pass.tainting.passes_marked hpass)
        exact ⟨hp, (History.ahead_iff hn hn').mpr hmet, (hkeep hne).mpr hpass⟩
      · rintro ⟨hp, _, hpass⟩
        have hne : p ≠ e := fun heq => branch.lawful.before_irrefl e (TransGen.single (heq ▸ hp))
        exact ⟨hp, (hkeep hne).mp hpass⟩
    case isFalse hne =>
      rw [pass.inherited hx hreason]
      refine exists_congr fun p => and_congr_right fun _ => and_congr_right fun hahead => ?_
      refine (hkeep ?_).symm
      rintro rfl
      exact hnew (ahead_marked branch pass hkeys ⟨effect, hx, by simp [hreason]⟩ hahead)

/-- One visit of the loop. -/
theorem visit {before after : List Hash} {e : Hash} {s : Signed}
    (pass : Passing cr W E start n before effects) (hkeys : W.keys = before ++ e :: after)
    (hs : W[e]? = some s) (changed : Bool) :
    ∃ state, taintStep (effects, changed) (e, s) = some state ∧
      Passing cr W E start n (before ++ [e]) state.1 := by
  have hmem : (e, s) ∈ W.toList := Std.ExtTreeMap.mem_toList_iff_getElem?_eq_some.mpr hs
  by_cases hidle : Marked effects e ∨ ¬ ∃ p, (history cr W).parent p e ∧ Marked effects p ∧
      ¬ (history cr W).Relinquishes p
  · refine ⟨(effects, changed), ?_, skip branch pass hkeys hidle⟩
    refine branch.taint_flagged.skip effects changed (e, s) hmem pass.tainting ?_
    simpa only [parent_iff hs] using hidle
  rw [not_or, not_not] at hidle
  obtain ⟨hnew, hready⟩ := hidle
  obtain ⟨effect, heffect⟩ := pass.tainting.get (mem_of_getElem? hs)
  obtain ⟨controls, hrun, hcontrols⟩ := branch.inherited_union pass.tainting hs
  obtain ⟨effects', hstep, htainting, _⟩ := branch.taint_flagged.work effects changed (e, s) hmem
    pass.tainting hnew (by simpa only [parent_iff hs] using hready)
  obtain ⟨q, hq⟩ : ∃ q, q ∈ controls := by
    obtain ⟨p, hp, hmarked, hrel⟩ := hready
    obtain ⟨other, hother, hreason⟩ := hmarked
    obtain ⟨q, hq⟩ := pass.tainting.controls hother hreason
    rw [← pass.tainting.relinquished hother] at hrel
    exact ⟨q, (hcontrols q).mpr ⟨p, (parent_iff hs).mp hp, other, hother,
      by simp [Effect.taints, hreason, hrel], hq⟩⟩
  have hreason : effect.reason = .none := by
    by_contra h
    exact hnew ⟨effect, heffect, h⟩
  have hempty : controls.isEmpty = false := isEmpty_eq_false.mpr ⟨q, hq⟩
  have hvisit : taintStep (effects, changed) (e, s) =
      some (effects.insert e ⟨.revokedAncestor, controls⟩, true) := by
    simp only [taintStep, heffect, hrun, Option.bind_eq_bind, Option.bind_some, hreason, hempty,
      ne_eq, not_true_eq_false, Bool.false_eq_true, if_false, Option.pure_def]
  obtain ⟨rfl, -⟩ := Prod.mk.inj (Option.some.inj (hvisit.symm.trans hstep))
  refine ⟨_, hvisit, work branch pass hkeys hnew hready (fun q => ?_) htainting⟩
  rw [hcontrols]
  simp only [parent_iff hs]

/-- One pass of the loop. -/
theorem sweep (pass : Passing cr W E start n [] effects) :
    ∃ state, W.toList.foldlM taintStep (effects, false) = some state ∧
      Passing cr W E start (n + 1) [] state.1 := by
  obtain ⟨state, hrun, hstate⟩ := @foldlM_spec _ _ taintStep
    (fun before state => Passing cr W E start n (before.map Prod.fst) state.1) W.toList
    (effects, false) pass (by
      rintro before ⟨e, s⟩ after ⟨effects, changed⟩ heq hpass
      have hs : W[e]? = some s :=
        Std.ExtTreeMap.mem_toList_iff_getElem?_eq_some.mp (by simp [heq])
      have hkeys : W.keys = before.map Prod.fst ++ e :: after.map Prod.fst := by
        rw [← Std.ExtTreeMap.map_fst_toList_eq_keys, heq, List.map_append, List.map_cons]
      rw [List.map_append]
      exact visit branch hpass hkeys hs changed)
  refine ⟨state, hrun, hstate.tainting, fun e => ?_, hstate.inherited⟩
  rw [hstate.marked, Std.ExtTreeMap.map_fst_toList_eq_keys, Std.ExtTreeMap.mem_keys]
  refine or_congr_right ?_
  constructor
  · rintro (h | ⟨_, h⟩)
    · exact Or.inl (.keep h)
    · exact Or.inl h
  · rintro (h | ⟨h, _⟩)
    · exact Or.inr ⟨h.suppressed.mem branch.lawful, h⟩
    · exact absurd h List.not_mem_nil

/-- Before the first pass. -/
theorem start_spec (begin : Owns cr W E start) : Passing cr W E start 0 [] start where
  tainting := ⟨begin, begin.mem, Or.inl⟩
  marked e := by
    rw [History.met_zero]
    constructor
    · rintro ⟨effect, heffect, hreason⟩
      have he := (begin.mem e).mp (mem_of_getElem? heffect)
      rw [(begin.own heffect).reason, Ne, ownReason_none branch.lawful he] at hreason
      by_cases hrel : (history cr W).Relinquishes e
      · exact Or.inl hrel
      · exact Or.inr (Or.inl (not_not.mp fun h => hreason ⟨hrel, h⟩))
    · intro h
      have he : e ∈ W := by
        rcases h with h | h | ⟨h, _⟩
        · exact h.revokes.mem branch.lawful
        · exact h.1
        · exact absurd h List.not_mem_nil
      obtain ⟨effect, heffect⟩ := mem_iff.mp ((begin.mem e).mpr he)
      refine ⟨effect, heffect, ?_⟩
      rw [(begin.own heffect).reason, Ne, ownReason_none branch.lawful he]
      rintro ⟨hrel, hstruck⟩
      rcases h with h | h | ⟨h, _⟩
      · exact hrel h
      · exact hstruck h
      · exact absurd h List.not_mem_nil
  inherited {e effect} heffect hreason := by
    rw [(begin.own heffect).reason] at hreason
    exact absurd hreason (ownReason_ne_ancestor _ _ _)

/-- The whole loop. -/
theorem taint_inherited {out : BTreeMap Effect} (begin : Owns cr W E start)
    (h : taint W start = some out) : ∃ n, Passing cr W E start n [] out := by
  obtain ⟨state, hrun, hout⟩ := Option.bind_eq_some_iff.mp h
  obtain rfl := Option.some.inj hout
  refine loopWhile_inv (fun state : BTreeMap Effect × Bool =>
    ∃ n, Passing cr W E start n [] state.1) ?_ hrun ⟨0, start_spec branch begin⟩
  rintro ⟨effects, changed⟩ state ⟨n, pass⟩ hsweep
  obtain ⟨state', hrun', pass'⟩ := sweep branch pass
  obtain rfl := Option.some.inj (hsweep.symm.trans hrun')
  exact ⟨n + 1, pass'⟩

end Passing

/-! ## The explanations of an authority -/

namespace Authority
variable (A : Authority)

/-- The reason of `e` is not empty, and it is not `root_relinquished`. -/
def Suppresses (e : Hash) : Prop := ∃ effect, A.effects[e]? = some effect ∧ effect.taints = true

/-- The reason of `e` is `revoked_ancestor`. -/
def Inherits (e : Hash) : Prop :=
  ∃ effect, A.effects[e]? = some effect ∧ effect.reason = .revokedAncestor

/-- `controlling_revokes` of `e`. -/
def controls (e : Hash) : Set Hash :=
  {q | ∃ effect, A.effects[e]? = some effect ∧ q ∈ effect.controllingRevokes}

/-- A tainted event reports what its suppressed parents report. -/
def ReportsParents (cr : Crypto) (W : Candidates) : Prop := ∀ e, A.Inherits e → ∀ q,
  q ∈ A.controls e ↔ ∃ p, (history cr W).parent p e ∧ A.Suppresses p ∧ q ∈ A.controls p

/-- A tainted event reports what all suppressed ancestors report from which suppressed events
lead to it. -/
def ReportsAncestors (cr : Crypto) (W : Candidates) : Prop := ∀ e, A.Inherits e → ∀ q,
  q ∈ A.controls e ↔ ∃ a, TransGen (fun p c => (history cr W).parent p c ∧ A.Suppresses p) a e ∧
    q ∈ A.controls a

end Authority

namespace Authority.Reads
variable {cr : Crypto} {C W : Candidates} {A : Authority} (reads : A.Reads cr W)
variable (branch : Branch cr C W)
include reads branch

theorem suppresses_iff {e : Hash} :
    A.Suppresses e ↔ (history cr W).Suppressed A.revokes e := by
  have htaints : ∀ effect : Effect, effect.taints = true ↔
      effect.reason ≠ .none ∧ effect.reason ≠ .rootRelinquished := by simp [Effect.taints]
  constructor
  · rintro ⟨effect, heffect, h⟩
    have he := (reads.effects e).mp (mem_of_getElem? heffect)
    rw [htaints, reads.reason heffect, reasonOf_suppressed branch.lawful he] at h
    exact h
  · intro h
    have he : e ∈ W := h.mem branch.lawful
    obtain ⟨effect, heffect, hreason⟩ := reads.effect he
    refine ⟨effect, heffect, ?_⟩
    rw [htaints, hreason, reasonOf_suppressed branch.lawful he]
    exact h

theorem inherits_iff {e : Hash} : A.Inherits e ↔ (history cr W).Tainted A.revokes e := by
  have hreason : e ∈ W → (reasonOf (history cr W) A.revokes e = .revokedAncestor ↔
      (history cr W).Tainted A.revokes e) := by
    intro he
    rw [History.Tainted, History.suppressed_iff, reasonOf]
    split_ifs with h
    · obtain ⟨hrel, hstruck⟩ := (ownReason_none branch.lawful he).mp h.1
      exact iff_of_true rfl ⟨Or.inr ⟨hrel, h.2⟩, hstruck⟩
    · refine iff_of_false (ownReason_ne_ancestor _ _ _) ?_
      rintro ⟨hs | ⟨hrel, hp⟩, hstruck⟩
      · exact hstruck hs
      · exact h ⟨(ownReason_none branch.lawful he).mpr ⟨hrel, hstruck⟩, hp⟩
  constructor
  · rintro ⟨effect, heffect, h⟩
    rw [reads.reason heffect] at h
    exact (hreason ((reads.effects e).mp (mem_of_getElem? heffect))).mp h
  · intro h
    have he : e ∈ W := h.1.mem branch.lawful
    obtain ⟨effect, heffect, heq⟩ := reads.effect he
    exact ⟨effect, heffect, heq.trans ((hreason he).mpr h)⟩

theorem controls_struck {e : Hash} (h : (history cr W).Struck A.revokes e) (q : Hash) :
    q ∈ A.controls e ↔ q ∈ controllers (history cr W) A.revokes e := by
  obtain ⟨start, htaint, begin⟩ := reads.tainted
  obtain ⟨n, pass⟩ := Passing.taint_inherited branch begin htaint
  obtain ⟨effect, heffect, _⟩ := reads.effect h.1
  have hcontrols : q ∈ A.controls e ↔ q ∈ effect.controllingRevokes := by simp [controls, heffect]
  rcases pass.tainting.entry heffect with hstart | ⟨hnone, _⟩
  · rw [hcontrols, (begin.own hstart).controls]
  · exact absurd h ((ownReason_none branch.lawful h.1).mp hnone).2

theorem controls_tainted {e : Hash} (h : (history cr W).Tainted A.revokes e) (q : Hash) :
    q ∈ A.controls e ↔ ∃ p, (history cr W).parent p e ∧
      (history cr W).Ahead A.revokes (· < ·) p e ∧ q ∈ A.controls p := by
  obtain ⟨start, htaint, begin⟩ := reads.tainted
  obtain ⟨n, pass⟩ := Passing.taint_inherited branch begin htaint
  obtain ⟨effect, heffect, hreason⟩ := (inherits_iff reads branch).mpr h
  have hcontrols : q ∈ A.controls e ↔ q ∈ effect.controllingRevokes := by simp [controls, heffect]
  rw [hcontrols, pass.inherited heffect hreason]
  refine exists_congr fun p => and_congr_right fun _ => and_congr_right fun hahead => ?_
  constructor
  · rintro ⟨other, hother, _, hq⟩
    exact ⟨other, hother, hq⟩
  · rintro ⟨other, hother, hq⟩
    obtain ⟨other', hother', htaints⟩ := (suppresses_iff reads branch).mpr hahead.suppressed
    obtain rfl := Option.some.inj (hother.symm.trans hother')
    exact ⟨other, hother, htaints, hq⟩

theorem reportsParents_iff : A.ReportsParents cr W ↔ Exact (history cr W) A.revokes A.controls := by
  simp only [ReportsParents, inherits_iff reads branch, suppresses_iff reads branch]
  constructor
  · exact exact_of_union branch.lawful (fun h => controls_struck reads branch h)
  · exact fun h e he q => h.union he q

theorem reportsAncestors_iff (h : Exact (history cr W) A.revokes A.controls) :
    A.ReportsAncestors cr W ↔ ∀ e q, (history cr W).Tainted A.revokes e →
      Blamed (history cr W) A.revokes q e → Explains (history cr W) A.revokes q e := by
  have hpath : ∀ {e : Hash} (q : Hash), (history cr W).Tainted A.revokes e →
      ((∃ a, TransGen (fun p c => (history cr W).parent p c ∧
        (history cr W).Suppressed A.revokes p) a e ∧ q ∈ A.controls a) ↔
      Blamed (history cr W) A.revokes q e) := by
    intro e q he
    rw [blamed_iff he]
    refine exists_congr fun a => and_congr_right fun ha => h a ?_ q
    cases TransGen.head'_iff.mp ha with
    | intro b hb => exact hb.1.2
  simp only [ReportsAncestors, inherits_iff reads branch, suppresses_iff reads branch]
  constructor
  · intro hall e q he hq
    exact (h e he.1 q).mp ((hall e he q).mpr ((hpath q he).mpr hq))
  · intro hall e he q
    rw [hpath q he, h e he.1]
    exact ⟨Explains.blamed, hall e q he⟩

end Authority.Reads

/-- The loop explains every tainted event of a causally closed set of valid events exactly
when each revoke that explains one comes through a parent that is met before it. The set is
then the one the history determines, whatever the ids. -/
theorem explanations_iff (cr : Crypto) (C : Candidates) (free : CollisionFree cr C)
    {out : BTreeMap Status} (hout : classify cr C = some out) {W : Candidates}
    (within : Within W (validOf C out)) (closed : Closed W) :
    ∃ A E, derive cr W = some A ∧ (∀ F, (history cr W).SelfConsistent F ↔ F = E) ∧
      (A.ReportsParents cr W ↔ ∀ e q, (history cr W).Tainted E e →
        Explains (history cr W) E q e → ∃ p, (history cr W).parent p e ∧
          (history cr W).Ahead E (· < ·) p e ∧ Explains (history cr W) E q p) ∧
      (A.ReportsParents cr W ∧ A.ReportsAncestors cr W ↔ ∀ e q, (history cr W).Tainted E e →
        Blamed (history cr W) E q e → ∃ p, (history cr W).parent p e ∧
          (history cr W).Ahead E (· < ·) p e ∧ Explains (history cr W) E q p) ∧
      (A.ReportsParents cr W → ∀ e, A.Inherits e → ∀ q,
        q ∈ A.controls e ↔ Explains (history cr W) E q e) := by
  obtain ⟨_, s, hrun, verdicts⟩ := classify_spec free
  obtain rfl := Option.some.inj (hout.symm.trans hrun)
  have branch : Branch cr C W := verdicts.branch.mono within closed
  obtain ⟨A, hA, reads⟩ := branch.derive_spec
  have hexact := exact_iff branch.lawful (fun h => reads.controls_struck branch h)
    (fun h => reads.controls_tainted branch h)
  have hparents := reads.reportsParents_iff branch
  refine ⟨A, A.revokes, hA, fun F => ?_, hparents.trans hexact, ?_, fun h e he q => ?_⟩
  · rw [History.selfConsistent_iff]
    exact ⟨fun hF => branch.lawful.effective_unique hF reads.effective,
      fun heq => heq ▸ reads.effective⟩
  · constructor
    · rintro ⟨hp, ha⟩ e q he hq
      have h := hparents.mp hp
      exact hexact.mp h e q he ((reads.reportsAncestors_iff branch h).mp ha e q he hq)
    · intro hall
      have h := hexact.mpr fun e q he hq => hall e q he hq.blamed
      refine ⟨hparents.mpr h, (reads.reportsAncestors_iff branch h).mpr fun e q he hq => ?_⟩
      obtain ⟨p, hp, _, hqp⟩ := hall e q he hq
      exact .inherit he hp hqp
  · exact hparents.mp h e ((reads.inherits_iff branch).mp he).1 q

/-- Two corrections of one delegate are revoked apart. The resolution `5` joins the first
with a correction `6` of the second, and bears the smaller id. -/
def joined : Candidates := Sample.candidates
  [(1, Sample.genesis Sample.alice 7), (2, Sample.delegate Sample.alice Sample.root 1 Sample.bob),
   (3, Sample.correction Sample.bob 2 2 7 8), (4, Sample.correction Sample.bob 2 2 7 9),
   (5, Sample.act Sample.alice Sample.root [3, 6] (.resolve (.mergedBody 11)
     [⟨3, .merged, "kept"⟩, ⟨6, .merged, "kept"⟩]
     (Sample.decision .resolve [3, 6] (.heads [3, 6]) (.body 11)))),
   (6, Sample.correction Sample.alice Sample.root 4 9 10),
   (7, Sample.revoke Sample.alice Sample.root 4 2 false),
   (8, Sample.revoke Sample.alice Sample.root 3 2 false)]

theorem joined_run : CollisionFree Sample.crypto joined ∧ ∃ out A,
    classify Sample.crypto joined = some out ∧ Within joined (validOf joined out) ∧
    Closed joined ∧ derive Sample.crypto joined = some A ∧
    A.Inherits 5 ∧ A.Suppresses 6 ∧ (8 : Hash) ∈ A.controls 6 ∧ (8 : Hash) ∉ A.controls 5 := by
  have h : CollisionFree Sample.crypto joined ∧ (do
    let out ← classify Sample.crypto joined
    let A ← derive Sample.crypto joined
    let five ← A.effects[(5 : Hash)]?
    let six ← A.effects[(6 : Hash)]?
    return joined.toList.all (fun item => isSubject item.2 &&
        (out[item.1]?).any fun st => st.state = .valid) &&
      joined.toList.all (fun item => (parentsOf item.2).all joined.contains) &&
      decide (five.reason = .revokedAncestor) && six.taints &&
      six.controllingRevokes.contains 8 && !five.controllingRevokes.contains 8) = some true := by
    decide +kernel
  obtain ⟨free, h⟩ := h
  obtain ⟨out, hout, h⟩ := Option.bind_eq_some_iff.mp h
  obtain ⟨A, hA, h⟩ := Option.bind_eq_some_iff.mp h
  obtain ⟨five, hfive, h⟩ := Option.bind_eq_some_iff.mp h
  obtain ⟨six, hsix, h⟩ := Option.bind_eq_some_iff.mp h
  simp only [Option.pure_def, Option.some.injEq, Bool.and_eq_true, List.all_eq_true,
    decide_eq_true_eq, Bool.not_eq_true', Std.ExtTreeSet.contains_iff_mem,
    set_contains_eq_false, contains_iff] at h
  obtain ⟨⟨⟨⟨⟨hvalid, hclosed⟩, hreason⟩, htaints⟩, hmem⟩, hnot⟩ := h
  refine ⟨free, out, A, hout, ⟨fun {e s} hs => ?_⟩, ⟨fun {e p s} hs hp => ?_⟩, hA,
    ⟨five, hfive, hreason⟩, ⟨six, hsix, htaints⟩, ⟨six, hsix, hmem⟩, ?_⟩
  · obtain ⟨hsubject, hstate⟩ :=
      hvalid (e, s) (Std.ExtTreeMap.mem_toList_iff_getElem?_eq_some.mpr hs)
    exact validOf_get.mpr ⟨hs, hsubject, by simpa [Option.any_eq_true] using hstate⟩
  · exact hclosed (e, s) (Std.ExtTreeMap.mem_toList_iff_getElem?_eq_some.mpr hs) p hp
  · rintro ⟨five', hfive', h⟩
    obtain rfl := Option.some.inj (hfive.symm.trans hfive')
    exact hnot h

/-- The resolution is tainted by the correction `6` and does not report its revoke `8`. -/
theorem second_revoke_lost : CollisionFree Sample.crypto joined ∧ ∃ out A,
    classify Sample.crypto joined = some out ∧ Within joined (validOf joined out) ∧
    Closed joined ∧ derive Sample.crypto joined = some A ∧
    ¬ A.ReportsParents Sample.crypto joined := by
  obtain ⟨free, out, A, hout, within, closed, hA, hinherits, hsuppresses, hmem, hnot⟩ := joined_run
  refine ⟨free, out, A, hout, within, closed, hA, fun h => ?_⟩
  have hparent : (joined[(5 : Hash)]?).any fun s => (parentsOf s).contains 6 := by decide
  obtain ⟨s, hs, hp⟩ := Option.any_eq_true _ _ |>.mp hparent
  exact hnot ((h 5 hinherits 8).mpr
    ⟨6, ⟨s, hs, by simpa using hp⟩, hsuppresses, hmem⟩)

theorem explanations_iff_joined : ∃ A E, derive Sample.crypto joined = some A ∧
    (∀ F, (history Sample.crypto joined).SelfConsistent F ↔ F = E) ∧
    (A.ReportsParents Sample.crypto joined ↔ ∀ e q, (history Sample.crypto joined).Tainted E e →
      Explains (history Sample.crypto joined) E q e → ∃ p,
        (history Sample.crypto joined).parent p e ∧
        (history Sample.crypto joined).Ahead E (· < ·) p e ∧
        Explains (history Sample.crypto joined) E q p) := by
  obtain ⟨free, out, _, hout, within, closed, _⟩ := joined_run
  obtain ⟨A, E, hA, hE, hparents, _⟩ :=
    explanations_iff Sample.crypto joined free hout within closed
  exact ⟨A, E, hA, hE, hparents⟩

end Clockchain.V1
