import Clockchain.Maps
import Mathlib.Data.List.MinMax
import Mathlib.Order.Basic

/-!
# Survivors

Many claims, one row: of all that claim a key the least one survives. What survives is a
function of the set of claims, and taking one more claim into account is one comparison
with the sitting row.
-/

namespace Survivors
open Std (ExtTreeMap TransCmp LawfulEqCmp)
set_option autoImplicit false

universe u v w
variable {ρ : Type u} {β : Type v} [LinearOrder β] {ord : ρ → β} {S : Set ρ} {r r' : ρ}

/-- `r` is a least element of `S`. -/
def Survivor (ord : ρ → β) (S : Set ρ) (r : ρ) : Prop := r ∈ S ∧ ∀ r' ∈ S, ord r ≤ ord r'

theorem exists_survivor [WellFoundedLT β] (h : S.Nonempty) : ∃ r, Survivor ord S r := by
  obtain ⟨r, hr, hmin⟩ := (InvImage.wf ord wellFounded_lt).has_min S h
  exact ⟨r, hr, fun r' hr' => not_lt.mp (hmin r' hr')⟩

theorem Survivor.unique (hinj : Set.InjOn ord S) (h : Survivor ord S r) (h' : Survivor ord S r') :
    r = r' :=
  hinj h.1 h'.1 (le_antisymm (h.2 r' h'.1) (h'.2 r h.1))

theorem survivor_singleton : Survivor ord {r} r :=
  ⟨Set.mem_singleton r, fun _ h => h ▸ le_rfl⟩

theorem Survivor.keeps (h : Survivor ord S r) (hle : ord r ≤ ord r') :
    Survivor ord (insert r' S) r := by
  refine ⟨Set.mem_insert_of_mem r' h.1, fun x hx => ?_⟩
  rcases Set.mem_insert_iff.mp hx with rfl | hx
  · exact hle
  · exact h.2 x hx

theorem Survivor.yields (h : Survivor ord S r) (hlt : ord r' < ord r) :
    Survivor ord (insert r' S) r' := by
  refine ⟨Set.mem_insert r' S, fun x hx => ?_⟩
  rcases Set.mem_insert_iff.mp hx with rfl | hx
  · exact le_rfl
  · exact hlt.le.trans (h.2 x hx)

/-- The first of the least entries of a list. -/
theorem argmin_eq_some {l : List ρ} (hinj : Set.InjOn ord {x | x ∈ l}) :
    l.argmin ord = some r ↔ Survivor ord {x | x ∈ l} r := by
  constructor
  · intro h
    exact ⟨List.argmin_mem h, fun x hx => List.le_of_mem_argmin hx h⟩
  · intro h
    cases hmin : l.argmin ord with
    | none =>
      rw [List.argmin_eq_none] at hmin
      simp [hmin, Survivor] at h
    | some x =>
      have hx : Survivor ord {x | x ∈ l} x :=
        ⟨List.argmin_mem hmin, fun y hy => List.le_of_mem_argmin hy hmin⟩
      rw [hx.unique hinj h]

/-! ## Tables of survivors -/

variable {κ : Type w} {cmp : κ → κ → Ordering} [TransCmp cmp] [LawfulEqCmp cmp]
  {claims claims' : κ → Set ρ} {m : ExtTreeMap κ ρ cmp}

/-- Every key holds the survivor of its claims. -/
def Holds (ord : ρ → β) (claims : κ → Set ρ) (m : ExtTreeMap κ ρ cmp) : Prop :=
  ∀ k r, m[k]? = some r ↔ Survivor ord (claims k) r

theorem Holds.unique {m' : ExtTreeMap κ ρ cmp} (h : Holds ord claims m)
    (h' : Holds ord claims m') : m = m' :=
  Maps.ext_graph fun k r => (h k r).trans (h' k r).symm

variable {k : κ}

omit [LawfulEqCmp cmp] in
theorem Holds.eq_empty [WellFoundedLT β] (h : Holds ord claims m) (hnone : m[k]? = none) :
    claims k = ∅ := by
  rw [Set.eq_empty_iff_forall_notMem]
  intro r hr
  obtain ⟨r', hr'⟩ := @exists_survivor _ _ _ ord _ _ ⟨r, hr⟩
  rw [← h k r', hnone] at hr'
  cases hr'

/-- A claim on a key no row sits at. -/
theorem Holds.takes [WellFoundedLT β] (h : Holds ord claims m)
    (hsame : ∀ a, a ≠ k → claims' a = claims a)
    (hk : claims' k = insert r (claims k)) (hinj : Set.InjOn ord (claims' k))
    (hnone : m[k]? = none) : Holds ord claims' (m.insert k r) := by
  classical
  intro a x
  rw [Maps.getElem?_insert]
  split
  · next heq =>
    subst heq
    have hr : Survivor ord (claims' k) r := by
      rw [hk, h.eq_empty hnone]
      simpa using survivor_singleton
    exact ⟨fun hx => Option.some.inj hx ▸ hr, fun hx => congrArg some (hr.unique hinj hx)⟩
  · next hne => rw [hsame a (Ne.symm hne), h a x]

/-- A claim that beats the sitting row. -/
theorem Holds.replaces (h : Holds ord claims m) (hsame : ∀ a, a ≠ k → claims' a = claims a)
    (hk : claims' k = insert r (claims k)) (hinj : Set.InjOn ord (claims' k))
    (hsits : m[k]? = some r') (hlt : ord r < ord r') : Holds ord claims' (m.insert k r) := by
  classical
  intro a x
  rw [Maps.getElem?_insert]
  split
  · next heq =>
    subst heq
    have hr : Survivor ord (claims' k) r := by
      rw [hk]
      exact ((h k r').mp hsits).yields hlt
    exact ⟨fun hx => Option.some.inj hx ▸ hr, fun hx => congrArg some (hr.unique hinj hx)⟩
  · next hne => rw [hsame a (Ne.symm hne), h a x]

omit [LawfulEqCmp cmp] in
theorem Holds.retains (h : Holds ord claims m) (hsame : ∀ a, a ≠ k → claims' a = claims a)
    (hk : claims' k = insert r (claims k)) (hinj : Set.InjOn ord (claims' k))
    (hsits : m[k]? = some r') (hle : ord r' ≤ ord r) : Holds ord claims' m := by
  intro a x
  by_cases ha : a = k
  · subst ha
    have hr : Survivor ord (claims' a) r' := by
      rw [hk]
      exact ((h a r').mp hsits).keeps hle
    rw [hsits]
    exact ⟨fun hx => Option.some.inj hx ▸ hr, fun hx => congrArg some (hr.unique hinj hx)⟩
  · rw [hsame a ha, h a x]

/-! ## Claims made by members of a set -/

variable {γ : Type*} {claim : γ → Option (κ × ρ)} {A : Set γ} {s : γ}

/-- What the members of `A` claim for a key. -/
def claimed (claim : γ → Option (κ × ρ)) (A : Set γ) (k : κ) : Set ρ :=
  {r | ∃ s ∈ A, claim s = some (k, r)}

omit [LawfulEqCmp cmp] in
/-- A claim is before the sitting row exactly when no other claim is before it. -/
theorem Holds.before_iff [WellFoundedLT β] {P : ρ → Prop} (h : Holds ord (claimed claim A) m)
    (hothers : ∀ c ∈ A, ∀ x, claim c = some (k, x) → P x ∧ ord x ≠ ord r) :
    (∀ x, m[k]? = some x → P x ∧ ord r < ord x) ↔
      ∀ c ∈ A, ∀ x, claim c = some (k, x) → ¬ ord x < ord r := by
  constructor
  · intro hall c hc x hx hlt
    have hclaims : (claimed claim A k).Nonempty := ⟨x, c, hc, hx⟩
    obtain ⟨y, hy⟩ := @exists_survivor _ _ _ ord _ _ hclaims
    exact absurd (hall y ((h k y).mpr hy)).2 (not_lt.mpr ((hy.2 x ⟨c, hc, hx⟩).trans hlt.le))
  · intro hall x hx
    obtain ⟨c, hc, hclaim⟩ := ((h k x).mp hx).1
    obtain ⟨hP, hne⟩ := hothers c hc x hclaim
    exact ⟨hP, lt_of_le_of_ne (not_lt.mp (hall c hc x hclaim)) hne.symm⟩

theorem claimed_none (h : claim s = none) : claimed claim (insert s A) = claimed claim A := by
  funext k
  ext r
  simp [claimed, h]

theorem claimed_self (h : claim s = some (k, r)) :
    claimed claim (insert s A) k = insert r (claimed claim A k) := by
  ext x
  simp [claimed, h, eq_comm]

theorem claimed_other (h : claim s = some (k, r)) {a : κ} (ha : a ≠ k) :
    claimed claim (insert s A) a = claimed claim A a := by
  ext x
  simp [claimed, h, Ne.symm ha]

section Step
variable {m' : ExtTreeMap κ ρ cmp} (h : Holds ord (claimed claim A) m)
  (h' : Holds ord (claimed claim (insert s A)) m')
include h h'

omit [LawfulEqCmp cmp] in
/-- After one more claim a key holds what it held, or the new claim. -/
theorem Holds.held_or_claimed (hr : m'[k]? = some r) : m[k]? = some r ∨ claim s = some (k, r) := by
  obtain ⟨⟨s', hs' | hs', hclaim⟩, hmin⟩ := (h' k r).mp hr
  · exact Or.inr (hs' ▸ hclaim)
  · refine Or.inl ((h k r).mpr ⟨⟨s', hs', hclaim⟩, fun x hx => hmin x ?_⟩)
    obtain ⟨s'', hs'', hx⟩ := hx
    exact ⟨s'', Set.mem_insert_of_mem s hs'', hx⟩

omit [LawfulEqCmp cmp] in
/-- A key that holds a row holds one after every further claim. -/
theorem Holds.still_held [WellFoundedLT β] (hr : m[k]? = some r) : ∃ r', m'[k]? = some r' := by
  obtain ⟨⟨s', hs', hclaim⟩, _⟩ := (h k r).mp hr
  obtain ⟨r', hr'⟩ := @exists_survivor _ _ _ ord
    (claimed claim (insert s A) k) _ ⟨r, s', Set.mem_insert_of_mem s hs', hclaim⟩
  exact ⟨r', (h' k r').mpr hr'⟩

omit [LawfulEqCmp cmp] in
/-- A key the claim is not for holds what it held. -/
theorem Holds.unclaimed [WellFoundedLT β] (hno : ∀ r, claim s ≠ some (k, r)) : m'[k]? = m[k]? := by
  cases hr' : m'[k]? with
  | some r' => exact ((h.held_or_claimed h' hr').resolve_right (hno r')).symm
  | none =>
    cases hr : m[k]? with
    | none => rfl
    | some r =>
      obtain ⟨r', hheld⟩ := h.still_held h' hr
      simp [hr'] at hheld

omit [LawfulEqCmp cmp] in
/-- A key keeps what it held, or takes the claim and held nothing before it. -/
theorem Holds.kept_or_claimed [WellFoundedLT β] : m'[k]? = m[k]? ∨ ∃ r', claim s = some (k, r') ∧
    m'[k]? = some r' ∧ ∀ r, m[k]? = some r → ord r' ≤ ord r := by
  by_cases hno : ∀ r, claim s ≠ some (k, r)
  · exact Or.inl (h.unclaimed h' hno)
  · rw [not_forall] at hno
    obtain ⟨r₁, hclaim⟩ := hno
    rw [not_not] at hclaim
    obtain ⟨r', hr'⟩ := @exists_survivor _ _ _ ord (claimed claim (insert s A) k) _
      ⟨r₁, s, Set.mem_insert s A, hclaim⟩
    have hheld := (h' k r').mpr hr'
    rcases h.held_or_claimed h' hheld with hsame | hnew
    · exact Or.inl (hheld.trans hsame.symm)
    · refine Or.inr ⟨r', hnew, hheld, fun r hr => hr'.2 r ?_⟩
      obtain ⟨⟨s', hs', hclaim'⟩, _⟩ := (h k r).mp hr
      exact ⟨s', Set.mem_insert_of_mem s hs', hclaim'⟩

omit [LawfulEqCmp cmp] in
/-- A claim that comes before the sitting row takes the key. -/
theorem Holds.wins (hclaim : claim s = some (k, r))
    (hbefore : claimed claim A k = ∅ ∨ ∃ x, m[k]? = some x ∧ ord r < ord x) : m'[k]? = some r := by
  refine (h' k r).mpr ?_
  rw [claimed_self hclaim]
  rcases hbefore with hnone | ⟨x, hx, hlt⟩
  · rw [hnone]
    simpa using survivor_singleton
  · exact ((h k x).mp hx).yields hlt

omit [LawfulEqCmp cmp] in
/-- A claim that does not come before the sitting row leaves it. -/
theorem Holds.sits {x : ρ} (hclaim : claim s = some (k, r)) (hx : m[k]? = some x)
    (hle : ord x ≤ ord r) : m'[k]? = some x := by
  refine (h' k x).mpr ?_
  rw [claimed_self hclaim]
  exact ((h k x).mp hx).keeps hle

end Step

omit [LinearOrder β] in
/-- Claims whose order names the claimant. -/
theorem injOn_claimed (hclaim : ∀ s ∈ A, ∀ s' ∈ A, ∀ r r', claim s = some (k, r) →
    claim s' = some (k, r') → ord r = ord r' → s = s') : Set.InjOn ord (claimed claim A k) := by
  rintro r ⟨s, hs, hr⟩ r' ⟨s', hs', hr'⟩ heq
  obtain rfl := hclaim s hs s' hs' r r' hr hr' heq
  rw [hr] at hr'
  exact (Prod.mk.inj (Option.some.inj hr')).2

end Survivors
