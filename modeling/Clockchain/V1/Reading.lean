import Clockchain.V1.EdgeClassification
import Clockchain.V1.Projection

/-!
# Reading heads

The maps of pasts that a projection works with read ancestry, and what it says of an
event among its heads depends only on the set of heads and their common past.
-/

namespace Clockchain.V1
open Relation Maps Programs
set_option autoImplicit false

theorem not_before_self {H : History Hash Hash} {e : Hash} (h : Acc H.parent e) :
    ¬ H.Before e e := by
  intro hbefore
  have hacc : Acc H.Before e := h.transGen
  induction hacc with
  | intro e _ ih => exact ih e hbefore h hbefore

/-- `ancestors` holds the reflexive past of each event of `D`. -/
structure Pasts (H : History Hash Hash) (D : Set Hash) (ancestors : BTreeMap BTreeSet) : Prop where
  mem : ∀ e, e ∈ ancestors ↔ e ∈ D
  get : ∀ {e : Hash} {past : BTreeSet}, ancestors[e]? = some past → ∀ a, a ∈ past ↔ H.Anc a e
  irrefl : ∀ e ∈ D, ¬ H.Before e e

namespace Pasts
variable {H : History Hash Hash} {D : Set Hash} {ancestors : BTreeMap BTreeSet}
variable (pasts : Pasts H D ancestors)
include pasts

theorem past {e : Hash} (he : e ∈ D) :
    ∃ past, ancestors[e]? = some past ∧ ∀ a, a ∈ past ↔ H.Anc a e := by
  obtain ⟨past, hpast⟩ := mem_iff.mp ((pasts.mem e).mpr he)
  exact ⟨past, hpast, pasts.get hpast⟩

theorem strictPast_spec {ids : List Hash} (hids : ∀ e ∈ ids, e ∈ D) :
    ∃ t, strictPast ancestors ids = some t ∧ ∀ a, a ∈ t ↔ ∃ e ∈ ids, H.Before a e := by
  refine foldlM_spec (fun before t => ∀ a, a ∈ t ↔ ∃ e ∈ before, H.Before a e) (by simp) ?_
  intro before e after t heq ht
  have he := hids e (by simp [heq])
  obtain ⟨past, hpast, hanc⟩ := pasts.past he
  refine ⟨t ∪ past.erase e, by simp [hpast], fun a => ?_⟩
  have hbefore : a ∈ past.erase e ↔ H.Before a e := by
    rw [Std.ExtTreeSet.mem_erase, hanc, ne_eq, Std.LawfulEqCmp.compare_eq_iff_eq]
    constructor
    · rintro ⟨hne, h⟩
      exact h.eq_or_before.resolve_left fun heq => hne heq.symm
    · intro h
      refine ⟨?_, h.anc⟩
      rintro rfl
      exact pasts.irrefl e he h
  rw [Std.ExtTreeSet.mem_union_iff, ht, hbefore]
  simp only [List.mem_append, List.mem_singleton]
  constructor
  · rintro (⟨x, hx, h⟩ | h)
    · exact ⟨x, Or.inl hx, h⟩
    · exact ⟨e, Or.inr rfl, h⟩
  · rintro ⟨x, hx | rfl, h⟩
    · exact Or.inl ⟨x, hx, h⟩
    · exact Or.inr h

theorem commonPast_spec {ids : List Hash} (hids : ∀ e ∈ ids, e ∈ D) :
    ∃ t, commonPast ancestors ids = some t ∧
      (ids ≠ [] → ∀ a, a ∈ t ↔ ∀ e ∈ ids, H.Anc a e) := by
  have hrun : ids.mapM (fun id => ancestors[id]?) =
      some (ids.map fun id => ancestors[id]?.getD ∅) := by
    apply mapM_spec
    intro e he
    obtain ⟨past, hpast, _⟩ := pasts.past (hids e he)
    simp [hpast]
  have hget : ∀ e ∈ ids, ∀ a, a ∈ (ancestors[e]?.getD ∅ : BTreeSet) ↔ H.Anc a e := by
    intro e he a
    obtain ⟨past, hpast, hanc⟩ := pasts.past (hids e he)
    simp [hpast, hanc]
  have hfold : ∀ (sets : List BTreeSet) (first : BTreeSet) (a : Hash),
      a ∈ sets.foldl (· ∩ ·) first ↔ a ∈ first ∧ ∀ s ∈ sets, a ∈ s := by
    intro sets
    induction sets with
    | nil => simp
    | cons s sets ih =>
      intro first a
      rw [List.foldl_cons, ih, Std.ExtTreeSet.mem_inter_iff]
      simp [and_assoc]
  unfold commonPast
  rw [hrun]
  cases ids with
  | nil => exact ⟨∅, rfl, fun h => absurd rfl h⟩
  | cons x ids =>
    refine ⟨_, rfl, fun _ a => ?_⟩
    rw [hfold, hget x List.mem_cons_self]
    simp only [List.forall_mem_map, List.forall_mem_cons]
    exact and_congr_right fun _ => forall₂_congr fun e he => hget e (List.mem_cons_of_mem x he) a

end Pasts

theorem coneKeys_spec {cr : Crypto} {K : Candidates} {e : Hash}
    (known : ∀ a, (history cr K).Anc a e → a ∈ K) :
    ∃ past, coneKeys K e = some past ∧ ∀ a, a ∈ past ↔ (history cr K).Anc a e := by
  obtain ⟨found, hfound, hpart⟩ := cone_spec known
  refine ⟨.ofList found.keys, by simp [coneKeys, hfound], fun a => ?_⟩
  rw [mem_ofSet, Std.ExtTreeMap.mem_keys, hpart.mem_iff]
  exact ⟨And.right, fun ha => ⟨known a ha, ha⟩⟩

/-- The map of the pasts of listed events, all of it known. -/
theorem pasts_of {cr : Crypto} {K : Candidates} {ids : List Hash} {D : Set Hash}
    (hnodup : ids.Nodup)
    (hids : ∀ {e}, e ∈ ids ↔ e ∈ D) (known : ∀ e ∈ D, ∀ a, (history cr K).Anc a e → a ∈ K)
    (irrefl : ∀ e ∈ D, ¬ (history cr K).Before e e) :
    ∃ pasts, ids.mapM (pastOf K) = some pasts ∧
      Pasts (history cr K) D (.ofList pasts) := by
  have hrun : ids.mapM (pastOf K) =
      some (ids.map fun id => (id, (coneKeys K id).getD ∅)) := by
    apply mapM_spec
    intro e he
    obtain ⟨past, hpast, _⟩ := coneKeys_spec (known e (hids.mp he))
    simp [pastOf, hpast]
  have hget : ∀ {e : Hash} {past : BTreeSet}, (Std.ExtTreeMap.ofList
      (ids.map fun id => (id, (coneKeys K id).getD ∅)) compare)[e]? = some past ↔
      e ∈ D ∧ (coneKeys K e).getD ∅ = past := by
    intro e past
    rw [getElem?_ofList (by simpa [Function.comp_def] using hnodup)]
    simp [hids]
  refine ⟨_, hrun, fun e => ?_, fun {e past} h => ?_, irrefl⟩
  · rw [mem_iff]
    exact ⟨fun ⟨past, h⟩ => (hget.mp h).1, fun he => ⟨_, hget.mpr ⟨he, rfl⟩⟩⟩
  · obtain ⟨he, rfl⟩ := hget.mp h
    obtain ⟨past, hpast, hanc⟩ := coneKeys_spec (known e he)
    simpa [hpast] using hanc

/-! ## Heads -/

open Classical in
/-- What `contention` says, in terms of the set of heads and their common past. -/
noncomputable def standing (F : Set Hash) (common : Hash → Prop) (conflict : Reason) (e : Hash) :
    ProjectionState × Reason :=
  if F = {e} then (.head, .none)
  else if F.Nontrivial ∧ (e ∈ F ∨ ¬ common e) then (.branch, conflict)
  else (.superseded, .none)

section
variable {heads common : BTreeSet} {F : Set Hash} (hheads : ∀ e, e ∈ heads ↔ e ∈ F)
include hheads

theorem heads_ncard : heads.size = F.ncard := by
  rw [← ncard_set heads]
  exact congrArg Set.ncard (Set.ext hheads)

theorem heads_finite : F.Finite :=
  (List.finite_toSet heads.toList).subset fun e he =>
    Std.ExtTreeSet.mem_toList.mpr ((hheads e).mpr he)

theorem heads_single {e : Hash} : heads.size = 1 ∧ heads.contains e = true ↔ F = {e} := by
  rw [heads_ncard hheads, Std.ExtTreeSet.contains_iff_mem, hheads, Set.ncard_eq_one]
  constructor
  · rintro ⟨⟨x, rfl⟩, hx⟩
    rw [Set.mem_singleton_iff.mp hx]
  · rintro rfl
    exact ⟨⟨e, rfl⟩, rfl⟩

theorem heads_many : 1 < heads.size ↔ F.Nontrivial := by
  rw [heads_ncard hheads]
  have := (heads_finite hheads).to_subtype
  exact Set.one_lt_ncard_iff_nontrivial

theorem contention_spec {P : Hash → Prop} (hcommon : F.Nonempty → ∀ e, e ∈ common ↔ P e)
    (conflict : Reason) (e : Hash) :
    contention heads common conflict e = standing F P conflict e := by
  have hsingle := @heads_single heads F hheads e
  have hmany := heads_many hheads
  unfold contention standing
  by_cases h1 : F = {e}
  · rw [if_pos h1, if_pos (by simpa using hsingle.mpr h1)]
  · rw [if_neg h1, if_neg (by simpa using mt hsingle.mp h1)]
    by_cases h2 : F.Nontrivial
    · have hiff : (decide (heads.size > 1) && (heads.contains e || !common.contains e)) = true ↔
          F.Nontrivial ∧ (e ∈ F ∨ ¬ P e) := by
        simp [hmany, h2, hheads, hcommon h2.nonempty]
      by_cases h3 : F.Nontrivial ∧ (e ∈ F ∨ ¬ P e)
      · rw [if_pos h3, if_pos (hiff.mpr h3)]
      · rw [if_neg h3, if_neg (mt hiff.mp h3)]
    · have hsize : ¬ heads.size > 1 := mt hmany.mp h2
      simp [h2, hsize]

end

end Clockchain.V1
