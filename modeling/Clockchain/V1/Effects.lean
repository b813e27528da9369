import Clockchain.V1.Strata

/-!
# Effects

The reason an event has in the derived authority, read off the history: its own
reason first, and `revoked_ancestor` for what descends from a suppressed event.
`derive_spec` collects what `derive` computes on a branch.
-/

namespace Clockchain.V1
open Relation Maps Programs
set_option autoImplicit false

universe u v

/-- Collecting a value for every event of `W`. -/
theorem foldlM_insert_spec {α : Type} {W : Candidates} {f : Hash → Option α}
    {P : Hash → α → Prop} (h : ∀ e ∈ W, ∃ v, f e = some v ∧ P e v) :
    ∃ out : BTreeMap α, W.toList.foldlM (fun out item => do
        return out.insert item.1 (← f item.1)) ∅ = some out ∧
      (∀ e, e ∈ out ↔ e ∈ W) ∧ ∀ (e : Hash) (v : α), out[e]? = some v → P e v := by
  have hrun : ∃ out : BTreeMap α, W.toList.foldlM (fun out item => do
        return out.insert item.1 (← f item.1)) ∅ = some out ∧
      (∀ e, e ∈ out ↔ e ∈ W.toList.map Prod.fst) ∧
        ∀ (e : Hash) (v : α), out[e]? = some v → P e v := by
    refine foldlM_spec (fun before (out : BTreeMap α) => (∀ e, e ∈ out ↔ e ∈ before.map Prod.fst) ∧
      ∀ (e : Hash) (v : α), out[e]? = some v → P e v) (by simp) ?_
    rintro before ⟨e, s⟩ after out heq ⟨hmem, hout⟩
    have he : (e, s) ∈ W.toList := by simp [heq]
    obtain ⟨v, hv, hP⟩ := h e
      (mem_of_getElem? (Std.ExtTreeMap.mem_toList_iff_getElem?_eq_some.mp he))
    refine ⟨out.insert e v, by simp [hv], fun k => ?_, fun k w hk => ?_⟩
    · rw [mem_map_insert, hmem, List.map_append, List.mem_append, or_comm]
      simp
    · rw [getElem?_insert] at hk
      split at hk
      case isTrue heq =>
        subst heq
        rwa [← Option.some.inj hk]
      case isFalse => exact hout k w hk
  obtain ⟨out, hrun, hmem, hout⟩ := hrun
  refine ⟨out, hrun, fun e => ?_, hout⟩
  rw [hmem, Std.ExtTreeMap.map_fst_toList_eq_keys, Std.ExtTreeMap.mem_keys]

section
variable {ι : Type u} {γ : Type v} (H : History ι γ) (E : Set ι)

open Classical in
/-- Why `E` takes the authority of `e` itself away, in the order of the source. -/
noncomputable def ownReason (e : ι) : Reason :=
  if H.Relinquishes e then .rootRelinquished
  else if ∃ q ∈ E, H.Overrides q e then .revokedConcurrent
  else if ∃ g, H.issues e g ∧ ∃ q ∈ E, H.Cuts q g then .canceledGrant
  else if ∃ q ∈ E, H.Cuts q (H.signer e) then .canceledAuthority
  else .none

open Classical in
/-- The revokes `ownReason` reports. -/
noncomputable def controllers (e : ι) : Set ι :=
  if H.Relinquishes e then {e}
  else if ∃ q ∈ E, H.Overrides q e then {q | q ∈ E ∧ H.Overrides q e}
  else if ∃ g, H.issues e g ∧ ∃ q ∈ E, H.Cuts q g then {q | q ∈ E ∧ ∃ g, H.issues e g ∧ H.Cuts q g}
  else {q | q ∈ E ∧ H.Cuts q (H.signer e)}

open Classical in
noncomputable def reasonOf (e : ι) : Reason :=
  if ownReason H E e = .none ∧ ∃ p, H.parent p e ∧ H.Suppressed E p then .revokedAncestor
  else ownReason H E e

variable {H E}

theorem ownReason_relinquished {e : ι} :
    ownReason H E e = .rootRelinquished ↔ H.Relinquishes e := by
  unfold ownReason
  split_ifs <;> simp [*]

/-- A Delegate whose grant is cut is itself silenced. -/
theorem issuance_silenced (law : H.Lawful) {e q : ι} {g : γ} (hg : H.issues e g)
    (hcut : H.Cuts q g) : H.Silences q e := by
  cases hcut with
  | cut hi he hcov hpast =>
    obtain rfl := law.issues_event hg he
    rw [← law.issuer_signer hi hg] at hcov
    exact Or.inl ⟨hcov, hpast⟩
  | up hi hcut =>
    rw [← law.issuer_signer hi hg] at hcut
    exact Or.inr hcut

theorem ownReason_none (law : H.Lawful) {e : ι} (he : H.mem e) :
    ownReason H E e = .none ↔ ¬ H.Relinquishes e ∧ ¬ H.Struck E e := by
  have hstruck : H.Struck E e ↔ ¬ H.Relinquishes e ∧ ((∃ q ∈ E, H.Overrides q e) ∨
      ∃ q ∈ E, H.Cuts q (H.signer e)) := by
    simp only [History.Struck, he, true_and, History.Silences, ← exists_or, ← and_or_left]
  rw [hstruck]
  unfold ownReason
  split_ifs with h1 h2 h3 h4
  · simp [h1]
  · simp [h1, h2]
  · obtain ⟨g, hg, q, hq, hcut⟩ := h3
    have hsil := issuance_silenced law hg hcut
    have hnot : (∃ q ∈ E, H.Overrides q e) ∨ ∃ q ∈ E, H.Cuts q (H.signer e) :=
      hsil.imp (fun h => ⟨q, hq, h⟩) fun h => ⟨q, hq, h⟩
    exact ⟨fun h => by simp at h, fun h => absurd ⟨h.1, hnot⟩ h.2⟩
  · simp [h1, h4]
  · simp [h1, h2, h4]

theorem reasonOf_relinquished {e : ι} :
    reasonOf H E e = .rootRelinquished ↔ H.Relinquishes e := by
  rw [← ownReason_relinquished (E := E), reasonOf]
  split_ifs with h
  · simp [h.1]
  · rfl

theorem reasonOf_none (law : H.Lawful) {e : ι} (he : H.mem e) :
    reasonOf H E e = .none ↔ H.Eligible E e := by
  rw [History.Eligible, History.suppressed_iff, reasonOf]
  split_ifs with h
  · have hnot := ((ownReason_none law he).mp h.1).1
    simp [hnot, h.2]
  · rw [ownReason_none law he]
    constructor
    · intro hown
      refine ⟨he, hown.1, fun hsup => ?_⟩
      rcases hsup with hs | ⟨_, hp⟩
      · exact hown.2 hs
      · exact h ⟨(ownReason_none law he).mpr hown, hp⟩
    · rintro ⟨_, hrel, hsup⟩
      exact ⟨hrel, fun hs => hsup (Or.inl hs)⟩

/-- An event has a reason other than relinquishment exactly when it is suppressed. -/
theorem reasonOf_suppressed (law : H.Lawful) {e : ι} (he : H.mem e) :
    reasonOf H E e ≠ .none ∧ reasonOf H E e ≠ .rootRelinquished ↔ H.Suppressed E e := by
  rw [Ne, reasonOf_none law he, Ne, reasonOf_relinquished, History.Eligible]
  constructor
  · rintro ⟨hel, hrel⟩
    by_contra hsup
    exact hel ⟨he, hrel, hsup⟩
  · intro hsup
    exact ⟨fun h => h.2.2 hsup, hsup.not_relinquishes⟩

theorem controllers_nonempty {e : ι} (h : ownReason H E e ≠ .none) :
    (controllers H E e).Nonempty := by
  unfold ownReason at h
  unfold controllers
  split_ifs with h1 h2 h3
  · exact ⟨e, rfl⟩
  · obtain ⟨q, hq⟩ := h2
    exact ⟨q, hq⟩
  · obtain ⟨g, hg, q, hq, hcut⟩ := h3
    exact ⟨q, hq, g, hg, hcut⟩
  · simp only [h1, h2, h3, if_false] at h
    split_ifs at h with h4
    · obtain ⟨q, hq⟩ := h4
      exact ⟨q, hq⟩
    · exact absurd rfl h

end

/-- `effect` is what `ownReason` and `controllers` say of `e`. -/
structure Effect.Own (H : History Hash Hash) (E : Set Hash) (e : Hash)
    (effect : Effect) : Prop where
  reason : effect.reason = ownReason H E e
  controls : ∀ q, q ∈ effect.controllingRevokes ↔ q ∈ controllers H E e

/-- `effects` has the own effect of every event of `W`. -/
structure Owns (cr : Crypto) (W : Candidates) (E : Set Hash) (effects : BTreeMap Effect) :
    Prop where
  mem : ∀ e, e ∈ effects ↔ e ∈ W
  own : ∀ {e : Hash} {effect : Effect}, effects[e]? = some effect →
    Effect.Own (history cr W) E e effect

namespace Branch
variable {cr : Crypto} {C W : Candidates} (branch : Branch cr C W)
include branch

/-- Only a Delegate's grant is ever cut, and it bears the Delegate's id. -/
theorem cuts_issued {q e g : Hash} (hcut : (history cr W).Cuts q g) :
    (history cr W).issues e g ↔ e = g := by
  have hissuer : ∃ i, (history cr W).issuer i g := by
    cases hcut with
    | cut hi _ _ _ => exact ⟨_, hi⟩
    | up hi _ => exact ⟨_, hi⟩
  obtain ⟨i, d, s, grant, hs, hd, hi⟩ := hissuer
  rcases issued_kind hd with ⟨_, _, hnone, _⟩ | ⟨_, _, _, _, rfl, _⟩
  · simp [hnone] at hi
  · have hself : (history cr W).issues g g := ⟨s, grant, hs, hd⟩
    exact ⟨fun he => branch.lawful.issues_event he hself, fun heq => heq ▸ hself⟩

theorem cut_event_iff {e q : Hash} :
    (history cr W).Cuts q e ↔ ∃ g, (history cr W).issues e g ∧ (history cr W).Cuts q g := by
  constructor
  · exact fun h => ⟨e, (branch.cuts_issued h).mpr rfl, h⟩
  · rintro ⟨g, hg, h⟩
    obtain rfl := (branch.cuts_issued h).mp hg
    exact h

variable {p : Provenance} (complete : p.Complete cr W)
include complete
variable {effective : BTreeSet} (heff : ∀ r ∈ effective, (history cr W).Revokes r)
include heff

theorem effect_spec {relinquishments : BTreeSet} {canceled : BTreeMap BTreeSet}
    (hrel : ∀ r, r ∈ relinquishments ↔ (history cr W).Relinquishes r)
    (hcancel : Cancels cr W effective canceled) {e : Hash} (he : e ∈ W) :
    ∃ effect, Scan.effect ⟨W, revokesOf W, p⟩ cr relinquishments effective canceled e
        = some effect ∧ Effect.Own (history cr W) {r | r ∈ effective} e effect := by
  obtain ⟨d, hd, _⟩ := branch.signer_issued he
  obtain ⟨controls, hrun, hspec⟩ := branch.controls_spec complete heff (e := e) hd
  have hover : controls = [] ↔ ¬ ∃ q ∈ {r | r ∈ effective}, (history cr W).Overrides q e := by
    rw [List.eq_nil_iff_forall_not_mem, not_exists]
    exact forall_congr' fun q => not_congr (hspec q)
  have hcutEvent : (∃ g, (history cr W).issues e g ∧
      ∃ q ∈ {r | r ∈ effective}, (history cr W).Cuts q g) ↔ e ∈ canceled := by
    rw [hcancel.mem]
    constructor
    · rintro ⟨g, hg, q, hq, hcut⟩
      exact ⟨q, hq, branch.cut_event_iff.mpr ⟨g, hg, hcut⟩⟩
    · rintro ⟨q, hq, hcut⟩
      obtain ⟨g, hg, hcut⟩ := branch.cut_event_iff.mp hcut
      exact ⟨g, hg, q, hq, hcut⟩
  simp only [Scan.effect, signerOf_spec he, Option.bind_eq_bind, Option.bind_some, hrun]
  by_cases h1 : (history cr W).Relinquishes e
  · refine ⟨⟨.rootRelinquished, {e}⟩, by simp [(hrel e).mpr h1], ?_, ?_⟩
    · simp [ownReason, h1]
    · intro q
      rw [mem_singleton]
      simp only [controllers, h1, if_true, Set.mem_singleton_iff]
  have hcontains : relinquishments.contains e = false := by simp [hrel, h1]
  by_cases h2 : controls = []
  swap
  · have hoverridden := not_not.mp (hover.not.mp h2)
    refine ⟨⟨.revokedConcurrent, .ofList controls⟩, by simp [hcontains, h2], ?_, ?_⟩
    · simp only [ownReason, h1, hoverridden, if_true, if_false]
    · intro q
      rw [mem_ofSet, hspec]
      simp only [controllers, h1, hoverridden, if_true, if_false]
      rfl
  have hfree := hover.mp h2
  cases h3 : canceled[e]? with
  | some cut =>
    have hmem := hcutEvent.mpr (mem_of_getElem? h3)
    refine ⟨⟨.canceledGrant, cut⟩, by simp [hcontains, h2], ?_, ?_⟩
    · simp only [ownReason, h1, hfree, hmem, if_true, if_false]
    · intro q
      have := hcancel.cut e q
      rw [h3, Option.getD_some, branch.cut_event_iff] at this
      simp only [controllers, h1, hfree, hmem, if_true, if_false, this]
      rfl
  | none =>
    have hmem : ¬ ∃ g, (history cr W).issues e g ∧
        ∃ q ∈ {r | r ∈ effective}, (history cr W).Cuts q g := by
      rw [hcutEvent, mem_iff, h3]
      simp
    cases h4 : canceled[(history cr W).signer e]? with
    | some cut =>
      have hsigner := hcancel.mem.mp (mem_of_getElem? h4)
      refine ⟨⟨.canceledAuthority, cut⟩, by simp [hcontains, h2], ?_, ?_⟩
      · simp only [ownReason, h1, hfree, hmem, if_false]
        exact (if_pos hsigner).symm
      · intro q
        have := hcancel.cut ((history cr W).signer e) q
        rw [h4, Option.getD_some] at this
        simp only [controllers, h1, hfree, hmem, if_false, this]
        rfl
    | none =>
      have hnone :
          ∀ q ∈ {r | r ∈ effective}, ¬ (history cr W).Cuts q ((history cr W).signer e) := by
        intro q hq hcut
        have := (hcancel.cut _ q).mpr ⟨hq, hcut⟩
        simp [h4] at this
      refine ⟨⟨.none, ∅⟩, by simp [hcontains, h2], ?_, ?_⟩
      · simp only [ownReason, h1, hfree, hmem, if_false]
        exact (if_neg fun ⟨q, hq, hcut⟩ => hnone q hq hcut).symm
      · intro q
        simp only [controllers, h1, hfree, hmem, if_false]
        exact ⟨fun h => absurd h Std.ExtTreeSet.not_mem_empty, fun h => absurd h.2 (hnone q h.1)⟩

theorem effects_spec {relinquishments : BTreeSet} {canceled : BTreeMap BTreeSet}
    (hrel : ∀ r, r ∈ relinquishments ↔ (history cr W).Relinquishes r)
    (hcancel : Cancels cr W effective canceled) :
    ∃ effects, Scan.effects ⟨W, revokesOf W, p⟩ cr relinquishments effective canceled
        = some effects ∧ Owns cr W {r | r ∈ effective} effects := by
  obtain ⟨effects, hrun, hmem, hown⟩ := foldlM_insert_spec fun e (he : e ∈ W) =>
    branch.effect_spec complete heff hrel hcancel he
  exact ⟨effects, hrun, hmem, fun {e effect} => hown e effect⟩

end Branch

/-! ## Tainted descendants -/

/-- A state of the taint loop that began at `start`. -/
structure Tainting (cr : Crypto) (W : Candidates) (E : Set Hash) (start effects : BTreeMap Effect) :
    Prop where
  begin : Owns cr W E start
  mem : ∀ e, e ∈ effects ↔ e ∈ W
  entry : ∀ {e : Hash} {effect : Effect}, effects[e]? = some effect → start[e]? = some effect ∨
    ownReason (history cr W) E e = .none ∧ effect.reason = .revokedAncestor ∧
      (∃ q, q ∈ effect.controllingRevokes) ∧
      ∃ p, (history cr W).parent p e ∧ (history cr W).Suppressed E p

/-- The event has a reason already. -/
def Marked (effects : BTreeMap Effect) (e : Hash) : Prop :=
  ∃ effect, effects[e]? = some effect ∧ effect.reason ≠ .none

namespace Tainting
variable {cr : Crypto} {W : Candidates} {E : Set Hash} {start effects : BTreeMap Effect}
variable (inv : Tainting cr W E start effects)
include inv

theorem get {e : Hash} (he : e ∈ W) : ∃ effect, effects[e]? = some effect :=
  mem_iff.mp ((inv.mem e).mpr he)

/-- The reason of an unmarked event is its own. -/
theorem reason {e : Hash} {effect : Effect} (he : effects[e]? = some effect) :
    effect.reason = ownReason (history cr W) E e ∨ ownReason (history cr W) E e = .none ∧
      effect.reason = .revokedAncestor ∧
      ∃ p, (history cr W).parent p e ∧ (history cr W).Suppressed E p := by
  rcases inv.entry he with hstart | ⟨hnone, hreason, _, hp⟩
  · exact Or.inl (inv.begin.own hstart).reason
  · exact Or.inr ⟨hnone, hreason, hp⟩

theorem relinquished {e : Hash} {effect : Effect} (he : effects[e]? = some effect) :
    effect.reason = .rootRelinquished ↔ (history cr W).Relinquishes e := by
  rw [← ownReason_relinquished (E := E)]
  rcases inv.reason he with h | ⟨hnone, h, _⟩
  · rw [h]
  · simp [hnone, h]

theorem controls {e : Hash} {effect : Effect} (he : effects[e]? = some effect)
    (hreason : effect.reason ≠ .none) : ∃ q, q ∈ effect.controllingRevokes := by
  rcases inv.entry he with hstart | ⟨_, _, hcontrols, _⟩
  · have own := inv.begin.own hstart
    obtain ⟨q, hq⟩ := controllers_nonempty (own.reason ▸ hreason)
    exact ⟨q, (own.controls q).mpr hq⟩
  · exact hcontrols

/-- Only suppressed events and relinquishments are marked. -/
theorem marked_suppressed (law : (history cr W).Lawful) {e : Hash} (h : Marked effects e) :
    (history cr W).Relinquishes e ∨ (history cr W).Suppressed E e := by
  obtain ⟨effect, he, hreason⟩ := h
  have hmem : (history cr W).mem e := (inv.mem e).mp (mem_of_getElem? he)
  by_cases hrel : (history cr W).Relinquishes e
  · exact Or.inl hrel
  · right
    rcases inv.reason he with h | ⟨_, _, p, hp, hsup⟩
    · rw [h, Ne, ownReason_none law hmem, not_and, not_not] at hreason
      exact .struck (hreason hrel)
    · exact .inherit hp hrel hsup

end Tainting

namespace Branch
variable {cr : Crypto} {C W : Candidates} (branch : Branch cr C W)
variable {E : Set Hash} {start : BTreeMap Effect}
include branch

theorem inherited_spec {effects : BTreeMap Effect} (inv : Tainting cr W E start effects)
    {e : Hash} {s : Signed} (hs : W[e]? = some s) :
    ∃ controls, inheritedControls effects s = some controls ∧ ((∃ q, q ∈ controls) ↔
      ∃ p ∈ parentsOf s, Marked effects p ∧ ¬ (history cr W).Relinquishes p) := by
  refine foldlM_spec (fun before (controls : BTreeSet) => (∃ q, q ∈ controls) ↔
    ∃ p ∈ before, Marked effects p ∧ ¬ (history cr W).Relinquishes p) (by simp) ?_
  intro before p after controls heq hcontrols
  have hp : p ∈ parentsOf s := by simp [heq]
  obtain ⟨effect, he⟩ := inv.get (branch.closed.parent hs hp)
  have htaint : effect.taints = true ↔ Marked effects p ∧ ¬ (history cr W).Relinquishes p := by
    rw [← inv.relinquished he]
    simp [Marked, he, Effect.taints]
  have hsplit : (∃ q ∈ before ++ [p], Marked effects q ∧ ¬ (history cr W).Relinquishes q) ↔
      (∃ q, q ∈ controls) ∨ Marked effects p ∧ ¬ (history cr W).Relinquishes p := by
    rw [hcontrols]
    simp [or_and_right, exists_or]
  rw [hsplit, ← htaint]
  cases hif : effect.taints with
  | true =>
    obtain ⟨⟨effect', he', hreason⟩, _⟩ := htaint.mp hif
    obtain rfl := Option.some.inj (he.symm.trans he')
    obtain ⟨q, hq⟩ := inv.controls he hreason
    refine ⟨controls ∪ effect.controllingRevokes, by simp [he, hif], fun _ => Or.inr rfl, ?_⟩
    exact fun _ => ⟨q, Std.ExtTreeSet.mem_union_iff.mpr (Or.inr hq)⟩
  | false => exact ⟨controls, by simp [he, hif], by simp⟩

theorem taint_flagged : Flagged W.toList taintStep Prod.fst (Tainting cr W E start) Marked
    (fun effects item => ∃ p ∈ parentsOf item.2, Marked effects p ∧
      ¬ (history cr W).Relinquishes p) where
  skip := by
    rintro effects changed ⟨e, s⟩ hmem inv hidle
    have hs := Std.ExtTreeMap.mem_toList_iff_getElem?_eq_some.mp hmem
    obtain ⟨effect, he⟩ := inv.get (mem_of_getElem? hs)
    obtain ⟨controls, hrun, hspec⟩ := branch.inherited_spec inv hs
    by_cases hreason : effect.reason = .none
    · have hnot : controls.isEmpty = true := by
        rw [← Bool.not_eq_false, isEmpty_eq_false, hspec]
        rcases hidle with ⟨effect', he', hmarked⟩ | h
        · obtain rfl := Option.some.inj (he.symm.trans he')
          exact absurd hreason hmarked
        · exact h
      simp only [taintStep, he, hrun, Option.bind_eq_bind, Option.bind_some, hreason, hnot, ne_eq,
        not_true_eq_false, if_false, if_true, Option.pure_def]
    · simp [taintStep, he, hreason]
  work := by
    rintro effects changed ⟨e, s⟩ hmem inv hnew hready
    have hs := Std.ExtTreeMap.mem_toList_iff_getElem?_eq_some.mp hmem
    obtain ⟨effect, he⟩ := inv.get (mem_of_getElem? hs)
    obtain ⟨controls, hrun, hspec⟩ := branch.inherited_spec inv hs
    have hreason : effect.reason = .none := by
      by_contra h
      exact hnew ⟨effect, he, h⟩
    have hsome := hspec.mpr hready
    have hempty : controls.isEmpty = false := isEmpty_eq_false.mpr hsome
    refine ⟨effects.insert e ⟨.revokedAncestor, controls⟩, ?_, ⟨inv.begin, ?_, ?_⟩, ?_⟩
    · simp only [taintStep, he, hrun, Option.bind_eq_bind, Option.bind_some, hreason, hempty, ne_eq,
        not_true_eq_false, Bool.false_eq_true, if_false, Option.pure_def]
    · intro k
      rw [mem_map_insert, inv.mem]
      exact or_iff_right_of_imp fun h => h ▸ mem_of_getElem? hs
    · intro k effect' hk
      rw [getElem?_insert] at hk
      split at hk
      case isFalse => exact inv.entry hk
      case isTrue heq =>
        subst heq
        obtain rfl := Option.some.inj hk
        obtain ⟨p, hp, hmarked, hrel⟩ := hready
        refine Or.inr ⟨?_, rfl, hsome, p, (parent_iff hs).mpr hp,
          (inv.marked_suppressed branch.lawful hmarked).resolve_left hrel⟩
        rcases inv.reason he with h | ⟨h, _⟩
        · exact h ▸ hreason
        · exact h
    · intro k
      by_cases hk : e = k
      · subst hk
        simp [Marked]
      · simp [Marked, getElem?_insert, hk, Ne.symm hk]
  mono := by
    rintro effects effects' ⟨e, s⟩ _ _ _ hgrow ⟨p, hp, hmarked, hrel⟩
    exact ⟨p, hp, hgrow p hmarked, hrel⟩

/-- The taint loop marks every suppressed event. -/
theorem taint_spec (begin : Owns cr W E start) :
    ∃ effects, taint W start = some effects ∧ Tainting cr W E start effects ∧
      ∀ e ∈ W, ∃ effect, effects[e]? = some effect ∧
        effect.reason = reasonOf (history cr W) E e := by
  have flagged : Flagged W.toList taintStep Prod.fst (Tainting cr W E start) Marked _ :=
    branch.taint_flagged
  have hfuel : W.toList.length + 1 ≤ W.size + 1 := by simp
  obtain ⟨⟨effects, changed⟩, hrun, inv, hgrow, _, hidle⟩ :=
    flagged.settle_idle ⟨begin, begin.mem, Or.inl⟩ hfuel
  have hsuppressed : ∀ e, (history cr W).Suppressed E e → Marked effects e := by
    intro e h
    induction h with
    | @struck e h =>
      obtain ⟨effect, he⟩ := mem_iff.mp ((begin.mem e).mpr h.1)
      refine hgrow e ⟨effect, he, ?_⟩
      rw [(begin.own he).reason, Ne, ownReason_none branch.lawful h.1]
      exact fun hnot => hnot.2 h
    | @inherit p e hp hrel hsup ih =>
      obtain ⟨s, hs, hp⟩ := hp
      exact hidle (e, s) (Std.ExtTreeMap.mem_toList_iff_getElem?_eq_some.mpr hs)
        ⟨p, hp, ih, hsup.not_relinquishes⟩
  refine ⟨effects, by simp [taint, hrun], inv, fun e he => ?_⟩
  obtain ⟨effect, heffect⟩ := inv.get he
  refine ⟨effect, heffect, ?_⟩
  rw [reasonOf]
  rcases inv.reason heffect with hown | ⟨hnone, hreason, hp⟩
  · split_ifs with h
    · -- A parent is suppressed, so the loop has marked the event.
      obtain ⟨p, hp, hsup⟩ := h.2
      have hrel := ((ownReason_none branch.lawful he).mp h.1).1
      obtain ⟨effect', he', hmarked⟩ := hsuppressed e (.inherit hp hrel hsup)
      obtain rfl := Option.some.inj (heffect.symm.trans he')
      exact absurd (hown.trans h.1) hmarked
    · exact hown
  · rw [if_pos ⟨hnone, hp⟩, hreason]

end Branch

end Clockchain.V1
