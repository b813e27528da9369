import Clockchain.V1.Provenance

/-!
# Strata

The closures of `derive` decide coverage and cuts, one pass over the grants by depth
finds the cancellations, and the strata add up to the effective revokes.
-/

namespace Clockchain.V1
open Relation Maps Programs
set_option autoImplicit false

theorem le_foldl_max {l : List Nat} {n m : Nat} (h : n ∈ l) : n ≤ l.foldl max m := by
  induction l generalizing m with
  | nil => simp at h
  | cons x l ih =>
    have hge : ∀ (l : List Nat) (m : Nat), m ≤ l.foldl max m := by
      intro l
      induction l with
      | nil => exact fun m => le_refl m
      | cons x l ih => exact fun m => (le_max_left m x).trans (ih _)
    rcases List.mem_cons.mp h with rfl | h
    · exact (le_max_right m n).trans (hge l _)
    · exact ih h

theorem revokesOf_get {W : Candidates} {r : Hash} {x : Hash × Bool} :
    (revokesOf W)[r]? = some x ↔ ∃ s, W[r]? = some s ∧ revoked s = some x := by
  rw [revokesOf, Std.ExtTreeMap.getElem?_filterMap']
  simp [Option.bind_eq_some_iff]

theorem revokesOf_mem {cr : Crypto} {W : Candidates} {r : Hash} :
    r ∈ revokesOf W ↔ (history cr W).Revokes r := by
  rw [mem_iff]
  constructor
  · rintro ⟨⟨t, c⟩, h⟩
    exact ⟨t, c, revokesOf_get.mp h⟩
  · rintro ⟨t, c, h⟩
    exact ⟨(t, c), revokesOf_get.mpr h⟩

/-- `canceled` holds the grants that `effective` cuts, each with the revokes that do. -/
structure Cancels (cr : Crypto) (W : Candidates) (effective : BTreeSet)
    (canceled : BTreeMap BTreeSet) : Prop where
  cut : ∀ g r, r ∈ canceled[g]?.getD ∅ ↔ r ∈ effective ∧ (history cr W).Cuts r g
  nonempty : ∀ {g : Hash} {controls : BTreeSet}, canceled[g]? = some controls → ∃ r, r ∈ controls

theorem Cancels.mem {cr : Crypto} {W : Candidates} {effective : BTreeSet}
    {canceled : BTreeMap BTreeSet} (h : Cancels cr W effective canceled) {g : Hash} :
    g ∈ canceled ↔ ∃ r ∈ effective, (history cr W).Cuts r g := by
  rw [mem_iff]
  constructor
  · rintro ⟨controls, hg⟩
    obtain ⟨r, hr⟩ := h.nonempty hg
    exact ⟨r, (h.cut g r).mp (by simpa [hg] using hr)⟩
  · rintro ⟨r, hr⟩
    have hmem := (h.cut g r).mpr hr
    cases hg : canceled[g]? with
    | none => simp [hg] at hmem
    | some controls => exact ⟨controls, rfl⟩

namespace Branch
variable {cr : Crypto} {C W : Candidates} (branch : Branch cr C W)
include branch

/-- Every event but a Genesis and a Resolve has exactly one parent. -/
theorem single_parent {e : Hash} {s : Signed} (hs : W[e]? = some s)
    (hgenesis : s.envelope.payload.kind ≠ .genesis)
    (hresolve : s.envelope.payload.kind ≠ .resolve) :
    ∃ p, parentsOf s = [p] := by
  have hlength := (branch.law hs).single hresolve
  have hne := ((branch.law hs).header hgenesis).2
  match hp : parentsOf s with
  | [] => exact absurd hp hne
  | [p] => exact ⟨p, rfl⟩
  | p :: q :: rest =>
    rw [hp] at hlength
    simp at hlength

variable {p : Provenance} (complete : p.Complete cr W)
include complete

theorem covers_spec {r g e : Hash} (hr : (history cr W).Revokes r)
    (hg : (history cr W).issues e g) :
    Decides (Scan.covers ⟨W, revokesOf W, p⟩ r g) ((history cr W).Covers r g) := by
  obtain ⟨t, c, hr⟩ := hr
  obtain ⟨path, hpath, hunder, _⟩ := complete.lineage hg
  have hcovers : (history cr W).Covers r g ↔ t = g ∨ c = true ∧ (history cr W).Under t g := by
    constructor
    · rintro ⟨t', c', hr', h⟩
      obtain ⟨rfl, rfl⟩ := branch.lawful.revoke_unique hr hr'
      exact h
    · exact fun h => ⟨t, c, hr, h⟩
  simp only [Scan.covers, revokesOf_get.mpr hr, Option.bind_eq_bind, Option.bind_some, hcovers]
  by_cases htg : t = g
  · exact ⟨true, by simp [htg], by simp [htg]⟩
  cases c with
  | false => exact ⟨false, by simp [htg], by simp [htg]⟩
  | true => exact ⟨path.contains t, by simp [htg, hpath], by simp [htg, hunder]⟩

theorem outside_spec {r e : Hash} (hr : (history cr W).Revokes r) :
    Decides (Scan.outside ⟨W, revokesOf W, p⟩ e r) (¬ (history cr W).Before e r) := by
  obtain ⟨t, c, s, hs, hrevoked⟩ := hr
  have hkind : s.envelope.payload.kind = .revoke := by
    unfold revoked at hrevoked
    split at hrevoked
    · simp [Payload.kind, *]
    · simp at hrevoked
  obtain ⟨q, hq⟩ := branch.single_parent hs (by simp [hkind]) (by simp [hkind])
  obtain ⟨past, hpast, hanc⟩ := complete.ancestors (branch.closed.parent hs (p := q) (by simp [hq]))
  have hbefore : (history cr W).Before e r ↔ e ∈ past := by
    rw [hanc, History.before_iff]
    constructor
    · rintro ⟨q', heq', hq'⟩
      rw [parent_iff hs, hq, List.mem_singleton] at hq'
      exact hq' ▸ heq'
    · exact fun h => ⟨q, h, (parent_iff hs).mpr (by simp [hq])⟩
  refine ⟨!past.contains e, by simp [Scan.outside, hs, hq, hpast], ?_⟩
  rw [hbefore, Bool.not_eq_true', ← Bool.not_eq_true, Std.ExtTreeSet.contains_iff_mem]

theorem controls_spec {effective : BTreeSet} (heff : ∀ r ∈ effective, (history cr W).Revokes r)
    {g d e : Hash} (hg : (history cr W).issues d g) :
    ∃ controls, Scan.controls ⟨W, revokesOf W, p⟩ effective g e = some controls ∧
      ∀ r, r ∈ controls ↔ r ∈ effective ∧ (history cr W).Covers r g ∧
        ¬ (history cr W).Before e r := by
  obtain ⟨controls, hrun, hspec⟩ := filterM_spec fun r (hr : r ∈ effective.toList) =>
    (branch.covers_spec complete (heff r (by simpa using hr)) hg).andThen fun _ =>
      branch.outside_spec complete (e := e) (heff r (by simpa using hr))
  exact ⟨controls, hrun, by simpa using hspec⟩

/-! ### Cancellations -/

omit branch in
/-- `order` lists the issued grants, an issuer before the grants below it. -/
theorem order_spec : ∃ order, Scan.order ⟨W, revokesOf W, p⟩ = some order ∧
    (∀ g, g ∈ order ↔ ∃ d, (history cr W).issues d g) ∧
    order.Pairwise fun g g' => (history cr W).depth g ≤ (history cr W).depth g' := by
  have hkeyed : p.grants.keys.mapM (fun g => do return (g, (← p.lineage[g]?).size)) =
      some (p.grants.keys.map fun g => (g, (history cr W).depth g)) := by
    apply mapM_spec
    intro g hg
    obtain ⟨d, hd⟩ := complete.grant_mem.mp (Std.ExtTreeMap.mem_keys.mp hg)
    obtain ⟨path, hpath, _, hsize⟩ := complete.lineage hd
    simp [hpath, hsize]
  let keyed := p.grants.keys.map fun g => (g, (history cr W).depth g)
  have hperm := keyed.perm_insertionSort fun a b => a.2 ≤ b.2
  have hsorted := keyed.pairwise_insertionSort fun a b => a.2 ≤ b.2
  have hdepth : ∀ x ∈ keyed.insertionSort (fun a b => a.2 ≤ b.2),
      x.2 = (history cr W).depth x.1 := by
    intro x hx
    obtain ⟨g, _, rfl⟩ := List.mem_map.mp (hperm.mem_iff.mp hx)
    rfl
  refine ⟨(keyed.insertionSort fun a b => a.2 ≤ b.2).map Prod.fst, ?_, ?_, ?_⟩
  · simp only [Scan.order, hkeyed]
    rfl
  · intro g
    rw [← complete.grant_mem, (hperm.map Prod.fst).mem_iff]
    simp [keyed]
  · rw [List.pairwise_map]
    exact hsorted.imp_of_mem fun ha hb h => by rwa [← hdepth _ ha, ← hdepth _ hb]

variable {effective : BTreeSet} (heff : ∀ r ∈ effective, (history cr W).Revokes r)
include heff

/-- One step of the pass: the issuer of `g` is decided, and then `g` is. -/
theorem cancellationStep_spec {before : List Hash} {canceled : BTreeMap BTreeSet} {g d : Hash}
    (hg : (history cr W).issues d g) (habove : ∀ i, (history cr W).issuer i g → i ∈ before)
    (hcut : ∀ k r, r ∈ canceled[k]?.getD ∅ ↔
      k ∈ before ∧ r ∈ effective ∧ (history cr W).Cuts r k)
    (hnonempty : ∀ (k : Hash) (controls : BTreeSet), canceled[k]? = some controls →
    ∃ r, r ∈ controls) :
    ∃ canceled', Scan.cancellationStep ⟨W, revokesOf W, p⟩ effective canceled g = some canceled' ∧
      (∀ k r, r ∈ canceled'[k]?.getD ∅ ↔
        k ∈ before ++ [g] ∧ r ∈ effective ∧ (history cr W).Cuts r k) ∧
      ∀ (k : Hash) (controls : BTreeSet), canceled'[k]? = some controls → ∃ r, r ∈ controls := by
  obtain ⟨grant, hgrant⟩ := mem_iff.mp (complete.grant_mem.mpr ⟨d, hg⟩)
  obtain ⟨e, s, hs, hissue⟩ := complete.grant.mp hgrant
  obtain rfl := branch.lawful.issues_event hg ⟨s, grant, hs, hissue⟩
  -- Leaving `canceled` alone is right when nothing cuts `g`.
  have hkeep : (∀ r ∈ effective, ¬ (history cr W).Cuts r g) → ∀ k r, r ∈ canceled[k]?.getD ∅ ↔
      k ∈ before ++ [g] ∧ r ∈ effective ∧ (history cr W).Cuts r k := by
    intro hnone k r
    rw [hcut k r, List.mem_append, List.mem_singleton]
    constructor
    · exact fun h => ⟨Or.inl h.1, h.2⟩
    · rintro ⟨hk | rfl, hr, h⟩
      · exact ⟨hk, hr, h⟩
      · exact absurd h (hnone r hr)
  simp only [Scan.cancellationStep, hgrant, Option.bind_eq_bind, Option.bind_some]
  cases hi : grant.issuer with
  | none =>
    refine ⟨canceled, rfl, hkeep ?_, hnonempty⟩
    intro r _ hr
    have hroot : ∀ i, ¬ (history cr W).issuer i g := by
      rintro i ⟨e, u, grant', hu, he, hi'⟩
      obtain rfl : grant = grant' := by
        have := complete.grant.mpr ⟨e, u, hu, he⟩
        exact Option.some.inj (hgrant.symm.trans this)
      simp [hi] at hi'
    cases hr with
    | cut h _ _ _ => exact hroot _ h
    | up h _ => exact hroot _ h
  | some i =>
    have hissuer : (history cr W).issuer i g := ⟨d, s, grant, hs, hissue, hi⟩
    obtain ⟨e, _, he, _⟩ := branch.issuer_before hissuer
    obtain ⟨controls, hrun, hspec⟩ := branch.controls_spec complete heff (e := d) he
    have hall : ∀ r, r ∈ (canceled[i]?.getD ∅).insertMany controls ↔
        r ∈ effective ∧ (history cr W).Cuts r g := by
      intro r
      rw [mem_insertMany, hcut i r, hspec r, branch.lawful.cuts_iff hissuer hg]
      simp only [habove i hissuer, true_and]
      tauto
    simp only [issued_by hissue, hrun, Option.bind_some]
    cases hempty : ((canceled[i]?.getD ∅).insertMany controls).isEmpty with
    | true =>
      refine ⟨canceled, by simp, hkeep ?_, hnonempty⟩
      intro r hr hcuts
      rw [isEmpty_eq_false.mpr ⟨r, (hall r).mpr ⟨hr, hcuts⟩⟩] at hempty
      simp at hempty
    | false =>
      refine ⟨canceled.insert g ((canceled[i]?.getD ∅).insertMany controls), by simp,
        ?_, ?_⟩
      · intro k r
        rw [getElem?_insert]
        by_cases hk : g = k
        · subst hk
          simp [hall]
        · simp [hk, hcut k r, Ne.symm hk]
      · intro k controls' hk
        rw [getElem?_insert] at hk
        split at hk
        · obtain rfl := Option.some.inj hk
          exact isEmpty_eq_false.mp hempty
        · exact hnonempty k controls' hk

theorem cancellations_spec {order : List Hash}
    (horder : ∀ g, g ∈ order ↔ ∃ d, (history cr W).issues d g)
    (hsorted : order.Pairwise fun g g' => (history cr W).depth g ≤ (history cr W).depth g') :
    ∃ canceled, Scan.cancellations ⟨W, revokesOf W, p⟩ order effective = some canceled ∧
      Cancels cr W effective canceled := by
  have hrun : ∃ canceled, Scan.cancellations ⟨W, revokesOf W, p⟩ order effective = some canceled ∧
      (∀ k r, r ∈ canceled[k]?.getD ∅ ↔
        k ∈ order ∧ r ∈ effective ∧ (history cr W).Cuts r k) ∧
      ∀ (k : Hash) (controls : BTreeSet), canceled[k]? = some controls → ∃ r, r ∈ controls := by
    refine foldlM_spec (fun before (canceled : BTreeMap BTreeSet) =>
      (∀ k r, r ∈ canceled[k]?.getD ∅ ↔
        k ∈ before ∧ r ∈ effective ∧ (history cr W).Cuts r k) ∧
      ∀ (k : Hash) (controls : BTreeSet), canceled[k]? = some controls → ∃ r, r ∈ controls)
        (by simp) ?_
    rintro before g after canceled heq ⟨hcut, hnonempty⟩
    obtain ⟨d, hd⟩ := (horder g).mp (by simp [heq])
    refine branch.cancellationStep_spec complete heff hd (fun i hi => ?_) hcut hnonempty
    -- The order is by depth, and the issuer of `g` is strictly less deep.
    obtain ⟨e, _, he, _⟩ := branch.issuer_before hi
    have hmem := (horder i).mpr ⟨e, he⟩
    have hlt := branch.lawful.depth_lt (TransGen.single hi)
    rw [heq, List.mem_append] at hmem
    refine hmem.resolve_right fun hmem => ?_
    rw [heq, List.pairwise_append, List.pairwise_cons] at hsorted
    rcases List.mem_cons.mp hmem with rfl | hmem
    · exact lt_irrefl _ hlt
    · exact absurd (hsorted.2.1.1 i hmem) (by omega)
  obtain ⟨canceled, hrun, hcut, hnonempty⟩ := hrun
  refine ⟨canceled, hrun, fun g r => ?_, fun {k controls} => hnonempty k controls⟩
  rw [hcut g r]
  refine ⟨And.right, fun h => ⟨(horder g).mpr ?_, h⟩⟩
  cases h.2 with
  | cut hi _ _ _ =>
    obtain ⟨_, d, _, hd, _⟩ := branch.issuer_before hi
    exact ⟨d, hd⟩
  | up hi _ =>
    obtain ⟨_, d, _, hd, _⟩ := branch.issuer_before hi
    exact ⟨d, hd⟩

omit branch heff in
theorem root_iff {g : Hash} {grant : Grant} (hg : p.grants[g]? = some grant) :
    (history cr W).Root g ↔ grant.issuer = none := by
  obtain ⟨e, s, hs, hissue⟩ := complete.grant.mp hg
  constructor
  · intro hroot
    cases hi : grant.issuer with
    | none => rfl
    | some i => exact absurd ⟨e, s, grant, hs, hissue, hi⟩ (hroot i)
  · rintro hnone i ⟨d, t, grant', ht, hd, hi⟩
    obtain rfl := Option.some.inj (hg.symm.trans (complete.grant.mpr ⟨d, t, ht, hd⟩))
    simp [hnone] at hi

omit branch complete heff in
theorem signerOf_spec {e : Hash} (he : e ∈ W) :
    Scan.signerOf ⟨W, revokesOf W, p⟩ cr e = some ((history cr W).signer e) := by
  obtain ⟨s, hs⟩ := mem_iff.mp he
  simp [Scan.signerOf, hs, history_signer hs]

omit heff in
theorem relinquishes_spec {r : Hash} (hr : (history cr W).Revokes r) :
    Decides (Scan.relinquishes ⟨W, revokesOf W, p⟩ cr r) ((history cr W).Relinquishes r) := by
  obtain ⟨t, c, hr⟩ := hr
  obtain ⟨d, hd, _⟩ := branch.target_issued hr
  obtain ⟨grant, hgrant⟩ := mem_iff.mp (complete.grant_mem.mpr ⟨d, hd⟩)
  have hrel : (history cr W).Relinquishes r ↔
      (history cr W).signer r = t ∧ (history cr W).Root t := by
    constructor
    · rintro ⟨c', hr', hroot⟩
      obtain ⟨rfl, rfl⟩ := branch.lawful.revoke_unique hr hr'
      exact ⟨rfl, hroot⟩
    · rintro ⟨rfl, hroot⟩
      exact ⟨c, hr, hroot⟩
  rw [hrel, root_iff complete hgrant]
  simp only [Scan.relinquishes, revokesOf_get.mpr hr, Option.bind_eq_bind, Option.bind_some,
    signerOf_spec (branch.lawful.revoke_mem hr), hgrant]
  by_cases hsigner : (history cr W).signer r = t
  · exact ⟨grant.issuer.isNone, by simp [hsigner], by simp [hsigner]⟩
  · exact ⟨false, by simp [hsigner], by simp [hsigner]⟩

omit heff in
theorem relinquishments_spec :
    ∃ relinquishments, Scan.relinquishments ⟨W, revokesOf W, p⟩ cr = some relinquishments ∧
      ∀ r, r ∈ relinquishments ↔ (history cr W).Relinquishes r := by
  obtain ⟨kept, hrun, hspec⟩ := filterM_spec fun r (hr : r ∈ (revokesOf W).keys) =>
    branch.relinquishes_spec complete (revokesOf_mem.mp (Std.ExtTreeMap.mem_keys.mp hr))
  refine ⟨.ofList kept, by simp [Scan.relinquishments, hrun], fun r => ?_⟩
  rw [mem_ofSet, hspec, Std.ExtTreeMap.mem_keys, revokesOf_mem]
  exact ⟨And.right, fun h => ⟨h.revokes, h⟩⟩

/-! ### Strata -/

theorem takesEffect_spec {relinquishments : BTreeSet} {canceled : BTreeMap BTreeSet}
    (hrel : ∀ r, r ∈ relinquishments ↔ (history cr W).Relinquishes r)
    (hcancel : Cancels cr W effective canceled) (depth : Nat) {r : Hash}
    (hr : (history cr W).Revokes r) :
    Decides (Scan.takesEffect ⟨W, revokesOf W, p⟩ cr relinquishments effective canceled depth r)
      ((history cr W).depth ((history cr W).signer r) = depth ∧
        ¬ (history cr W).Relinquishes r ∧ ∀ q ∈ effective, ¬ (history cr W).Silences q r) := by
  have hmem := hr.mem branch.lawful
  obtain ⟨d, hd, _⟩ := branch.signer_issued hmem
  obtain ⟨path, hpath, _, hsize⟩ := complete.lineage hd
  obtain ⟨b, hany, hb⟩ := Decides.anyM fun q (hq : q ∈ effective.toList) =>
    (branch.covers_spec complete (heff q (by simpa using hq)) hd).andThen fun _ =>
      branch.outside_spec complete (e := r) (heff q (by simpa using hq))
  have hguard : (decide (path.size = depth) && !relinquishments.contains r &&
      !canceled.contains ((history cr W).signer r)) = true ↔
      (history cr W).depth ((history cr W).signer r) = depth ∧ ¬ (history cr W).Relinquishes r ∧
        ¬ ∃ q ∈ effective, (history cr W).Cuts q ((history cr W).signer r) := by
    rw [← hcancel.mem, ← hrel]
    simp [hsize, and_assoc]
  simp only [Scan.takesEffect, signerOf_spec hmem, Option.bind_eq_bind,
    Option.bind_some, hpath]
  cases hif : decide (path.size = depth) && !relinquishments.contains r &&
      !canceled.contains ((history cr W).signer r) with
  | false =>
    refine ⟨false, by simp, ?_⟩
    simp only [Bool.false_eq_true, false_iff]
    rintro ⟨hdepth, hnot, hfree⟩
    rw [hguard.mpr ⟨hdepth, hnot, fun ⟨q, hq, hcut⟩ => hfree q hq (Or.inr hcut)⟩] at hif
    simp at hif
  | true =>
    obtain ⟨hdepth, hnot, hcut⟩ := hguard.mp hif
    refine ⟨!b, by simp [hany], ?_⟩
    rw [Bool.not_eq_true', ← Bool.not_eq_true, hb]
    constructor
    · intro hfree
      refine ⟨hdepth, hnot, fun q hq hsil => ?_⟩
      rcases hsil with hsil | hsil
      · exact hfree ⟨q, by simpa using hq, hsil⟩
      · exact hcut ⟨q, hq, hsil⟩
    · rintro ⟨_, _, hfree⟩ ⟨q, hq, hsil⟩
      exact hfree q (by simpa using hq) (Or.inl hsil)

theorem tombstones_spec :
    ∃ tombstones, Scan.tombstones ⟨W, revokesOf W, p⟩ effective = some tombstones ∧
      ∀ g, g ∈ tombstones ↔ (∃ d, (history cr W).issues d g) ∧
        ∃ r ∈ effective, (history cr W).Covers r g := by
  obtain ⟨kept, hrun, hspec⟩ := filterM_spec fun g (hg : g ∈ p.grants.keys) =>
    Decides.anyM fun r (hr : r ∈ effective.toList) => by
      obtain ⟨d, hd⟩ := complete.grant_mem.mp (Std.ExtTreeMap.mem_keys.mp hg)
      exact branch.covers_spec complete (heff r (by simpa using hr)) hd
  refine ⟨.ofList kept, by simp [Scan.tombstones, hrun], fun g => ?_⟩
  rw [mem_ofSet, hspec, Std.ExtTreeMap.mem_keys, complete.grant_mem]
  simp

omit heff in
/-- After stratum `n` the effective revokes are those of rank at most `n`. -/
theorem strata_spec {order : List Hash} {relinquishments : BTreeSet}
    (horder : ∀ g, g ∈ order ↔ ∃ d, (history cr W).issues d g)
    (hsorted : order.Pairwise fun g g' => (history cr W).depth g ≤ (history cr W).depth g')
    (hrel : ∀ r, r ∈ relinquishments ↔ (history cr W).Relinquishes r) (n : Nat) :
    ∃ effective, Scan.strata ⟨W, revokesOf W, p⟩ cr order relinquishments n = some effective ∧
      ∀ r, r ∈ effective ↔ r ∈ Kernel.stage (history cr W).Revokes (history cr W).Attacks
        (history cr W).rank n := by
  induction n with
  | zero =>
    refine ⟨relinquishments, rfl, fun r => ?_⟩
    rw [hrel, Kernel.stage, Set.mem_ofPred_eq, branch.lawful.rank_eq_zero]
    exact ⟨fun h => ⟨h.revokes, h⟩, And.right⟩
  | succ n ih =>
    obtain ⟨effective, hrun, hstage⟩ := ih
    have heff : ∀ r ∈ effective, (history cr W).Revokes r :=
      fun r hr => (Kernel.stage_arg ((hstage r).mp hr)).1
    obtain ⟨canceled, hcanceled, hcancel⟩ :=
      branch.cancellations_spec complete heff horder hsorted
    obtain ⟨batch, hbatch, hspec⟩ := filterM_spec fun r (hr : r ∈ (revokesOf W).keys) =>
      branch.takesEffect_spec complete heff hrel hcancel (n + 1)
        (revokesOf_mem.mp (Std.ExtTreeMap.mem_keys.mp hr))
    refine ⟨effective.insertMany batch, ?_, fun r => ?_⟩
    · rw [Scan.strata, List.range'_1_concat, List.foldlM_append, ← Scan.strata, hrun]
      simp [Scan.stratum, hcanceled, hbatch, Nat.add_comm 1 n]
    · rw [mem_insertMany, hstage, hspec, Std.ExtTreeMap.mem_keys, @revokesOf_mem cr,
        Kernel.stage, Set.mem_union, Set.mem_ofPred_eq]
      refine or_congr_right ?_
      have hfree : (∀ q ∈ effective, ¬ (history cr W).Silences q r) ↔
          ∀ q ∈ Kernel.stage (history cr W).Revokes (history cr W).Attacks (history cr W).rank n,
            ¬ (history cr W).Silences q r :=
        forall_congr' fun q => by rw [hstage]
      rw [hfree, History.rank_eq_succ, Kernel.unattacked, Set.mem_ofPred_eq]
      constructor
      · rintro ⟨hr, hdepth, hnot, hfree⟩
        exact ⟨⟨hnot, hdepth⟩, hr, fun q hq hatt => hfree q hq hatt.2⟩
      · rintro ⟨⟨hnot, hdepth⟩, hr, hfree⟩
        exact ⟨hr, hdepth, hnot, fun q hq hsil => hfree q hq ⟨hnot, hsil⟩⟩

omit heff in
theorem rank_le_maxDepth {r : Hash} (hr : (history cr W).Revokes r) :
    (history cr W).rank r ≤ Scan.maxDepth ⟨W, revokesOf W, p⟩ := by
  obtain ⟨d, hd, _⟩ := branch.signer_issued (hr.mem branch.lawful)
  obtain ⟨path, hpath, _, hsize⟩ := complete.lineage hd
  refine (History.rank_le_depth r).trans ?_
  rw [← hsize]
  exact le_foldl_max (List.mem_map.mpr
    ⟨(_, path), Std.ExtTreeMap.mem_toList_iff_getElem?_eq_some.mpr hpath, rfl⟩)

end Branch

end Clockchain.V1
