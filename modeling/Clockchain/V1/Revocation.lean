import Clockchain.V1.Soundness

/-!
# Effective revocation

The stratified loop of `derive` computes the one self-consistent set of revokes; what a
stratum decides, no later stratum changes.
-/

namespace Clockchain.V1
open Relation Maps Programs
set_option autoImplicit false

/-- `V` is a causally closed set of events that `out` calls valid. -/
structure Lower (C : Candidates) (out : BTreeMap Status) (V : Candidates) : Prop where
  valid : ∀ {e : Hash} {s : Signed}, V[e]? = some s →
    C[e]? = some s ∧ isSubject s = true ∧ Admitted out e
  closed : Closed V

theorem Lower.branch {cr : Crypto} {C V : Candidates} {out : BTreeMap Status} {s : Subjects}
    (lower : Lower C out V) (verdicts : Verdicts cr C out s) : Branch cr C V := by
  refine verdicts.branch.mono ⟨fun hs => ?_⟩ lower.closed
  obtain ⟨hC, hsubject, hvalid⟩ := lower.valid hs
  obtain ⟨st, hst, hstate⟩ := admitted_iff.mp hvalid
  exact validOf_get.mpr ⟨hC, hsubject, st, hst, hstate⟩

theorem Lower.whole {C : Candidates} {out : BTreeMap Status} (h : ∀ item ∈ C.toList,
    isSubject item.2 = true ∧ Admitted out item.1 ∧ ∀ p ∈ parentsOf item.2, p ∈ C) :
    Lower C out C where
  valid := fun {e} {s} hs => by
    have := h (e, s) (Std.ExtTreeMap.mem_toList_iff_getElem?_eq_some.mpr hs)
    exact ⟨hs, this.1, this.2.1⟩
  closed := ⟨fun {e p s} hs hp =>
    (h (e, s) (Std.ExtTreeMap.mem_toList_iff_getElem?_eq_some.mpr hs)).2.2 p hp⟩

/-- The steps of `derive` up to the strata, on the events `V`. -/
structure Strata (cr : Crypto) (V : Candidates) (p : Provenance) (order : List Hash)
    (relinquishments : BTreeSet) (A : Authority) : Prop where
  traced : provenance cr V = some p
  ordered : Scan.order ⟨V, revokesOf V, p⟩ = some order
  rooted : Scan.relinquishments ⟨V, revokesOf V, p⟩ cr = some relinquishments
  computed : Scan.strata ⟨V, revokesOf V, p⟩ cr order relinquishments
    (Scan.maxDepth ⟨V, revokesOf V, p⟩) = some A.effectiveRevokes

theorem derive_strata {cr : Crypto} {V : Candidates} {A : Authority} (h : derive cr V = some A) :
    ∃ p order relinquishments, Strata cr V p order relinquishments A := by
  obtain ⟨p, hp, h⟩ := Option.bind_eq_some_iff.mp h
  obtain ⟨order, horder, h⟩ := Option.bind_eq_some_iff.mp h
  obtain ⟨relinquishments, hrel, h⟩ := Option.bind_eq_some_iff.mp h
  obtain ⟨effective, heffective, h⟩ := Option.bind_eq_some_iff.mp h
  obtain ⟨canceled, _, h⟩ := Option.bind_eq_some_iff.mp h
  obtain ⟨tombstones, _, h⟩ := Option.bind_eq_some_iff.mp h
  obtain ⟨start, _, h⟩ := Option.bind_eq_some_iff.mp h
  obtain ⟨effects, _, h⟩ := Option.bind_eq_some_iff.mp h
  obtain rfl := Option.some.inj h
  exact ⟨p, order, relinquishments, hp, horder, hrel, heffective⟩

/-- What stratum `n` decided still stands at stratum `m`: which revokes signed at most `n`
grants deep are effective, and which grants at most `n + 1` deep are canceled. -/
def Decided (cr : Crypto) (V : Candidates) (p : Provenance) (order : List Hash)
    (relinquishments : BTreeSet) (n m : Nat) : Prop :=
  ∃ early late, Scan.strata ⟨V, revokesOf V, p⟩ cr order relinquishments n = some early ∧
    Scan.strata ⟨V, revokesOf V, p⟩ cr order relinquishments m = some late ∧
    (∀ (r : Hash) (s : Signed) (path : BTreeSet), V[r]? = some s → (revoked s).isSome →
      p.lineage[signer cr r s]? = some path → r ∈ relinquishments ∨ path.size ≤ n →
      (r ∈ early ↔ r ∈ late)) ∧
    ∃ canceled canceled', Scan.cancellations ⟨V, revokesOf V, p⟩ order early = some canceled ∧
      Scan.cancellations ⟨V, revokesOf V, p⟩ order late = some canceled' ∧
      ∀ (g : Hash) (path : BTreeSet), p.lineage[g]? = some path → path.size ≤ n + 1 →
        (g ∈ canceled ↔ g ∈ canceled')

namespace Branch
variable {cr : Crypto} {C V : Candidates} (branch : Branch cr C V)
include branch

/-- A decision about a revoke needs only the strata above its signing grant. -/
theorem strata_decided {p : Provenance} {order : List Hash} {relinquishments : BTreeSet}
    {A : Authority} (strata : Strata cr V p order relinquishments A) {n m : Nat} (hnm : n ≤ m) :
    Decided cr V p order relinquishments n m := by
  obtain ⟨p', hp', complete⟩ := branch.provenance_spec
  obtain rfl := Option.some.inj (strata.traced.symm.trans hp')
  obtain ⟨order', horder', hissued, hsorted⟩ := order_spec complete
  obtain rfl := Option.some.inj (strata.ordered.symm.trans horder')
  obtain ⟨rel', hrel', hrel⟩ := branch.relinquishments_spec complete
  obtain rfl := Option.some.inj (strata.rooted.symm.trans hrel')
  obtain ⟨early, hearly, hstage⟩ := branch.strata_spec complete hissued hsorted hrel n
  obtain ⟨late, hlate, hstage'⟩ := branch.strata_spec complete hissued hsorted hrel m
  have hsame : ∀ r, (history cr V).rank r ≤ n → (r ∈ early ↔ r ∈ late) := by
    intro r hr
    rw [hstage, hstage', Kernel.stage_stable hnm hr]
  have hcancels : ∀ (k : Nat) (E : BTreeSet), (∀ r, r ∈ E ↔ r ∈ Kernel.stage (history cr V).Revokes
      (history cr V).Attacks (history cr V).rank k) → ∃ canceled,
      Scan.cancellations ⟨V, revokesOf V, p⟩ order E = some canceled ∧ Cancels cr V E canceled :=
    fun k E hE => branch.cancellations_spec complete
      (fun r hr => (Kernel.stage_arg ((hE r).mp hr)).1) hissued hsorted
  obtain ⟨canceled, hcanceled, cancels⟩ := hcancels n early hstage
  obtain ⟨canceled', hcanceled', cancels'⟩ := hcancels m late hstage'
  refine ⟨early, late, hearly, hlate, ?_, canceled, canceled', hcanceled, hcanceled', ?_⟩
  · intro r s path hs hrevoked hpath hdepth
    refine hsame r ?_
    rcases hdepth with hr | hdepth
    · rw [branch.lawful.rank_eq_zero.mpr ((hrel r).mp hr)]
      exact n.zero_le
    · obtain ⟨d, hd, _⟩ := branch.signer_issued (mem_of_getElem? hs)
      rw [history_signer hs] at hd
      obtain ⟨path', hpath', _, hsize⟩ := complete.lineage hd
      obtain rfl := Option.some.inj (hpath.symm.trans hpath')
      have hle := History.rank_le_depth (H := history cr V) r
      rw [history_signer hs] at hle
      omega
  · intro g path hpath hdepth
    have hdeep : (history cr V).depth g ≤ n + 1 := by
      obtain ⟨d, hd⟩ := complete.grant_mem.mp (complete.reads.traced.mp (mem_of_getElem? hpath))
      obtain ⟨path', hpath', _, hsize⟩ := complete.lineage hd
      obtain rfl := Option.some.inj (hpath.symm.trans hpath')
      omega
    rw [cancels.mem, cancels'.mem]
    -- A revoke that cuts `g` signs through a grant above `g`, or relinquishes the root.
    have hrank : ∀ r, (history cr V).Cuts r g → (history cr V).rank r ≤ n := by
      intro r hcut
      rcases branch.lawful.cuts_above hcut with habove | hr
      · have hlt := branch.lawful.depth_lt habove
        have hle := History.rank_le_depth (H := history cr V) r
        omega
      · rw [branch.lawful.rank_eq_zero.mpr hr]
        exact n.zero_le
    exact exists_congr fun r => and_congr_left fun hcut => hsame r (hrank r hcut)

end Branch

/-! ## Root self-revocations -/

/-- `q` revokes the root grant of the subject `g` through that grant. -/
def RelinquishesRoot (cr : Crypto) (V : Candidates) (g q : Hash) : Prop :=
  ∃ s cascade, V[q]? = some s ∧ revoked s = some (rootGrant cr g, cascade) ∧
    signer cr q s = rootGrant cr g

instance (cr : Crypto) (V : Candidates) (g q : Hash) : Decidable (RelinquishesRoot cr V g q) :=
  decidable_of_iff ((V[q]?).any fun s => (revoked s).any (fun r => r.1 = rootGrant cr g) &&
    signer cr q s = rootGrant cr g) (by
  simp [RelinquishesRoot, Option.any_eq_true])

namespace Branch
variable {cr : Crypto} {C V : Candidates} (branch : Branch cr C V)
variable {g : Hash} {s : Signed} (hs : V[g]? = some s) (hkind : s.envelope.payload.kind = .genesis)
include branch hs

theorem root_grant : (history cr V).Root (rootGrant cr g) := by
  rintro i ⟨e, t, grant, ht, he, hi⟩
  rcases issued_kind he with ⟨_, _, hnone, _⟩ | ⟨_, _, _, _, heq, _⟩
  · simp [hnone] at hi
  · exact branch.free.root_fresh (branch.within.mem (mem_of_getElem? hs))
      (branch.within.mem (mem_of_getElem? ht)) heq

theorem relinquishes_iff {q : Hash} :
    (history cr V).Relinquishes q ∧ (history cr V).signer q = rootGrant cr g ↔
      RelinquishesRoot cr V g q := by
  constructor
  · rintro ⟨⟨c, ⟨t, ht, hr⟩, _⟩, hsigner⟩
    rw [hsigner] at hr
    exact ⟨t, c, ht, hr, (history_signer ht).symm.trans hsigner⟩
  · rintro ⟨t, c, ht, hr, hsigner⟩
    have heq : (history cr V).signer q = rootGrant cr g := (history_signer ht).trans hsigner
    refine ⟨⟨c, ?_, ?_⟩, heq⟩
    · rw [heq]
      exact ⟨t, ht, hr⟩
    · rw [heq]
      exact branch.root_grant hs

include hkind in
/-- A Genesis keeps its authority unless its root grant is relinquished. -/
theorem genesis_eligible {E : Set Hash} (hroot : ∀ q ∈ E, ¬ RelinquishesRoot cr V g q) :
    (history cr V).Eligible E g := by
  have hsigner : (history cr V).signer g = rootGrant cr g := by
    rw [history_signer hs, signer, ((branch.law hs).genesis hkind).2.1]
    rfl
  have hrevoke : ¬ (history cr V).Relinquishes g := by
    rintro ⟨c, ⟨t, ht, hr⟩, _⟩
    obtain rfl := Option.some.inj (hs.symm.trans ht)
    cases hp : s.envelope.payload <;> simp [hp, Payload.kind, revoked] at hkind hr
  refine ⟨mem_of_getElem? hs, hrevoke, fun hsup => ?_⟩
  cases hsup with
  | struck h =>
    obtain ⟨_, _, q, hq, hsilences⟩ := h
    have hkeeps := History.root_not_silenced branch.lawful
      (hsigner ▸ branch.root_grant hs) hsilences
    exact hroot q hq ((branch.relinquishes_iff hs).mp ⟨hkeeps.1, hkeeps.2.trans hsigner⟩)
  | inherit hp _ _ =>
    rw [parent_iff hs, ((branch.law hs).genesis hkind).2.2] at hp
    exact absurd hp List.not_mem_nil

end Branch

/-- The effective revokes of a causally closed set of valid events are the one
self-consistent set of its revokes, and the strata compute it without revision. -/
theorem revocation_unique (cr : Crypto) (C : Candidates) (free : CollisionFree cr C)
    {out : BTreeMap Status} (hout : classify cr C = some out) {V : Candidates}
    (lower : Lower C out V) :
    ∃ A p order relinquishments, derive cr V = some A ∧
      (history cr V).SelfConsistent A.revokes ∧
      (∀ E, (history cr V).SelfConsistent E → E = A.revokes) ∧
      (∀ g, g ∈ A.canceled ↔ (history cr V).Canceled A.revokes g) ∧
      Strata cr V p order relinquishments A ∧
      ∀ n m, n ≤ m → Decided cr V p order relinquishments n m := by
  obtain ⟨out', s, hout', verdicts⟩ := classify_spec free
  obtain rfl := Option.some.inj (hout.symm.trans hout')
  have branch := lower.branch verdicts
  obtain ⟨A, hA, reads⟩ := branch.derive_spec
  obtain ⟨p, order, relinquishments, strata⟩ := derive_strata hA
  refine ⟨A, p, order, relinquishments, hA, History.selfConsistent_iff.mpr reads.effective,
    fun E hE => ?_, fun g => ?_, strata, fun n m hnm => branch.strata_decided strata hnm⟩
  · exact branch.lawful.effective_unique (History.selfConsistent_iff.mp hE) reads.effective
  · rw [reads.canceled, History.canceled_iff]

/-- The root revokes its delegate beside a correction of that delegate. -/
def overridden : Candidates := Sample.candidates
  [(1, Sample.genesis Sample.alice 7), (2, Sample.delegate Sample.alice Sample.root 1 Sample.bob),
   (3, Sample.correction Sample.bob 2 2 7 8), (4, Sample.revoke Sample.alice Sample.root 2 2 true)]

theorem overridden_run : CollisionFree Sample.crypto overridden ∧ ∃ out,
    classify Sample.crypto overridden = some out ∧ Lower overridden out overridden := by
  have h : (do
    let out ← classify Sample.crypto overridden
    return overridden.toList.all fun item => isSubject item.2 && decide (Admitted out item.1) &&
      (parentsOf item.2).all fun p => overridden.contains p) = some true := by decide +kernel
  obtain ⟨out, hout, h⟩ := Option.bind_eq_some_iff.mp h
  exact ⟨by decide +kernel, out, hout, Lower.whole (by simpa [and_assoc] using h)⟩

theorem revocation_unique_overridden : ∃ out A p order relinquishments,
    Lower overridden out overridden ∧ derive Sample.crypto overridden = some A ∧
      (history Sample.crypto overridden).SelfConsistent A.revokes ∧
      (∀ E, (history Sample.crypto overridden).SelfConsistent E → E = A.revokes) ∧
      (∀ g, g ∈ A.canceled ↔ (history Sample.crypto overridden).Canceled A.revokes g) ∧
      Strata Sample.crypto overridden p order relinquishments A ∧
      ∀ n m, n ≤ m → Decided Sample.crypto overridden p order relinquishments n m := by
  obtain ⟨free, out, hout, lower⟩ := overridden_run
  obtain ⟨A, p, order, relinquishments, h⟩ :=
    revocation_unique Sample.crypto overridden free hout lower
  exact ⟨out, A, p, order, relinquishments, lower, h⟩

end Clockchain.V1
