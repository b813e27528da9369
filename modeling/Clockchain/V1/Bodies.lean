import Clockchain.V1.Revocation

/-!
# Current bodies

When a subject keeps a current body, and when the revision a frontier event selects
comes from an event with no reason against it.
-/

namespace Clockchain.V1
open Relation Maps
set_option autoImplicit false

def Projection.Clear (p : Projection) (e : Hash) : Prop :=
  ∃ effect, p.authority.effects[e]? = some effect ∧ effect.reason = .none

/-- Authority has no reason against `e`, or only that it gives up the root grant. -/
def Projection.Unsuppressed (p : Projection) (e : Hash) : Prop :=
  ∃ effect, p.authority.effects[e]? = some effect ∧
    (effect.reason = .none ∨ effect.reason = .rootRelinquished)

/-- The event that created the revision `h` selects is clear. -/
def Projection.Publishes (p : Projection) (h : Hash) : Prop :=
  ∃ row ∈ p.rows, row.event = h ∧ ∃ rev ∈ p.revisions, row.revision = some rev.id ∧
    p.Clear rev.creatingEvent

section
variable {cr : Crypto} {C : Candidates} {out : BTreeMap Status} {s : Subjects} {A : Authority}
variable {p : Projection} (verdicts : Verdicts cr C out s) (reads : A.Reads cr (validOf C out))
variable (projected : Projected cr C out A p)
include verdicts reads projected

theorem clear_iff {e : Hash} :
    p.Clear e ↔ (history cr (validOf C out)).Eligible A.revokes e := by
  unfold Projection.Clear
  rw [projected.authority]
  constructor
  · rintro ⟨effect, heffect, hreason⟩
    have he := (reads.effects e).mp (mem_of_getElem? heffect)
    rw [← reasonOf_none verdicts.branch.lawful he, ← reads.reason heffect, hreason]
  · intro hel
    obtain ⟨effect, heffect, hreason⟩ := reads.effect hel.1
    exact ⟨effect, heffect, hreason.trans ((reasonOf_none verdicts.branch.lawful hel.1).mpr hel)⟩

theorem unsuppressed_iff {e : Hash} (he : e ∈ validOf C out) :
    p.Unsuppressed e ↔ ¬ (history cr (validOf C out)).Suppressed A.revokes e := by
  unfold Projection.Unsuppressed
  rw [projected.authority, ← reasonOf_suppressed verdicts.branch.lawful he, not_and_or, not_not,
    not_not]
  constructor
  · rintro ⟨effect, heffect, hreason⟩
    rwa [reads.reason heffect] at hreason
  · intro hreason
    obtain ⟨effect, heffect, hreads⟩ := reads.effect he
    exact ⟨effect, heffect, hreads ▸ hreason⟩

omit reads in
/-- The row of a valid event names the revision its creator made. -/
theorem publishes_iff {h c : Hash} (hh : h ∈ validOf C out)
    (hc : Selects cr (validOf C out) h c) : p.Publishes h ↔ p.Clear c := by
  have hfree := verdicts.branch.free_within
  have hrevisions : ∀ rev : Revision, rev ∈ p.revisions ↔
      ∃ r : Hash, (V1.revisions cr (validOf C out))[r]? = some rev := by
    intro rev
    rw [projected.revisions, List.mem_map]
    constructor
    · rintro ⟨⟨r, _⟩, hr, rfl⟩
      exact ⟨r, Std.ExtTreeMap.mem_toList_iff_getElem?_eq_some.mp hr⟩
    · rintro ⟨r, hr⟩
      exact ⟨(r, rev), Std.ExtTreeMap.mem_toList_iff_getElem?_eq_some.mpr hr, rfl⟩
  -- A row at `h` and a revision it names were made by `c`.
  have hcreator : ∀ row ∈ p.rows, row.event = h → ∀ rev ∈ p.revisions,
      row.revision = some rev.id → rev.creatingEvent = c := by
    intro row hrow hevent rev hrev hid
    obtain ⟨d, t, hd, ht, heq⟩ := (projected.rows row hrow).selected hid
    obtain ⟨r, hr⟩ := (hrevisions rev).mp hrev
    obtain ⟨d', t', ht', hrev', rfl⟩ := (revisions_get hfree).mp hr
    obtain ⟨hid', hcreating, _⟩ := revisionOf_some hrev'
    rw [hcreating, hfree.revision_inj ht' ht (hid'.symm.trans heq)]
    rw [hevent] at hd
    exact hd.unique hfree hc
  constructor
  · rintro ⟨row, hrow, hevent, rev, hrev, hid, hclear⟩
    rwa [hcreator row hrow hevent rev hrev hid] at hclear
  · intro hclear
    have hkey : h ∈ p.rows.map EventReading.event := by
      rw [projected.events, Std.ExtTreeMap.mem_keys]
      exact verdicts.branch.within.mem hh
    obtain ⟨row, hrow, hevent⟩ := List.mem_map.mp hkey
    obtain ⟨r, hr⟩ := Option.isSome_iff_exists.mp
      ((projected.rows row hrow).revision.mpr (hevent ▸ hh))
    obtain ⟨d, t, hd, ht, heq⟩ := (projected.rows row hrow).selected hr
    obtain ⟨u, hu, hb⟩ := hd.creator
    obtain rfl := Option.some.inj (ht.symm.trans hu)
    obtain ⟨b, hb⟩ := Option.isSome_iff_exists.mp hb
    obtain ⟨rev, hrev, _⟩ := revisions_created hfree ht hb
    have hmem := (hrevisions rev).mpr ⟨_, hrev⟩
    obtain ⟨d', t', ht', hrev', hid⟩ := (revisions_get hfree).mp hrev
    have hid' : row.revision = some rev.id := by rw [hr, heq, hid]
    refine ⟨row, hrow, hevent, rev, hmem, hid', ?_⟩
    rwa [hcreator row hrow hevent rev hmem hid']

end

/-! ## Keeping a body -/

theorem state_empty {cr : Crypto} {W : Candidates} {A : Authority} {r : SubjectReading}
    (reads : r.Reads cr W A) :
    r.state = .noCurrentBody ↔
      ¬ ((history cr W).Frontier A.revokes (actsOf W r.subject)).Nonempty := by
  rw [reads.state, subjectStateOf, Set.not_nonempty_iff_eq_empty]
  split_ifs with h1 h2 <;> simp [h1]

/-- Unless its root is relinquished, a subject has a current body exactly when some clear
event of it is outside the past of every effective revoke that is not itself clear. -/
theorem body_kept_iff (cr : Crypto) (C : Candidates) (free : CollisionFree cr C)
    {out : BTreeMap Status} (hout : classify cr C = some out) {g : Hash} {s : Signed}
    (hs : C[g]? = some s) (hkind : s.envelope.payload.kind = .genesis) (hvalid : Admitted out g)
    {p : Projection} (hp : project cr C = some p)
    (hroot : ∀ q ∈ p.authority.effectiveRevokes, ¬ RelinquishesRoot cr C g q) :
    ∃ r ∈ p.subjects, r.subject = g ∧ (r.state ≠ .noCurrentBody ↔ ∃ e, e ∈ r.frontier) ∧
      (r.state ≠ .noCurrentBody ↔ ∃ e ∈ actsOf C g, p.Clear e ∧
        ∀ q ∈ actsOf C g, q ∈ p.authority.effectiveRevokes → ¬ p.Clear q →
          ¬ (history cr C).Before e q) ∧
      ((∀ q ∈ actsOf C g, q ∈ p.authority.effectiveRevokes → p.Clear q) →
        r.state ≠ .noCurrentBody) := by
  obtain ⟨out', subjects, A, p', hout', verdicts, _, reads, hp', projected⟩ := project_spec free
  obtain rfl := Option.some.inj (hout.symm.trans hout')
  obtain rfl := Option.some.inj (hp.symm.trans hp')
  have branch := verdicts.branch
  have hclear := fun e => clear_iff verdicts reads projected (e := e)
  have hE : ∀ q, q ∈ p.authority.effectiveRevokes ↔ q ∈ A.revokes := by
    intro q
    rw [projected.authority]
    rfl
  have hW : (validOf C out)[g]? = some s := by
    obtain ⟨st, hst, hstate⟩ := admitted_iff.mp hvalid
    refine validOf_get.mpr ⟨hs, ?_, st, hst, hstate⟩
    cases hp : s.envelope.payload <;> simp [hp, Payload.kind, isSubject] at hkind ⊢
  have hgenesis : (history cr (validOf C out)).Eligible A.revokes g := by
    refine branch.genesis_eligible hW hkind fun q hq hrel => ?_
    obtain ⟨t, c, ht, hr, hsigner⟩ := hrel
    exact hroot q ((hE q).mpr hq) ⟨t, c, branch.within.sub ht, hr, hsigner⟩
  have hsubject : g ∈ p.subjects.map SubjectReading.subject := by
    rw [projected.named]
    exact genesesOf_mem.mpr ⟨s, hW, hkind⟩
  obtain ⟨r, hr, rfl⟩ := List.mem_map.mp hsubject
  have hreads := projected.subjects r hr
  have hacts : ∀ {e}, e ∈ validOf C out → (e ∈ actsOf C r.subject ↔
      e ∈ actsOf (validOf C out) r.subject) := by
    intro e he
    obtain ⟨t, ht⟩ := mem_iff.mp he
    simp [actsOf, ht, branch.within.sub ht]
  have hiff : r.state ≠ .noCurrentBody ↔ ∃ e ∈ actsOf C r.subject, p.Clear e ∧
      ∀ q ∈ actsOf C r.subject, q ∈ p.authority.effectiveRevokes → ¬ p.Clear q →
        ¬ (history cr C).Before e q := by
    rw [Ne, state_empty hreads, not_not, History.frontier_nonempty_iff branch.lawful]
    refine exists_congr fun e => ?_
    simp only [hclear, hE]
    constructor
    · rintro ⟨he, hel, hfree⟩
      refine ⟨(hacts hel.1).mpr he, hel, fun q hq hqE hqel hbefore => hfree ⟨q, ?_⟩⟩
      have hqW := (reads.effective.revokes hqE).mem branch.lawful
      exact ⟨(hacts hqW).mp hq, hqE, hqel, (branch.within.before_iff branch.closed hqW).mpr hbefore⟩
    · rintro ⟨he, hel, hfree⟩
      refine ⟨(hacts hel.1).mp he, hel, ?_⟩
      rintro ⟨q, hq, hqE, hqel, hbefore⟩
      have hqW := (reads.effective.revokes hqE).mem branch.lawful
      exact hfree q ((hacts hqW).mpr hq) hqE hqel
        ((branch.within.before_iff branch.closed hqW).mp hbefore)
  refine ⟨r, hr, rfl, ?_, hiff, fun hall => hiff.mpr ⟨r.subject, ?_, ?_, ?_⟩⟩
  · rw [Ne, state_empty hreads, not_not]
    exact exists_congr fun e => (hreads.frontier e).symm
  · exact ⟨s, hs, branch.genesis_subject hW hkind⟩
  · exact (hclear _).mpr hgenesis
  · exact fun q hq hqE hnot => absurd (hall q hq hqE) hnot

/-- Two delegates correct the same parent; the root revokes each of them beside the
correction of the other. -/
def stranded : Candidates := Sample.candidates
  [(1, Sample.genesis Sample.alice 7), (2, Sample.delegate Sample.alice Sample.root 1 Sample.bob),
   (3, Sample.delegate Sample.alice Sample.root 2 Sample.carol),
   (4, Sample.correction Sample.bob 2 3 7 8), (5, Sample.correction Sample.carol 3 3 7 9),
   (6, Sample.revoke Sample.alice Sample.root 4 3 false),
   (7, Sample.revoke Sample.alice Sample.root 5 2 false)]

theorem stranded_run : CollisionFree Sample.crypto stranded ∧ (do
    let out ← classify Sample.crypto stranded
    let s ← stranded[(1 : Hash)]?
    let p ← project Sample.crypto stranded
    return decide (s.envelope.payload.kind = .genesis) && decide (Admitted out 1) &&
      (p.authority.effectiveRevokes.toList.all fun q =>
        !decide (RelinquishesRoot Sample.crypto stranded 1 q)) &&
      p.subjects.any fun r => r.subject = 1 && r.frontier.isEmpty && r.state = .noCurrentBody) =
      some true := by
  decide +kernel

/-- No root grant is relinquished, and yet no body is left. -/
theorem body_lost_stranded : CollisionFree Sample.crypto stranded ∧ ∃ out s p,
    classify Sample.crypto stranded = some out ∧ stranded[(1 : Hash)]? = some s ∧
      project Sample.crypto stranded = some p ∧ s.envelope.payload.kind = .genesis ∧
      Admitted out 1 ∧
      (∀ q ∈ p.authority.effectiveRevokes, ¬ RelinquishesRoot Sample.crypto stranded 1 q) ∧
      ∃ r ∈ p.subjects, r.subject = 1 ∧ r.frontier.isEmpty ∧ r.state = .noCurrentBody := by
  obtain ⟨free, h⟩ := stranded_run
  obtain ⟨out, hout, h⟩ := Option.bind_eq_some_iff.mp h
  obtain ⟨s, hs, h⟩ := Option.bind_eq_some_iff.mp h
  obtain ⟨p, hp, h⟩ := Option.bind_eq_some_iff.mp h
  exact ⟨free, out, s, p, hout, hs, hp, by simpa [and_assoc] using h⟩

theorem body_kept_iff_stranded : ∃ p, project Sample.crypto stranded = some p ∧
    ∃ r ∈ p.subjects, r.subject = 1 ∧ (r.state ≠ .noCurrentBody ↔ ∃ e, e ∈ r.frontier) ∧
      (r.state ≠ .noCurrentBody ↔ ∃ e ∈ actsOf stranded 1, p.Clear e ∧
        ∀ q ∈ actsOf stranded 1, q ∈ p.authority.effectiveRevokes → ¬ p.Clear q →
          ¬ (history Sample.crypto stranded).Before e q) ∧
      ((∀ q ∈ actsOf stranded 1, q ∈ p.authority.effectiveRevokes → p.Clear q) →
        r.state ≠ .noCurrentBody) := by
  obtain ⟨free, h⟩ := stranded_run
  obtain ⟨out, hout, h⟩ := Option.bind_eq_some_iff.mp h
  obtain ⟨s, hs, h⟩ := Option.bind_eq_some_iff.mp h
  obtain ⟨p, hp, h⟩ := Option.bind_eq_some_iff.mp h
  simp only [Option.pure_def, Option.some.injEq, Bool.and_eq_true, decide_eq_true_eq,
    List.all_eq_true, Std.ExtTreeSet.mem_toList, Bool.not_eq_true', decide_eq_false_iff_not] at h
  obtain ⟨⟨⟨hkind, hvalid⟩, hroot⟩, _⟩ := h
  exact ⟨p, hp, body_kept_iff Sample.crypto stranded free hout hs hkind hvalid hp
    hroot⟩

/-! ## Publishing a body -/

/-- A frontier event of `g` stands on a root self-revocation that has an act in its past which a
revoke of `E` silences. -/
def Laundered (cr : Crypto) (W : Candidates) (E : Set Hash) (g : Hash) : Prop :=
  ∃ h ∈ (history cr W).Frontier E (actsOf W g), ∃ r c, (history cr W).Relinquishes r ∧
    (history cr W).Struck E c ∧ (history cr W).Before c r ∧ (history cr W).Before r h

/-- Frontier events publish clear revisions unless a silenced act is laundered through a root
self-revocation, and only then do they stand on a suppressed event at all. -/
theorem published_clear (cr : Crypto) (C : Candidates) (free : CollisionFree cr C) :
    ∃ out p E, classify cr C = some out ∧ project cr C = some p ∧
      (∀ F, (history cr (validOf C out)).SelfConsistent F ↔ F = E) ∧
      ((∀ g, ¬ Laundered cr (validOf C out) E g) →
        ∀ r ∈ p.subjects, ∀ h ∈ r.frontier, p.Publishes h) ∧
      ((∀ g, ¬ Laundered cr (validOf C out) E g) ↔ ∀ r ∈ p.subjects, ∀ h ∈ r.frontier,
        ∀ c, (history cr (validOf C out)).Anc c h → p.Unsuppressed c) := by
  obtain ⟨out, s, A, p, hout, verdicts, _, reads, hp, projected⟩ := project_spec free
  have branch := verdicts.branch
  have hfrontier : ∀ r ∈ p.subjects, ∀ h, h ∈ r.frontier ↔
      h ∈ (history cr (validOf C out)).Frontier A.revokes (actsOf (validOf C out) r.subject) :=
    fun r hr => (projected.subjects r hr).frontier
  have hpast : ∀ {h c}, h ∈ validOf C out → (history cr (validOf C out)).Anc c h →
      (p.Unsuppressed c ↔ ¬ (history cr (validOf C out)).Suppressed A.revokes c) :=
    fun hh hanc => unsuppressed_iff verdicts reads projected (branch.lawful.anc_mem hanc hh)
  have hclean : (∀ g, ¬ Laundered cr (validOf C out) A.revokes g) ↔ ∀ r ∈ p.subjects,
      ∀ h ∈ r.frontier, ∀ c, (history cr (validOf C out)).Anc c h → p.Unsuppressed c := by
    constructor
    · intro hnone r hr h hh c hanc
      have hhead := (hfrontier r hr h).mp hh
      rw [hpast hhead.2.1.1 hanc]
      exact hhead.2.1.past_clean_iff.mpr (fun hex => hnone r.subject ⟨h, hhead, hex⟩) c hanc
    · rintro hall g ⟨h, hhead, hex⟩
      obtain ⟨t, ht, hsubject⟩ := hhead.1
      obtain ⟨u, hu, hkind, _⟩ := branch.genesis_exists ht
      rw [hsubject] at hu
      have hnamed : g ∈ p.subjects.map SubjectReading.subject := by
        rw [projected.named]
        exact genesesOf_mem.mpr ⟨u, hu, hkind⟩
      obtain ⟨r, hr, rfl⟩ := List.mem_map.mp hnamed
      refine hhead.2.1.past_clean_iff.mp (fun c hanc => ?_) hex
      exact (hpast hhead.2.1.1 hanc).mp (hall r hr h ((hfrontier r hr h).mpr hhead) c hanc)
  refine ⟨out, p, A.revokes, hout, hp, fun F => ?_, fun hnone r hr h hh => ?_, hclean⟩
  · rw [History.selfConsistent_iff]
    exact ⟨fun hF => branch.lawful.effective_unique hF reads.effective,
      fun heq => heq ▸ reads.effective⟩
  · have hmem := ((hfrontier r hr h).mp hh).2.1.1
    obtain ⟨c, hc, hanc⟩ := branch.selects_exists hmem
    have hsup := (hpast hmem hanc).mp (hclean.mp hnone r hr h hh c hanc)
    rw [publishes_iff verdicts projected hmem hc, clear_iff verdicts reads projected]
    -- The creator of a revision carries a body, which a revoke does not.
    obtain ⟨u, hu, hb⟩ := hc.creator
    refine ⟨mem_of_getElem? hu, ?_, hsup⟩
    rintro ⟨_, ⟨v, hv, hrevoked⟩, _⟩
    obtain rfl := Option.some.inj (hu.symm.trans hv)
    cases hp : u.envelope.payload <;> simp [hp, revoked, Payload.newBody] at hrevoked hb

/-- The correction `4` is signed through a revoked grant; the self-revocation `5` stands on
it, and the head `6` on that. -/
def laundered : Candidates := Sample.candidates
  [(1, Sample.genesis Sample.alice 7), (2, Sample.delegate Sample.alice Sample.root 1 Sample.bob),
   (3, Sample.delegate Sample.bob 2 2 Sample.carol), (4, Sample.correction Sample.carol 3 3 7 8),
   (5, Sample.revoke Sample.alice Sample.root 4 Sample.root false),
   (6, Sample.delegate Sample.bob 2 5 Sample.dave), (7, Sample.revoke Sample.bob 2 3 3 false),
   (8, Sample.revoke Sample.alice Sample.root 7 Sample.root false)]

theorem laundered_run : CollisionFree Sample.crypto laundered ∧ (do
    let p ← project Sample.crypto laundered
    return (p.subjects.any fun r => r.frontier.contains 6) && p.rows.all fun row =>
      row.event ≠ 6 || p.revisions.all fun rev => row.revision ≠ some rev.id ||
        (p.authority.effects[rev.creatingEvent]?).all fun effect => effect.reason ≠ .none) =
      some true := by
  decide +kernel

/-- The head `6` publishes the correction `4`. -/
theorem published_laundered : CollisionFree Sample.crypto laundered ∧
    ∃ p, project Sample.crypto laundered = some p ∧
      ¬ ∀ r ∈ p.subjects, ∀ h ∈ r.frontier, p.Publishes h := by
  obtain ⟨free, h⟩ := laundered_run
  obtain ⟨p, hp, h⟩ := Option.bind_eq_some_iff.mp h
  simp only [Option.pure_def, Option.some.injEq, Bool.and_eq_true, List.any_eq_true,
    List.all_eq_true, Bool.or_eq_true, Std.ExtTreeSet.contains_iff_mem] at h
  obtain ⟨⟨r, hr, hhead⟩, hrows⟩ := h
  refine ⟨free, p, hp, fun hall => ?_⟩
  obtain ⟨row, hrow, hevent, rev, hrev, hid, effect, heffect, hreason⟩ := hall r hr 6 hhead
  have h := (hrows row hrow).resolve_left (by simp [hevent]) rev hrev
  simp [hid, heffect, hreason] at h

/-- Bob acts on the correction `3` after the self-revocation `4`; carol's act `7` beside it and
bob's act `9` on that are silenced by `8`. -/
def unlaundered : Candidates := Sample.candidates
  [(1, Sample.genesis Sample.alice 7), (2, Sample.delegate Sample.alice Sample.root 1 Sample.bob),
   (3, Sample.correction Sample.bob 2 2 7 8),
   (4, Sample.revoke Sample.alice Sample.root 3 Sample.root false),
   (5, Sample.correction Sample.bob 2 4 8 9), (6, Sample.delegate Sample.bob 2 2 Sample.carol),
   (7, Sample.correction Sample.carol 6 6 7 10), (8, Sample.revoke Sample.bob 2 6 6 false),
   (9, Sample.delegate Sample.bob 2 7 Sample.dave)]

/-- The events that `8` leaves as they are. -/
def untouched : List Hash := [1, 2, 3, 4, 5, 6, 8]

theorem unlaundered_run : CollisionFree Sample.crypto unlaundered ∧ (do
    let p ← project Sample.crypto unlaundered
    return (p.subjects.any fun r => r.frontier.contains 5) &&
      (p.subjects.all fun r => r.frontier.toList.all (· ∈ untouched)) && untouched.all fun e =>
        (p.authority.effects[e]?).any (fun effect =>
          effect.reason = .none || effect.reason = .rootRelinquished) &&
        (unlaundered[e]?).all fun s => (parentsOf s).all (· ∈ untouched)) = some true := by
  decide +kernel

theorem published_clear_unlaundered : ∃ out p E,
    classify Sample.crypto unlaundered = some out ∧ project Sample.crypto unlaundered = some p ∧
      (∀ F, (history Sample.crypto (validOf unlaundered out)).SelfConsistent F ↔ F = E) ∧
      (∀ g, ¬ Laundered Sample.crypto (validOf unlaundered out) E g) ∧
      (∃ r ∈ p.subjects, (5 : Hash) ∈ r.frontier) ∧
      ∀ r ∈ p.subjects, ∀ h ∈ r.frontier, p.Publishes h := by
  obtain ⟨free, h⟩ := unlaundered_run
  obtain ⟨p, hp, h⟩ := Option.bind_eq_some_iff.mp h
  simp only [Option.pure_def, Option.some.injEq, Bool.and_eq_true, List.any_eq_true,
    List.all_eq_true, decide_eq_true_eq, Std.ExtTreeSet.contains_iff_mem,
    Std.ExtTreeSet.mem_toList] at h
  obtain ⟨⟨hhead, hfrontier⟩, huntouched⟩ := h
  obtain ⟨out, p', E, hout, hp', hE, hpublishes, hclean⟩ :=
    published_clear Sample.crypto unlaundered free
  obtain rfl := Option.some.inj (hp.symm.trans hp')
  have hpast : ∀ {c h}, (history Sample.crypto (validOf unlaundered out)).Anc c h →
      h ∈ untouched → c ∈ untouched := by
    intro c h hanc hh
    induction hanc using ReflTransGen.head_induction_on with
    | refl => exact hh
    | head hparent _ ih =>
      obtain ⟨s, hs, hmem⟩ := hparent
      have hparents := (huntouched _ ih).2
      simp only [(validOf_get.mp hs).1, Option.all_some, List.all_eq_true,
        decide_eq_true_eq] at hparents
      exact hparents _ hmem
  have hnone := hclean.mpr fun r hr h hh c hanc => by
    obtain ⟨effect, heffect, hreason⟩ :=
      (Option.any_eq_true _ _).mp (huntouched c (hpast hanc (hfrontier r hr h hh))).1
    exact ⟨effect, heffect, by simpa using hreason⟩
  exact ⟨out, p, E, hout, hp, hE, hnone, hhead, hpublishes hnone⟩

end Clockchain.V1
