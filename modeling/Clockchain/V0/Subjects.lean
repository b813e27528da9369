import Clockchain.V0.Agreement
import Clockchain.V0.Admission

/-!
# Subjects stay what they are

What holds of the tables after every run of HTTP admissions: the subjects of moments are
known, each has one body, edges join such subjects, and no stored moment is held.
-/

namespace Clockchain.V0
open Codec Lineages Survivors Programs
open V1 (Hash BTreeMap Crypto Verify)
set_option autoImplicit false

section Admissions
variable {cr : Crypto} {verify : Verify} {events : Events} {s s' : Signed cr verify}
  {ledger ledger' : Ledger} {t t' : Tables}

/-! ## What the checks establish -/

theorem mem_momentsOf {subject : EntityId} {row : MomentRow} : row ∈ t.momentsOf subject ↔
    row.subject = subject ∧ ∃ root : Hash, t.moments[root]? = some row := by
  simp only [Tables.momentsOf, List.mem_filter, List.mem_map, Prod.exists,
    Std.ExtTreeMap.mem_toList_iff_getElem?_eq_some, decide_eq_true_eq, and_comm]
  refine and_congr_right fun _ => exists_congr fun root => ?_
  exact exists_eq_left

theorem checkBirth_ok {birth : EntityBirth} (h : t.checkBirth birth = .ok ()) {prior : EntityRow}
    (hprior : t.entities[birth.entityId]? = some prior) :
    prior.resolutionKey = birth.resolutionKey ∧ prior.canonicalName = birth.canonicalName := by
  unfold Tables.checkBirth at h
  simp only [hprior] at h
  split at h
  · cases h
  · next hsame => exact ⟨by simpa using (not_or.mp hsame).1, by simpa using (not_or.mp hsame).2⟩

theorem checkEndpoint_ok {subject : EntityId} (h : t.checkEndpoint subject = .ok ()) :
    subject ∈ t.entities ∧ ∃ (root : Hash) (row : MomentRow), t.moments[root]? = some row ∧
      row.subject = subject := by
  unfold Tables.checkEndpoint at h
  simp only at h
  split at h
  · cases h
  · next hno =>
    rw [Bool.or_eq_true, not_or] at hno
    obtain ⟨hknown, hone⟩ := hno
    refine ⟨Maps.contains_iff.mp (by simpa using hknown), ?_⟩
    have hlen : ((t.momentsOf subject).map MomentRow.bodyHash).dedup.length = 1 := by
      simpa using hone
    cases hrows : t.momentsOf subject with
    | nil => simp [hrows] at hlen
    | cons row rows =>
      obtain ⟨hsubject, root, hrow⟩ := mem_momentsOf.mp (hrows ▸ List.mem_cons_self)
      exact ⟨root, row, hrow, hsubject⟩

theorem checkParent_ok {moment : MomentBody} {parent : Hash}
    (h : t.checkParent moment parent = .ok ()) : ∃ (root : Hash) (row : MomentRow),
      t.moments[root]? = some row ∧ row.headEventId = parent ∧ row.subject = moment.subject ∧
      row.bodyHash = moment.bodyHash := by
  unfold Tables.checkParent at h
  split at h
  · next root prior hfind =>
    have hhead := List.find?_some hfind
    have hmem := List.mem_of_find?_eq_some hfind
    rw [Std.ExtTreeMap.mem_toList_iff_getElem?_eq_some] at hmem
    split at h
    · next hsame => exact ⟨root, prior, hmem, by simpa using hhead, hsame.1, hsame.2⟩
    · cases h
  · cases h

/-- What a new moment that passes its checks comes with. -/
structure Bound (t : Tables) (moment : MomentBody) (supersedes : Option Hash) : Prop where
  known : moment.subject ∈ t.entities
  bodies : ∀ (root : Hash) (row : MomentRow), t.moments[root]? = some row →
    row.subject = moment.subject → row.bodyHash = moment.bodyHash
  parent : ∀ parent, supersedes = some parent → ∃ (root : Hash) (row : MomentRow),
    t.moments[root]? = some row ∧ row.headEventId = parent ∧ row.subject = moment.subject ∧
      row.bodyHash = moment.bodyHash

theorem checkMoment_ok {moment : MomentBody} {id : Hash} {supersedes : Option Hash}
    (h : t.checkMoment events moment id supersedes = .ok ()) : Bound t moment supersedes := by
  unfold Tables.checkMoment at h
  simp only [unless_ok] at h
  obtain ⟨hknown, hbodies, _, h⟩ := h
  refine ⟨?_, fun root row hrow hsubject => ?_, fun parent hparent => ?_⟩
  · exact Maps.contains_iff.mp (by simpa using hknown)
  · have hmem := mem_momentsOf.mpr ⟨hsubject, root, hrow⟩
    rw [List.any_eq_true, not_exists] at hbodies
    simpa using not_and.mp (hbodies row) hmem
  · subst hparent
    simp only [bind_ok] at h
    obtain ⟨_, hcheck, _⟩ := h
    exact checkParent_ok hcheck

/-! ## What stays -/

/-- The subject is known and has a body. -/
def Tables.Knows (t : Tables) (subject : EntityId) : Prop :=
  subject ∈ t.entities ∧ ∃ (root : Hash) (row : MomentRow), t.moments[root]? = some row ∧
    row.subject = subject

/-- Names, subjects and bodies of `t` are those of `t'`. -/
structure Tables.Keeps (t t' : Tables) : Prop where
  entities : ∀ (k : EntityId) (row : EntityRow), t.entities[k]? = some row →
    ∃ row', t'.entities[k]? = some row' ∧ row'.resolutionKey = row.resolutionKey ∧
      row'.canonicalName = row.canonicalName
  moments : ∀ (root : Hash) (row : MomentRow), t.moments[root]? = some row →
    ∃ row', t'.moments[root]? = some row' ∧ row'.subject = row.subject ∧
      row'.bodyHash = row.bodyHash

theorem Tables.Keeps.refl (t : Tables) : t.Keeps t where
  entities _ row h := ⟨row, h, rfl, rfl⟩
  moments _ row h := ⟨row, h, rfl, rfl⟩

theorem Tables.Keeps.trans {t'' : Tables} (h : t.Keeps t') (h' : t'.Keeps t'') : t.Keeps t'' where
  entities k row hrow := by
    obtain ⟨row', hrow', hkey, hname⟩ := h.entities k row hrow
    obtain ⟨row'', hrow'', hkey', hname'⟩ := h'.entities k row' hrow'
    exact ⟨row'', hrow'', hkey'.trans hkey, hname'.trans hname⟩
  moments root row hrow := by
    obtain ⟨row', hrow', hsubject, hbody⟩ := h.moments root row hrow
    obtain ⟨row'', hrow'', hsubject', hbody'⟩ := h'.moments root row' hrow'
    exact ⟨row'', hrow'', hsubject'.trans hsubject, hbody'.trans hbody⟩

theorem Tables.Keeps.known (h : t.Keeps t') {k : EntityId} (hk : k ∈ t.entities) :
    k ∈ t'.entities := by
  obtain ⟨row, hrow⟩ := Maps.mem_iff.mp hk
  obtain ⟨row', hrow', _⟩ := h.entities k row hrow
  exact Maps.mem_of_getElem? hrow'

theorem Tables.Keeps.knows (h : t.Keeps t') {k : EntityId} (hk : t.Knows k) : t'.Knows k := by
  obtain ⟨hknown, root, row, hrow, rfl⟩ := hk
  obtain ⟨row', hrow', hsubject, _⟩ := h.moments root row hrow
  exact ⟨h.known hknown, root, row', hrow', hsubject⟩

/-- Every stored moment is on a complete chain. -/
def Complete (cr : Crypto) (verify : Verify) (events : Events) : Prop :=
  ∀ s : Signed cr verify, Stored events s → s.kind = .moment → ∃ root, Rooted (up events) s.id root

/-- The invariant of the ledger under HTTP admission. -/
structure Ledger.Guarded (cr : Crypto) (verify : Verify) (ledger : Ledger) : Prop where
  sound : ledger.Sound cr verify
  inChains : ledger.InChains cr verify
  short : ShortChains ledger.events
  complete : Complete cr verify ledger.events
  subjects : ∀ (root : Hash) (row : MomentRow), ledger.tables.moments[root]? = some row →
    row.subject ∈ ledger.tables.entities
  bodies : ∀ (root root' : Hash) (row row' : MomentRow), ledger.tables.moments[root]? = some row →
    ledger.tables.moments[root']? = some row' → row.subject = row'.subject →
    row.bodyHash = row'.bodyHash
  joined : ∀ s : Signed cr verify, Stored ledger.events s → ∀ edge, s.content.body = .edge edge →
    ledger.tables.Knows edge.src ∧ ledger.tables.Knows edge.dst

/-! ## Storing an event where no moment is held -/

/-- No stored moment waits for an event that is missing. -/
theorem Complete.not_waiting (h : Complete cr verify events) (hg : Gated cr verify events)
    (hnew : s.id ∉ events) {x : Hash} {row : EventRow} (hrow : events[x]? = some row)
    (hkind : row.kind = .moment) : row.supersedes ≠ some s.id := by
  intro hsup
  obtain ⟨m, rfl, rfl, hm⟩ := hg.stored hrow
  obtain ⟨root, hrooted⟩ := h m hm hkind
  have hnone : events[s.id]? = none := Std.ExtTreeMap.getElem?_eq_none hnew
  refine hrooted.not_held ?_
  simp only [up, show events[m.id]? = some m.row from hm, hkind, ne_eq, not_true, if_false, hsup,
    hnone]

theorem Complete.up_eq (h : Complete cr verify events) (hg : Gated cr verify events)
    (hnew : s.id ∉ events) {x : Hash} (hx : x ≠ s.id) :
    up (events.insert s.id s.row) x = up events x := by
  rcases up_insert hnew hx with heq | ⟨_, ⟨row, hrow, hkind, hsup⟩, _⟩
  · exact heq
  · exact absurd hsup (h.not_waiting hg hnew hrow hkind)

theorem Complete.not_awaited (h : Complete cr verify events) (hg : Gated cr verify events)
    (hnew : s.id ∉ events) : ¬ Awaited events s := by
  rintro ⟨_, x, row, hrow, hkind, hsup⟩
  exact h.not_waiting hg hnew hrow hkind hsup

/-- Nobody supersedes what is not stored. -/
theorem Gated.above_mem (hg : Gated cr verify events) {x p : Hash} (h : up events x = .above p) :
    ∃ (s : Signed cr verify) (m : MomentBody), s.id = p ∧ Stored events s ∧
      s.content.body = .moment m := by
  obtain ⟨s', _, rfl, hs', _⟩ := hg.moment (x := x) (by simp [h])
  obtain ⟨s, rfl, hs, hcorrects⟩ := above_stored hg hs' h
  obtain ⟨m, hm⟩ := Signed.kind_moment.mp hcorrects.2.1
  exact ⟨s, m, rfl, hs, hm⟩

/-! ## The chain a new moment joins -/

theorem nextLink_self (hg : Gated cr verify events) (h : Complete cr verify events)
    (hnew : s.id ∉ events) (hself : s.content.supersedes ≠ some s.id) :
    nextLink (events.insert s.id s.row) s.id = none := by
  rw [Option.eq_none_iff_forall_ne_some]
  intro y hy
  obtain ⟨row, ⟨hrow, hsup, hkind⟩, _⟩ := nextLink_iff.mp hy
  rw [Maps.getElem?_insert] at hrow
  split at hrow
  · obtain rfl := Option.some.inj hrow
    exact hself hsup
  · exact h.not_waiting hg hnew hrow hkind hsup

theorem nextLink_child {p : Hash} (hlast : nextLink events p = none) (hkind : s.kind = .moment)
    (hsup : s.content.supersedes = some p) :
    nextLink (events.insert s.id s.row) p = some s.id := by
  refine nextLink_iff.mpr ⟨s.row, ⟨stored_self, hsup, hkind⟩, ?_⟩
  rintro ⟨id, row⟩ ⟨hrow, hsup', hkind'⟩
  rw [Maps.getElem?_insert] at hrow
  split at hrow
  · next hid =>
    obtain rfl := Option.some.inj hrow
    obtain rfl : s.id = id := hid
    exact le_rfl
  · obtain ⟨⟨y, row'⟩, hy⟩ := @exists_survivor _ _ _ EventRow.order (children events p) _
      ⟨(id, row), hrow, hsup', hkind'⟩
    rw [nextLink_iff.mpr ⟨row', hy⟩] at hlast
    cases hlast

/-- A checked moment starts a chain or becomes the head of one with its subject and body. -/
theorem Ledger.Guarded.joins (h : ledger.Guarded cr verify) (hnew : s.id ∉ ledger.events)
    {m : MomentBody} (hbody : s.content.body = .moment m)
    (hbound : Bound ledger.tables m s.content.supersedes) :
    ∃ root, Rooted (up (ledger.events.insert s.id s.row)) s.id root ∧
      Headed (nextLink (ledger.events.insert s.id s.row)) root s.id ∧
      ∀ row, ledger.tables.moments[root]? = some row →
        row.subject = m.subject ∧ row.bodyHash = m.bodyHash := by
  have hg := h.sound.gated
  have hkind : s.kind = .moment := Signed.kind_moment.mpr ⟨m, hbody⟩
  have hself : (ledger.events.insert s.id s.row)[s.id]? = some s.row := stored_self
  have hmissing : ∀ {x : Hash}, up ledger.events x ≠ .held → x ≠ s.id := by
    rintro x hx rfl
    obtain ⟨s', _, hid, hs', _⟩ := hg.moment hx
    exact hnew (hid ▸ Maps.mem_of_getElem? hs')
  cases hsup : s.content.supersedes with
  | none =>
    have htop : up (ledger.events.insert s.id s.row) s.id = .top := by
      simp only [up, hself, show s.row.kind = .moment from hkind, ne_eq, not_true, if_false,
        show s.row.supersedes = none from hsup]
    refine ⟨s.id, .top htop, .last (nextLink_self hg h.complete hnew (by simp [hsup])), ?_⟩
    intro row hrow
    obtain ⟨⟨_, _, _, hrooted⟩, _⟩ := (h.inChains s.id row).mp hrow
    exact absurd rfl (hmissing (by simp [hrooted.top_of]))
  | some p =>
    obtain ⟨root, row, hrow, hhead, hsubject, hhash⟩ := hbound.parent p hsup
    obtain ⟨⟨_, _, _, hrooted⟩, head, mh, hheaded, hstored, hmh, rfl⟩ :=
      (h.inChains root row).mp hrow
    obtain rfl : head.id = p := hhead
    have htop := hrooted.top_of
    have hchain := hheaded.rooted (fun hx hnext => nextLink_up hx hnext) (.top htop)
    have hne : head.id ≠ s.id := hmissing hchain.not_held
    have hhead' : (ledger.events.insert s.id s.row)[head.id]? = some head.row := by
      rw [Maps.getElem?_insert, if_neg (Ne.symm hne)]
      exact hstored
    have habove : up (ledger.events.insert s.id s.row) s.id = .above head.id :=
      up_above hself hkind hsup hhead' (Signed.kind_moment.mpr ⟨mh, hmh⟩)
    refine ⟨root, .above habove ((arrives hnew hkind).rooted hchain), ?_, ?_⟩
    · refine hheaded.extend (fun x hx _ => ?_) (fun x hnext => ?_) (hmissing (by simp [htop])) ?_ ?_
      · refine nextLink_insert hnew fun hsup' => hx ?_
        exact (Option.some.inj (hsup.symm.trans hsup'.2)).symm
      · obtain ⟨row, ⟨hrow, _⟩, _⟩ := nextLink_iff.mp hnext
        exact hnew (Maps.mem_of_getElem? hrow)
      · exact nextLink_child hheaded.down_eq hkind hsup
      · refine nextLink_self hg h.complete hnew fun hsup' => hne ?_
        exact Option.some.inj (hsup.symm.trans hsup')
    · intro row hrow'
      obtain rfl := Option.some.inj (hrow'.symm.trans hrow)
      exact ⟨hsubject, hhash⟩

theorem climb_of_projectMoment (hs : Stored events s) (hkind : s.kind = .moment)
    (h : t.projectMoment cr events s.content s.id = .ok t') :
    climb (up events) maxChain s.id ≠ none := by
  intro hclimb
  have hroot : chainRoot events maxChain s.id s.content.supersedes = .error chainTooLong := by
    have hroot := @chainRoot_eq _ maxChain _ s.row hs hkind
    rw [hclimb] at hroot
    exact hroot
  simp only [Tables.projectMoment, hroot] at h
  cases h

/-- A stored moment adds at most one link to the longest chain, and its own was counted. -/
theorem ShortChains.store (hshort : ShortChains events) (h : Complete cr verify events)
    (hg : Gated cr verify events) (hnew : s.id ∉ events)
    (hself : up (events.insert s.id s.row) s.id ≠ .above s.id)
    (hclimb : climb (up (events.insert s.id s.row)) maxChain s.id ≠ none) :
    ShortChains (events.insert s.id s.row) := by
  have hno : ∀ x, up (events.insert s.id s.row) x ≠ .above s.id := by
    intro x habove
    by_cases hx : x = s.id
    · exact hself (hx ▸ habove)
    · rw [h.up_eq hg hnew hx] at habove
      obtain ⟨s', _, hid, hs', _⟩ := hg.above_mem habove
      exact hnew (hid ▸ Maps.mem_of_getElem? hs')
  intro n x y hxy
  by_cases hx : x = s.id
  · subst hx
    by_contra hle
    exact hclimb (climb_eq_none.mpr (hxy.shorter (not_lt.mp hle)))
  · exact hshort n x y (hxy.avoid (fun x hx => h.up_eq hg hnew hx) hno hx)

/-! ## One admission -/

theorem entities_keep {A : Set (Signed cr verify)} (h : Folded A t) (h' : Folded (insert s A) t')
    (hcheck : ∀ birth, s.content.body = .entityCreate birth → t.checkBirth birth = .ok ())
    {k : EntityId} {row : EntityRow} (hrow : t.entities[k]? = some row) :
    ∃ row', t'.entities[k]? = some row' ∧ row'.resolutionKey = row.resolutionKey ∧
      row'.canonicalName = row.canonicalName := by
  obtain ⟨row', hrow'⟩ := h.entities.still_held h'.entities hrow
  refine ⟨row', hrow', ?_⟩
  rcases h.entities.held_or_claimed h'.entities hrow' with hheld | hclaim
  · obtain rfl := Option.some.inj (hheld.symm.trans hrow)
    exact ⟨rfl, rfl⟩
  · unfold Signed.birth at hclaim
    split at hclaim
    · next birth hbody =>
      obtain ⟨rfl, rfl⟩ := Prod.mk.inj (Option.some.inj hclaim)
      obtain ⟨hkey, hname⟩ := checkBirth_ok (hcheck birth hbody) hrow
      exact ⟨hkey.symm, hname.symm⟩
    · cases hclaim

variable {outcome : Appended}

theorem admission_ok (h : ledger.admission s = .ok (outcome, ledger')) :
    ledger.commit s = .ok (outcome, ledger') ∧
      (s.id ∉ ledger.events → ledger.check s = .ok ()) := by
  unfold Ledger.admission at h
  simp only at h
  split at h
  · cases h
  · next hchecked =>
    split at h
    · cases h
    · next hcommit =>
      obtain rfl := Except.ok.inj h
      refine ⟨hcommit, fun hnew => ?_⟩
      rw [Maps.contains_eq_false.mpr hnew] at hchecked
      simpa using hchecked

section Step
variable (h : ledger.Guarded cr verify) (hnew : s.id ∉ ledger.events)
  (hcheck : ledger.check s = .ok ()) (hok : ledger.commit s = .ok (outcome, ledger'))
include h hnew hcheck hok

omit hnew in
theorem Ledger.Guarded.keeps_after (hevents : ledger'.events = ledger.events.insert s.id s.row)
    (hnew : s.id ∉ ledger.events)
    (hmoments : ∀ (root : Hash) (row : MomentRow), ledger.tables.moments[root]? = some row →
      ∃ row', ledger'.tables.moments[root]? = some row' ∧ row'.subject = row.subject ∧
        row'.bodyHash = row.bodyHash) : ledger.tables.Keeps ledger'.tables := by
  refine ⟨fun k row hrow => ?_, hmoments⟩
  have hfolded' := (h.sound.commit hok).folded
  rw [hevents, stored_insert_eq hnew] at hfolded'
  refine entities_keep h.sound.folded hfolded' (fun birth hbody => ?_) hrow
  simpa only [Ledger.check, hbody] using hcheck

/-- The endpoints of the stored edges after the commit. -/
theorem Ledger.Guarded.joined_after (hevents : ledger'.events = ledger.events.insert s.id s.row)
    (hkeeps : ledger.tables.Keeps ledger'.tables) :
    ∀ s' : Signed cr verify, Stored ledger'.events s' → ∀ edge, s'.content.body = .edge edge →
      ledger'.tables.Knows edge.src ∧ ledger'.tables.Knows edge.dst := by
  intro s' hs' edge hedge
  rw [hevents, stored_insert hnew] at hs'
  rcases hs' with rfl | hs'
  · simp only [Ledger.check, hedge, bind_ok] at hcheck
    obtain ⟨_, hsrc, hdst⟩ := hcheck
    exact ⟨hkeeps.knows (checkEndpoint_ok hsrc), hkeeps.knows (checkEndpoint_ok hdst)⟩
  · exact (h.joined s' hs' edge hedge).imp hkeeps.knows hkeeps.knows

/-- An event of another kind than moments. -/
theorem Ledger.Guarded.commit_other (hkind : s.kind ≠ .moment) :
    ledger'.Guarded cr verify ∧ ledger.tables.Keeps ledger'.tables := by
  have hg := h.sound.gated
  rcases commit_ok hok with ⟨hmem, _⟩ | ⟨_, hevents, happly⟩
  · exact absurd hmem hnew
  have hawaited := h.complete.not_awaited hg hnew
  have hup := up_insert_of_ne hnew hkind hawaited
  have hmoments := Tables.apply_moments hkind happly
  have hkeeps : ledger.tables.Keeps ledger'.tables :=
    h.keeps_after hcheck hok hevents hnew fun root row hrow => ⟨row, hmoments ▸ hrow, rfl, rfl⟩
  refine ⟨?_, hkeeps⟩
  constructor
  case sound => exact h.sound.commit hok
  case inChains => exact h.inChains.commit h.sound hok fun _ => hawaited
  case short =>
    rw [ShortChains, hevents, hup]
    exact h.short
  case complete =>
    intro s' hs' hkind'
    rw [hevents, stored_insert hnew] at hs'
    rw [hevents, hup]
    rcases hs' with rfl | hs'
    · exact absurd hkind' hkind
    · exact h.complete s' hs' hkind'
  case subjects =>
    intro root row hrow
    rw [hmoments] at hrow
    exact hkeeps.known (h.subjects root row hrow)
  case bodies =>
    rw [hmoments]
    exact h.bodies
  case joined => exact h.joined_after hnew hcheck hok hevents hkeeps

/-- A moment. -/
theorem Ledger.Guarded.commit_moment {m : MomentBody} (hbody : s.content.body = .moment m) :
    ledger'.Guarded cr verify ∧ ledger.tables.Keeps ledger'.tables := by
  have hg := h.sound.gated
  have hkind : s.kind = .moment := Signed.kind_moment.mpr ⟨m, hbody⟩
  have hbound : Bound ledger.tables m s.content.supersedes := by
    simp only [Ledger.check, hbody] at hcheck
    exact checkMoment_ok hcheck
  rcases commit_ok hok with ⟨hmem, _⟩ | ⟨_, hevents, happly⟩
  · exact absurd hmem hnew
  simp only [Tables.apply, hbody] at happly
  obtain ⟨root, hroot, hhead, hold⟩ := h.joins hnew hbody hbound
  have hclimb := climb_of_projectMoment stored_self hkind happly
  have htables : ledger'.tables.moments =
        ledger.tables.moments.insert root (momentRow s.id s.content m) ∧
      ledger'.tables.entities = ledger.tables.entities := by
    rcases projectMoment_eq (hg.insert (s := s))
      (Tables.ensureStatsRow_tallied h.sound.folded.tallied) stored_self hkind with
      ⟨root', row', hroot', hshows, hproj⟩ | ⟨hheld, _⟩ | ⟨_, hproj⟩
    · obtain rfl := hroot'.unique hroot
      obtain rfl := hshows.unique ⟨s, m, hhead, stored_self, hbody, rfl⟩
      rw [hproj] at happly
      obtain heq := Except.ok.inj happly
      exact ⟨heq ▸ rfl, heq ▸ rfl⟩
    · exact absurd hroot (hheld root)
    · rw [hproj] at happly
      cases happly
  obtain ⟨hmoments, hentities⟩ := htables
  have hrows : ∀ {r : Hash} {row : MomentRow}, ledger'.tables.moments[r]? = some row →
      ledger.tables.moments[r]? = some row ∨
        row.subject = m.subject ∧ row.bodyHash = m.bodyHash := by
    intro r row hrow
    rw [hmoments, Maps.getElem?_insert] at hrow
    split at hrow
    · obtain rfl := Option.some.inj hrow
      exact Or.inr ⟨rfl, rfl⟩
    · exact Or.inl hrow
  have hkeeps : ledger.tables.Keeps ledger'.tables := by
    refine h.keeps_after hcheck hok hevents hnew fun r row hrow => ?_
    rw [hmoments, Maps.getElem?_insert]
    split
    · next hr =>
      obtain ⟨hsubject, hhash⟩ := hold row (hr ▸ hrow)
      exact ⟨_, rfl, hsubject.symm, hhash.symm⟩
    · exact ⟨row, hrow, rfl, rfl⟩
  refine ⟨?_, hkeeps⟩
  constructor
  case sound => exact h.sound.commit hok
  case inChains =>
    exact h.inChains.commit h.sound hok fun _ => h.complete.not_awaited hg hnew
  case short =>
    rw [hevents]
    exact h.short.store h.complete hg hnew hroot.not_loop hclimb
  case complete =>
    intro s' hs' hkind'
    rw [hevents, stored_insert hnew] at hs'
    rw [hevents]
    rcases hs' with rfl | hs'
    · exact ⟨root, hroot⟩
    · obtain ⟨root', hroot'⟩ := h.complete s' hs' hkind'
      exact ⟨root', (arrives hnew hkind).rooted hroot'⟩
  case subjects =>
    intro r row hrow
    rw [hentities]
    rcases hrows hrow with hrow | ⟨hsubject, _⟩
    · exact h.subjects r row hrow
    · exact hsubject ▸ hbound.known
  case bodies =>
    intro r r' row row' hrow hrow' hsame
    rcases hrows hrow with hrow | ⟨hsubject, hhash⟩ <;>
      rcases hrows hrow' with hrow' | ⟨hsubject', hhash'⟩
    · exact h.bodies r r' row row' hrow hrow' hsame
    · exact (hbound.bodies r row hrow (hsame.trans hsubject')).trans hhash'.symm
    · exact hhash.trans (hbound.bodies r' row' hrow' (hsame.symm.trans hsubject)).symm
    · exact hhash.trans hhash'.symm
  case joined => exact h.joined_after hnew hcheck hok hevents hkeeps

end Step

theorem Ledger.Guarded.admission (h : ledger.Guarded cr verify)
    (hok : ledger.admission s = .ok (outcome, ledger')) :
    ledger'.Guarded cr verify ∧ ledger.tables.Keeps ledger'.tables := by
  obtain ⟨hcommit, hcheck⟩ := admission_ok hok
  by_cases hnew : s.id ∈ ledger.events
  · rcases commit_ok hcommit with ⟨_, rfl⟩ | ⟨hmissing, _⟩
    · exact ⟨h, Tables.Keeps.refl _⟩
    · exact absurd hnew hmissing
  · by_cases hkind : s.kind = .moment
    · obtain ⟨m, hbody⟩ := Signed.kind_moment.mp hkind
      exact h.commit_moment hnew (hcheck hnew) hcommit hbody
    · exact h.commit_other hnew (hcheck hnew) hcommit hkind

/-! ## Runs of admissions -/

theorem Ledger.Guarded.run (h : ledger.Guarded cr verify) (xs : List (Signed cr verify)) :
    (ledger.afterAdmissions xs).Guarded cr verify ∧
      ledger.tables.Keeps (ledger.afterAdmissions xs).tables := by
  induction xs generalizing ledger with
  | nil => exact ⟨h, Tables.Keeps.refl _⟩
  | cons s xs ih =>
    have hstep : (ledger.afterAdmission s).Guarded cr verify ∧
        ledger.tables.Keeps (ledger.afterAdmission s).tables := by
      unfold Ledger.afterAdmission
      split
      · next hok => exact h.admission hok
      · exact ⟨h, Tables.Keeps.refl _⟩
    obtain ⟨hguarded, hkeeps⟩ := ih hstep.1
    exact ⟨hguarded, hstep.2.trans hkeeps⟩

theorem guarded_empty : Ledger.empty.Guarded cr verify where
  sound := sound_empty
  inChains := inChains_empty
  short n x y hxy := by
    cases hxy with
    | here => decide
    | above habove => simp [up, Ledger.empty] at habove
  complete s hs := by simp [Stored, Ledger.empty] at hs
  subjects root row hrow := by simp [Ledger.empty, Tables.empty] at hrow
  bodies root _ row _ hrow := by simp [Ledger.empty, Tables.empty] at hrow
  joined s hs := by simp [Stored, Ledger.empty] at hs

/-- What HTTP admission promises of a ledger. -/
structure Ledger.Immutable (cr : Crypto) (verify : Verify) (ledger : Ledger) : Prop where
  subjects : ∀ (root : Hash) (row : MomentRow), ledger.tables.moments[root]? = some row →
    row.subject ∈ ledger.tables.entities
  bodies : ∀ (root root' : Hash) (row row' : MomentRow), ledger.tables.moments[root]? = some row →
    ledger.tables.moments[root']? = some row' → row.subject = row'.subject →
    row.bodyHash = row'.bodyHash
  edges : ∀ (id : Hash) (row : EdgeRow), ledger.tables.edges[id]? = some row →
    ∀ k, k = row.srcEntity ∨ k = row.dstEntity → k ∈ ledger.tables.entities ∧
      ∃! body, ∃ (root : Hash) (moment : MomentRow), ledger.tables.moments[root]? = some moment ∧
        moment.subject = k ∧ moment.bodyHash = body
  placed : ∀ s : Signed cr verify, Stored ledger.events s → s.kind = .moment →
    ∃! root, root ∈ ledger.tables.moments ∧
      chainRoot ledger.events maxChain s.id s.content.supersedes = .ok (some root)
  agreed : ledger.Agreed cr verify

/-- A subject with a body has no other. -/
theorem Ledger.Guarded.one_body (h : ledger.Guarded cr verify) {k : EntityId}
    (hk : ledger.tables.Knows k) : k ∈ ledger.tables.entities ∧
      ∃! body, ∃ (root : Hash) (moment : MomentRow), ledger.tables.moments[root]? = some moment ∧
        moment.subject = k ∧ moment.bodyHash = body := by
  obtain ⟨hknown, root, row, hrow, hsubject⟩ := hk
  refine ⟨hknown, row.bodyHash, ⟨root, row, hrow, hsubject, rfl⟩, ?_⟩
  rintro body ⟨root', row', hrow', hsubject', rfl⟩
  exact h.bodies root' root row' row hrow' hrow (hsubject'.trans hsubject.symm)

theorem Ledger.Guarded.placed (h : ledger.Guarded cr verify) (hs : Stored ledger.events s)
    (hkind : s.kind = .moment) : ∃! root, root ∈ ledger.tables.moments ∧
      chainRoot ledger.events maxChain s.id s.content.supersedes = .ok (some root) := by
  obtain ⟨root, hrooted⟩ := h.complete s hs hkind
  have hchain := @chainRoot_eq _ maxChain _ s.row hs hkind
  cases hclimb : climb (up ledger.events) maxChain s.id with
  | none =>
    obtain ⟨r, hr⟩ := climb_eq_none.mp hclimb
    exact absurd (h.short _ _ _ hr) (Nat.lt_irrefl maxChain)
  | some found =>
    rw [hclimb] at hchain
    cases found with
    | none => exact absurd hrooted (not_rooted_of_climb hclimb)
    | some r =>
      obtain rfl := (rooted_of_climb hclimb).unique hrooted
      obtain ⟨row, hshows⟩ := h.short.shows h.sound.gated hrooted.top_of
      have hrow := (h.inChains r row).mpr ⟨⟨s, hs, hkind, hrooted⟩, hshows⟩
      refine ⟨r, ⟨Maps.mem_of_getElem? hrow, hchain⟩, fun r' hr' => ?_⟩
      exact Option.some.inj (Except.ok.inj (hr'.2.symm.trans hchain))

theorem Ledger.Guarded.immutable (h : ledger.Guarded cr verify) :
    ledger.Immutable cr verify where
  subjects := h.subjects
  bodies := h.bodies
  edges id row hrow k hk := by
    obtain ⟨s, hs, _, base, hbase, rfl⟩ := (h.sound.folded.edges id row).mp hrow
    unfold Signed.edge at hbase
    split at hbase
    · next edge hedge =>
      obtain rfl := Option.some.inj hbase
      obtain ⟨hsrc, hdst⟩ := h.joined s hs edge hedge
      rcases hk with rfl | rfl
      · exact h.one_body hsrc
      · exact h.one_body hdst
    · cases hbase
  placed _ hs hkind := h.placed hs hkind
  agreed := (h.sound.agreed h.short).mpr h.inChains

/-- HTTP admission keeps subjects immutable, over every sequence of submissions and between
any two points of it. -/
theorem admission_keeps_subjects (xs more : List (Signed cr verify)) :
    (Ledger.empty.afterAdmissions xs).Immutable cr verify ∧
      (Ledger.empty.afterAdmissions xs).tables.Keeps
        (Ledger.empty.afterAdmissions (xs ++ more)).tables := by
  obtain ⟨hguarded, _⟩ := guarded_empty.run xs
  refine ⟨hguarded.immutable, ?_⟩
  have happend : Ledger.empty.afterAdmissions (xs ++ more) =
      (Ledger.empty.afterAdmissions xs).afterAdmissions more := List.foldl_append
  rw [happend]
  exact (hguarded.run more).2

end Admissions

end Clockchain.V0
