import Clockchain.V0.Applied

/-!
# Commits and the rebuild

A run of commits keeps the tables what the log says, and `rebuild` computes those tables
from the log, as long as no commit stores an event of another kind that a stored moment
was waiting for.
-/

namespace Clockchain.V0
open Codec Lineages Survivors Programs
open V1 (Hash BTreeMap Crypto Verify)
set_option autoImplicit false

section Runs
variable {cr : Crypto} {verify : Verify} {events : Events} {s s' : Signed cr verify}
  {ledger ledger' : Ledger}

/-- Neither the projector nor a constraint of a table refuses such an event; whether a text column
takes its texts is left to `Database`. -/
def Signed.Storable (s : Signed cr verify) : Prop :=
  match s.content.body with
  | .edge ed => ed.src ≠ ed.dst
  | .vocabularyDeclare v => v.claimType ≠ 0
  | _ => True

/-- The events of a log. -/
def stored (cr : Crypto) (verify : Verify) (events : Events) : Set (Signed cr verify) :=
  {s | Stored events s}

/-- The log is well formed and the tables are folded from it, chains aside. -/
structure Ledger.Sound (cr : Crypto) (verify : Verify) (ledger : Ledger) : Prop where
  gated : Gated cr verify ledger.events
  storable : ∀ s : Signed cr verify, Stored ledger.events s → s.Storable
  folded : Folded (stored cr verify ledger.events) ledger.tables

def Ledger.InChains (cr : Crypto) (verify : Verify) (ledger : Ledger) : Prop :=
  Chained ledger.events (stored cr verify ledger.events) ledger.tables

theorem named_stored : Named (stored cr verify events) :=
  fun _ hs _ hs' hid => Stored.unique hs hs' hid

theorem stored_insert_eq (hnew : s.id ∉ events) :
    stored cr verify (events.insert s.id s.row) = insert s (stored cr verify events) :=
  Set.ext fun _ => stored_insert hnew

theorem not_stored (hnew : s.id ∉ events) : s ∉ stored cr verify events := fun h =>
  hnew (Maps.mem_of_getElem? h)

theorem stored_self : Stored (events.insert s.id s.row) s := by
  rw [Stored, Maps.getElem?_insert, if_pos rfl]

/-! ## One commit -/

theorem sign_ok {key : SecretKey cr verify} {content : EventContent}
    (h : Signed.sign key content = .ok s) : s.content = { content with author := key.author } := by
  unfold Signed.sign at h
  simp only at h
  split at h
  · nomatch h
  · obtain rfl := Except.ok.inj h
    rfl

theorem commit_ok {outcome : Appended} (h : ledger.commit s = .ok (outcome, ledger')) :
    s.id ∈ ledger.events ∧ ledger' = ledger ∨ s.id ∉ ledger.events ∧
      ledger'.events = ledger.events.insert s.id s.row ∧
      ledger.tables.apply cr (ledger.events.insert s.id s.row) s.content s.id =
        .ok ledger'.tables := by
  unfold Ledger.commit Ledger.append at h
  cases hmem : ledger.events.contains s.id with
  | true =>
    simp only [hmem, if_true] at h
    obtain ⟨_, rfl⟩ := Prod.mk.inj (Except.ok.inj h)
    exact Or.inl ⟨Maps.contains_iff.mp hmem, rfl⟩
  | false =>
    simp only [hmem, Bool.false_eq_true, if_false, bind_ok] at h
    obtain ⟨tables, happly, h⟩ := h
    obtain ⟨_, rfl⟩ := Prod.mk.inj (Except.ok.inj h)
    exact Or.inr ⟨Maps.contains_eq_false.mp hmem, rfl, happly⟩

theorem apply_storable {t t' : Tables} (h : t.apply cr events s.content s.id = .ok t') :
    s.Storable := by
  unfold Signed.Storable
  cases hbody : s.content.body with
  | edge ed =>
    intro heq
    simp [Tables.apply, hbody, Tables.projectEdge, heq] at h
  | vocabularyDeclare v =>
    intro heq
    simp [Tables.apply, hbody, Tables.projectVocabulary, heq] at h
  | _ => trivial

theorem Ledger.Sound.commit (h : ledger.Sound cr verify) {outcome : Appended}
    (hok : ledger.commit s = .ok (outcome, ledger')) : ledger'.Sound cr verify := by
  rcases commit_ok hok with ⟨_, rfl⟩ | ⟨hnew, hevents, happly⟩
  · exact h
  · have hgated := h.gated.insert (s := s)
    have hnamed : Named (insert s (stored cr verify ledger.events)) := by
      rw [← stored_insert_eq hnew]
      exact named_stored
    refine ⟨hevents ▸ hgated, fun s' hs' => ?_, ?_⟩
    · rw [hevents] at hs'
      rcases (stored_insert hnew).mp hs' with rfl | hs'
      · exact apply_storable happly
      · exact h.storable s' hs'
    · rw [hevents, stored_insert_eq hnew]
      exact h.folded.apply hnamed (not_stored hnew) hgated stored_self happly

theorem shows_congr {root : Hash} {row : MomentRow}
    (hnew : s.id ∉ events) (hroot : Rooted (up (events.insert s.id s.row)) root root)
    (hother : ¬ (s.kind = .moment ∧ Rooted (up (events.insert s.id s.row)) s.id root))
    (hheads : ∀ head, Headed (nextLink (events.insert s.id s.row)) root head ↔
      Headed (nextLink events) root head) :
    Shows cr verify (events.insert s.id s.row) root row ↔ Shows cr verify events root row := by
  refine shows_insert hnew hheads fun head hhead hid => hother ?_
  have hrooted := ((hheads head).mpr hhead).rooted (fun hx hnext => nextLink_up hx hnext) hroot
  rw [hid] at hrooted
  obtain ⟨row, hrow, hkind⟩ := up_of_not_held hrooted.not_held
  rw [Maps.getElem?_insert, if_pos rfl] at hrow
  obtain rfl := Option.some.inj hrow
  exact ⟨hkind, hrooted⟩

/-- Storing an event moves no chain but the one it joins, unless a moment waited for it. -/
theorem Ledger.InChains.store (h : ledger.InChains cr verify) (hnew : s.id ∉ ledger.events)
    (hawaited : ¬ Awaited ledger.events s) :
    ChainedBut (ledger.events.insert s.id s.row) (stored cr verify ledger.events) ledger.tables
      fun root => s.kind = .moment ∧ Rooted (up (ledger.events.insert s.id s.row)) s.id root := by
  intro r row hother
  refine (h r row).trans ?_
  by_cases hkind : s.kind = .moment
  · have harrives := arrives hnew hkind
    have hnot : ¬ Rooted (up (ledger.events.insert s.id s.row)) s.id r := fun hr =>
      hother ⟨hkind, hr⟩
    have hrooted : ∀ x, Rooted (up (ledger.events.insert s.id s.row)) x r ↔
        Rooted (up ledger.events) x r := fun x => harrives.rooted_iff hnot
    simp only [hrooted]
    refine and_congr_right ?_
    rintro ⟨s', _, _, hr⟩
    have hself := Rooted.top ((hrooted s'.id).mpr hr).top_of
    exact (shows_congr hnew hself hother fun head => harrives.headed_iff hself hnot).symm
  · rw [up_insert_of_ne hnew hkind hawaited]
    refine and_congr_right ?_
    rintro ⟨s', _, _, hr⟩
    have hself := Rooted.top hr.top_of
    rw [← up_insert_of_ne hnew hkind hawaited] at hself
    refine (shows_congr hnew hself hother fun head => ?_).symm
    rw [nextLink_insert_of_ne hnew hkind]

theorem Ledger.InChains.commit (hsound : ledger.Sound cr verify) (h : ledger.InChains cr verify)
    {outcome : Appended} (hok : ledger.commit s = .ok (outcome, ledger'))
    (hawaited : s.id ∉ ledger.events → ¬ Awaited ledger.events s) :
    ledger'.InChains cr verify := by
  rcases commit_ok hok with ⟨_, rfl⟩ | ⟨hnew, hevents, happly⟩
  · exact h
  · rw [Ledger.InChains, hevents, stored_insert_eq hnew]
    exact (h.store hnew (hawaited hnew)).apply (hsound.gated.insert (s := s)) stored_self
      hsound.folded.tallied happly

/-- Under the bound every complete chain has a head, and shows its row. -/
theorem ShortChains.shows (hshort : ShortChains events) (hg : Gated cr verify events) {root : Hash}
    (hroot : up events root = .top) : ∃ row, Shows cr verify events root row := by
  cases hdescend : descend (nextLink events) maxChain root with
  | none =>
    obtain ⟨y, hy⟩ := ascends_of_descend (fun hx hnext => nextLink_up hx hnext)
      (by simp [hroot]) hdescend
    exact absurd (hshort _ _ _ hy) (Nat.lt_irrefl maxChain)
  | some head =>
    obtain ⟨_, _, _, _, _, hshows⟩ := hg.shows hroot (headed_of_descend hdescend)
    exact ⟨_, hshows⟩

/-- A moment that waited for an event of another kind stays held. -/
theorem Ledger.InChains.stale (hsound : ledger.Sound cr verify) (h : ledger.InChains cr verify)
    {outcome : Appended} (hok : ledger.commit s = .ok (outcome, ledger'))
    (hshort : ShortChains ledger'.events) (hnew : s.id ∉ ledger.events)
    (hawaited : Awaited ledger.events s) : ¬ ledger'.InChains cr verify := by
  intro h'
  have hgated := (hsound.commit hok).gated
  rcases commit_ok hok with ⟨hmem, _⟩ | ⟨_, hevents, happly⟩
  · exact hnew hmem
  obtain ⟨hkind, x, row, hrow, hmoment, hsup⟩ := hawaited
  obtain ⟨m, rfl, rfl, hm⟩ := hsound.gated.stored hrow
  have hne : s.id ≠ m.id := fun heq => hnew (heq ▸ Maps.mem_of_getElem? hm)
  have hnone : ledger.events[s.id]? = none := Std.ExtTreeMap.getElem?_eq_none hnew
  have hm' : Stored ledger'.events m := by
    rw [hevents, stored_insert hnew]
    exact Or.inr hm
  have hheld : up ledger.events m.id = .held := by
    simp only [up, show ledger.events[m.id]? = some m.row from hm, hmoment, ne_eq, not_true,
      if_false, hsup, hnone]
  have htop : up ledger'.events m.id = .top := by
    have hs' : ledger'.events[s.id]? = some s.row := by
      rw [hevents]
      exact stored_self
    simp only [up, show ledger'.events[m.id]? = some m.row from hm', hmoment, ne_eq, not_true,
      if_false, hsup, hs']
    exact if_pos hkind
  obtain ⟨shown, hshows⟩ := hshort.shows hgated htop
  have hrow' := (h' m.id shown).mpr ⟨⟨m, hm', hmoment, .top htop⟩, hshows⟩
  rw [Tables.apply_moments hkind happly] at hrow'
  obtain ⟨⟨_, _, _, hrooted⟩, _⟩ := (h m.id shown).mp hrow'
  rw [hrooted.top_of] at hheld
  cases hheld

/-! ## Commits go through -/

theorem apply_total {A : Set (Signed cr verify)} {t : Tables} (h : Folded A t)
    (hnamed : Named (insert s A)) (hnew : s ∉ A) (hg : Gated cr verify events)
    (hs : Stored events s) (hstorable : s.Storable) (hshort : ShortChains events) :
    ∃ t', t.apply cr events s.content s.id = .ok t' := by
  have htally := Tables.ensureStatsRow_tallied h.tallied
  unfold Signed.Storable at hstorable
  cases hbody : s.content.body with
  | entityCreate e => exact ⟨_, by simp only [Tables.apply, hbody]; rfl⟩
  | attestation a => exact ⟨_, by simp only [Tables.apply, hbody]; rfl⟩
  | moment m =>
    simp only [Tables.apply, hbody]
    have hkind : s.kind = .moment := Signed.kind_moment.mpr ⟨m, hbody⟩
    rcases projectMoment_eq hg htally hs hkind with ⟨_, _, _, _, hproj⟩ | ⟨_, hproj⟩ |
      ⟨⟨x, y, hxy⟩, _⟩
    · exact ⟨_, hproj⟩
    · exact ⟨_, hproj⟩
    · exact absurd (hshort _ _ _ hxy) (Nat.lt_irrefl maxChain)
  | edge ed =>
    simp only [hbody] at hstorable
    have hfresh : s.id ∉ t.edges := fun hmem => by
      obtain ⟨row, hrow⟩ := Maps.mem_iff.mp hmem
      obtain ⟨s', hs', hid, _⟩ := (h.edges s.id row).mp hrow
      exact hnamed.fresh hnew hs' hid
    simp only [Tables.apply, hbody, Tables.projectEdge_eq htally hstorable hfresh]
    exact ⟨_, rfl⟩
  | vocabularyDeclare v =>
    simp only [hbody] at hstorable
    simp only [Tables.apply, hbody, Tables.projectVocabulary_eq htally hstorable]
    exact ⟨_, rfl⟩

theorem commit_total (h : ledger.Sound cr verify) (hstorable : s.Storable)
    (hshort : ShortChains (ledger.events.insert s.id s.row)) :
    ∃ outcome ledger', ledger.commit s = .ok (outcome, ledger') := by
  unfold Ledger.commit Ledger.append
  cases hmem : ledger.events.contains s.id with
  | true => exact ⟨.unioned, ledger, rfl⟩
  | false =>
    have hnew : s.id ∉ ledger.events := Maps.contains_eq_false.mp hmem
    have hnamed : Named (insert s (stored cr verify ledger.events)) := by
      rw [← stored_insert_eq hnew]
      exact named_stored
    obtain ⟨t', ht'⟩ := apply_total h.folded hnamed (not_stored hnew) (h.gated.insert (s := s))
      stored_self hstorable hshort
    refine ⟨.new, { events := ledger.events.insert s.id s.row, tables := t' }, ?_⟩
    simp only [Bool.false_eq_true, if_false, ht']
    rfl

/-! ## The rebuild -/

theorem apply_reread {t : Tables} :
    t.apply cr events s.reread s.id = t.apply cr events s.content s.id := by
  cases hbody : s.content.body with
  | attestation a =>
    have hreread : s.reread = { s.content with supersedes := none } := by
      simp only [Signed.reread, EventContent.readBack, hbody]
    rw [hreread]
    simp only [Tables.apply, hbody]
    rfl
  | _ => rw [reread_of_ne (by simp [hbody])]

theorem refold_row {t : Tables} : Ledger.refold cr verify events t (s.id, s.row) =
    t.apply cr events s.content s.id := by
  have hverified : verify s.row.authorKey (asBytes s.id) s.row.signature = true := s.verified
  simp only [Ledger.refold, parseRow_row, checkId_reread, hverified, bind, Except.bind,
    Bool.not_true, Bool.false_eq_true, if_false, apply_reread]

/-- The fold over the whole log, in whatever order it is read. -/
theorem refold_all (hg : Gated cr verify events)
    (hstorable : ∀ s : Signed cr verify, Stored events s → s.Storable)
    (hshort : ShortChains events) {rows : List (Hash × EventRow)} (hrows : rows.Nodup)
    (hmem : ∀ id row, (id, row) ∈ rows ↔ events[id]? = some row) :
    ∃ t, rows.foldlM (Ledger.refold cr verify events) .empty = .ok t ∧
      Folded (stored cr verify events) t ∧ Chained events (stored cr verify events) t := by
  let applied (before : List (Hash × EventRow)) : Set (Signed cr verify) :=
    {s | Stored events s ∧ (s.id, s.row) ∈ before}
  have hall : applied rows = stored cr verify events := by
    ext s
    exact and_iff_left_of_imp fun hs => (hmem s.id s.row).mpr hs
  rw [← hall]
  refine foldlM_ok (fun before t => Folded (applied before) t ∧ Chained events (applied before) t)
    ?_ ?_
  · have hempty : applied [] = ∅ := by
      ext s
      simp [applied]
    rw [hempty]
    refine ⟨folded_empty, fun root row => ?_⟩
    simp [Tables.empty]
  · rintro before ⟨id, row⟩ after t heq ⟨hfolded, hchained⟩
    have hrow : events[id]? = some row := (hmem id row).mp (by simp [heq])
    obtain ⟨s, rfl, rfl, hs⟩ := hg.stored hrow
    have hnext : applied (before ++ [(s.id, s.row)]) = insert s (applied before) := by
      ext s'
      simp only [applied, List.mem_append, List.mem_singleton, Set.mem_ofPred_eq,
        Set.mem_insert_iff, Prod.mk.injEq]
      constructor
      · rintro ⟨hs', hbefore | ⟨hid, _⟩⟩
        · exact Or.inr ⟨hs', hbefore⟩
        · exact Or.inl (hs'.unique hs hid)
      · rintro (rfl | ⟨hs', hbefore⟩)
        · exact ⟨hs, Or.inr ⟨rfl, rfl⟩⟩
        · exact ⟨hs', Or.inl hbefore⟩
    have hnew : s ∉ applied before := by
      rintro ⟨_, hbefore⟩
      rw [heq] at hrows
      exact (List.nodup_append.mp hrows).2.2 _ hbefore _ List.mem_cons_self rfl
    have hnamed : Named (insert s (applied before)) := by
      rintro a ha b hb hid
      have hstored : ∀ x ∈ insert s (applied before), Stored events x := by
        rintro x (rfl | hx)
        · exact hs
        · exact hx.1
      exact (hstored a ha).unique (hstored b hb) hid
    obtain ⟨t', ht'⟩ := apply_total hfolded hnamed hnew hg hs (hstorable s hs) hshort
    refine ⟨t', refold_row.trans ht', ?_⟩
    rw [hnext]
    refine ⟨hfolded.apply hnamed hnew hg hs ht', ?_⟩
    exact ChainedBut.apply hg hs hfolded.tallied (fun r row _ => hchained r row) ht'

theorem Ledger.Sound.rebuilt (h : ledger.Sound cr verify) (hshort : ShortChains ledger.events) :
    ∃ t, ledger.rebuilt cr verify = .ok t ∧ Folded (stored cr verify ledger.events) t ∧
      Chained ledger.events (stored cr verify ledger.events) t := by
  refine refold_all h.gated h.storable hshort ?_ fun id row => ?_
  · refine (List.mergeSort_perm _ _).nodup_iff.mpr ?_
    exact (Maps.nodup_fst_toList ledger.events).of_map _
  · rw [Ledger.foldedRows, List.mem_mergeSort, Std.ExtTreeMap.mem_toList_iff_getElem?_eq_some]

/-- The tables agree with the rebuild exactly when no chain is stale. -/
theorem Ledger.Sound.agrees (h : ledger.Sound cr verify) (hshort : ShortChains ledger.events) :
    ledger.rebuilt cr verify = .ok ledger.tables ↔ ledger.InChains cr verify := by
  obtain ⟨t, ht, hfolded, hchained⟩ := h.rebuilt hshort
  rw [ht]
  constructor
  · intro heq
    obtain rfl := Except.ok.inj heq
    exact hchained
  · intro hin
    exact congrArg Except.ok (hfolded.unique h.folded (hchained.unique hin))

end Runs

end Clockchain.V0
