import Clockchain.V0.Agreement

/-!
# Two ledgers over the same events

Two ledgers that committed the same events in whatever orders show the same rows and the
same tables, exactly when no identity is shared by statements of different authors or
record times and no moment supersedes an event of another kind.
-/

namespace Clockchain.V0
open Codec Lineages Survivors Programs
open V1 (Hash BTreeMap Crypto Verify)
set_option autoImplicit false

section Runs
variable {cr : Crypto} {verify : Verify} {events events' : Events} {s s' : Signed cr verify}
  {ledger ledger' : Ledger} {xs ys zs : List (Signed cr verify)}

/-! ## Logs that differ in attestations' unbound columns -/

/-- What an event shows in the tables and to the chains. -/
structure Signed.Same (s s' : Signed cr verify) : Prop where
  id : s.id = s'.id
  kind : s.kind = s'.kind
  birth : s.birth = s'.birth
  declaration : s.declaration = s'.declaration
  edge : s.edge = s'.edge
  attestation : s.attestation = s'.attestation
  moment : s.kind = .moment → s = s'

theorem Signed.Same.refl : s.Same s := ⟨rfl, rfl, rfl, rfl, rfl, rfl, fun _ => rfl⟩

def Alike (A A' : Set (Signed cr verify)) : Prop := ∀ s ∈ A, ∃ s' ∈ A', s.Same s'

variable {A A' : Set (Signed cr verify)} {t : Tables}

theorem Folded.congr (h : Folded A t) (hsub : Alike A A') (hsup : Alike A' A) : Folded A' t where
  entities := by
    have hclaimed : claimed Signed.birth A' = claimed Signed.birth A := by
      refine funext fun k => Set.Subset.antisymm ?_ ?_
      · rintro row ⟨s, hs, hbirth⟩
        obtain ⟨s', hs', hsame⟩ := hsup s hs
        exact ⟨s', hs', hsame.birth ▸ hbirth⟩
      · rintro row ⟨s, hs, hbirth⟩
        obtain ⟨s', hs', hsame⟩ := hsub s hs
        exact ⟨s', hs', hsame.birth ▸ hbirth⟩
    rw [hclaimed]
    exact h.entities
  vocabulary := by
    have hclaimed : claimed Signed.declaration A' = claimed Signed.declaration A := by
      refine funext fun k => Set.Subset.antisymm ?_ ?_
      · rintro row ⟨s, hs, hdeclares⟩
        obtain ⟨s', hs', hsame⟩ := hsup s hs
        exact ⟨s', hs', hsame.declaration ▸ hdeclares⟩
      · rintro row ⟨s, hs, hdeclares⟩
        obtain ⟨s', hs', hsame⟩ := hsub s hs
        exact ⟨s', hs', hsame.declaration ▸ hdeclares⟩
    rw [hclaimed]
    exact h.vocabulary
  edges id row := by
    refine (h.edges id row).trans ⟨?_, ?_⟩
    · rintro ⟨s, hs, hid, hedge⟩
      obtain ⟨s', hs', hsame⟩ := hsub s hs
      exact ⟨s', hs', hsame.id ▸ hid, hsame.edge ▸ hedge⟩
    · rintro ⟨s, hs, hid, hedge⟩
      obtain ⟨s', hs', hsame⟩ := hsup s hs
      exact ⟨s', hs', hsame.id ▸ hid, hsame.edge ▸ hedge⟩
  attestations id row := by
    refine (h.attestations id row).trans ⟨?_, ?_⟩
    · rintro ⟨s, hs, hid, hattests⟩
      obtain ⟨s', hs', hsame⟩ := hsub s hs
      exact ⟨s', hs', hsame.id ▸ hid, hsame.attestation ▸ hattests⟩
    · rintro ⟨s, hs, hid, hattests⟩
      obtain ⟨s', hs', hsame⟩ := hsup s hs
      exact ⟨s', hs', hsame.id ▸ hid, hsame.attestation ▸ hattests⟩
  tallied := h.tallied
  counted := by
    rw [h.counted]
    constructor
    · rintro rfl
      refine Set.eq_empty_of_forall_notMem fun s hs => ?_
      obtain ⟨_, hs', _⟩ := hsup s hs
      exact hs'
    · rintro rfl
      refine Set.eq_empty_of_forall_notMem fun s hs => ?_
      obtain ⟨_, hs', _⟩ := hsub s hs
      exact hs'

/-- Two logs with the same moments and the same kinds. -/
structure SameLineages (events events' : Events) : Prop where
  kinds : ∀ id : Hash, events[id]?.map EventRow.kind = events'[id]?.map EventRow.kind
  moments : ∀ (id : Hash) (row : EventRow), row.kind = .moment →
    (events[id]? = some row ↔ events'[id]? = some row)

namespace SameLineages
variable (h : SameLineages events events')
include h

theorem up_eq : up events = up events' := by
  funext x
  have hkind := h.kinds x
  cases hx : events[x]? with
  | none =>
    have hx' : events'[x]? = none := by simpa [hx] using hkind.symm
    simp only [up, hx, hx']
  | some row =>
    by_cases hmoment : row.kind = .moment
    · have hx' := (h.moments x row hmoment).mp hx
      simp only [up, hx, hx', hmoment, ne_eq, not_true, if_false]
      cases row.supersedes with
      | none => rfl
      | some p =>
        have hkinds := h.kinds p
        cases hp : events[p]? with
        | none =>
          have hp' : events'[p]? = none := by simpa [hp] using hkinds.symm
          simp only [hp, hp']
        | some parent =>
          cases hp' : events'[p]? with
          | none => simp [hp, hp'] at hkinds
          | some parent' =>
            have hsame : parent.kind = parent'.kind := by simpa [hp, hp'] using hkinds
            simp only [hp, hp', hsame]
    · obtain ⟨row', hx', hkind'⟩ : ∃ row', events'[x]? = some row' ∧ row'.kind = row.kind := by
        cases hx' : events'[x]? with
        | none => simp [hx, hx'] at hkind
        | some row' => exact ⟨row', rfl, by simpa [hx, hx'] using hkind.symm⟩
      simp only [up, hx, hx', hkind', hmoment, ne_eq, not_false_eq_true, if_true]

theorem nextLink_eq : nextLink events = nextLink events' := by
  funext x
  have hchildren : children events x = children events' x := by
    ext ⟨id, row⟩
    simp only [children, Set.mem_ofPred_eq]
    constructor
    · rintro ⟨hrow, hsup, hkind⟩
      exact ⟨(h.moments id row hkind).mp hrow, hsup, hkind⟩
    · rintro ⟨hrow, hsup, hkind⟩
      exact ⟨(h.moments id row hkind).mpr hrow, hsup, hkind⟩
  refine Option.ext fun y => ?_
  rw [nextLink_iff, nextLink_iff, hchildren]

theorem chained (hc : Chained events (stored cr verify events) t) :
    Chained events' (stored cr verify events') t := by
  intro root row
  rw [hc root row, h.up_eq]
  refine and_congr ?_ ?_
  · refine exists_congr fun s => and_congr_left fun hs => ?_
    exact h.moments s.id s.row hs.1
  · unfold Shows
    rw [h.nextLink_eq]
    refine exists_congr fun s => exists_congr fun m => and_congr_right fun _ => ?_
    refine and_congr_left fun hs => ?_
    exact h.moments s.id s.row (Signed.kind_moment.mpr ⟨m, hs.1⟩)

end SameLineages

theorem sameLineages (hg : Gated cr verify events) (hg' : Gated cr verify events')
    (hsub : Alike (stored cr verify events) (stored cr verify events'))
    (hsup : Alike (stored cr verify events') (stored cr verify events)) :
    SameLineages events events' := by
  have hmoments : ∀ {E E' : Events}, Gated cr verify E →
      Alike (stored cr verify E) (stored cr verify E') → ∀ (id : Hash) (row : EventRow),
      row.kind = .moment → E[id]? = some row → E'[id]? = some row := by
    intro E E' hg halike id row hkind hrow
    obtain ⟨s, rfl, rfl, hs⟩ := hg.stored hrow
    obtain ⟨s', hs', hsame⟩ := halike s hs
    obtain rfl := hsame.moment hkind
    exact hs'
  have hkinds : ∀ {E E' : Events}, Gated cr verify E →
      Alike (stored cr verify E) (stored cr verify E') → ∀ (id : Hash) (row : EventRow),
      E[id]? = some row → E'[id]?.map EventRow.kind = some row.kind := by
    intro E E' hg halike id row hrow
    obtain ⟨s, rfl, rfl, hs⟩ := hg.stored hrow
    obtain ⟨s', hs', hsame⟩ := halike s hs
    have hrow' : E'[s'.id]? = some s'.row := hs'
    rw [hsame.id, hrow']
    exact congrArg some hsame.kind.symm
  refine ⟨fun id => ?_, fun id row hkind => ⟨hmoments hg hsub id row hkind,
    hmoments hg' hsup id row hkind⟩⟩
  cases hrow : events[id]? with
  | some row => exact (hkinds hg hsub id row hrow).symm
  | none =>
    cases hrow' : events'[id]? with
    | none => rfl
    | some row' =>
      have hkind := hkinds hg' hsup id row' hrow'
      simp [hrow] at hkind

/-- Ledgers over alike logs, none of them stale, hold the same tables. -/
theorem tables_eq (h : ledger.Sound cr verify) (h' : ledger'.Sound cr verify)
    (hin : ledger.InChains cr verify) (hin' : ledger'.InChains cr verify)
    (hsub : Alike (stored cr verify ledger.events) (stored cr verify ledger'.events))
    (hsup : Alike (stored cr verify ledger'.events) (stored cr verify ledger.events)) :
    ledger.tables = ledger'.tables := by
  have hlineages := sameLineages h.gated h'.gated hsub hsup
  exact (h.folded.congr hsub hsup).unique h'.folded ((hlineages.chained hin).unique hin')

/-! ## All of the events, in two orders -/

/-- Equal identities come from equal preimages. -/
def CollisionFree (xs : List (Signed cr verify)) : Prop :=
  ∀ s ∈ xs, ∀ s' ∈ xs, s.id = s'.id → s.canon = s'.canon

/-- A signature is a function of its author and the identity it is over. -/
def Deterministic (xs : List (Signed cr verify)) : Prop :=
  ∀ s ∈ xs, ∀ s' ∈ xs, s.id = s'.id → s.content.author = s'.content.author →
    s.signature = s'.signature

/-- One identity, one author and one record time. -/
def OneEnvelope (xs : List (Signed cr verify)) : Prop :=
  ∀ s ∈ xs, ∀ s' ∈ xs, s.id = s'.id →
    s.content.author = s'.content.author ∧ s.content.recordTime = s'.content.recordTime

/-- No moment supersedes an event of another kind. -/
def OwnKind (xs : List (Signed cr verify)) : Prop :=
  ∀ s ∈ xs, ∀ s' ∈ xs, s.kind = .moment → s'.kind ≠ .moment →
    s.content.supersedes ≠ some s'.id

theorem sameIdentity (hcanon : s.canon = s'.canon) : s.content.SameIdentity s'.content :=
  canonEvent_injective cr s.author s'.author s.written (hcanon ▸ s'.written)

theorem same_of_envelope (hcanon : s.canon = s'.canon) (hsig : s.signature = s'.signature)
    (hauthor : s.content.author = s'.content.author)
    (hrecord : s.content.recordTime = s'.content.recordTime) : s.Same s' := by
  have hsame := sameIdentity hcanon
  have hid : s.id = s'.id := congrArg (h0 cr) hcanon
  cases hbody : s.content.body with
  | attestation a =>
    have hbody' := hsame.body.symm.trans hbody
    refine ⟨hid, ?_, ?_, ?_, ?_, ?_, ?_⟩
    · simp only [Signed.kind, hbody, hbody']
    · simp only [Signed.birth, hbody, hbody']
    · simp only [Signed.declaration, hbody, hbody']
    · simp only [Signed.edge, hbody, hbody']
    · simp only [Signed.attestation, hbody, hbody', hauthor]
    · intro hkind
      simp [Signed.kind, hbody, EventBody.kind] at hkind
  | _ =>
    obtain ⟨htime, hsup⟩ := hsame.lineage (by simp [hbody])
    have heq : s = s' := by
      refine Signed.row_injective ?_
      simp only [Signed.row, Signed.kind, hsame.body, hsig, hauthor, hrecord, htime, hsup, hcanon]
    subst heq
    exact .refl

theorem submit_keeps (h : Stored ledger.events s') : Stored (ledger.submit s).events s' := by
  rcases submit_cases ledger s with heq | ⟨_, hok⟩
  · rw [heq]
    exact h
  · rcases commit_ok hok with ⟨_, heq⟩ | ⟨hnew, hevents, _⟩
    · rw [heq]
      exact h
    · rw [hevents, stored_insert hnew]
      exact Or.inr h

theorem submitAll_keeps (h : Stored ledger.events s') :
    Stored (ledger.submitAll xs).events s' := by
  induction xs generalizing ledger with
  | nil => exact h
  | cons s xs ih => exact ih (submit_keeps h)

/-- Every commit of a run goes through. -/
theorem submit_stores (hshort : ShortSupersession (xs ++ [s])) (hstorable : s.Storable) :
    ∃ s' : Signed cr verify, s'.id = s.id ∧
      Stored ((Ledger.empty.submitAll xs).submit s).events s' := by
  by_cases hnew : s.id ∈ (Ledger.empty.submitAll xs).events
  · obtain ⟨row, hrow⟩ := Maps.mem_iff.mp hnew
    obtain ⟨s', hid, _, hs'⟩ := run_sound.gated.stored hrow
    exact ⟨s', hid, submit_keeps hs'⟩
  · have hlog : ShortChains ((Ledger.empty.submitAll xs).events.insert s.id s.row) := by
      refine hshort.log run_sound.gated.insert fun s' hs' => ?_
      rcases (stored_insert hnew).mp hs' with rfl | hs'
      · simp
      · exact List.mem_append_left _ (run_stored hs')
    refine ⟨s, rfl, ?_⟩
    rw [submit_new run_sound hstorable hnew hlog]
    exact stored_self

theorem run_stores (hshort : ShortSupersession xs) (hstorable : ∀ s ∈ xs, s.Storable)
    (hs : s ∈ xs) : ∃ s' : Signed cr verify, s'.id = s.id ∧
      Stored (Ledger.empty.submitAll xs).events s' := by
  obtain ⟨before, after, rfl⟩ := List.append_of_mem hs
  have hbefore : ShortSupersession (before ++ [s]) := hshort.sub fun x hx => by
    simp only [List.mem_append, List.mem_singleton] at hx
    simp only [List.mem_append, List.mem_cons]
    exact hx.imp_right Or.inl
  obtain ⟨s', hid, hs'⟩ := submit_stores hbefore (hstorable s hs)
  refine ⟨s', hid, ?_⟩
  have hsplit : Ledger.empty.submitAll (before ++ s :: after) =
      ((Ledger.empty.submitAll before).submit s).submitAll after := by
    simp only [Ledger.submitAll, List.foldl_append, List.foldl_cons]
  rw [hsplit]
  exact submitAll_keeps hs'

/-- The columns of `events` that replication compares. -/
def EventRow.columns (row : EventRow) : Hash × Bytes × Hash × Bytes :=
  (row.authorKey, row.signature, row.recordTime, row.payload)

/-- Two ledgers show the same. -/
structure Ledger.SameView (cr : Crypto) (ledger ledger' : Ledger) : Prop where
  rows : ∀ id : Hash, ledger.events[id]?.map EventRow.columns =
    ledger'.events[id]?.map EventRow.columns
  tables : ledger.tables = ledger'.tables
  root : ∀ settled, viewRoot cr settled ledger.tables = viewRoot cr settled ledger'.tables

section Orders
variable (hshort : ShortSupersession xs) (hstorable : ∀ s ∈ xs, s.Storable)
  (hids : CollisionFree xs)
include hshort hstorable hids

theorem order_alike (hsig : Deterministic xs) (henvelope : OneEnvelope xs) (hy : ys.Perm xs)
    (hz : zs.Perm xs) {s : Signed cr verify}
    (hs : Stored (Ledger.empty.submitAll ys).events s) :
    ∃ s' : Signed cr verify, Stored (Ledger.empty.submitAll zs).events s' ∧ s.Same s' ∧
      s.row.columns = s'.row.columns := by
  have hmem := hy.mem_iff.mp (run_stored hs)
  have hshort' : ShortSupersession zs := hshort.sub fun _ h => hz.mem_iff.mp h
  obtain ⟨s', hid, hs'⟩ := run_stores hshort'
    (fun x hx => hstorable x (hz.mem_iff.mp hx)) (hz.mem_iff.mpr hmem)
  have hmem' := hz.mem_iff.mp (run_stored hs')
  have hcanon := hids s hmem s' hmem' hid.symm
  obtain ⟨hauthor, hrecord⟩ := henvelope s hmem s' hmem' hid.symm
  have hsignature := hsig s hmem s' hmem' hid.symm hauthor
  refine ⟨s', hs', same_of_envelope hcanon hsignature hauthor hrecord, ?_⟩
  simp only [EventRow.columns, Signed.row, hcanon, hsignature, hauthor, hrecord]

omit hstorable hids in
theorem order_inChains (hown : OwnKind xs) (hy : ys.Perm xs) :
    (Ledger.empty.submitAll ys).InChains cr verify := by
  have hshort' : ShortSupersession ys := hshort.sub fun _ h => hy.mem_iff.mp h
  refine (run_inChains hshort').mpr (fun before s hbegins hlate => ?_) ys List.prefix_rfl
  obtain ⟨_, _, hkind, id, row, hrow, hmoment, hsup⟩ := hlate
  obtain ⟨m, rfl, rfl, hm⟩ := run_sound.gated.stored hrow
  have hs : s ∈ xs := hy.mem_iff.mp (hbegins.subset (by simp))
  have hmem : m ∈ xs :=
    hy.mem_iff.mp (hbegins.subset (List.mem_append_left _ (run_stored hm)))
  exact hown m hmem s hs hmoment hkind hsup

/-- Where the two conditions hold the order does not matter. -/
theorem orders_agree (hsig : Deterministic xs) (henvelope : OneEnvelope xs) (hown : OwnKind xs)
    (hy : ys.Perm xs) (hz : zs.Perm xs) :
    (Ledger.empty.submitAll ys).SameView cr (Ledger.empty.submitAll zs) := by
  have halike := fun {ys zs : List (Signed cr verify)} (hy : ys.Perm xs) (hz : zs.Perm xs)
    {s : Signed cr verify} (hs : Stored (Ledger.empty.submitAll ys).events s) =>
    order_alike hshort hstorable hids hsig henvelope hy hz hs
  have htables : (Ledger.empty.submitAll ys).tables = (Ledger.empty.submitAll zs).tables := by
    refine tables_eq run_sound run_sound (order_inChains hshort hown hy)
      (order_inChains hshort hown hz) (fun s hs => ?_) fun s hs => ?_
    · obtain ⟨s', hs', hsame, _⟩ := halike hy hz hs
      exact ⟨s', hs', hsame⟩
    · obtain ⟨s', hs', hsame, _⟩ := halike hz hy hs
      exact ⟨s', hs', hsame⟩
  have hrows : ∀ {ys zs : List (Signed cr verify)}, ys.Perm xs → zs.Perm xs →
      ∀ (id : Hash) (row : EventRow), (Ledger.empty.submitAll ys).events[id]? = some row →
      (Ledger.empty.submitAll zs).events[id]?.map EventRow.columns = some row.columns := by
    intro ys zs hy hz id row hrow
    obtain ⟨s, rfl, rfl, hs⟩ := run_sound.gated.stored hrow
    obtain ⟨s', hs', hsame, hcolumns⟩ := halike hy hz hs
    have hrow' : (Ledger.empty.submitAll zs).events[s'.id]? = some s'.row := hs'
    rw [hsame.id, hrow', Option.map_some, hcolumns]
  refine ⟨fun id => ?_, htables, fun settled => by rw [htables]⟩
  cases hrow : (Ledger.empty.submitAll ys).events[id]? with
  | some row => exact (hrows hy hz id row hrow).symm
  | none =>
    cases hrow' : (Ledger.empty.submitAll zs).events[id]? with
    | none => rfl
    | some row' =>
      have hcolumns := hrows hz hy id row' hrow'
      simp [hrow] at hcolumns

/-! ## Orders that disagree -/

omit hids in
/-- The event committed first is the one that is stored. -/
theorem first_stored (hs : s ∈ xs) : ∃ ys : List (Signed cr verify), ys.Perm xs ∧
    Stored (Ledger.empty.submitAll ys).events s := by
  obtain ⟨before, after, rfl⟩ := List.append_of_mem hs
  refine ⟨s :: (before ++ after), List.perm_middle.symm, ?_⟩
  have hnew : s.id ∉ Ledger.empty.events := by simp [Ledger.empty]
  have hlog : ShortChains (Ledger.empty.events.insert s.id s.row) := by
    refine hshort.log (sound_empty.gated.insert) fun s' hs' => ?_
    rcases (stored_insert hnew).mp hs' with rfl | hs'
    · exact hs
    · simp [Stored, Ledger.empty] at hs'
  have hfirst : Stored (Ledger.empty.submit s).events s := by
    rw [submit_new sound_empty (hstorable s hs) hnew hlog]
    exact stored_self
  change Stored ((Ledger.empty.submit s).submitAll (before ++ after)).events s
  exact submitAll_keeps hfirst

omit hids in
theorem envelope_of_agree (h : ∀ ys zs : List (Signed cr verify), ys.Perm xs → zs.Perm xs →
    (Ledger.empty.submitAll ys).SameView cr (Ledger.empty.submitAll zs)) : OneEnvelope xs := by
  intro s hs s' hs' hid
  obtain ⟨ys, hy, hstored⟩ := first_stored hshort hstorable hs
  obtain ⟨zs, hz, hstored'⟩ := first_stored hshort hstorable hs'
  have hrow : (Ledger.empty.submitAll ys).events[s.id]? = some s.row := hstored
  have hrow' : (Ledger.empty.submitAll zs).events[s'.id]? = some s'.row := hstored'
  have hcolumns := (h ys zs hy hz).rows s.id
  rw [hrow, hid, hrow', Option.map_some, Option.map_some, Option.some.injEq] at hcolumns
  simp only [EventRow.columns, Prod.mk.injEq] at hcolumns
  exact ⟨hcolumns.1, Tick.toCanon_injective hcolumns.2.2.1⟩

omit hshort hstorable hids in
theorem submit_moments (hkind : s.kind ≠ .moment) :
    (ledger.submit s).tables.moments = ledger.tables.moments := by
  rcases submit_cases ledger s with heq | ⟨_, hok⟩
  · rw [heq]
  · rcases commit_ok hok with ⟨_, heq⟩ | ⟨_, _, happly⟩
    · rw [heq]
    · exact Tables.apply_moments hkind happly

omit hshort hstorable hids in
theorem submitAll_moments (hkinds : ∀ s ∈ xs, s.kind ≠ .moment) :
    (ledger.submitAll xs).tables.moments = ledger.tables.moments := by
  induction xs generalizing ledger with
  | nil => rfl
  | cons s xs ih =>
    refine (ih fun s' hs' => hkinds s' (List.mem_cons_of_mem s hs')).trans ?_
    exact submit_moments (hkinds s List.mem_cons_self)

omit hshort hstorable in
/-- An event with the identity of another has its kind, and a moment its lineage. -/
theorem kind_of_id (hs : s ∈ xs) (hs' : s' ∈ xs) (hid : s.id = s'.id) :
    s.kind = s'.kind ∧ (s.kind = .moment → s.content.supersedes = s'.content.supersedes) := by
  have hsame := sameIdentity (hids s hs s' hs' hid)
  refine ⟨congrArg EventBody.kind hsame.body, fun hkind => ?_⟩
  obtain ⟨m, hm⟩ := Signed.kind_moment.mp hkind
  exact (hsame.lineage (by simp [hm])).2

/-- Others first: every moment that supersedes one of them is a root of its own. -/
theorem others_first_shows {m p : Signed cr verify} (hy : ys.Perm xs) (hm : m ∈ xs) (hp : p ∈ xs)
    (hmoment : m.kind = .moment) (hother : p.kind ≠ .moment)
    (hsup : m.content.supersedes = some p.id)
    (hin : (Ledger.empty.submitAll ys).InChains cr verify) :
    m.id ∈ (Ledger.empty.submitAll ys).tables.moments := by
  have hshort' : ShortSupersession ys := hshort.sub fun _ h => hy.mem_iff.mp h
  have hstorable' : ∀ s ∈ ys, s.Storable := fun s h => hstorable s (hy.mem_iff.mp h)
  obtain ⟨m', hmid, hm'⟩ := run_stores hshort' hstorable' (hy.mem_iff.mpr hm)
  obtain ⟨p', hpid, hp'⟩ := run_stores hshort' hstorable' (hy.mem_iff.mpr hp)
  obtain ⟨hmkind, hmsup⟩ := kind_of_id hids hm (hy.mem_iff.mp (run_stored hm')) hmid.symm
  obtain ⟨hpkind, _⟩ := kind_of_id hids hp (hy.mem_iff.mp (run_stored hp')) hpid.symm
  have hrow : (Ledger.empty.submitAll ys).events[m.id]? = some m'.row := hmid ▸ hm'
  have hparent : (Ledger.empty.submitAll ys).events[p.id]? = some p'.row := hpid ▸ hp'
  have hkind' : m'.row.kind = .moment := hmkind.symm.trans hmoment
  have hother' : p'.row.kind ≠ .moment := fun heq => hother (hpkind.trans heq)
  have hsup' : m'.row.supersedes = some p.id := (hmsup hmoment).symm.trans hsup
  have htop : up (Ledger.empty.submitAll ys).events m.id = .top := by
    simp only [up, hrow, hkind', ne_eq, not_true, if_false, hsup', hparent, hother',
      not_false_eq_true, if_true]
  obtain ⟨row, hshows⟩ := (hshort'.run).shows run_sound.gated htop
  refine Maps.mem_of_getElem? ((hin m.id row).mpr ⟨⟨m', hm', hkind', ?_⟩, hshows⟩)
  rw [hmid]
  exact .top htop

omit hstorable in
/-- Moments first: one that supersedes an event of another kind is held. -/
theorem moments_first_holds {m p : Signed cr verify} (hsub : ∀ s ∈ ys, s ∈ xs)
    (hkinds : ∀ s ∈ ys, s.kind = .moment) (hm : m ∈ xs) (hp : p ∈ xs) (hmoment : m.kind = .moment)
    (hother : p.kind ≠ .moment) (hsup : m.content.supersedes = some p.id) :
    m.id ∉ (Ledger.empty.submitAll ys).tables.moments := by
  have hshort' : ShortSupersession ys := hshort.sub hsub
  have hin : (Ledger.empty.submitAll ys).InChains cr verify := by
    refine (run_inChains hshort').mpr (fun before s hbegins hlate => ?_) ys List.prefix_rfl
    exact hlate.2.2.1 (hkinds s (hbegins.subset (by simp)))
  intro hmem
  obtain ⟨row, hrow⟩ := Maps.mem_iff.mp hmem
  obtain ⟨⟨s, hs, hkind, hrooted⟩, _⟩ := (hin m.id row).mp hrow
  have htop := hrooted.top_of
  have hnot : up (Ledger.empty.submitAll ys).events m.id ≠ .held := by simp [htop]
  obtain ⟨m', b, hmid, hm', _⟩ := run_sound.gated.moment hnot
  obtain ⟨hmkind, hmsup⟩ := kind_of_id hids hm (hsub m' (run_stored hm')) hmid.symm
  have hmrow : (Ledger.empty.submitAll ys).events[m.id]? = some m'.row := hmid ▸ hm'
  have hkind' : m'.row.kind = .moment := hmkind.symm.trans hmoment
  have hsup' : m'.row.supersedes = some p.id := (hmsup hmoment).symm.trans hsup
  have hnone : (Ledger.empty.submitAll ys).events[p.id]? = none := by
    by_contra hsome
    obtain ⟨parent, hparent⟩ := Option.ne_none_iff_exists'.mp hsome
    obtain ⟨p', hpid, _, hp'⟩ := run_sound.gated.stored hparent
    have hpmem := run_stored hp'
    exact hother ((kind_of_id hids hp (hsub p' hpmem) hpid.symm).1.trans (hkinds p' hpmem))
  simp only [up, hmrow, hkind', ne_eq, not_true, if_false, hsup', hnone] at htop
  cases htop

theorem own_kind_of_agree (h : ∀ ys zs : List (Signed cr verify), ys.Perm xs → zs.Perm xs →
    (Ledger.empty.submitAll ys).SameView cr (Ledger.empty.submitAll zs)) : OwnKind xs := by
  intro m hm p hp hmoment hother hsup
  let moments := xs.filter fun s => s.kind = .moment
  let others := xs.filter fun s => !decide (s.kind = .moment)
  have hmoments : ∀ s ∈ moments, s ∈ xs ∧ s.kind = .moment := fun s hs => by
    simpa [moments] using hs
  have hothers : ∀ s ∈ others, s ∈ xs ∧ s.kind ≠ .moment := fun s hs => by
    simpa [others] using hs
  have hz : (moments ++ others).Perm xs := List.filter_append_perm _ xs
  have hy : (others ++ moments).Perm xs := List.perm_append_comm.trans hz
  have hin : (Ledger.empty.submitAll (others ++ moments)).InChains cr verify := by
    refine (run_inChains (hshort.sub fun _ h => hy.mem_iff.mp h)).mpr
      (fun before s hbegins hlate => ?_) _ List.prefix_rfl
    obtain ⟨_, _, hkind, id, row, hrow, hrowkind, _⟩ := hlate
    obtain ⟨b, _, rfl, hb⟩ := run_sound.gated.stored hrow
    -- others before moments: no moment is stored when another event arrives
    have hordered : (others ++ moments).Pairwise fun a b => a.kind = .moment →
        b.kind = .moment := by
      refine List.pairwise_append.mpr ⟨?_, ?_, ?_⟩
      · exact List.pairwise_of_forall_mem_list fun a ha b _ hka => absurd hka (hothers a ha).2
      · exact List.pairwise_of_forall_mem_list fun a _ b hb _ => (hmoments b hb).2
      · exact fun a _ b hb _ => (hmoments b hb).2
    have hpair := hordered.sublist hbegins.sublist
    exact hkind ((List.pairwise_append.mp hpair).2.2 b (run_stored hb) s (by simp) hrowkind)
  have hshown := others_first_shows hshort hstorable hids hy hm hp hmoment hother hsup hin
  rw [(h _ _ hy hz).tables, Ledger.submitAll, List.foldl_append] at hshown
  change m.id ∈ ((Ledger.empty.submitAll moments).submitAll others).tables.moments at hshown
  rw [submitAll_moments fun s hs => (hothers s hs).2] at hshown
  exact moments_first_holds hshort hids (fun s hs => (hmoments s hs).1)
    (fun s hs => (hmoments s hs).2) hm hp hmoment hother hsup hshown

end Orders

/-- Two ledgers that commit the same events agree whatever the orders, exactly when no identity
comes with two authors or record times and no moment supersedes an event of another kind. -/
theorem orders_agree_iff (xs : List (Signed cr verify)) (hshort : ShortSupersession xs)
    (hstorable : ∀ s ∈ xs, s.Storable) (hids : CollisionFree xs) (hsig : Deterministic xs) :
    (∀ ys zs : List (Signed cr verify), ys.Perm xs → zs.Perm xs →
      (Ledger.empty.submitAll ys).SameView cr (Ledger.empty.submitAll zs)) ↔
      OneEnvelope xs ∧ OwnKind xs := by
  constructor
  · intro h
    exact ⟨envelope_of_agree hshort hstorable h, own_kind_of_agree hshort hstorable hids h⟩
  · rintro ⟨henvelope, hown⟩ ys zs hy hz
    exact orders_agree hshort hstorable hids hsig henvelope hown hy hz

end Runs

end Clockchain.V0
