import Clockchain.V0.Folded

/-!
# Applying one more event

`Folded` and `Chained` say what the tables hold when the events of a set have been applied
over a log. Applying one more event of the log keeps both; storing one more event changes
nothing but the row of the chain it joins, unless a stored moment was waiting for it.
-/

namespace Clockchain.V0
open Codec Lineages Survivors
open V1 (Hash BTreeMap Crypto Verify)
set_option autoImplicit false

section Log
variable {cr : Crypto} {verify : Verify} {events : Events} {s s' : Signed cr verify}

/-! ## What an event contributes to each table -/

namespace Signed

def birth (s : Signed cr verify) : Option (EntityId × EntityRow) :=
  match s.content.body with
  | .entityCreate e => some (e.entityId, Tables.entityRow s.content s.id e)
  | _ => none

def declaration (s : Signed cr verify) : Option (BitVec 32 × VocabularyRow) :=
  match s.content.body with
  | .vocabularyDeclare v => some (v.claimType, Tables.vocabularyRow s.content s.id v)
  | _ => none

def edge (s : Signed cr verify) : Option EdgeRow :=
  match s.content.body with
  | .edge ed => some (Tables.edgeRow s.content ed)
  | _ => none

def attestation (s : Signed cr verify) : Option AttestationRow :=
  match s.content.body with
  | .attestation a => some ⟨a.target, s.content.author⟩
  | _ => none

theorem birth_event {k : EntityId} {row : EntityRow} (h : s.birth = some (k, row)) :
    row.birthEvent = s.id := by
  unfold birth at h
  split at h
  · next e _ =>
    obtain ⟨_, rfl⟩ := Prod.mk.inj (Option.some.inj h)
    rfl
  · cases h

theorem declaration_event {k : BitVec 32} {row : VocabularyRow}
    (h : s.declaration = some (k, row)) : row.declaredBy = s.id := by
  unfold declaration at h
  split at h
  · next v _ =>
    obtain ⟨_, rfl⟩ := Prod.mk.inj (Option.some.inj h)
    rfl
  · cases h

end Signed

def EntityRow.order (row : EntityRow) : Nat ×ₗ Nat := foldOrder row.birthEventTime row.birthEvent

def VocabularyRow.order (row : VocabularyRow) : Nat ×ₗ Nat :=
  foldOrder row.declaredAt row.declaredBy

variable {A : Set (Signed cr verify)} {t t' : Tables}

/-- The tables once the events of `A` have been applied, chains aside. -/
structure Folded (A : Set (Signed cr verify)) (t : Tables) : Prop where
  entities : Holds EntityRow.order (claimed Signed.birth A) t.entities
  vocabulary : Holds VocabularyRow.order (claimed Signed.declaration A) t.vocabulary
  edges : ∀ (id : Hash) (row : EdgeRow), t.edges[id]? = some row ↔
    ∃ s ∈ A, s.id = id ∧ ∃ base, s.edge = some base ∧ row = base.resolve t.entities
  attestations : ∀ (id : Hash) (row : AttestationRow), t.attestations[id]? = some row ↔
    ∃ s ∈ A, s.id = id ∧ s.attestation = some row
  tallied : t.stats.getD .zero = t.counts
  counted : t.stats = none ↔ A = ∅

theorem Folded.settled (h : Folded A t) : t.Settled := by
  intro id row hrow
  obtain ⟨s, _, _, base, _, rfl⟩ := (h.edges id row).mp hrow
  rfl

theorem folded_empty : Folded (∅ : Set (Signed cr verify)) .empty where
  entities k row := by simp [Tables.empty, claimed, Survivor]
  vocabulary k row := by simp [Tables.empty, claimed, Survivor]
  edges id row := by simp [Tables.empty]
  attestations id row := by simp [Tables.empty]
  tallied := by
    simp only [Tables.empty, Option.getD_none, LedgerStats.zero, Tables.counts, Maps.count_empty,
      Std.ExtTreeMap.size_empty]
    rfl
  counted := by simp [Tables.empty]

/-- What is folded is a function of the events. -/
theorem Folded.unique (h : Folded A t) (h' : Folded A t') (hmoments : t.moments = t'.moments) :
    t = t' := by
  have hentities : t.entities = t'.entities := h.entities.unique h'.entities
  have hvocabulary : t.vocabulary = t'.vocabulary := h.vocabulary.unique h'.vocabulary
  have hedges : t.edges = t'.edges :=
    Maps.ext_graph fun id row => (h.edges id row).trans (hentities ▸ (h'.edges id row).symm)
  have hattestations : t.attestations = t'.attestations :=
    Maps.ext_graph fun id row => (h.attestations id row).trans (h'.attestations id row).symm
  have hcounts : t.counts = t'.counts := by
    simp only [Tables.counts, hentities, hmoments, hedges, hattestations]
  have hstats : t.stats = t'.stats := by
    have htallied := h.tallied
    have htallied' := h'.tallied
    have hnone : t.stats = none ↔ t'.stats = none := h.counted.trans h'.counted.symm
    cases hs : t.stats with
    | none => rw [hnone.mp hs]
    | some x =>
      cases hs' : t'.stats with
      | none => simp [hnone.mpr hs'] at hs
      | some x' =>
        rw [hs] at htallied
        rw [hs'] at htallied'
        exact congrArg some (htallied.trans (hcounts.trans htallied'.symm))
  obtain ⟨⟩ := t
  obtain ⟨⟩ := t'
  simp only at hentities hmoments hedges hattestations hvocabulary hstats
  subst hentities hmoments hedges hattestations hvocabulary hstats
  rfl

/-- Identities name one event of `A`. -/
def Named (A : Set (Signed cr verify)) : Prop := Set.InjOn Signed.id A

theorem Named.births (h : Named A) {k : EntityId} :
    Set.InjOn EntityRow.order (claimed Signed.birth A k) := by
  refine injOn_claimed fun s hs s' hs' r r' hr hr' heq => h hs hs' ?_
  rw [← Signed.birth_event hr, ← Signed.birth_event hr']
  exact (foldOrder_inj.mp heq).2

theorem Named.declarations (h : Named A) {k : BitVec 32} :
    Set.InjOn VocabularyRow.order (claimed Signed.declaration A k) := by
  refine injOn_claimed fun s hs s' hs' r r' hr hr' heq => h hs hs' ?_
  rw [← Signed.declaration_event hr, ← Signed.declaration_event hr']
  exact (foldOrder_inj.mp heq).2

/-! ## Chains -/

/-- The row of every complete chain of `A`, those the lineage of `except` joins left out. -/
def ChainedBut (events : Events) (A : Set (Signed cr verify)) (t : Tables)
    (except : Hash → Prop) : Prop :=
  ∀ (root : Hash) (row : MomentRow), ¬ except root → (t.moments[root]? = some row ↔
    (∃ s ∈ A, s.kind = .moment ∧ Rooted (up events) s.id root) ∧ Shows cr verify events root row)

/-- One row for every complete chain of `A`. -/
def Chained (events : Events) (A : Set (Signed cr verify)) (t : Tables) : Prop :=
  ∀ (root : Hash) (row : MomentRow), t.moments[root]? = some row ↔
    (∃ s ∈ A, s.kind = .moment ∧ Rooted (up events) s.id root) ∧ Shows cr verify events root row

theorem Chained.unique (h : Chained events A t) (h' : Chained events A t') :
    t.moments = t'.moments :=
  Maps.ext_graph fun root row => (h root row).trans (h' root row).symm

theorem Signed.kind_moment : s.kind = .moment ↔ ∃ m, s.content.body = .moment m := by
  unfold Signed.kind EventBody.kind
  cases s.content.body <;> simp

theorem Gated.moment (hg : Gated cr verify events) {x : Hash} (hx : up events x ≠ .held) :
    ∃ (s : Signed cr verify) (m : MomentBody), s.id = x ∧ Stored events s ∧
      s.content.body = .moment m := by
  obtain ⟨row, hrow, hkind⟩ := up_of_not_held hx
  obtain ⟨s, rfl, rfl, hs⟩ := hg.stored hrow
  obtain ⟨m, hm⟩ := Signed.kind_moment.mp hkind
  exact ⟨s, m, rfl, hs, hm⟩

/-- A chain shows its head's row. -/
theorem Gated.shows (hg : Gated cr verify events) {root head : Hash}
    (hroot : up events root = .top) (hhead : Headed (nextLink events) root head) :
    ∃ (s : Signed cr verify) (m : MomentBody), s.id = head ∧ Stored events s ∧
      s.content.body = .moment m ∧
      Shows cr verify events root (momentRow head s.content m) := by
  have hrooted := hhead.rooted (fun hx hnext => nextLink_up hx hnext) (Rooted.top hroot)
  obtain ⟨s, m, rfl, hs, hm⟩ := hg.moment hrooted.not_held
  exact ⟨s, m, rfl, hs, hm, s, m, hhead, hs, hm, rfl⟩

theorem projectMoment_eq (hg : Gated cr verify events) (htally : t.Tallied)
    (hs : Stored events s) (hkind : s.kind = .moment) :
    (∃ root row, Rooted (up events) s.id root ∧ Shows cr verify events root row ∧
      t.projectMoment cr events s.content s.id =
        .ok (Tables.recount { t with moments := t.moments.insert root row })) ∨
    (∀ root, ¬ Rooted (up events) s.id root) ∧
      t.projectMoment cr events s.content s.id = .ok t ∨
    (∃ x y, Ascends (up events) maxChain x y) ∧
      t.projectMoment cr events s.content s.id = .error chainTooLong := by
  have hstats : t.stats = some t.counts := htally
  have hroot := @chainRoot_eq events maxChain s.id s.row hs hkind
  change chainRoot events maxChain s.id s.content.supersedes = _ at hroot
  cases hclimb : climb (up events) maxChain s.id with
  | none =>
    rw [hclimb] at hroot
    refine Or.inr (Or.inr ⟨⟨s.id, climb_eq_none.mp hclimb⟩, ?_⟩)
    simp only [Tables.projectMoment, hroot]
    rfl
  | some found =>
    rw [hclimb] at hroot
    cases found with
    | none =>
      refine Or.inr (Or.inl ⟨fun root => not_rooted_of_climb hclimb, ?_⟩)
      simp only [Tables.projectMoment, hroot]
      rfl
    | some root =>
      have hrooted := rooted_of_climb hclimb
      have htop : up events root ≠ .held := by simp [hrooted.top_of]
      cases hdescend : descend (nextLink events) maxChain root with
      | none =>
        obtain ⟨y, hy⟩ := ascends_of_descend (fun hx hnext => nextLink_up hx hnext) htop hdescend
        refine Or.inr (Or.inr ⟨⟨y, root, hy⟩, ?_⟩)
        simp only [Tables.projectMoment, hroot, bind, Except.bind, chainHead_eq, hdescend]
      | some head =>
        obtain ⟨s', m, rfl, hs', hm, hshows⟩ :=
          hg.shows hrooted.top_of (headed_of_descend hdescend)
        refine Or.inl ⟨root, _, hrooted, hshows, ?_⟩
        simp only [Tables.projectMoment, hroot, bind, Except.bind, chainHead_eq, hdescend,
          momentColumns_eq hs hs' hm]
        cases hexisted : t.moments.contains root with
        | true =>
          simp only [if_true, pure, Except.pure, Tables.recount, hstats, Tables.counts,
            Maps.size_insert_old (Maps.contains_iff.mp hexisted)]
        | false =>
          have hnew : root ∉ t.moments := Maps.contains_eq_false.mp hexisted
          simp only [Bool.false_eq_true, if_false, pure, Except.pure, Tables.updateStats,
            Tables.recount, hstats, Option.map_some, Tables.counts, Maps.size_insert_new hnew,
            Nat.cast_add, Nat.cast_one]

/-! ## Applying an event -/

theorem Named.fresh (hnamed : Named (insert s A)) (hnew : s ∉ A) (hs' : s' ∈ A) :
    s'.id ≠ s.id := fun hid => by
  have heq := hnamed (Set.mem_insert_of_mem s hs') (Set.mem_insert s A) hid
  exact hnew (heq ▸ hs')

/-- What one more event adds to what the members of a set say of an identity. -/
theorem said_insert {id : Hash} {P : Signed cr verify → Prop} :
    (∃ s' ∈ insert s A, s'.id = id ∧ P s') ↔ s.id = id ∧ P s ∨ ∃ s' ∈ A, s'.id = id ∧ P s' := by
  simp only [Set.mem_insert_iff, or_and_right, exists_or, exists_eq_left]

section Apply
variable (h : Folded A t) (hnamed : Named (insert s A)) (hnew : s ∉ A)
include h hnamed hnew

theorem Folded.keepEntity {e : EntityBirth} (hbody : s.content.body = .entityCreate e) :
    Holds EntityRow.order (claimed Signed.birth (insert s A)) (t.keepEntity s.content s.id e) := by
  have hbirth : s.birth = some (e.entityId, Tables.entityRow s.content s.id e) := by
    simp only [Signed.birth, hbody]
  have hself := claimed_self (A := A) hbirth
  have hother := fun a => claimed_other (A := A) hbirth (a := a)
  unfold Tables.keepEntity
  simp only
  split
  · next hnone => exact h.entities.takes hother hself hnamed.births hnone
  · next existing hsits =>
    obtain ⟨⟨s', hs', hbirth'⟩, _⟩ := (h.entities e.entityId existing).mp hsits
    have hid : existing.birthEvent ≠ s.id := fun hid =>
      hnamed.fresh hnew hs' ((Signed.birth_event hbirth').symm.trans hid)
    rw [if_neg hid]
    split
    · next hlt => exact h.entities.replaces hother hself hnamed.births hsits hlt
    · next hle => exact h.entities.retains hother hself hnamed.births hsits (not_lt.mp hle)

theorem Folded.keepVocabulary {v : VocabularyEntry}
    (hbody : s.content.body = .vocabularyDeclare v) :
    Holds VocabularyRow.order (claimed Signed.declaration (insert s A))
      (t.keepVocabulary s.content s.id v) := by
  have hdeclares : s.declaration = some (v.claimType, Tables.vocabularyRow s.content s.id v) := by
    simp only [Signed.declaration, hbody]
  have hself := claimed_self (A := A) hdeclares
  have hother := fun a => claimed_other (A := A) hdeclares (a := a)
  unfold Tables.keepVocabulary
  simp only
  split
  · next hnone => exact h.vocabulary.takes hother hself hnamed.declarations hnone
  · next prior hsits =>
    obtain ⟨⟨s', hs', hdeclares'⟩, _⟩ := (h.vocabulary v.claimType prior).mp hsits
    have hid : prior.declaredBy ≠ s.id := fun hid =>
      hnamed.fresh hnew hs' ((Signed.declaration_event hdeclares').symm.trans hid)
    rw [if_neg hid]
    split
    · next hlt => exact h.vocabulary.replaces hother hself hnamed.declarations hsits hlt
    · next hle => exact h.vocabulary.retains hother hself hnamed.declarations hsits (not_lt.mp hle)

omit hnamed hnew in
theorem Folded.same_edges (hnone : s.edge = none) (id : Hash) (row : EdgeRow) :
    t.edges[id]? = some row ↔ ∃ s' ∈ insert s A, s'.id = id ∧
      ∃ base, s'.edge = some base ∧ row = base.resolve t.entities := by
  rw [h.edges, said_insert, hnone]
  simp

omit hnamed hnew in
theorem Folded.resolved_edges (hnone : s.edge = none) (entities : EntityMap EntityRow) (id : Hash)
    (row : EdgeRow) : (t.edges.map fun _ e => e.resolve entities)[id]? = some row ↔
      ∃ s' ∈ insert s A, s'.id = id ∧ ∃ base, s'.edge = some base ∧
      row = base.resolve entities := by
  rw [said_insert, Std.ExtTreeMap.getElem?_map, Option.map_eq_some_iff]
  constructor
  · rintro ⟨old, hold, rfl⟩
    obtain ⟨s', hs', hid, base, hbase, rfl⟩ := (h.edges id old).mp hold
    exact Or.inr ⟨s', hs', hid, base, hbase, rfl⟩
  · rintro (⟨_, base, hbase, _⟩ | ⟨s', hs', hid, base, hbase, rfl⟩)
    · simp [hnone] at hbase
    · exact ⟨_, (h.edges id _).mpr ⟨s', hs', hid, base, hbase, rfl⟩, rfl⟩

omit hnamed hnew in
theorem Folded.same_attestations (hnone : s.attestation = none) (id : Hash)
    (row : AttestationRow) : t.attestations[id]? = some row ↔
      ∃ s' ∈ insert s A, s'.id = id ∧ s'.attestation = some row := by
  rw [h.attestations, said_insert, hnone]
  simp

omit h in
/-- A table that grows by the row of a fresh identity. -/
theorem inserted_iff {α : Type} {m : BTreeMap α} {tells : Signed cr verify → α → Prop}
    (hm : ∀ (id : Hash) (row : α), m[id]? = some row ↔ ∃ s' ∈ A, s'.id = id ∧ tells s' row)
    {new : α} (htells : ∀ row, tells s row ↔ row = new) (id : Hash) (row : α) :
    (m.insert s.id new)[id]? = some row ↔ ∃ s' ∈ insert s A, s'.id = id ∧ tells s' row := by
  rw [Maps.getElem?_insert, said_insert]
  split
  · next hid =>
    have hother : ¬ ∃ s' ∈ A, s'.id = id ∧ tells s' row := by
      rintro ⟨s', hs', hid', _⟩
      exact hnamed.fresh hnew hs' (hid'.trans hid.symm)
    rw [or_iff_left hother, htells]
    simp only [Option.some.injEq, hid, true_and]
    exact eq_comm
  · next hid => simp only [hid, false_and, false_or, hm]

/-! ### One lemma for each projector -/

omit h hnamed hnew in
theorem Folded.of_tables (htally : t'.Tallied)
    (hentities : Holds EntityRow.order (claimed Signed.birth (insert s A)) t'.entities)
    (hvocabulary : Holds VocabularyRow.order (claimed Signed.declaration (insert s A))
      t'.vocabulary)
    (hedges : ∀ (id : Hash) (row : EdgeRow), t'.edges[id]? = some row ↔ ∃ s' ∈ insert s A,
      s'.id = id ∧ ∃ base, s'.edge = some base ∧ row = base.resolve t'.entities)
    (hattestations : ∀ (id : Hash) (row : AttestationRow), t'.attestations[id]? = some row ↔
      ∃ s' ∈ insert s A, s'.id = id ∧ s'.attestation = some row) : Folded (insert s A) t' := by
  have hrow : t'.stats = some t'.counts := htally
  refine ⟨hentities, hvocabulary, hedges, hattestations, ?_, ?_⟩
  · rw [hrow]
    rfl
  · simp [hrow, ← Set.nonempty_iff_ne_empty]

theorem Folded.apply_entity {e : EntityBirth} (hbody : s.content.body = .entityCreate e)
    (hok : t.apply cr events s.content s.id = .ok t') : Folded (insert s A) t' := by
  have hdeclares : s.declaration = none := by simp only [Signed.declaration, hbody]
  have hedge : s.edge = none := by simp only [Signed.edge, hbody]
  have hattests : s.attestation = none := by simp only [Signed.attestation, hbody]
  have htally := Tables.ensureStatsRow_tallied h.tallied
  have hsettled : t.ensureStatsRow.Settled := h.settled
  simp only [Tables.apply, hbody, Tables.projectEntity_eq htally hsettled] at hok
  obtain rfl := Except.ok.inj hok
  refine .of_tables rfl (h.keepEntity hnamed hnew hbody) ?_ (h.resolved_edges hedge _)
    (h.same_attestations hattests)
  rw [claimed_none hdeclares]
  exact h.vocabulary

omit hnamed hnew in
theorem Folded.apply_moment (hg : Gated cr verify events) (hs : Stored events s) {m : MomentBody}
    (hbody : s.content.body = .moment m)
    (hok : t.apply cr events s.content s.id = .ok t') : Folded (insert s A) t' := by
  have hbirth : s.birth = none := by simp only [Signed.birth, hbody]
  have hdeclares : s.declaration = none := by simp only [Signed.declaration, hbody]
  have hedge : s.edge = none := by simp only [Signed.edge, hbody]
  have hattests : s.attestation = none := by simp only [Signed.attestation, hbody]
  have hkind : s.kind = .moment := Signed.kind_moment.mpr ⟨m, hbody⟩
  have htally := Tables.ensureStatsRow_tallied h.tallied
  simp only [Tables.apply, hbody] at hok
  have hsame : t'.Tallied ∧ t'.entities = t.entities ∧ t'.vocabulary = t.vocabulary ∧
      t'.edges = t.edges ∧ t'.attestations = t.attestations := by
    rcases projectMoment_eq hg htally hs hkind with ⟨root, row, _, _, hproj⟩ | ⟨_, hproj⟩ |
      ⟨_, hproj⟩
    · rw [hproj] at hok
      obtain rfl := Except.ok.inj hok
      exact ⟨rfl, rfl, rfl, rfl, rfl⟩
    · rw [hproj] at hok
      obtain rfl := Except.ok.inj hok
      exact ⟨htally, rfl, rfl, rfl, rfl⟩
    · rw [hproj] at hok
      cases hok
  obtain ⟨hstats, hentities, hvocabulary, hedges, hattestations⟩ := hsame
  apply Folded.of_tables hstats
  · rw [hentities, claimed_none hbirth]
    exact h.entities
  · rw [hvocabulary, claimed_none hdeclares]
    exact h.vocabulary
  · rw [hedges, hentities]
    exact h.same_edges hedge
  · rw [hattestations]
    exact h.same_attestations hattests

theorem Folded.apply_edge {ed : EdgeBody} (hbody : s.content.body = .edge ed)
    (hok : t.apply cr events s.content s.id = .ok t') : Folded (insert s A) t' := by
  have hbirth : s.birth = none := by simp only [Signed.birth, hbody]
  have hdeclares : s.declaration = none := by simp only [Signed.declaration, hbody]
  have hattests : s.attestation = none := by simp only [Signed.attestation, hbody]
  have hedge : s.edge = some (Tables.edgeRow s.content ed) := by simp only [Signed.edge, hbody]
  have htally := Tables.ensureStatsRow_tallied h.tallied
  have hfresh : s.id ∉ t.edges := fun hmem => by
    obtain ⟨row, hrow⟩ := Maps.mem_iff.mp hmem
    obtain ⟨s', hs', hid, _⟩ := (h.edges s.id row).mp hrow
    exact hnamed.fresh hnew hs' hid
  have hloop : ed.src ≠ ed.dst := fun heq => by
    simp [Tables.apply, hbody, Tables.projectEdge, heq] at hok
  simp only [Tables.apply, hbody, Tables.projectEdge_eq htally hloop hfresh] at hok
  obtain rfl := Except.ok.inj hok
  refine Folded.of_tables rfl ?_ ?_ ?_ ?_
  · rw [claimed_none hbirth]
    exact h.entities
  · rw [claimed_none hdeclares]
    exact h.vocabulary
  · refine inserted_iff hnamed hnew h.edges fun row => ?_
    simp only [hedge, Option.some.injEq, exists_eq_left']
    rfl
  · exact h.same_attestations hattests

theorem Folded.apply_attestation {a : AttestationBody} (hbody : s.content.body = .attestation a)
    (hok : t.apply cr events s.content s.id = .ok t') : Folded (insert s A) t' := by
  have hbirth : s.birth = none := by simp only [Signed.birth, hbody]
  have hdeclares : s.declaration = none := by simp only [Signed.declaration, hbody]
  have hedge : s.edge = none := by simp only [Signed.edge, hbody]
  have htally := Tables.ensureStatsRow_tallied h.tallied
  have hfresh : s.id ∉ t.attestations := fun hmem => by
    obtain ⟨row, hrow⟩ := Maps.mem_iff.mp hmem
    obtain ⟨s', hs', hid, _⟩ := (h.attestations s.id row).mp hrow
    exact hnamed.fresh hnew hs' hid
  simp only [Tables.apply, hbody, Tables.projectAttestation_eq htally hfresh] at hok
  obtain rfl := Except.ok.inj hok
  refine Folded.of_tables rfl ?_ ?_ ?_ ?_
  · rw [claimed_none hbirth]
    exact h.entities
  · rw [claimed_none hdeclares]
    exact h.vocabulary
  · exact h.same_edges hedge
  · refine inserted_iff hnamed hnew h.attestations fun row => ?_
    simp only [Signed.attestation, hbody, Option.some.injEq, eq_comm]

theorem Folded.apply_vocabulary {v : VocabularyEntry}
    (hbody : s.content.body = .vocabularyDeclare v)
    (hok : t.apply cr events s.content s.id = .ok t') : Folded (insert s A) t' := by
  have hbirth : s.birth = none := by simp only [Signed.birth, hbody]
  have hedge : s.edge = none := by simp only [Signed.edge, hbody]
  have hattests : s.attestation = none := by simp only [Signed.attestation, hbody]
  have htally := Tables.ensureStatsRow_tallied h.tallied
  have hcode : v.claimType ≠ 0 := fun heq => by
    simp [Tables.apply, hbody, Tables.projectVocabulary, heq] at hok
  simp only [Tables.apply, hbody, Tables.projectVocabulary_eq htally hcode] at hok
  obtain rfl := Except.ok.inj hok
  refine .of_tables rfl ?_ (h.keepVocabulary hnamed hnew hbody) (h.same_edges hedge)
    (h.same_attestations hattests)
  rw [claimed_none hbirth]
  exact h.entities

/-- A projector keeps the tables folded, whatever the kind of the event. -/
theorem Folded.apply (hg : Gated cr verify events) (hs : Stored events s)
    (hok : t.apply cr events s.content s.id = .ok t') : Folded (insert s A) t' := by
  cases hbody : s.content.body with
  | entityCreate e => exact h.apply_entity hnamed hnew hbody hok
  | moment m => exact h.apply_moment hg hs hbody hok
  | edge ed => exact h.apply_edge hnamed hnew hbody hok
  | attestation a => exact h.apply_attestation hnamed hnew hbody hok
  | vocabularyDeclare v => exact h.apply_vocabulary hnamed hnew hbody hok

end Apply

/-! ## Applying a moment -/

theorem rooted_insert {r : Hash} (hother : ¬ (s.kind = .moment ∧ Rooted (up events) s.id r)) :
    (∃ s' ∈ insert s A, s'.kind = .moment ∧ Rooted (up events) s'.id r) ↔
      ∃ s' ∈ A, s'.kind = .moment ∧ Rooted (up events) s'.id r := by
  constructor
  · rintro ⟨s', rfl | hs', hrooted⟩
    · exact absurd hrooted hother
    · exact ⟨s', hs', hrooted⟩
  · rintro ⟨s', hs', hrooted⟩
    exact ⟨s', Set.mem_insert_of_mem s hs', hrooted⟩

/-- Applying an event puts the row of the chain it is on into place, and moves no other. -/
theorem ChainedBut.apply (hg : Gated cr verify events) (hs : Stored events s)
    (htally : t.stats.getD .zero = t.counts)
    (h : ChainedBut events A t fun root => s.kind = .moment ∧ Rooted (up events) s.id root)
    (hok : t.apply cr events s.content s.id = .ok t') : Chained events (insert s A) t' := by
  have hensured := Tables.ensureStatsRow_tallied htally
  intro r row
  by_cases hkind : s.kind = .moment
  · obtain ⟨m, hbody⟩ := Signed.kind_moment.mp hkind
    simp only [Tables.apply, hbody] at hok
    rcases projectMoment_eq hg hensured hs hkind with ⟨root, row', hroot, hshows, hproj⟩ |
      ⟨hheld, hproj⟩ | ⟨_, hproj⟩
    · rw [hproj] at hok
      obtain rfl := Except.ok.inj hok
      simp only [Tables.recount, Tables.ensureStatsRow, Maps.getElem?_insert]
      split
      · next hr =>
        subst hr
        rw [Option.some.injEq]
        constructor
        · rintro rfl
          exact ⟨⟨s, Set.mem_insert s A, hkind, hroot⟩, hshows⟩
        · rintro ⟨_, hrow⟩
          exact hshows.unique hrow
      · next hr =>
        have hother : ¬ (s.kind = .moment ∧ Rooted (up events) s.id r) := fun hrooted =>
          hr (hroot.unique hrooted.2)
        rw [h r row hother, rooted_insert hother]
    · rw [hproj] at hok
      obtain rfl := Except.ok.inj hok
      have hother : ¬ (s.kind = .moment ∧ Rooted (up events) s.id r) := fun hrooted =>
        hheld r hrooted.2
      rw [rooted_insert hother]
      exact h r row hother
    · rw [hproj] at hok
      cases hok
  · have hother : ¬ (s.kind = .moment ∧ Rooted (up events) s.id r) := fun hrooted =>
      hkind hrooted.1
    rw [rooted_insert hother, Tables.apply_moments hkind hok]
    exact h r row hother

/-! ## Storing an event -/

/-- No stored moment names the new event as the one it corrects, unless it is a moment. -/
def Awaited (events : Events) (s : Signed cr verify) : Prop :=
  s.kind ≠ .moment ∧ ∃ (id : Hash) (row : EventRow), events[id]? = some row ∧
    row.kind = .moment ∧ row.supersedes = some s.id

variable (hnew : s.id ∉ events)
include hnew

theorem up_insert {x : Hash} (hx : x ≠ s.id) :
    up (events.insert s.id s.row) x = up events x ∨
      up events x = .held ∧ (∃ row, events[x]? = some row ∧ row.kind = .moment ∧
        row.supersedes = some s.id) ∧
        up (events.insert s.id s.row) x = if s.kind ≠ .moment then .top else .above s.id := by
  have hnone : events[s.id]? = none := Std.ExtTreeMap.getElem?_eq_none hnew
  simp only [up, Maps.getElem?_insert, if_neg (Ne.symm hx)]
  cases hrow : events[x]? with
  | none => exact Or.inl rfl
  | some row =>
    by_cases hkind : row.kind = .moment
    · simp only [hkind, ne_eq, not_true, if_false]
      cases hsup : row.supersedes with
      | none => exact Or.inl rfl
      | some p =>
        by_cases hp : s.id = p
        · subst hp
          refine Or.inr ⟨?_, ⟨row, rfl, hkind, hsup⟩, ?_⟩
          · simp only [hnone]
          · simp only [if_true, Signed.row]
        · exact Or.inl (by simp only [if_neg hp])
    · exact Or.inl (by simp only [ne_eq, hkind, not_false_eq_true, if_true])

theorem children_insert {x : Hash} (h : ¬ (s.kind = .moment ∧ s.content.supersedes = some x)) :
    children (events.insert s.id s.row) x = children events x := by
  ext ⟨id, row⟩
  simp only [children, Set.mem_ofPred_eq, Maps.getElem?_insert]
  by_cases hid : s.id = id
  · subst hid
    rw [if_pos rfl]
    constructor
    · rintro ⟨hrow, hsup, hkind⟩
      obtain rfl := Option.some.inj hrow
      exact absurd ⟨hkind, hsup⟩ h
    · rintro ⟨hrow, _⟩
      exact absurd (Maps.mem_of_getElem? hrow) hnew
  · rw [if_neg hid]

theorem nextLink_insert {x : Hash} (h : ¬ (s.kind = .moment ∧ s.content.supersedes = some x)) :
    nextLink (events.insert s.id s.row) x = nextLink events x := by
  refine Option.ext fun y => ?_
  rw [nextLink_iff, nextLink_iff, children_insert hnew h]

/-- A stored moment arrives in the lineages. -/
theorem arrives (hkind : s.kind = .moment) : Arrives (up events) (up (events.insert s.id s.row))
    (nextLink events) (nextLink (events.insert s.id s.row)) s.id where
  missing := by
    have hnone : events[s.id]? = none := Std.ExtTreeMap.getElem?_eq_none hnew
    simp only [up, hnone]
  up_eq x hx := by
    refine (up_insert hnew hx).imp_right fun h => ⟨h.1, ?_⟩
    rw [h.2.2, if_neg (not_not.mpr hkind)]
  down_eq x hx habove := by
    refine nextLink_insert hnew fun h => habove ?_
    obtain ⟨parent, hparent, hpkind⟩ := up_of_not_held hx
    have hrow : (events.insert s.id s.row)[s.id]? = some s.row := by
      rw [Maps.getElem?_insert, if_pos rfl]
    exact up_above hrow hkind h.2 hparent hpkind
  down_up hx hnext := nextLink_up hx hnext

theorem up_insert_of_ne (hkind : s.kind ≠ .moment) (hawaited : ¬ Awaited events s) :
    up (events.insert s.id s.row) = up events := by
  funext x
  by_cases hx : x = s.id
  · subst hx
    have hnone : events[s.id]? = none := Std.ExtTreeMap.getElem?_eq_none hnew
    simp only [up, Maps.getElem?_insert, if_true, hnone]
    exact if_pos hkind
  · rcases up_insert hnew hx with h | ⟨_, ⟨row, hrow⟩, _⟩
    · exact h
    · exact absurd ⟨hkind, x, row, hrow⟩ hawaited

theorem nextLink_insert_of_ne (hkind : s.kind ≠ .moment) :
    nextLink (events.insert s.id s.row) = nextLink events :=
  funext fun _ => nextLink_insert hnew fun h => hkind h.1

theorem shows_insert {root : Hash} {row : MomentRow}
    (hhead : ∀ head, Headed (nextLink (events.insert s.id s.row)) root head ↔
      Headed (nextLink events) root head)
    (hother : ∀ head, Headed (nextLink events) root head → head ≠ s.id) :
    Shows cr verify (events.insert s.id s.row) root row ↔ Shows cr verify events root row := by
  unfold Shows
  refine exists_congr fun s' => exists_congr fun m => ?_
  rw [hhead, stored_insert hnew]
  refine and_congr_right fun h => and_congr_left fun _ => ?_
  refine or_iff_right ?_
  rintro rfl
  exact hother _ h rfl

end Log

end Clockchain.V0
