import Clockchain.V0.Convergence
import Clockchain.V0.Publication

/-!
# Causes before effects

Over every sequence of calls: an edge of the publisher joins two known entities and carries
its evidence, and the cause starts no later than the effect exactly while every candidate
leaves the causal edges in order.
-/

namespace Clockchain.V0.Publisher
open Codec Survivors Programs
open V1 (Hash BTreeMap Crypto Verify)
set_option autoImplicit false

section Chronology
variable {cr : Crypto} {verify : Verify} {ledger ledger' : Ledger} {s s' : Signed cr verify}
  {ss : List (Signed cr verify)}

/-! ## Commits -/

/-- `ledger'` is `ledger` after the commits of `ss`. -/
def Commits (ledger : Ledger) (ss : List (Signed cr verify)) (ledger' : Ledger) : Prop :=
  ss.foldlM (fun l s => Prod.snd <$> Ledger.commit l s) ledger = .ok ledger'

theorem commits_nil : Commits ledger ([] : List (Signed cr verify)) ledger := rfl

theorem commits_cons : Commits ledger (s :: ss) ledger' ↔
    ∃ outcome next, ledger.commit s = .ok (outcome, next) ∧ Commits next ss ledger' := by
  unfold Commits
  rw [List.foldlM_cons]
  cases ledger.commit s with
  | error e => simp [Functor.map, Except.map, bind, Except.bind]
  | ok committed =>
    obtain ⟨outcome, next⟩ := committed
    simp [Functor.map, Except.map, bind, Except.bind]

theorem Commits.append {ss' : List (Signed cr verify)} {next : Ledger}
    (h : Commits ledger ss next) (h' : Commits next ss' ledger') :
    Commits ledger (ss ++ ss') ledger' := by
  unfold Commits at h h' ⊢
  rw [List.foldlM_append, h]
  exact h'

/-- An event the ledger holds that says `body` of `at_`. -/
def Told (cr : Crypto) (verify : Verify) (ledger : Ledger) (at_ : Tick) (body : EventBody) : Prop :=
  ∃ s : Signed cr verify, Stored ledger.events s ∧ s.content.eventTime = at_ ∧ s.content.body = body

def Signed.Lasting (s : Signed cr verify) : Prop := ∀ a, s.content.body ≠ .attestation a

/-- Events with one preimage say the same of the same coordinate. -/
theorem same_claim (hcanon : s.canon = s'.canon) (hlasting : Signed.Lasting s) :
    s.content.eventTime = s'.content.eventTime ∧ s.content.body = s'.content.body := by
  have hsame := sameIdentity hcanon
  have hbody := hsame.body
  have hread := hsame 0 0 0
  rw [EventContent.readBack, EventContent.readBack, ← hbody] at hread
  refine ⟨?_, hbody⟩
  cases hb : s.content.body with
  | attestation a => exact absurd hb (hlasting a)
  | _ =>
    simp only [hb] at hread
    exact (EventContent.mk.inj hread).1

/-- `s` collides with nothing the ledger holds. -/
def Fresh (ledger : Ledger) (s : Signed cr verify) : Prop :=
  ∀ s' : Signed cr verify, Stored ledger.events s' → s.id = s'.id → s.canon = s'.canon

theorem commit_told {outcome : Appended} (hsound : ledger.Sound cr verify)
    (hlasting : Signed.Lasting s) (hfresh : Fresh ledger s)
    (h : ledger.commit s = .ok (outcome, ledger')) (at_ : Tick) (body : EventBody) :
    Told cr verify ledger' at_ body ↔
      Told cr verify ledger at_ body ∨ s.content.eventTime = at_ ∧ s.content.body = body := by
  rcases commit_ok h with ⟨hmem, rfl⟩ | ⟨hnew, hevents, -⟩
  · refine ⟨Or.inl, ?_⟩
    rintro (htold | ⟨rfl, rfl⟩)
    · exact htold
    · obtain ⟨row, hrow⟩ := Maps.mem_iff.mp hmem
      obtain ⟨s', hid, -, hs'⟩ := hsound.gated.stored hrow
      obtain ⟨htime, hbody⟩ := same_claim (hfresh s' hs' hid.symm) hlasting
      exact ⟨s', hs', htime.symm, hbody.symm⟩
  · unfold Told
    rw [hevents]
    constructor
    · rintro ⟨s', hs', htime, hbody⟩
      rcases (stored_insert hnew).mp hs' with rfl | hold
      · exact .inr ⟨htime, hbody⟩
      · exact .inl ⟨s', hold, htime, hbody⟩
    · rintro (⟨s', hs', htime, hbody⟩ | ⟨htime, hbody⟩)
      · exact ⟨s', (stored_insert hnew).mpr (.inr hs'), htime, hbody⟩
      · exact ⟨s, (stored_insert hnew).mpr (.inl rfl), htime, hbody⟩

theorem commit_stored {outcome : Appended} (h : ledger.commit s = .ok (outcome, ledger'))
    (hs' : Stored ledger'.events s') : Stored ledger.events s' ∨ s' = s := by
  rcases commit_ok h with ⟨-, rfl⟩ | ⟨hnew, hevents, -⟩
  · exact .inl hs'
  · rw [hevents] at hs'
    exact ((stored_insert hnew).mp hs').symm

/-- What a run of commits leaves. -/
structure Committed (ledger : Ledger) (ss : List (Signed cr verify)) (ledger' : Ledger) : Prop where
  sound : ledger'.Sound cr verify
  stored : ∀ s, Stored ledger'.events s → Stored ledger.events s ∨ s ∈ ss
  told : ∀ at_ body, Told cr verify ledger' at_ body ↔ Told cr verify ledger at_ body ∨
    ∃ s ∈ ss, s.content.eventTime = at_ ∧ s.content.body = body

theorem Commits.committed (h : Commits ledger ss ledger') (hsound : ledger.Sound cr verify)
    (hlasting : ∀ s ∈ ss, Signed.Lasting s) (hfree : CollisionFree ss)
    (hfresh : ∀ s ∈ ss, Fresh ledger s) : Committed ledger ss ledger' := by
  induction ss generalizing ledger with
  | nil =>
    obtain rfl := Except.ok.inj h
    exact ⟨hsound, fun s hs => .inl hs, fun at_ body => by simp⟩
  | cons s ss ih =>
    obtain ⟨outcome, next, hcommit, hrest⟩ := commits_cons.mp h
    have hmem : ∀ x ∈ ss, x ∈ s :: ss := fun x hx => List.mem_cons_of_mem _ hx
    have hnext : ∀ x ∈ ss, Fresh next x := by
      intro x hx s' hs' hid
      rcases commit_stored hcommit hs' with hold | rfl
      · exact hfresh x (hmem x hx) s' hold hid
      · exact hfree x (hmem x hx) s' List.mem_cons_self hid
    have hdone := ih hrest (hsound.commit hcommit) (fun x hx => hlasting x (hmem x hx))
      (fun x hx y hy => hfree x (hmem x hx) y (hmem y hy)) hnext
    refine ⟨hdone.sound, ?_, ?_⟩
    · intro x hx
      rcases hdone.stored x hx with hx | hx
      · rcases commit_stored hcommit hx with hold | rfl
        · exact .inl hold
        · exact .inr List.mem_cons_self
      · exact .inr (hmem x hx)
    · intro at_ body
      rw [hdone.told, commit_told hsound (hlasting s List.mem_cons_self)
        (hfresh s List.mem_cons_self) hcommit, or_assoc, List.exists_mem_cons_iff]

/-! ## What a candidate says -/

/-- The entity an entry gives birth to and when. -/
def birthOf (cr : Crypto) (e : Value) : Option (EntityId × Tick) := do
  let subject ← (entrySubject cr e).toOption
  let at_ ← (entryCoordinate e).toOption
  return (subject, at_)

def edgeOf (cr : Crypto) (e : Value) : Option EdgeBody := do
  let src ← (endpoint cr (e.get "from")).toOption
  let dst ← (endpoint cr (e.get "to")).toOption
  return ⟨src.1, dst.1, ← (relation e).toOption, ← (evidenceClass e).toOption⟩

/-- The items of an array. -/
def items (v : Value) (key : String) : List Value := (v.get key).asArray.getD []

def births (cr : Crypto) (v : Value) : List (EntityId × Tick) :=
  (items v "entries").filterMap (birthOf cr)

def edges (cr : Crypto) (v : Value) : List EdgeBody := (items v "edges").filterMap (edgeOf cr)

/-! ## What a publication commits -/

variable {d d' : Draft cr verify} {key : SecretKey cr verify} {now : Tick}

/-- `d'` is `d` after the commits of `ss`. -/
structure Grown (d d' : Draft cr verify) (ss : List (Signed cr verify)) : Prop where
  events : d'.events = d.events ++ ss
  commits : Commits d.ledger ss d'.ledger

theorem Grown.trans {d'' : Draft cr verify} {ss' : List (Signed cr verify)} (h : Grown d d' ss)
    (h' : Grown d' d'' ss') : Grown d d'' (ss ++ ss') where
  events := by rw [h'.events, h.events, List.append_assoc]
  commits := h.commits.append h'.commits

theorem commitEvent_ok {content : EventContent} {id : Hash}
    (h : commitEvent key content d = .ok (id, d')) : ∃ s : Signed cr verify, id = s.id ∧
      s.content = { content with author := key.author } ∧ Grown d d' [s] ∧
      d'.edgeEvidence = d.edgeEvidence ∧ d'.coordinates = d.coordinates := by
  unfold commitEvent at h
  split at h
  · nomatch h
  · rename_i s hsign
    split at h
    · nomatch h
    · rename_i outcome ledger hcommit
      obtain ⟨rfl, rfl⟩ := Prod.mk.inj (Except.ok.inj h)
      refine ⟨s, rfl, sign_ok hsign, ⟨rfl, ?_⟩, rfl, rfl⟩
      exact commits_cons.mpr ⟨outcome, ledger, hcommit, commits_nil⟩

theorem context_ok {α : Type} {x : Option α} {text : String} {a : α} :
    context x text = .ok a ↔ x = some a := by
  cases x <;> simp [context]

/-- An entry adds its birth and its moment. -/
theorem publishEntry_ok {e : Value} (h : publishEntry key now d e = .ok d') :
    ∃ (k : EntityId) (at_ : Tick) (birth moment : Signed cr verify), birthOf cr e = some (k, at_) ∧
      Grown d d' [birth, moment] ∧ birth.content.eventTime = at_ ∧
      (∃ name title, birth.content.body = .entityCreate ⟨k, name, title, openWindow at_⟩) ∧
      (∃ m, moment.content.body = .moment m) ∧ d'.edgeEvidence = d.edgeEvidence ∧
      d'.coordinates = d.coordinates.insert k at_ := by
  simp only [publishEntry, bind_ok] at h
  obtain ⟨title, htitle, year, hyear, at_, hat, ⟨_, d1⟩, hbirth, ⟨id, d2⟩, hmoment, _, -, label,
    -, h⟩ := h
  obtain rfl := Except.ok.inj h
  obtain ⟨b, -, hb, hgrown, hrows, hplaces⟩ := commitEvent_ok hbirth
  obtain ⟨m, -, hm, hgrown', hrows', hplaces'⟩ := commitEvent_ok hmoment
  have hsubject : entrySubject cr e = .ok (claimIdentity cr title year).1 := by
    simp only [entrySubject, htitle, context_ok.mp hyear, context, bind, Except.bind, pure,
      Except.pure]
  refine ⟨(claimIdentity cr title year).1, at_, b, m, ?_, ⟨?_, ?_⟩, ?_, ?_, ?_, ?_, ?_⟩
  · simp only [birthOf, hsubject, hat, Except.toOption, bind, Option.bind, pure]
  · exact (Grown.trans hgrown hgrown').events
  · exact (Grown.trans hgrown hgrown').commits
  · rw [hb]
    rfl
  · rw [hb]
    exact ⟨_, _, rfl⟩
  · rw [hm]
    exact ⟨_, rfl⟩
  · exact hrows'.trans hrows
  · exact hplaces'.trans hplaces

theorem declareLabel_ok {label : String × Tick} (h : declareLabel key now d label = .ok d') :
    ∃ s : Signed cr verify, Grown d d' [s] ∧ (∃ v, s.content.body = .vocabularyDeclare v) ∧
      d'.edgeEvidence = d.edgeEvidence ∧ d'.coordinates = d.coordinates := by
  simp only [declareLabel, bind_ok] at h
  obtain ⟨⟨id, d1⟩, hcommit, h⟩ := h
  obtain rfl := Except.ok.inj h
  obtain ⟨s, -, hs, hgrown, hrows, hplaces⟩ := commitEvent_ok hcommit
  refine ⟨s, hgrown, ?_, hrows, hplaces⟩
  rw [hs]
  exact ⟨_, rfl⟩

/-- A row carries the digest of its evidence and its author's signature over both. -/
structure EvidenceRow.Matches (cr : Crypto) (verify : Verify) (row : EvidenceRow) (id : Hash) :
    Prop where
  digest : row.evidenceSha256 = digest cr row.evidence.bytes
  signature : verify row.authorKey (evidenceCommitment id row.evidenceSha256) row.signature = true

theorem insertIfNew_some {κ α : Type} [DecidableEq κ] {t : Table κ α} {k x : κ} {a b : α}
    (h : t.insertIfNew k a x = some b) : t x = some b ∨ x = k ∧ b = a := by
  unfold Table.insertIfNew at h
  split at h
  · exact .inl h
  · unfold Table.insert at h
    split at h
    · next hx => exact .inr ⟨hx, (Option.some.inj h).symm⟩
    · exact .inl h

theorem insertIfNew_has {κ α : Type} [DecidableEq κ] {t : Table κ α} {k x : κ} {a : α}
    (h : (t x).isSome = true ∨ x = k) : (t.insertIfNew k a x).isSome = true := by
  unfold Table.insertIfNew
  split
  · next hk =>
    rcases h with h | rfl
    · exact h
    · exact hk
  · unfold Table.insert
    split
    · rfl
    · next hx => exact h.resolve_right hx

/-- An edge adds itself and a row of evidence. -/
theorem publishEdge_ok {id : String} {e : Value} (h : publishEdge key now id d e = .ok d') :
    ∃ (ed : EdgeBody) (s : Signed cr verify) (row : EvidenceRow), edgeOf cr e = some ed ∧
      Grown d d' [s] ∧ s.content.body = .edge ed ∧ ed.src ∈ d.coordinates ∧
      ed.dst ∈ d.coordinates ∧ row.Matches cr verify s.id ∧
      d'.edgeEvidence = d.edgeEvidence.insertIfNew s.id row ∧ d'.coordinates = d.coordinates := by
  simp only [publishEdge, bind_ok] at h
  obtain ⟨src, hsrc, dst, hdst, a, ha, b, hb, r, hr, c, hc, ⟨eid, d1⟩, hcommit, old, -, _, -,
    h⟩ := h
  obtain rfl := Except.ok.inj h
  obtain ⟨s, rfl, hs, hgrown, hrows, hplaces⟩ := commitEvent_ok hcommit
  refine ⟨⟨src.1, dst.1, r, c⟩, s, ⟨id, now.toCanon, edgeEvidenceText e,
    digest cr (edgeEvidenceText e).bytes, key.author, key.signMessage (evidenceCommitment s.id
      (digest cr (edgeEvidenceText e).bytes))⟩, ?_, ⟨hgrown.events, hgrown.commits⟩, ?_, ?_, ?_,
    ⟨rfl, key.verified _⟩, ?_, hplaces⟩
  · simp only [edgeOf, hsrc, hdst, hr, hc, Except.toOption, bind, Option.bind, pure]
  · rw [hs]
    rfl
  · exact Maps.mem_of_getElem? (context_ok.mp ha)
  · exact Maps.mem_of_getElem? (context_ok.mp hb)
  · exact congrArg (fun rows => Table.insertIfNew rows s.id _) hrows

/-! ## A whole publication -/

def birthClaim (s : Signed cr verify) : Option (EntityId × Tick) :=
  match s.content.body with
  | .entityCreate b => some (b.entityId, s.content.eventTime)
  | _ => none

def edgeClaim (s : Signed cr verify) : Option EdgeBody :=
  match s.content.body with
  | .edge ed => some ed
  | _ => none

/-- An event as the publisher writes it. -/
structure Plain (s : Signed cr verify) : Prop where
  lasting : Signed.Lasting s
  window : ∀ b, s.content.body = .entityCreate b → b.window = openWindow s.content.eventTime

/-- A draft that has published the births `bs` and the edges `es`. -/
structure Drafted (db : Db) (bs : List (EntityId × Tick)) (es : List EdgeBody)
    (d : Draft cr verify) : Prop where
  commits : Commits db.ledger d.events d.ledger
  plain : ∀ s ∈ d.events, Plain s
  births : d.events.filterMap birthClaim = bs
  edges : d.events.filterMap edgeClaim = es
  places : ∀ k, k ∈ d.coordinates → k ∈ bs.map Prod.fst
  joined : ∀ ed ∈ es, ed.src ∈ bs.map Prod.fst ∧ ed.dst ∈ bs.map Prod.fst
  matched : ∀ id row, d.edgeEvidence id = some row →
    db.edgeEvidence id = some row ∨ row.Matches cr verify id
  kept : ∀ id, (db.edgeEvidence id).isSome → (d.edgeEvidence id).isSome
  evidenced : ∀ s ∈ d.events, (edgeClaim s).isSome → (d.edgeEvidence s.id).isSome

variable {db : Db} {bs : List (EntityId × Tick)} {es : List EdgeBody}

theorem Plain.of_moment {m : MomentBody} (h : s.content.body = .moment m) : Plain s where
  lasting _ ha := nomatch h.symm.trans ha
  window _ hb := nomatch h.symm.trans hb

theorem Plain.of_label {v : VocabularyEntry} (h : s.content.body = .vocabularyDeclare v) :
    Plain s where
  lasting _ ha := nomatch h.symm.trans ha
  window _ hb := nomatch h.symm.trans hb

theorem Plain.of_edge {ed : EdgeBody} (h : s.content.body = .edge ed) : Plain s where
  lasting _ ha := nomatch h.symm.trans ha
  window _ hb := nomatch h.symm.trans hb

theorem Drafted.entry (h : Drafted db bs es d) {e : Value}
    (he : publishEntry key now d e = .ok d') :
    ∃ p, birthOf cr e = some p ∧ Drafted db (bs ++ [p]) es d' := by
  obtain ⟨k, at_, b, m, hbirth, hgrown, rfl, ⟨name, title, hb⟩, ⟨mb, hm⟩, hrows, hplaces⟩ :=
    publishEntry_ok he
  have hbc : birthClaim b = some (k, b.content.eventTime) := by simp only [birthClaim, hb]
  have hbe : edgeClaim b = none := by simp only [edgeClaim, hb]
  have hmc : birthClaim m = none := by simp only [birthClaim, hm]
  have hme : edgeClaim m = none := by simp only [edgeClaim, hm]
  refine ⟨_, hbirth, ?_, ?_, ?_, ?_, ?_, ?_, ?_, ?_, ?_⟩
  · rw [hgrown.events]
    exact h.commits.append hgrown.commits
  · intro s hs
    rw [hgrown.events, List.mem_append, List.mem_cons, List.mem_singleton] at hs
    rcases hs with hs | rfl | rfl
    · exact h.plain s hs
    · refine ⟨fun _ ha => by simp [hb] at ha, ?_⟩
      intro b' hb'
      obtain rfl := EventBody.entityCreate.inj (hb.symm.trans hb')
      rfl
    · exact .of_moment hm
  · rw [hgrown.events, List.filterMap_append, h.births]
    simp [hbc, hmc]
  · rw [hgrown.events, List.filterMap_append, h.edges]
    simp [hbe, hme]
  · intro x hx
    rw [hplaces, Maps.mem_map_insert] at hx
    rw [List.map_append, List.mem_append]
    rcases hx with rfl | hx
    · exact .inr (List.mem_singleton.mpr rfl)
    · exact .inl (h.places x hx)
  · intro ed hed
    rw [List.map_append]
    exact ⟨List.mem_append_left _ (h.joined ed hed).1, List.mem_append_left _ (h.joined ed hed).2⟩
  · rw [hrows]
    exact h.matched
  · rw [hrows]
    exact h.kept
  · intro s hs hedge
    rw [hgrown.events, List.mem_append, List.mem_cons, List.mem_singleton] at hs
    rw [hrows]
    rcases hs with hs | rfl | rfl
    · exact h.evidenced s hs hedge
    · simp [hbe] at hedge
    · simp [hme] at hedge

theorem Drafted.label (h : Drafted db bs es d) {label : String × Tick}
    (hl : declareLabel key now d label = .ok d') : Drafted db bs es d' := by
  obtain ⟨s, hgrown, ⟨v, hv⟩, hrows, hplaces⟩ := declareLabel_ok hl
  have hbirth : birthClaim s = none := by simp only [birthClaim, hv]
  have hedge : edgeClaim s = none := by simp only [edgeClaim, hv]
  refine ⟨?_, ?_, ?_, ?_, ?_, h.joined, ?_, ?_, ?_⟩
  · rw [hgrown.events]
    exact h.commits.append hgrown.commits
  · intro x hx
    rw [hgrown.events, List.mem_append, List.mem_singleton] at hx
    rcases hx with hx | rfl
    · exact h.plain x hx
    · exact .of_label hv
  · rw [hgrown.events, List.filterMap_append, h.births]
    simp [hbirth]
  · rw [hgrown.events, List.filterMap_append, h.edges]
    simp [hedge]
  · rw [hplaces]
    exact h.places
  · rw [hrows]
    exact h.matched
  · rw [hrows]
    exact h.kept
  · intro x hx hsome
    rw [hgrown.events, List.mem_append, List.mem_singleton] at hx
    rw [hrows]
    rcases hx with hx | rfl
    · exact h.evidenced x hx hsome
    · simp [hedge] at hsome

theorem Drafted.edge (h : Drafted db bs es d) {id : String} {e : Value}
    (he : publishEdge key now id d e = .ok d') :
    ∃ ed, edgeOf cr e = some ed ∧ Drafted db bs (es ++ [ed]) d' := by
  obtain ⟨ed, s, row, hed, hgrown, hbody, hsrc, hdst, hmatches, hrows, hplaces⟩ :=
    publishEdge_ok he
  have hbirth : birthClaim s = none := by simp only [birthClaim, hbody]
  have hedge : edgeClaim s = some ed := by simp only [edgeClaim, hbody]
  refine ⟨ed, hed, ?_, ?_, ?_, ?_, ?_, ?_, ?_, ?_, ?_⟩
  · rw [hgrown.events]
    exact h.commits.append hgrown.commits
  · intro x hx
    rw [hgrown.events, List.mem_append, List.mem_singleton] at hx
    rcases hx with hx | rfl
    · exact h.plain x hx
    · exact .of_edge hbody
  · rw [hgrown.events, List.filterMap_append, h.births]
    simp [hbirth]
  · rw [hgrown.events, List.filterMap_append, h.edges]
    simp [hedge]
  · rw [hplaces]
    exact h.places
  · intro x hx
    rw [List.mem_append, List.mem_singleton] at hx
    rcases hx with hx | rfl
    · exact h.joined x hx
    · exact ⟨h.places _ hsrc, h.places _ hdst⟩
  · intro i r hr
    rw [hrows] at hr
    rcases insertIfNew_some hr with hr | ⟨rfl, rfl⟩
    · exact h.matched i r hr
    · exact .inr hmatches
  · intro i hi
    rw [hrows]
    exact insertIfNew_has (.inl (h.kept i hi))
  · intro x hx hsome
    rw [hgrown.events, List.mem_append, List.mem_singleton] at hx
    rw [hrows]
    rcases hx with hx | rfl
    · exact insertIfNew_has (.inl (h.evidenced x hx hsome))
    · exact insertIfNew_has (.inr rfl)

theorem filterMap_concat {α β : Type} {f : α → Option β} {l : List α} {a : α} {b : β}
    (h : f a = some b) : (l ++ [a]).filterMap f = l.filterMap f ++ [b] := by
  rw [List.filterMap_append, List.filterMap_cons_some h, List.filterMap_nil]

theorem publishBody_ok {id : String} {v : Value} (h : publishBody key now db id v = .ok d) :
    Drafted db (births cr v) (edges cr v) d := by
  simp only [publishBody, bind_ok] at h
  obtain ⟨entries, hentries, d1, hd1, d2, hd2, links, hlinks, h⟩ := h
  have hitems : items v "entries" = entries := by rw [items, context_ok.mp hentries]; rfl
  have hedges : items v "edges" = links := by rw [items, context_ok.mp hlinks]; rfl
  have hentry : Drafted db (births cr v) [] d1 := by
    rw [births, hitems]
    refine foldlM_inv (fun before d => Drafted db (before.filterMap (birthOf cr)) [] d) hd1 ?_ ?_
    · refine ⟨commits_nil, ?_, rfl, rfl, ?_, ?_, ?_, ?_, ?_⟩
      · intro s hs
        nomatch hs
      · intro k hk
        exact absurd hk Std.ExtTreeMap.not_mem_empty
      · intro ed hed
        nomatch hed
      · intro i r hr
        exact .inl hr
      · intro i hi
        exact hi
      · intro s hs
        nomatch hs
    · intro before e s t _ hinv hstep
      obtain ⟨p, hp, hnext⟩ := hinv.entry hstep
      rw [filterMap_concat hp]
      exact hnext
  have hlabels : Drafted db (births cr v) [] d2 :=
    foldlM_inv (fun _ d => Drafted db (births cr v) [] d) hd2 hentry
      fun _ _ _ _ _ hinv hstep => hinv.label hstep
  rw [edges, hedges]
  refine foldlM_inv (fun before d => Drafted db (births cr v) (before.filterMap (edgeOf cr)) d) h
    hlabels ?_
  intro before e s t _ hinv hstep
  obtain ⟨ed, hed, hnext⟩ := hinv.edge hstep
  rw [filterMap_concat hed]
  exact hnext

/-! ## The state between calls -/

/-- The ledger holds a birth of `k` at `at_`. -/
def Born (cr : Crypto) (verify : Verify) (ledger : Ledger) (k : EntityId) (at_ : Tick) : Prop :=
  ∃ b : EntityBirth, b.entityId = k ∧ Told cr verify ledger at_ (.entityCreate b)

/-- The ledger holds the edge `ed`. -/
def Linked (cr : Crypto) (verify : Verify) (ledger : Ledger) (ed : EdgeBody) : Prop :=
  ∃ at_, Told cr verify ledger at_ (.edge ed)

/-- What holds between the calls of the publisher. -/
structure Dated (cr : Crypto) (verify : Verify) (db : Db) : Prop where
  sound : db.ledger.Sound cr verify
  plain : ∀ s : Signed cr verify, Stored db.ledger.events s → Plain s
  joined : ∀ ed, Linked cr verify db.ledger ed →
    (∃ t, Born cr verify db.ledger ed.src t) ∧ ∃ t, Born cr verify db.ledger ed.dst t
  matched : ∀ id row, db.edgeEvidence id = some row → row.Matches cr verify id
  evidenced : ∀ s : Signed cr verify, Stored db.ledger.events s → (edgeClaim s).isSome →
    (db.edgeEvidence s.id).isSome

theorem born_of_claim {k : EntityId} {at_ : Tick} (hs : Stored ledger.events s)
    (h : birthClaim s = some (k, at_)) : Born cr verify ledger k at_ := by
  unfold birthClaim at h
  split at h
  · next b hb =>
    obtain ⟨rfl, rfl⟩ := Prod.mk.inj (Option.some.inj h)
    exact ⟨b, rfl, s, hs, rfl, hb⟩
  · nomatch h

theorem birthClaim_of {b : EntityBirth} (h : s.content.body = .entityCreate b) :
    birthClaim s = some (b.entityId, s.content.eventTime) := by simp only [birthClaim, h]

theorem edgeClaim_of {ed : EdgeBody} (h : s.content.body = .edge ed) : edgeClaim s = some ed := by
  simp only [edgeClaim, h]

theorem edgeClaim_body {ed : EdgeBody} (h : edgeClaim s = some ed) : s.content.body = .edge ed := by
  unfold edgeClaim at h
  split at h
  · next ed' hb => rw [hb, Option.some.inj h]
  · nomatch h

theorem Dated.empty : Dated cr verify Db.empty where
  sound := sound_empty
  plain s hs := by simp [Stored, Db.empty, Ledger.empty] at hs
  joined ed h := by
    obtain ⟨_, s, hs, _⟩ := h
    simp [Stored, Db.empty, Ledger.empty] at hs
  matched id row h := nomatch h
  evidenced s hs := by simp [Stored, Db.empty, Ledger.empty] at hs

/-- A publication in a dated state, none of its events colliding. -/
structure Publication (cr : Crypto) (verify : Verify) (db db' : Db) (v : Value)
    (d : Draft cr verify) : Prop where
  drafted : Drafted db (births cr v) (edges cr v) d
  ledger : db'.ledger = d.ledger
  edgeEvidence : db'.edgeEvidence = d.edgeEvidence
  free : CollisionFree d.events
  fresh : ∀ s ∈ d.events, Fresh db.ledger s

namespace Publication
variable {db' : Db} {v : Value} (hdated : Dated cr verify db) (h : Publication cr verify db db' v d)
include hdated h

theorem committed : Committed db.ledger d.events db'.ledger := by
  rw [h.ledger]
  exact h.drafted.commits.committed hdated.sound (fun s hs => (h.drafted.plain s hs).lasting) h.free
    h.fresh

theorem born (k : EntityId) (at_ : Tick) : Born cr verify db'.ledger k at_ ↔
    Born cr verify db.ledger k at_ ∨ (k, at_) ∈ births cr v := by
  rw [← h.drafted.births, List.mem_filterMap]
  constructor
  · rintro ⟨b, rfl, htold⟩
    rcases ((h.committed hdated).told at_ _).mp htold with hold | ⟨s, hs, rfl, hbody⟩
    · exact .inl ⟨b, rfl, hold⟩
    · exact .inr ⟨s, hs, birthClaim_of hbody⟩
  · rintro (⟨b, rfl, hold⟩ | ⟨s, hs, hclaim⟩)
    · exact ⟨b, rfl, ((h.committed hdated).told at_ _).mpr (.inl hold)⟩
    · unfold birthClaim at hclaim
      split at hclaim
      · next b hb =>
        obtain ⟨rfl, rfl⟩ := Prod.mk.inj (Option.some.inj hclaim)
        exact ⟨b, rfl, ((h.committed hdated).told _ _).mpr (.inr ⟨s, hs, rfl, hb⟩)⟩
      · nomatch hclaim

theorem linked (ed : EdgeBody) : Linked cr verify db'.ledger ed ↔
    Linked cr verify db.ledger ed ∨ ed ∈ edges cr v := by
  rw [← h.drafted.edges, List.mem_filterMap]
  constructor
  · rintro ⟨at_, htold⟩
    rcases ((h.committed hdated).told at_ _).mp htold with hold | ⟨s, hs, rfl, hbody⟩
    · exact .inl ⟨at_, hold⟩
    · exact .inr ⟨s, hs, edgeClaim_of hbody⟩
  · rintro (⟨at_, hold⟩ | ⟨s, hs, hclaim⟩)
    · exact ⟨at_, ((h.committed hdated).told at_ _).mpr (.inl hold)⟩
    · exact ⟨_, ((h.committed hdated).told _ _).mpr (.inr ⟨s, hs, rfl, edgeClaim_body hclaim⟩)⟩

theorem dated : Dated cr verify db' where
  sound := (h.committed hdated).sound
  plain s hs := by
    rcases (h.committed hdated).stored s hs with hs | hs
    · exact hdated.plain s hs
    · exact h.drafted.plain s hs
  joined ed hed := by
    have hbirth : ∀ k, k ∈ (births cr v).map Prod.fst → ∃ t, Born cr verify db'.ledger k t := by
      intro k hk
      obtain ⟨⟨x, t⟩, hmem, rfl⟩ := List.mem_map.mp hk
      exact ⟨t, (h.born hdated x t).mpr (.inr hmem)⟩
    have hkept : ∀ k, (∃ t, Born cr verify db.ledger k t) → ∃ t, Born cr verify db'.ledger k t := by
      rintro k ⟨t, ht⟩
      exact ⟨t, (h.born hdated k t).mpr (.inl ht)⟩
    rcases (h.linked hdated ed).mp hed with hold | hnew
    · obtain ⟨hsrc, hdst⟩ := hdated.joined ed hold
      exact ⟨hkept _ hsrc, hkept _ hdst⟩
    · obtain ⟨hsrc, hdst⟩ := h.drafted.joined ed hnew
      exact ⟨hbirth _ hsrc, hbirth _ hdst⟩
  matched id row hrow := by
    rw [h.edgeEvidence] at hrow
    rcases h.drafted.matched id row hrow with hold | hnew
    · exact hdated.matched id row hold
    · exact hnew
  evidenced s hs hedge := by
    rw [h.edgeEvidence]
    rcases (h.committed hdated).stored s hs with hs | hs
    · exact h.drafted.kept s.id (hdated.evidenced s hs hedge)
    · exact h.drafted.evidenced s hs hedge

end Publication

/-! ## The start of an entity -/

def startOf (ledger : Ledger) (k : EntityId) : Option Nat :=
  ledger.tables.entities[k]?.map fun row => row.windowStart.toNat

/-- The entity row a birth of the publisher claims starts when the event happened. -/
theorem Plain.claims {k : EntityId} {row : EntityRow} (h : Plain s)
    (hrow : s.birth = some (k, row)) : birthClaim s = some (k, s.content.eventTime) ∧
      row.windowStart = s.content.eventTime.toCanon ∧
      row.birthEventTime = s.content.eventTime.toCanon ∧ row.startState = .known := by
  unfold Signed.birth at hrow
  split at hrow
  · next b hb =>
    obtain ⟨rfl, rfl⟩ := Prod.mk.inj (Option.some.inj hrow)
    have hwindow := h.window b hb
    refine ⟨birthClaim_of hb, ?_, rfl, ?_⟩
    · rw [Tables.entityRow, hwindow]
      rfl
    · rw [Tables.entityRow, hwindow]
      rfl
  · nomatch hrow

namespace Dated
variable (h : Dated cr verify db)
include h

theorem entity_born {k : EntityId} {row : EntityRow}
    (hrow : db.ledger.tables.entities[k]? = some row) : row.startState = .known ∧
      (∃ t, Born cr verify db.ledger k t ∧ t.toCanon = row.windowStart) ∧
      ∀ t, Born cr verify db.ledger k t → row.windowStart.toNat ≤ t.toCanon.toNat := by
  obtain ⟨⟨s, hs, hbirth⟩, hleast⟩ := (h.sound.folded.entities k row).mp hrow
  obtain ⟨hclaim, hstart, htime, hknown⟩ := (h.plain s hs).claims hbirth
  refine ⟨hknown, ⟨_, born_of_claim hs hclaim, hstart.symm⟩, ?_⟩
  rintro t ⟨b, rfl, s', hs', rfl, hbody⟩
  have hbirth' : s'.birth = some (b.entityId, Tables.entityRow s'.content s'.id b) := by
    simp only [Signed.birth, hbody]
  have hle := hleast _ ⟨s', hs', hbirth'⟩
  have hfst := Prod.Lex.monotone_fst _ _ hle
  rw [hstart, ← htime]
  exact hfst

theorem entity_of_born {k : EntityId} {t : Tick} (hborn : Born cr verify db.ledger k t) :
    ∃ row, db.ledger.tables.entities[k]? = some row := by
  obtain ⟨b, rfl, s, hs, rfl, hbody⟩ := hborn
  have hbirth : s.birth = some (b.entityId, Tables.entityRow s.content s.id b) := by
    simp only [Signed.birth, hbody]
  have hclaimed : (claimed Signed.birth (stored cr verify db.ledger.events) b.entityId).Nonempty :=
    ⟨_, s, hs, hbirth⟩
  obtain ⟨row, hrow⟩ := @exists_survivor _ _ _ EntityRow.order _ _ hclaimed
  exact ⟨row, (h.sound.folded.entities _ _).mpr hrow⟩

/-- An entity starts at the earliest of its births. -/
theorem startOf_iff {k : EntityId} {a : Nat} : startOf db.ledger k = some a ↔
    (∃ t, Born cr verify db.ledger k t ∧ t.toCanon.toNat = a) ∧
      ∀ t, Born cr verify db.ledger k t → a ≤ t.toCanon.toNat := by
  unfold startOf
  constructor
  · intro ha
    obtain ⟨row, hrow, rfl⟩ := Option.map_eq_some_iff.mp ha
    obtain ⟨-, ⟨t, ht, hstart⟩, hleast⟩ := h.entity_born hrow
    exact ⟨⟨t, ht, congrArg BitVec.toNat hstart⟩, hleast⟩
  · rintro ⟨⟨t, ht, rfl⟩, hleast⟩
    obtain ⟨row, hrow⟩ := h.entity_of_born ht
    obtain ⟨-, ⟨t', ht', hstart⟩, hleast'⟩ := h.entity_born hrow
    have hle := hleast' t ht
    have hge := hleast t' ht'
    rw [hstart] at hge
    rw [hrow]
    exact congrArg some (Nat.le_antisymm hle hge)

theorem linked_of_edge {id : Hash} {row : EdgeRow} (hrow : db.ledger.tables.edges[id]? = some row) :
    ∃ (s : Signed cr verify) (ed : EdgeBody), Stored db.ledger.events s ∧ s.id = id ∧
      s.content.body = .edge ed ∧ row.srcEntity = ed.src ∧ row.dstEntity = ed.dst ∧
      row.relation = ed.relation := by
  obtain ⟨s, hs, hid, base, hbase, rfl⟩ := (h.sound.folded.edges id row).mp hrow
  unfold Signed.edge at hbase
  split at hbase
  · next ed hbody =>
    obtain rfl := Option.some.inj hbase
    exact ⟨s, ed, hs, hid, hbody, rfl, rfl, rfl⟩
  · nomatch hbase

theorem edge_of_linked {ed : EdgeBody} (hed : Linked cr verify db.ledger ed) :
    ∃ (id : Hash) (row : EdgeRow), db.ledger.tables.edges[id]? = some row ∧ row.srcEntity = ed.src ∧
      row.dstEntity = ed.dst ∧ row.relation = ed.relation := by
  obtain ⟨_, s, hs, rfl, hbody⟩ := hed
  have hedge : s.edge = some (Tables.edgeRow s.content ed) := by simp only [Signed.edge, hbody]
  exact ⟨s.id, _, (h.sound.folded.edges s.id _).mpr ⟨s, hs, rfl, _, hedge, rfl⟩, rfl, rfl, rfl⟩

end Dated

/-! ## Order -/

/-- A stored edge joins two distinct known entities, a cause that starts no later than its
effect if it is causal, and its evidence matches it. -/
structure Chronological (cr : Crypto) (verify : Verify) (db : Db) (id : Hash) (row : EdgeRow) :
    Prop where
  distinct : row.srcEntity ≠ row.dstEntity
  known : ∃ src dst, db.ledger.tables.entities[row.srcEntity]? = some src ∧
    db.ledger.tables.entities[row.dstEntity]? = some dst ∧ src.startState = .known ∧
    dst.startState = .known ∧ (causal row.relation = true → src.windowStart ≤ dst.windowStart)
  evidence : ∃ ev, db.edgeEvidence id = some ev ∧ ev.Matches cr verify id

def Db.Chronological (cr : Crypto) (verify : Verify) (db : Db) : Prop :=
  ∀ id row, db.ledger.tables.edges[id]? = some row → Publisher.Chronological cr verify db id row

/-- The endpoints of the causal edges that are stored. -/
def Db.causalPairs (db : Db) : List (EntityId × EntityId) :=
  (db.ledger.tables.edges.toList.filter fun row => causal row.2.relation).map fun row =>
    (row.2.srcEntity, row.2.dstEntity)

/-- The endpoints of the causal edges of a candidate. -/
def causalPairs (cr : Crypto) (v : Value) : List (EntityId × EntityId) :=
  ((edges cr v).filter fun ed => causal ed.relation).map fun ed => (ed.src, ed.dst)

/-- The earlier of the stored start of `k` and the coordinates a candidate gives it. -/
def earliest (cr : Crypto) (db : Db) (v : Value) (k : EntityId) : Option Nat :=
  ((startOf db.ledger k).toList ++
    ((births cr v).filter fun p => p.1 = k).map fun p => p.2.toCanon.toNat).min?

/-- No causal edge, stored or of the candidate, has a source that starts after its target. -/
def Forward (cr : Crypto) (db : Db) (v : Value) : Prop :=
  ∀ p ∈ db.causalPairs ++ causalPairs cr v, ∀ a ∈ earliest cr db v p.1, ∀ b ∈ earliest cr db v p.2,
    a ≤ b

/-- The stored causal edges are in order. -/
def Db.Ordered (db : Db) : Prop :=
  ∀ p ∈ db.causalPairs, ∀ a ∈ startOf db.ledger p.1, ∀ b ∈ startOf db.ledger p.2, a ≤ b

theorem mem_causalPairs {p : EntityId × EntityId} : p ∈ db.causalPairs ↔
    ∃ (id : Hash) (row : EdgeRow), db.ledger.tables.edges[id]? = some row ∧
      causal row.relation = true ∧ (row.srcEntity, row.dstEntity) = p := by
  simp only [Db.causalPairs, List.mem_map, List.mem_filter, Prod.exists,
    Std.ExtTreeMap.mem_toList_iff_getElem?_eq_some, and_assoc]

theorem Dated.mem_causalPairs (h : Dated cr verify db) {p : EntityId × EntityId} :
    p ∈ db.causalPairs ↔ ∃ ed, Linked cr verify db.ledger ed ∧ causal ed.relation = true ∧
      (ed.src, ed.dst) = p := by
  rw [Publisher.mem_causalPairs]
  constructor
  · rintro ⟨id, row, hrow, hcausal, rfl⟩
    obtain ⟨s, ed, hs, -, hbody, hsrc, hdst, hrel⟩ := h.linked_of_edge hrow
    exact ⟨ed, ⟨_, s, hs, rfl, hbody⟩, hrel ▸ hcausal, by rw [hsrc, hdst]⟩
  · rintro ⟨ed, hed, hcausal, rfl⟩
    obtain ⟨id, row, hrow, hsrc, hdst, hrel⟩ := h.edge_of_linked hed
    exact ⟨id, row, hrow, hrel ▸ hcausal, by rw [hsrc, hdst]⟩

theorem Dated.chronological_iff (h : Dated cr verify db) :
    db.Chronological cr verify ↔ db.Ordered := by
  constructor
  · intro hchron p hp a ha b hb
    obtain ⟨id, row, hrow, hcausal, rfl⟩ := Publisher.mem_causalPairs.mp hp
    obtain ⟨src, dst, hsrc, hdst, -, -, hle⟩ := (hchron id row hrow).known
    simp only [startOf, hsrc, hdst, Option.map_some, Option.mem_some] at ha hb
    rw [← ha, ← hb]
    exact hle hcausal
  · intro hordered id row hrow
    obtain ⟨s, ed, hs, rfl, hbody, hsrc, hdst, hrel⟩ := h.linked_of_edge hrow
    obtain ⟨⟨_, hborn⟩, _, hborn'⟩ := h.joined ed ⟨_, s, hs, rfl, hbody⟩
    obtain ⟨src, hsrow⟩ := h.entity_of_born hborn
    obtain ⟨dst, hdrow⟩ := h.entity_of_born hborn'
    have hstorable := h.sound.storable s hs
    simp only [Signed.Storable, hbody] at hstorable
    rw [← hsrc] at hsrow hstorable
    rw [← hdst] at hdrow hstorable
    refine ⟨hstorable, ⟨src, dst, hsrow, hdrow, (h.entity_born hsrow).1, (h.entity_born hdrow).1,
      ?_⟩, ?_⟩
    · intro hcausal
      refine hordered _ (Publisher.mem_causalPairs.mpr ⟨s.id, row, hrow, hcausal, rfl⟩) _ ?_ _ ?_
      · simp only [startOf, hsrow, Option.map_some, Option.mem_some]
      · simp only [startOf, hdrow, Option.map_some, Option.mem_some]
    · obtain ⟨ev, hev⟩ := Option.isSome_iff_exists.mp (h.evidenced s hs (by
        rw [edgeClaim_of hbody]
        rfl))
      exact ⟨ev, hev, h.matched s.id ev hev⟩

namespace Publication
variable {db' : Db} {v : Value} (hdated : Dated cr verify db) (h : Publication cr verify db db' v d)
include hdated h

theorem startOf_eq (k : EntityId) : startOf db'.ledger k = earliest cr db v k := by
  have hdated' := h.dated hdated
  have hcoords : ∀ a, a ∈ ((births cr v).filter fun p => p.1 = k).map (fun p => p.2.toCanon.toNat) ↔
      ∃ t, (k, t) ∈ births cr v ∧ t.toCanon.toNat = a := by
    intro a
    simp only [List.mem_map, List.mem_filter, decide_eq_true_eq, Prod.exists]
    constructor
    · rintro ⟨_, t, ⟨hmem, rfl⟩, ha⟩
      exact ⟨t, hmem, ha⟩
    · rintro ⟨t, hmem, ha⟩
      exact ⟨k, t, ⟨hmem, rfl⟩, ha⟩
  apply Option.ext
  intro a
  rw [hdated'.startOf_iff, earliest, List.min?_eq_some_iff]
  simp only [h.born hdated, List.mem_append, Option.mem_toList, hcoords]
  constructor
  · rintro ⟨⟨t, ht, rfl⟩, hleast⟩
    refine ⟨?_, ?_⟩
    · rcases ht with hold | hnew
      · left
        -- the stored start is one of the births, and no birth is before `t`
        refine hdated.startOf_iff.mpr ⟨⟨t, hold, rfl⟩, fun t' ht' => hleast t' (.inl ht')⟩
      · exact .inr ⟨t, hnew, rfl⟩
    · rintro b (hstart | ⟨t', hmem, rfl⟩)
      · obtain ⟨⟨t', ht', rfl⟩, -⟩ := hdated.startOf_iff.mp hstart
        exact hleast t' (.inl ht')
      · exact hleast t' (.inr hmem)
  · rintro ⟨hmem, hleast⟩
    refine ⟨?_, ?_⟩
    · rcases hmem with hstart | ⟨t, ht, ha⟩
      · obtain ⟨⟨t, ht, ha⟩, -⟩ := hdated.startOf_iff.mp hstart
        exact ⟨t, .inl ht, ha⟩
      · exact ⟨t, .inr ht, ha⟩
    · rintro t (hold | hnew)
      · obtain ⟨row, hrow⟩ := hdated.entity_of_born hold
        obtain ⟨-, -, hfirst⟩ := hdated.entity_born hrow
        have hstart : startOf db.ledger k = some row.windowStart.toNat := by rw [startOf, hrow]; rfl
        exact (hleast _ (.inl hstart)).trans (hfirst t hold)
      · exact hleast _ (.inr ⟨t, hnew, rfl⟩)

theorem ordered_iff : db'.Ordered ↔ Forward cr db v := by
  have hdated' := h.dated hdated
  have hpairs : ∀ p, p ∈ db'.causalPairs ↔ p ∈ db.causalPairs ++ causalPairs cr v := by
    intro p
    rw [List.mem_append, hdated'.mem_causalPairs, hdated.mem_causalPairs]
    simp only [h.linked hdated, causalPairs, List.mem_map, List.mem_filter, or_and_right,
      exists_or, and_assoc]
  simp only [Db.Ordered, Forward, hpairs, h.startOf_eq hdated]

end Publication

/-! ## Runs -/

variable {host : Host} {op : Op cr verify} {ops before : List (Op cr verify)} {db' : Db}

/-- The events a call publishes. -/
def Op.events (db : Db) : Op cr verify → List (Signed cr verify)
  | .publish key now id _ =>
    match db.receipts id, db.candidates id with
    | none, some row =>
      match publishBody key now db id row.payload with
      | .ok d => d.events
      | .error _ => []
    | _, _ => []
  | _ => []

/-- The events the calls publish, one after the other. -/
def published (host : Host) : Db → List (Op cr verify) → List (Signed cr verify)
  | _, [] => []
  | db, op :: ops => op.events db ++
    match db.call host op with
    | .ok db' => published host db' ops
    | .error _ => []

/-- The condition on a call: a candidate that is published for the first time leaves the causal
edges in order. -/
def Op.Forward (db : Db) : Op cr verify → Prop
  | .publish _ _ id _ => db.receipts id = none → ∀ row, db.candidates id = some row →
    Publisher.Forward cr db row.payload
  | _ => True

theorem ensure_ok {c : Bool} {text : String} {u : Unit} : ensure c text = .ok u ↔ c = true := by
  cases c <;> simp [ensure]

/-- The ledger and the evidence are as they were. -/
structure Db.Same (db db' : Db) : Prop where
  ledger : db'.ledger = db.ledger
  edgeEvidence : db'.edgeEvidence = db.edgeEvidence

theorem stageBrief_same {id : String} {v : Value} (h : stageBrief cr db id v = .ok db') :
    db.Same db' := by
  simp only [stageBrief, bind_ok] at h
  obtain ⟨_, -, _, -, _, -, _, -, _, -, h⟩ := h
  obtain rfl := Except.ok.inj h
  exact ⟨rfl, rfl⟩

theorem stageCandidate_same {id brief : String} {v : Value}
    (h : stageCandidate cr host db id brief v = .ok db') : db.Same db' := by
  simp only [stageCandidate, bind_ok] at h
  obtain ⟨_, -, _, -, _, -, _, -, _, -, _, -, _, -, _, -, _, -, _, -, h⟩ := h
  obtain rfl := Except.ok.inj h
  exact ⟨rfl, rfl⟩

theorem approve_same {key : ApprovalKey} {reviewer : String}
    (h : approve cr host db key reviewer = .ok db') : db.Same db' := by
  simp only [approve, bind_ok] at h
  obtain ⟨_, -, _, -, _, -, _, -, h⟩ := h
  obtain rfl := Except.ok.inj h
  exact ⟨rfl, rfl⟩

theorem publish_ok {id : String} {hash : Hash} {receipt : Receipt}
    (h : publish host key now db id hash = .ok (receipt, db')) :
    ∃ row, db.candidates id = some row ∧ (db' = db ∧ db.receipts id = some receipt ∨
      db.receipts id = none ∧ ∃ d : Draft cr verify, publishBody key now db id row.payload = .ok d ∧
        db'.ledger = d.ledger ∧ db'.edgeEvidence = d.edgeEvidence) := by
  simp only [publish, bind_ok] at h
  obtain ⟨row, hrow, _, -, _, -, h⟩ := h
  refine ⟨row, ?_, ?_⟩
  · unfold fetchOne at hrow
    split at hrow
    · next r hr =>
      obtain rfl := Except.ok.inj hrow
      exact hr
    · nomatch hrow
  · split at h
    · next r hr =>
      obtain ⟨rfl, rfl⟩ := Prod.mk.inj (Except.ok.inj h)
      exact .inl ⟨rfl, hr⟩
    · next hnone =>
      simp only [bind_ok] at h
      obtain ⟨_, -, _, -, _, -, _, -, _, -, _, -, _, -, d, hd, h⟩ := h
      obtain ⟨-, rfl⟩ := Prod.mk.inj (Except.ok.inj h)
      exact .inr ⟨hnone, d, hd, rfl, rfl⟩

/-- A call changes nothing the edges are read from, or it publishes a candidate. -/
theorem call_cases (h : db.call host op = .ok db') :
    db.Same db' ∧ op.Forward db ∧ op.events db = [] ∨
    ∃ (row : CandidateRow) (d : Draft cr verify), Drafted db (births cr row.payload)
        (edges cr row.payload) d ∧ op.events db = d.events ∧
      (op.Forward db ↔ Publisher.Forward cr db row.payload) ∧
      db'.ledger = d.ledger ∧ db'.edgeEvidence = d.edgeEvidence := by
  cases op with
  | stageBrief id v => exact .inl ⟨stageBrief_same h, trivial, rfl⟩
  | stageCandidate id brief v => exact .inl ⟨stageCandidate_same h, trivial, rfl⟩
  | approve key reviewer => exact .inl ⟨approve_same h, trivial, rfl⟩
  | setPaused paused =>
    obtain rfl := Except.ok.inj h
    exact .inl ⟨⟨rfl, rfl⟩, trivial, rfl⟩
  | publish key now id hash =>
    simp only [Db.call] at h
    cases hpublish : publish host key now db id hash with
    | error e =>
      rw [hpublish] at h
      nomatch h
    | ok done =>
      obtain ⟨receipt, db₁⟩ := done
      rw [hpublish] at h
      obtain rfl : db₁ = db' := Except.ok.inj h
      obtain ⟨row, hrow, ⟨rfl, hreceipt⟩ | ⟨hnone, d, hd, hledger, hevidence⟩⟩ :=
        publish_ok hpublish
      · refine .inl ⟨⟨rfl, rfl⟩, ?_, ?_⟩
        · intro hnone
          rw [hreceipt] at hnone
          nomatch hnone
        · simp only [Op.events, hreceipt]
      · refine .inr ⟨row, d, publishBody_ok hd, ?_, ?_, hledger, hevidence⟩
        · simp only [Op.events, hnone, hrow, hd]
        · simp only [Op.Forward, hnone, hrow, Option.some.injEq, forall_eq', true_imp_iff]

theorem Db.Same.dated (h : db.Same db') (hdated : Dated cr verify db) : Dated cr verify db' := by
  refine ⟨?_, ?_, ?_, ?_, ?_⟩
  · rw [h.ledger]
    exact hdated.sound
  · rw [h.ledger]
    exact hdated.plain
  · rw [h.ledger]
    exact hdated.joined
  · rw [h.edgeEvidence]
    exact hdated.matched
  · rw [h.ledger, h.edgeEvidence]
    exact hdated.evidenced

theorem Db.Same.ordered (h : db.Same db') : db'.Ordered ↔ db.Ordered := by
  simp only [Db.Ordered, Db.causalPairs, h.ledger]

/-- A call keeps the invariant, and the order exactly on its condition. -/
theorem call_step (hdated : Dated cr verify db) (hfree : CollisionFree (op.events db))
    (hfresh : ∀ s ∈ op.events db, Fresh db.ledger s) (h : db.call host op = .ok db') :
    Dated cr verify db' ∧ (db.Ordered → (db'.Ordered ↔ op.Forward db)) ∧
      ∀ s : Signed cr verify, Stored db'.ledger.events s →
        Stored db.ledger.events s ∨ s ∈ op.events db := by
  rcases call_cases h with ⟨hsame, hforward, hnone⟩ | ⟨row, d, hdrafted, hevents, hiff, hl, he⟩
  · refine ⟨hsame.dated hdated, ?_, ?_⟩
    · intro hordered
      exact iff_of_true (hsame.ordered.mpr hordered) hforward
    · intro s hs
      rw [hsame.ledger] at hs
      exact .inl hs
  · rw [hevents] at hfree hfresh ⊢
    have hpub : Publication cr verify db db' row.payload d := ⟨hdrafted, hl, he, hfree, hfresh⟩
    refine ⟨hpub.dated hdated, ?_, (hpub.committed hdated).stored⟩
    intro _
    rw [hiff]
    exact hpub.ordered_iff hdated

theorem calls_concat : db.calls host (before ++ [op]) = .ok db' ↔
    ∃ st, db.calls host before = .ok st ∧ st.call host op = .ok db' := by
  unfold Db.calls
  rw [List.foldlM_append, bind_ok]
  simp only [List.foldlM_cons, List.foldlM_nil, bind_ok]
  constructor
  · rintro ⟨st, hst, db₁, hcall, hpure⟩
    obtain rfl := Except.ok.inj hpure
    exact ⟨st, hst, hcall⟩
  · rintro ⟨st, hst, hcall⟩
    exact ⟨st, hst, db', hcall, rfl⟩

theorem published_append {st : Db} (h : db.calls host before = .ok st) :
    published host db (before ++ ops) = published host db before ++ published host st ops := by
  induction before generalizing db with
  | nil =>
    obtain rfl := Except.ok.inj h
    rfl
  | cons op before ih =>
    rw [Db.calls, List.foldlM_cons, bind_ok] at h
    obtain ⟨next, hnext, hrest⟩ := h
    rw [List.cons_append, published, published, hnext]
    simp only [ih hrest, List.append_assoc]

theorem collisionFree_sub {xs ys : List (Signed cr verify)} (h : CollisionFree xs)
    (hsub : ∀ s ∈ ys, s ∈ xs) : CollisionFree ys :=
  fun s hs s' hs' => h s (hsub s hs) s' (hsub s' hs')

/-- What holds after the calls of a run. -/
theorem run_dated (hfree : CollisionFree (published host .empty before))
    (h : Db.empty.calls host before = .ok db) : Dated cr verify db ∧
      ∀ s : Signed cr verify, Stored db.ledger.events s → s ∈ published host .empty before := by
  induction before using List.reverseRecOn generalizing db with
  | nil =>
    obtain rfl := Except.ok.inj h
    refine ⟨.empty, fun s hs => ?_⟩
    simp [Stored, Db.empty, Ledger.empty] at hs
  | append_singleton before op ih =>
    obtain ⟨st, hst, hcall⟩ := calls_concat.mp h
    have happend := @published_append _ _ _ _ [op] _ _ hst
    have hevents : published host st [op] = op.events st := by
      rw [published, hcall]
      simp only [published, List.append_nil]
    rw [hevents] at happend
    rw [happend] at hfree ⊢
    have hleft : ∀ s ∈ published host Db.empty before,
        s ∈ published host Db.empty before ++ op.events st := fun s hs => List.mem_append_left _ hs
    have hright : ∀ s ∈ op.events st, s ∈ published host Db.empty before ++ op.events st :=
      fun s hs => List.mem_append_right _ hs
    obtain ⟨hdated, hstored⟩ := ih (collisionFree_sub hfree hleft) hst
    obtain ⟨hnext, -, hgrown⟩ := call_step hdated (collisionFree_sub hfree hright)
      (fun s hs s' hs' => hfree s (hright s hs) s' (hleft s' (hstored s' hs'))) hcall
    refine ⟨hnext, fun s hs => ?_⟩
    rcases hgrown s hs with hold | hnew
    · exact hleft s (hstored s hold)
    · exact hright s hnew

/-- Every state is chronological in a run of calls exactly when every candidate, at its first
publication, leaves no causal edge with a source that starts after its target. -/
theorem causes_first_iff (host : Host) (ops : List (Op cr verify)) (last : Db)
    (hrun : Db.empty.calls host ops = .ok last)
    (hfree : CollisionFree (published host .empty ops)) :
    (∀ before, before <+: ops → ∀ db, Db.empty.calls host before = .ok db →
      db.Chronological cr verify) ↔
    ∀ before op, before ++ [op] <+: ops → ∀ db, Db.empty.calls host before = .ok db →
      op.Forward db := by
  have hbegins : ∀ before, before <+: ops → CollisionFree (published host .empty before) ∧
      ∃ db, Db.empty.calls host before = .ok db := by
    rintro before ⟨after, rfl⟩
    rw [Db.calls, List.foldlM_append, bind_ok] at hrun
    obtain ⟨db, hdb, -⟩ := hrun
    rw [published_append hdb] at hfree
    exact ⟨collisionFree_sub hfree fun s hs => List.mem_append_left _ hs, db, hdb⟩
  have hstep : ∀ before op, before ++ [op] <+: ops → ∀ db db', Db.empty.calls host before = .ok db →
      db.call host op = .ok db' → db.Ordered → (db'.Ordered ↔ op.Forward db) := by
    intro before op hbefore db db' hdb hcall
    have hconcat := calls_concat.mpr ⟨db, hdb, hcall⟩
    have hfree' := (hbegins _ hbefore).1
    have happend := @published_append _ _ _ _ [op] _ _ hdb
    rw [published, hcall] at happend
    simp only [published, List.append_nil] at happend
    rw [happend] at hfree'
    have hleft : ∀ s ∈ published host Db.empty before,
        s ∈ published host Db.empty before ++ op.events db := fun s hs => List.mem_append_left _ hs
    have hright : ∀ s ∈ op.events db, s ∈ published host Db.empty before ++ op.events db :=
      fun s hs => List.mem_append_right _ hs
    obtain ⟨hdated, hstored⟩ := run_dated (collisionFree_sub hfree' hleft) hdb
    exact (call_step hdated (collisionFree_sub hfree' hright)
      (fun s hs s' hs' => hfree' s (hright s hs) s' (hleft s' (hstored s' hs'))) hcall).2.1
  constructor
  · intro hall before op hbefore db hdb
    have hpre := (List.prefix_append before [op]).trans hbefore
    obtain ⟨db', hdb'⟩ := (hbegins _ hbefore).2
    obtain ⟨st, hst, hcall⟩ := calls_concat.mp hdb'
    obtain rfl := Except.ok.inj (hst.symm.trans hdb)
    have hdated := (run_dated (hbegins _ hpre).1 hdb).1
    have hdated' := (run_dated (hbegins _ hbefore).1 hdb').1
    exact (hstep before op hbefore st db' hdb hcall
      (hdated.chronological_iff.mp (hall before hpre st hdb))).mp
        (hdated'.chronological_iff.mp (hall _ hbefore db' hdb'))
  · intro hall before hbefore
    induction before using List.reverseRecOn with
    | nil =>
      intro db hdb
      obtain rfl := Except.ok.inj hdb
      intro id row hrow
      simp [Db.empty, Ledger.empty, Tables.empty] at hrow
    | append_singleton before op ih =>
      intro db' hdb'
      have hpre := (List.prefix_append before [op]).trans hbefore
      obtain ⟨db, hdb, hcall⟩ := calls_concat.mp hdb'
      have hdated := (run_dated (hbegins _ hpre).1 hdb).1
      have hdated' := (run_dated (hbegins _ hbefore).1 hdb').1
      have hordered := hdated.chronological_iff.mp (ih hpre db hdb)
      exact hdated'.chronological_iff.mpr
        ((hstep before op hbefore db db' hdb hcall hordered).mpr (hall before op hbefore db hdb))

end Chronology

/-! ## An effect that is republished with its year only -/

namespace Sample
open V0.Sample (alice canonOf)

def capture : String := "Cause on 13 April 1970 led to Effect on 14 April."

def source : Value := .obj [
  ("capture_path", .str "capture"),
  ("content_sha256", .str "3c5d0f8b05c5b1d5579c14b3c20dab71ba4bec25e22738f1cc7335da04ac21fd"),
  ("excerpt", .str capture),
  ("license", .str "CC0-1.0"),
  ("locator", .str "line 1"),
  ("publisher", .str "Fixture"),
  ("retrieved_at", .str "2026-09-15"),
  ("supports", .arr [.str "title", .str "year", .str "summary", .str "date", .str "relation"]),
  ("url", .str "https://example.org/source")]

/-- What an entry asserts, with its day if it has one. -/
def asserted (day : Option String) : Value := .obj <|
  (day.elim [] fun date => [("date_precision", .str "day"), ("event_date", .str date)]) ++ [
  ("historical_claim", .str "fixture"),
  ("source_support", .obj [
    ("claim", .str "occurrence"),
    ("rationale", .str "explicit"),
    ("schema", .str "cc.source-support.v1"),
    ("source_urls", .arr [.str "https://example.org/source"]),
    ("support_kind", .str "observed")])]

def entry (title : String) (day : Option String) : Value := .obj [
  ("claim_type", .str "conflict-and-warfare"),
  ("date_is_known", .bool true),
  ("lens", .str "A"),
  ("observed_count", .int 1),
  ("prov_asserted", asserted day),
  ("prov_measured", .obj [
    ("generated_at", .str "2026-09-15"),
    ("method", .str "test"),
    ("provider", .str "fixture"),
    ("run", .str "test"),
    ("source_evidence", .arr [source]),
    ("source_evidence_schema", .str "cc.source-evidence.v1"),
    ("text_model", .str "fixture")]),
  ("summary", .str capture),
  ("temporal_kind", .str "event"),
  ("title", .str title),
  ("tt_bundle_sha256",
    .str "31ed385e26522a5b548f7404f7757ee370ed9783dbd550b05cd69e89e9462113"),
  ("tt_release", .str "tt-ontology/2.1.0"),
  ("year", .int 1970)]

def place (title : String) : Value := .obj [("title", .str title), ("year", .int 1970)]

def link : Value := .obj [
  ("evidence", .arr [source]),
  ("evidence_class", .str "PrimaryDocument"),
  ("from", place "Cause"),
  ("rationale", .str "stated"),
  ("relation", .str "causation"),
  ("to", place "Effect")]

/-- The cause on 13 April 1970 and the effect on the next day. -/
def days : Value := .obj [
  ("edges", .arr [link]),
  ("entries", .arr [entry "Cause" (some "1970-04-13"), entry "Effect" (some "1970-04-14")]),
  ("images", .arr [])]

/-- The effect again, in 1970. -/
def year : Value := .obj [
  ("edges", .arr []),
  ("entries", .arr [entry "Effect" none]),
  ("images", .arr [])]

def brief : Value := .obj [("max_entries", .int 5)]

def causeKey : Hash := 0xa707c0d0526334b01f01977dc75467498eeec0bf014c8923732975ca64562ccb
def effectKey : Hash := 0x21526963bbc089cbddd3695b1544b4df6e1738df603a6c826dd1ebbf05a7c0d8
def cause : EntityId := 0x2707c0d0526334b0
def effect : EntityId := 0x21526963bbc089cb
def now : Tick := wholeTicks 839678400
def day13 : Tick := yearTick 1970 + wholeTicks (102 * 86400)
def day14 : Tick := yearTick 1970 + wholeTicks (103 * 86400)

def birth (k : EntityId) (key : Hash) (title : String) (at_ : Tick) : Bytes :=
  canonOf (contentAt alice at_ now (.entityCreate ⟨k, resolutionKey key, title, openWindow at_⟩))

def moment (k : EntityId) (body : Hash) (at_ : Tick) : Bytes :=
  canonOf (contentAt alice at_ now (.moment ⟨k, body⟩))

def label (at_ : Tick) : Bytes :=
  canonOf (contentAt alice at_ now
    (.vocabularyDeclare ⟨0x35a687b8, "conflict-and-warfare", openWindow at_⟩))

def edge : Bytes :=
  canonOf (contentAt alice day14 now (.edge ⟨cause, effect, .causation, .primaryDocument⟩))

def body (e : Value) : Bytes :=
  beBytes 4 claimKind.bytes.length ++ claimKind.bytes ++ beBytes 4 e.write.bytes.length ++
    e.write.bytes

def causeBody : Hash := 0x2d08c69819ac583f7d873168ef3b5653cea63177830cd32995ca64a4191a32f9
def effectBody : Hash := 0x1fc2643a98da53ea9c4d09d7a56e29b4f8bb97520d07596a944bc7cb1975d061
def yearBody : Hash := 0x759413ba87ed6065e0da9261d33b95897f30dcca6089aed074bfc87912fc57bb
def daysDigest : Hash := 0xf963720c02afb4596831d17b92037315b8cedae7435ced3a7a7890188dfdd73d
def yearDigest : Hash := 0x150632d067789f33ef4a0e9007cfb7787c00f8606bc09996df6f3328c0bec40e
def briefDigest : Hash := 0x620991249e5c019406d19e36a42d13b484e93560ae0d8dd63e515a00ea10dabf
def evidenceDigest : Hash := 0xd44da2640b309de42ee8cccadfe86731aa984fa007fd4022c61727e17033c8a8
def edgeId : Hash := 0xc1ae830f1703e0ce3a7f482f1b3d59b9930d93bea799cc5adfcfe22cb71ab486

/-- SHA-256 on the preimages. -/
def digests : List (Bytes × Hash) := [
  (Text.bytes "cause|1970".toList,
    causeKey),
  (Text.bytes "effect|1970".toList,
    effectKey),
  (Text.bytes "conflict-and-warfare".toList,
    0x35a687b82d1b342776d98dde5485c8059cf3a632955b17d8480494eb6c1b57d3),
  (Text.bytes capture.toList,
    0x3c5d0f8b05c5b1d5579c14b3c20dab71ba4bec25e22738f1cc7335da04ac21fd),
  (days.write.bytes,
    daysDigest),
  (year.write.bytes,
    yearDigest),
  (brief.write.bytes,
    briefDigest),
  (body (entry "Cause" (some "1970-04-13")),
    causeBody),
  (body (entry "Effect" (some "1970-04-14")),
    effectBody),
  (body (entry "Effect" none),
    yearBody),
  ((edgeEvidenceText link).bytes,
    evidenceDigest),
  (birth cause causeKey "Cause" day13,
    0x151de648b05e45953333fce528e0059749913513db9494629869967e6ef5cebf),
  (moment cause causeBody day13,
    0xf3a10b6c5ab0f933234ca1b5b38af19ff4e679f48682047ae29b83d807e5861b),
  (birth effect effectKey "Effect" day14,
    0x1906a1990b72c653e4a0f924d215eb2463a70ff141fe03796c5d27ae8ef7a69e),
  (moment effect effectBody day14,
    0xab05d39a1256361dfd2d70b4cd578e0d4915fa3f41c2a75554bf8ec710e747a0),
  (label day13,
    0x5ac42812041ba24e6bbc13867ac9df8f01df24265a338c2c7dd619003beb7428),
  (edge,
    edgeId),
  (birth effect effectKey "Effect" (yearTick 1970),
    0xaf1935c8fe375b67c1222bf550ca1af54fad78d103f126e3629baea624ffa0a8),
  (moment effect yearBody (yearTick 1970),
    0xb432da45394885974deba257a1d56860b79f23ede3cd681820061d69cada7b95),
  (label (yearTick 1970),
    0xc59b64e8299b4a3ce84aa10d77a6bc717c0ee27eb21b31e3249b34918a3710ca)]

def crypto : Crypto where
  sha256 bytes := ((digests.find? fun p => p.1 == bytes).map Prod.snd).getD 0
  authorKey k := decide (k = alice)

/-- Ed25519 under Alice's key on the messages. -/
def signatures : List (Bytes × Bytes) := [
  (asBytes 0x151de648b05e45953333fce528e0059749913513db9494629869967e6ef5cebf, beBytes 64
    0x1592f8448780734c50a7c378a928174fad31bb2b02ed59329ade9fac12d1e3e6d85f45dac4bb45f3abeafc6d71f2be6e56f3ff96702961a70659f1a71166af01),
  (asBytes 0xf3a10b6c5ab0f933234ca1b5b38af19ff4e679f48682047ae29b83d807e5861b, beBytes 64
    0xc6fab658e8ba062e94c26eb7d9114eb74652adcbdb4dbd846955e3f2c004b7cc4c9629da457ecec0d2ecb57b7b4888b812e79c8ec233a01f94c157a764f84705),
  (asBytes 0x1906a1990b72c653e4a0f924d215eb2463a70ff141fe03796c5d27ae8ef7a69e, beBytes 64
    0x639b627430e9a16844af30776c8d065290cfc2f78b1a8f4678dd2007d08ba2590d8a7fc97e81dd8271a14eb71211d63a4bdc227b393eda60dd00dac9dc3b7903),
  (asBytes 0xab05d39a1256361dfd2d70b4cd578e0d4915fa3f41c2a75554bf8ec710e747a0, beBytes 64
    0xbeed8a8dbbdadc1f5d4d75b85867277f788e1e5e4e0823fb9ff7484beb34481ea5ee1e46f4709c05b7ad863ddcc20b85a3533a0565c54d8e07e6ba74f3735a02),
  (asBytes 0x5ac42812041ba24e6bbc13867ac9df8f01df24265a338c2c7dd619003beb7428, beBytes 64
    0x4f967c70a42eaf782d758ede8829785b7028bbea989859726186df9afe068e7bf4914617a652cfa40a19c4bb905f84b203f05703a907055cee8a25bef2c93d07),
  (asBytes 0xc1ae830f1703e0ce3a7f482f1b3d59b9930d93bea799cc5adfcfe22cb71ab486, beBytes 64
    0x5b30dc95c088a36aa4c966143188ec1092b8ebb74927eb11f2ec81e6b872af77e794c748bb57cdc6ccb2c7a8f9a58fb797653ff5d3d551cc06ae6f6eebc46802),
  (asBytes 0xaf1935c8fe375b67c1222bf550ca1af54fad78d103f126e3629baea624ffa0a8, beBytes 64
    0x69a07ba6559bbd856c92749e7ae81523c52b05811e789001fe9053011355c8c562543d5340665c0a07efb677816f3ba536fd3776165e1d20bf5d4f3c26274208),
  (asBytes 0xb432da45394885974deba257a1d56860b79f23ede3cd681820061d69cada7b95, beBytes 64
    0x81547b18b19c37c13e27ee5594ce240b0f4526f72b842931496b4a7114a061c58f9b51f7335534e9e62c8240e776e1619af99817ca32b5899453ed059e98c104),
  (asBytes 0xc59b64e8299b4a3ce84aa10d77a6bc717c0ee27eb21b31e3249b34918a3710ca, beBytes 64
    0xd8aebc78cc6bfd5cd999c859333358dacf48c536c00bb0e081e9f6aaa1a36dabca1f7a2f049c7da45cb88465b415bd1500b8bcb3581b2a68053238aed2fdbe0a),
  (evidenceCommitment edgeId evidenceDigest, beBytes 64
    0x537d41a3ad81b131600d53419a92a9fc8b229c8ebf6a8e69278b6fc818774b063abb8a11b6854d5bc50e95b8b3c7472c06f4f088d268e6298a023cb4b522ce0f)]

def signMessage (message : Bytes) : Bytes :=
  ((signatures.find? fun p => p.1 == message).map Prod.snd).getD []

def verify : Verify := fun k message signature =>
  decide (k = alice ∧ signature = signMessage message)

def key : SecretKey crypto verify where
  author := alice
  isAuthor := by decide
  signMessage := signMessage
  verified := by simp [verify]

/-- The admission gate on these entries, and the file they name. -/
def host : Host where
  admitBatch _ := []
  read path := if path = "capture" then some (Text.bytes capture.toList) else none

def ops : List (Op crypto verify) := [
  .stageBrief "brief" brief,
  .approve ⟨.brief, "brief", briefDigest⟩ "reviewer",
  .setPaused false,
  .stageCandidate "days" "brief" days,
  .approve ⟨.candidate, "days", daysDigest⟩ "reviewer",
  .publish key now "days" daysDigest,
  .stageCandidate "year" "brief" year,
  .approve ⟨.candidate, "year", yearDigest⟩ "reviewer",
  .publish key now "year" yearDigest]

/-- Whether the one causal edge is stored with its source after its target. -/
def backwards (db : Db) : Bool :=
  db.causalPairs = [(cause, effect)] &&
    match startOf db.ledger cause, startOf db.ledger effect with
    | some a, some b => decide (b < a)
    | _, _ => false

/-- How the run ends, and the identities of its events. -/
theorem run_events : (match Db.empty.calls host ops with
    | .ok db => backwards db
    | .error _ => false) = true ∧ (published host Db.empty ops).map Signed.id = [
    0x151de648b05e45953333fce528e0059749913513db9494629869967e6ef5cebf,
    0xf3a10b6c5ab0f933234ca1b5b38af19ff4e679f48682047ae29b83d807e5861b,
    0x1906a1990b72c653e4a0f924d215eb2463a70ff141fe03796c5d27ae8ef7a69e,
    0xab05d39a1256361dfd2d70b4cd578e0d4915fa3f41c2a75554bf8ec710e747a0,
    0x5ac42812041ba24e6bbc13867ac9df8f01df24265a338c2c7dd619003beb7428,
    0xc1ae830f1703e0ce3a7f482f1b3d59b9930d93bea799cc5adfcfe22cb71ab486,
    0xaf1935c8fe375b67c1222bf550ca1af54fad78d103f126e3629baea624ffa0a8,
    0xb432da45394885974deba257a1d56860b79f23ede3cd681820061d69cada7b95,
    0xc59b64e8299b4a3ce84aa10d77a6bc717c0ee27eb21b31e3249b34918a3710ca] := by
  decide +kernel

theorem free : CollisionFree (published host Db.empty ops) := by
  have hnodup : ((published host Db.empty ops).map Signed.id).Nodup := by
    rw [run_events.2]
    decide
  intro s hs s' hs' hid
  rw [List.inj_on_of_nodup_map hnodup hs hs' hid]

theorem run_ok : ∃ db, Db.empty.calls host ops = .ok db ∧ ¬ db.Ordered := by
  have hrun := run_events.1
  cases hcalls : Db.empty.calls host ops with
  | error e =>
    rw [hcalls] at hrun
    nomatch hrun
  | ok db =>
    rw [hcalls] at hrun
    simp only [backwards, Bool.and_eq_true, decide_eq_true_eq] at hrun
    obtain ⟨hpairs, hstarts⟩ := hrun
    refine ⟨db, rfl, fun hordered => ?_⟩
    split at hstarts
    · next a b ha hb =>
      have hle := hordered (cause, effect) (hpairs ▸ List.mem_singleton_self _) a ha b hb
      have hlt := of_decide_eq_true hstarts
      omega
    · nomatch hstarts

end Sample

/-- The effect of 14 April, published once more in 1970, starts before its cause of 13 April. -/
theorem effect_republished : ¬ ∀ (ops : List (Op Sample.crypto Sample.verify)) (last : Db),
    Db.empty.calls Sample.host ops = .ok last →
    CollisionFree (published Sample.host .empty ops) →
    ∀ before, before <+: ops → ∀ db, Db.empty.calls Sample.host before = .ok db →
      db.Chronological Sample.crypto Sample.verify := by
  intro h
  obtain ⟨db, hrun, hbackwards⟩ := Sample.run_ok
  have hdated := (run_dated Sample.free hrun).1
  exact hbackwards (hdated.chronological_iff.mp
    (h Sample.ops db hrun Sample.free Sample.ops (List.prefix_refl _) db hrun))

theorem causes_first_iff_republished :
    (∀ before, before <+: Sample.ops → ∀ db, Db.empty.calls Sample.host before = .ok db →
      db.Chronological Sample.crypto Sample.verify) ↔
    ∀ before op, before ++ [op] <+: Sample.ops →
      ∀ db, Db.empty.calls Sample.host before = .ok db → op.Forward db := by
  obtain ⟨db, hrun, -⟩ := Sample.run_ok
  exact causes_first_iff Sample.host Sample.ops db hrun Sample.free

end Clockchain.V0.Publisher
