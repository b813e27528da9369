import Clockchain.Maps
import Clockchain.Embedding
import Clockchain.V1.Revisions
import Clockchain.V1.Admission

/-!
# Candidate sets as histories

`history` reads a candidate set as a history: grants are named by their hashes, a
Genesis issues its root grant and a Delegate a grant below the one it names. A
`Branch` is a causally closed set of events that each obey what admission checks of
an event against its past; its history is lawful.
-/

namespace Clockchain.V1
open Relation Maps
set_option autoImplicit false

def history (cr : Crypto) (V : Candidates) : History Hash Hash where
  mem e := e ∈ V
  parent p e := ∃ s, V[e]? = some s ∧ p ∈ parentsOf s
  signer e := (V[e]?).elim e (signer cr e)
  issues e g := ∃ s grant, V[e]? = some s ∧ issued cr e s.envelope = some (some (g, grant))
  issuer i g := ∃ e s grant, V[e]? = some s ∧ issued cr e s.envelope = some (some (g, grant)) ∧
    grant.issuer = some i
  revoke r t c := ∃ s, V[r]? = some s ∧ revoked s = some (t, c)

/-- `C` holds every event of `W`. -/
structure Within (W C : Candidates) : Prop where
  sub : ∀ {e : Hash} {s : Signed}, W[e]? = some s → C[e]? = some s

structure Closed (W : Candidates) : Prop where
  parent : ∀ {e p : Hash} {s : Signed}, W[e]? = some s → p ∈ parentsOf s → p ∈ W

/-- The derived identifiers of the events of `C` do not collide. -/
structure CollisionFree (cr : Crypto) (C : Candidates) : Prop where
  root_inj : ∀ {a b}, a ∈ C → b ∈ C → rootGrant cr a = rootGrant cr b → a = b
  root_fresh : ∀ {a b}, a ∈ C → b ∈ C → rootGrant cr a ≠ b
  revision_inj : ∀ {a b s t}, C[a]? = some s → C[b]? = some t →
    revisionId cr (subjectOf a s) a = revisionId cr (subjectOf b t) b → a = b

/-- What admission checks of an event of `C` against its strict past. -/
structure Obeys (cr : Crypto) (C : Candidates) (e : Hash) (s : Signed) : Prop where
  subject : isSubject s = true
  genesis : s.envelope.payload.kind = .genesis →
    s.envelope.subject = none ∧ s.envelope.grant = none ∧ parentsOf s = []
  header : s.envelope.payload.kind ≠ .genesis → s.envelope.subject.isSome ∧ parentsOf s ≠ []
  single : s.envelope.payload.kind ≠ .resolve → (parentsOf s).length ≤ 1
  parent : ∀ p ∈ parentsOf s, ∃ t, C[p]? = some t ∧ subjectOf p t = subjectOf e s ∧
    t.envelope.subjectKey = s.envelope.subjectKey
  grant : s.envelope.payload.kind ≠ .genesis → ∃ g, s.envelope.grant = some g ∧
    ∃ d, (history cr C).issues d g ∧ (history cr C).Before d e
  issuer : ∀ {k i d}, s.envelope.payload = .delegate k i d → s.envelope.grant = some i
  target : ∀ {t c}, revoked s = some (t, c) →
    (∃ d, (history cr C).issues d t ∧ (history cr C).Before d e) ∧
    ((history cr C).Above (signer cr e s) t ∨ signer cr e s = t ∧ (history cr C).Root t)
  selects : ∀ {r ds d}, s.envelope.payload = .resolve (.revision r) ds d →
    ∃ c t, (history cr C).Before c e ∧ C[c]? = some t ∧ t.envelope.payload.newBody.isSome ∧
      revisionId cr (subjectOf c t) c = r

/-- `W` is a causally closed set of lawful events of `C`. -/
structure Branch (cr : Crypto) (C W : Candidates) : Prop where
  free : CollisionFree cr C
  within : Within W C
  closed : Closed W
  acyclic : ∀ e ∈ W, Acc (history cr C).parent e
  law : ∀ {e s}, W[e]? = some s → Obeys cr C e s

section
variable {cr : Crypto} {C W : Candidates}

theorem Within.mem (h : Within W C) {e : Hash} (he : e ∈ W) : e ∈ C := by
  obtain ⟨s, hs⟩ := mem_iff.mp he
  exact mem_of_getElem? (h.sub hs)

theorem Within.trans {V : Candidates} (h : Within V W) (h' : Within W C) : Within V C :=
  ⟨fun hs => h'.sub (h.sub hs)⟩

theorem Within.eq (h : Within W C) {e : Hash} {s t : Signed} (hs : W[e]? = some s)
    (ht : C[e]? = some t) : s = t :=
  Option.some.inj ((h.sub hs).symm.trans ht)

/-- A member of `W` is the same event in `C`. -/
theorem Within.get (h : Within W C) {e : Hash} {s : Signed} (he : e ∈ W) (hs : C[e]? = some s) :
    W[e]? = some s := by
  obtain ⟨t, ht⟩ := mem_iff.mp he
  rwa [← h.eq ht hs]

theorem CollisionFree.within (free : CollisionFree cr C) (h : Within W C) : CollisionFree cr W :=
  ⟨fun ha hb => free.root_inj (h.mem ha) (h.mem hb),
    fun ha hb => free.root_fresh (h.mem ha) (h.mem hb),
    fun ha hb => free.revision_inj (h.sub ha) (h.sub hb)⟩

theorem CollisionFree.single {a : Hash} (h : ∀ e ∈ C, e = a) (hroot : rootGrant cr a ≠ a) :
    CollisionFree cr C := by
  refine ⟨fun ha hb _ => (h _ ha).trans (h _ hb).symm, fun ha hb heq => ?_, fun ha hb _ =>
    (h _ (mem_of_getElem? ha)).trans (h _ (mem_of_getElem? hb)).symm⟩
  rw [h _ ha, h _ hb] at heq
  exact hroot heq

theorem history_signer {e : Hash} {s : Signed} (h : W[e]? = some s) :
    (history cr W).signer e = signer cr e s := by
  simp [history, h]

theorem parent_iff {p e : Hash} {s : Signed} (h : W[e]? = some s) :
    (history cr W).parent p e ↔ p ∈ parentsOf s := by
  simp [history, h]

theorem revoke_iff {r t : Hash} {c : Bool} {s : Signed} (h : W[r]? = some s) :
    (history cr W).revoke r t c ↔ revoked s = some (t, c) := by
  simp [history, h]

theorem issued_kind {e g : Hash} {s : Signed} {grant : Grant}
    (h : issued cr e s.envelope = some (some (g, grant))) :
    (s.envelope.payload.kind = .genesis ∧ g = rootGrant cr e ∧ grant.issuer = none ∧
      grant.holder = s.envelope.author ∧ grant.subject = e) ∨
    (∃ k i d, s.envelope.payload = .delegate k i d ∧ g = e ∧ grant.issuer = some i ∧
      grant.holder = k ∧ s.envelope.subject = some grant.subject) := by
  unfold issued at h
  split at h
  case h_1 hp =>
    simp only [Option.some.injEq, Prod.mk.injEq] at h
    obtain ⟨rfl, rfl⟩ := h
    exact Or.inl ⟨by simp [hp, Payload.kind], rfl, rfl, rfl, rfl⟩
  case h_2 k i d hp =>
    cases hs : s.envelope.subject with
    | none => simp [hs] at h
    | some subject =>
      simp only [hs, Option.bind_eq_bind, Option.bind_some, Option.pure_def, Option.some.injEq,
        Prod.mk.injEq] at h
      obtain ⟨rfl, rfl⟩ := h
      exact Or.inr ⟨k, i, d, hp, rfl, rfl, rfl, rfl⟩
  case h_3 => simp at h

theorem issued_by {e g : Hash} {s : Signed} {grant : Grant}
    (h : issued cr e s.envelope = some (some (g, grant))) : grant.issuedByEvent = e := by
  unfold issued at h
  split at h
  · simp only [Option.some.injEq, Prod.mk.injEq] at h
    obtain ⟨rfl, rfl⟩ := h
    rfl
  · cases hs : s.envelope.subject with
    | none => simp [hs] at h
    | some subject =>
      simp only [hs, Option.bind_eq_bind, Option.bind_some, Option.pure_def, Option.some.injEq,
        Prod.mk.injEq] at h
      obtain ⟨rfl, rfl⟩ := h
      rfl
  · simp at h

theorem CollisionFree.issues_event (free : CollisionFree cr C) {d e g : Hash}
    (hd : (history cr C).issues d g) (he : (history cr C).issues e g) : d = e := by
  obtain ⟨s, _, hs, hd⟩ := hd
  obtain ⟨t, _, ht, he⟩ := he
  rcases issued_kind hd with ⟨_, hg, _⟩ | ⟨_, _, _, _, rfl, _⟩
  · rcases issued_kind he with ⟨_, hg', _⟩ | ⟨_, _, _, _, rfl, _⟩
    · exact free.root_inj (mem_of_getElem? hs) (mem_of_getElem? ht) (hg.symm.trans hg')
    · exact absurd hg.symm (free.root_fresh (mem_of_getElem? hs) (mem_of_getElem? ht))
  · rcases issued_kind he with ⟨_, hg', _⟩ | ⟨_, _, _, _, rfl, _⟩
    · exact absurd hg'.symm (free.root_fresh (mem_of_getElem? ht) (mem_of_getElem? hs))
    · rfl

/-! ## Closed parts -/

theorem Within.issues (h : Within W C) {e g : Hash} (he : (history cr W).issues e g) :
    (history cr C).issues e g := by
  obtain ⟨s, grant, hs, hi⟩ := he
  exact ⟨s, grant, h.sub hs, hi⟩

theorem Within.issues_iff (h : Within W C) {e g : Hash} (he : e ∈ W) :
    (history cr W).issues e g ↔ (history cr C).issues e g := by
  refine ⟨h.issues, ?_⟩
  rintro ⟨s, grant, hs, hi⟩
  exact ⟨s, grant, h.get he hs, hi⟩

theorem Within.issuer (h : Within W C) {i g : Hash} (hi : (history cr W).issuer i g) :
    (history cr C).issuer i g := by
  obtain ⟨e, s, grant, hs, hi⟩ := hi
  exact ⟨e, s, grant, h.sub hs, hi⟩

theorem Within.issuer_iff (free : CollisionFree cr C) (h : Within W C) {i g e : Hash}
    (he : (history cr W).issues e g) : (history cr W).issuer i g ↔ (history cr C).issuer i g := by
  refine ⟨h.issuer, ?_⟩
  rintro ⟨d, s, grant, hs, hd, hi⟩
  obtain rfl := free.issues_event ⟨s, grant, hs, hd⟩ (h.issues he)
  obtain ⟨_, _, hmem, _⟩ := he
  exact ⟨d, s, grant, h.get (mem_of_getElem? hmem) hs, hd, hi⟩

theorem Within.root_iff (free : CollisionFree cr C) (h : Within W C) {g e : Hash}
    (he : (history cr W).issues e g) : (history cr W).Root g ↔ (history cr C).Root g :=
  forall_congr' fun _ => not_congr (h.issuer_iff free he)

/-- Fewer events are embedded in more. -/
theorem Within.embeds (free : CollisionFree cr C) (h : Within W C) :
    History.Embeds (history cr W) (history cr C) id id where
  mem := h.mem
  inj _ _ heq := heq
  parent := fun {e p} he => by
    obtain ⟨s, hs⟩ := mem_iff.mp he
    simp [parent_iff hs, parent_iff (h.sub hs)]
  signer := fun {e} he => by
    obtain ⟨s, hs⟩ := mem_iff.mp he
    exact (history_signer (h.sub hs)).trans (history_signer hs).symm
  issues := fun {e g} he => by simp [h.issues_iff he]
  issuer := fun {d g i} hd => by simp [h.issuer_iff free hd]
  revoke := fun {r t c} hr => by
    obtain ⟨s, hs⟩ := mem_iff.mp hr
    simp [revoke_iff hs, revoke_iff (h.sub hs)]

theorem Within.parent_le (h : Within W C) : (history cr W).parent ≤ (history cr C).parent :=
  fun _ _ ⟨s, hs, hp⟩ => ⟨s, h.sub hs, hp⟩

theorem Within.anc (h : Within W C) {a e : Hash} (ha : (history cr W).Anc a e) :
    (history cr C).Anc a e :=
  ReflTransGen.mono h.parent_le a e ha

theorem Within.before (h : Within W C) {a e : Hash} (ha : (history cr W).Before a e) :
    (history cr C).Before a e :=
  TransGen.mono h.parent_le a e ha

theorem Within.above (h : Within W C) {i g : Hash} (hi : (history cr W).Above i g) :
    (history cr C).Above i g :=
  TransGen.mono (fun _ _ hij => h.issuer hij) i g hi

theorem Within.anc_lift (h : Within W C) (closed : Closed W) {a e : Hash} (he : e ∈ W)
    (ha : (history cr C).Anc a e) : a ∈ W ∧ (history cr W).Anc a e := by
  induction ha using ReflTransGen.head_induction_on with
  | refl => exact ⟨he, ReflTransGen.refl⟩
  | head hp _ ih =>
    obtain ⟨s, hs, hp⟩ := hp
    have hs' := h.get ih.1 hs
    exact ⟨closed.parent hs' hp, ReflTransGen.head ⟨s, hs', hp⟩ ih.2⟩

theorem Within.before_lift (h : Within W C) (closed : Closed W) {a e : Hash} (he : e ∈ W)
    (ha : (history cr C).Before a e) : a ∈ W ∧ (history cr W).Before a e := by
  obtain ⟨p, hap, s, hs, hp⟩ := History.before_iff.mp ha
  have hs' := h.get he hs
  obtain ⟨ha, hanc⟩ := h.anc_lift closed (closed.parent hs' hp) hap
  exact ⟨ha, History.before_iff.mpr ⟨p, hanc, s, hs', hp⟩⟩

theorem Within.before_iff (h : Within W C) (closed : Closed W) {a e : Hash} (he : e ∈ W) :
    (history cr W).Before a e ↔ (history cr C).Before a e :=
  ⟨h.before, fun ha => (h.before_lift closed he ha).2⟩

end

/-! ## The history of a branch -/

namespace Branch
variable {cr : Crypto} {C W : Candidates} (branch : Branch cr C W)
include branch

theorem mono {V : Candidates} (hV : Within V W) (closed : Closed V) : Branch cr C V where
  free := branch.free
  within := hV.trans branch.within
  closed := closed
  acyclic e he := branch.acyclic e (hV.mem he)
  law hs := branch.law (hV.sub hs)

/-- The grant an event names was issued in its strict past. -/
theorem signer_before {e : Hash} {s : Signed} (hs : W[e]? = some s)
    (hkind : s.envelope.payload.kind ≠ .genesis) :
    ∃ d, (history cr W).issues d (signer cr e s) ∧ (history cr W).Before d e := by
  obtain ⟨g, hg, d, hd, hbefore⟩ := (branch.law hs).grant hkind
  have hmem := mem_of_getElem? hs
  obtain ⟨hdW, hbefore'⟩ := branch.within.before_lift branch.closed hmem hbefore
  refine ⟨d, (branch.within.issues_iff hdW).mpr ?_, hbefore'⟩
  simpa [signer, hg] using hd

theorem issuer_before {i g : Hash} (hi : (history cr W).issuer i g) :
    ∃ d e, (history cr W).issues d i ∧ (history cr W).issues e g ∧ (history cr W).Before d e := by
  obtain ⟨e, s, grant, hs, he, hi⟩ := hi
  rcases issued_kind he with ⟨_, _, hnone, _⟩ | ⟨k, j, dec, hp, rfl, hj, _⟩
  · simp [hnone] at hi
  · have hsigner := (branch.law hs).issuer hp
    obtain rfl : j = i := Option.some.inj (hj.symm.trans hi)
    obtain ⟨d, hd, hbefore⟩ := branch.signer_before hs (by simp [hp, Payload.kind])
    simp only [signer, hsigner, Option.getD_some] at hd
    exact ⟨d, g, hd, ⟨s, grant, hs, he⟩, hbefore⟩

theorem issuer_signer {i g e : Hash} (hi : (history cr W).issuer i g)
    (he : (history cr W).issues e g) : (history cr W).signer e = i := by
  obtain ⟨d, s, grant, hs, hd, hi⟩ := hi
  obtain rfl := branch.free.issues_event (branch.within.issues he)
    (branch.within.issues ⟨s, grant, hs, hd⟩)
  rcases issued_kind hd with ⟨_, _, hnone, _⟩ | ⟨k, j, dec, hp, rfl, hj, _⟩
  · simp [hnone] at hi
  · rw [history_signer hs, signer, (branch.law hs).issuer hp]
    exact Option.some.inj (hj.symm.trans hi)

theorem root_signer {g e : Hash} (hroot : (history cr W).Root g)
    (he : (history cr W).issues e g) : (history cr W).signer e = g := by
  obtain ⟨s, grant, hs, he⟩ := he
  rcases issued_kind he with ⟨hkind, rfl, _⟩ | ⟨k, j, dec, hp, rfl, hj, _⟩
  · rw [history_signer hs, signer, ((branch.law hs).genesis hkind).2.1]
    rfl
  · exact absurd ⟨g, s, grant, hs, he, hj⟩ (hroot j)

omit branch in
theorem issues_root {e : Hash} {s : Signed} (hs : W[e]? = some s)
    (hkind : s.envelope.payload.kind = .genesis) :
    (history cr W).issues e (rootGrant cr e) := by
  cases hp : s.envelope.payload <;> simp [hp, Payload.kind] at hkind
  exact ⟨s, _, hs, by simp only [issued, hp]; rfl⟩

theorem signer_issued {e : Hash} (he : e ∈ W) :
    ∃ d, (history cr W).issues d ((history cr W).signer e) ∧ (history cr W).Anc d e := by
  obtain ⟨s, hs⟩ := mem_iff.mp he
  rw [history_signer hs]
  by_cases hkind : s.envelope.payload.kind = .genesis
  · refine ⟨e, ?_, ReflTransGen.refl⟩
    simpa [signer, ((branch.law hs).genesis hkind).2.1] using issues_root hs hkind
  · obtain ⟨d, hd, hbefore⟩ := branch.signer_before hs hkind
    exact ⟨d, hd, hbefore.anc⟩

theorem target_issued {r t : Hash} {c : Bool} (h : (history cr W).revoke r t c) :
    ∃ d, (history cr W).issues d t ∧ (history cr W).Before d r := by
  obtain ⟨s, hs, ht⟩ := h
  obtain ⟨⟨d, hd, hbefore⟩, _⟩ := (branch.law hs).target ht
  obtain ⟨hdW, hbefore'⟩ := branch.within.before_lift branch.closed (mem_of_getElem? hs) hbefore
  exact ⟨d, (branch.within.issues_iff hdW).mpr hd, hbefore'⟩

/-- Issuance ancestry above a grant of `W` stays in `W`. -/
theorem above_lift {i g d : Hash} (hd : (history cr W).issues d g)
    (h : (history cr C).Above i g) : (history cr W).Above i g := by
  induction h using TransGen.head_induction_on with
  | single h => exact TransGen.single ((branch.within.issuer_iff branch.free hd).mpr h)
  | head hij _ ih =>
    obtain ⟨j, hj, _⟩ := TransGen.head'_iff.mp ih
    obtain ⟨e, _, he, _⟩ := branch.issuer_before hj
    exact TransGen.head ((branch.within.issuer_iff branch.free he).mpr hij) ih

theorem scope {r t : Hash} {c : Bool} (h : (history cr W).revoke r t c) :
    (history cr W).Above ((history cr W).signer r) t ∨
      (history cr W).signer r = t ∧ (history cr W).Root t := by
  obtain ⟨d, hd, _⟩ := branch.target_issued h
  obtain ⟨s, hs, ht⟩ := h
  rw [history_signer hs]
  obtain ⟨_, habove | ⟨heq, hroot⟩⟩ := (branch.law hs).target ht
  · exact Or.inl (branch.above_lift hd habove)
  · exact Or.inr ⟨heq, (branch.within.root_iff branch.free hd).mpr hroot⟩

theorem wellFounded : WellFounded (history cr W).parent := by
  refine ⟨fun e => ?_⟩
  by_cases he : e ∈ W
  · have hacc := branch.acyclic e he
    refine Subrelation.accessible (fun h => ?_) hacc
    obtain ⟨s, hs, hp⟩ := h
    exact ⟨s, branch.within.sub hs, hp⟩
  · refine Acc.intro e fun p hp => ?_
    obtain ⟨s, hs, _⟩ := hp
    exact absurd (mem_of_getElem? hs) he

theorem lawful : (history cr W).Lawful where
  finite := finite_keys W
  acyclic := branch.wellFounded
  parent_mem := by
    rintro p e ⟨s, hs, hp⟩
    exact ⟨branch.closed.parent hs hp, mem_of_getElem? hs⟩
  issues_mem := fun ⟨_, _, hs, _⟩ => mem_of_getElem? hs
  issues_event hd he :=
    branch.free.issues_event (branch.within.issues hd) (branch.within.issues he)
  issues_grant := by
    rintro e g g' ⟨s, grant, hs, hg⟩ ⟨t, grant', ht, hg'⟩
    obtain rfl := Option.some.inj (hs.symm.trans ht)
    simpa using congrArg (Option.map (Option.map Prod.fst)) (hg.symm.trans hg')
  issuer_before := branch.issuer_before
  issuer_signer := branch.issuer_signer
  root_signer := branch.root_signer
  signer_issued := branch.signer_issued
  revoke_mem := fun ⟨_, hs, _⟩ => mem_of_getElem? hs
  revoke_unique := by
    rintro r t t' c c' ⟨s, hs, h⟩ ⟨s', hs', h'⟩
    obtain rfl := Option.some.inj (hs.symm.trans hs')
    simpa using h.symm.trans h'
  target_issued := branch.target_issued
  scope := branch.scope

/-! ## Subjects -/

/-- An event and its past are of one subject, under one key. -/
theorem subject_anc {a e : Hash} {s t : Signed} (hs : W[e]? = some s) (ht : W[a]? = some t)
    (h : (history cr W).Anc a e) :
    subjectOf a t = subjectOf e s ∧ t.envelope.subjectKey = s.envelope.subjectKey := by
  induction h using ReflTransGen.head_induction_on generalizing t with
  | refl =>
    obtain rfl := Option.some.inj (hs.symm.trans ht)
    exact ⟨rfl, rfl⟩
  | @head a c hac hce ih =>
    obtain ⟨u, hu, ha⟩ := hac
    obtain ⟨t', ht', hsubject, hkey⟩ := (branch.law hu).parent a ha
    obtain rfl := branch.within.eq ht ht'
    exact ⟨hsubject.trans (ih hu).1, hkey.trans (ih hu).2⟩

theorem genesis_subject {e : Hash} {s : Signed} (hs : W[e]? = some s)
    (hkind : s.envelope.payload.kind = .genesis) : subjectOf e s = e := by
  simp [subjectOf, ((branch.law hs).genesis hkind).1]

/-- The subject of an event is the Genesis it descends from. -/
theorem genesis_exists {e : Hash} {s : Signed} (hs : W[e]? = some s) :
    ∃ t, W[subjectOf e s]? = some t ∧ t.envelope.payload.kind = .genesis ∧
      (history cr W).Anc (subjectOf e s) e := by
  induction e using branch.wellFounded.induction generalizing s with
  | _ e ih =>
    by_cases hkind : s.envelope.payload.kind = .genesis
    · rw [branch.genesis_subject hs hkind]
      exact ⟨s, hs, hkind, ReflTransGen.refl⟩
    · obtain ⟨p, hp⟩ := List.exists_mem_of_ne_nil _ ((branch.law hs).header hkind).2
      have hpar : (history cr W).parent p e := (parent_iff hs).mpr hp
      obtain ⟨u, hu⟩ := mem_iff.mp (branch.closed.parent hs hp)
      obtain ⟨t, ht, hgenesis, hanc⟩ := ih p hpar hu
      rw [(branch.subject_anc hs hu (ReflTransGen.single hpar)).1] at ht hanc
      exact ⟨t, ht, hgenesis, hanc.tail hpar⟩

theorem genesis_unique {a e : Hash} {s t : Signed} (hs : W[e]? = some s) (ht : W[a]? = some t)
    (hkind : t.envelope.payload.kind = .genesis) (h : (history cr W).Anc a e) :
    a = subjectOf e s := by
  rw [← branch.genesis_subject ht hkind, (branch.subject_anc hs ht h).1]

end Branch

end Clockchain.V1
