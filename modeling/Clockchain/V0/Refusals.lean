import Clockchain.V0.Convergence

/-!
# What the database refuses

A text column takes no zero character, and an indexed one no text that is too long for the page of
its index. PostgreSQL finds out when the row is written: a birth or a declaration whose row would
not be written, because an earlier one of its entity or claim type sits there, is stored whatever
its texts are.
-/

namespace Clockchain.V0
open Codec Survivors Programs
open V1 (Hash Crypto Verify)
set_option autoImplicit false

/-- What the text columns take, `resolution_key` and `label` being indexed. -/
structure Database where
  column : String → Bool
  indexed : String → Bool

section
variable {cr : Crypto} {verify : Verify}

/-- The table takes the row of `s`: its texts and its constraints. -/
def Database.holds (db : Database) (s : Signed cr verify) : Bool :=
  match s.content.body with
  | .entityCreate e => db.indexed e.resolutionKey && db.column e.canonicalName
  | .vocabularyDeclare v => v.claimType ≠ 0 && db.indexed v.label
  | .edge ed => ed.src ≠ ed.dst
  | _ => true

/-- The projector writes the row of `s`, unless another one that is not later sits there. -/
def Tables.writes (t : Tables) (s : Signed cr verify) : Bool :=
  match s.content.body with
  | .entityCreate e => (t.entities[e.entityId]?).all fun sitting =>
      sitting.birthEvent ≠ s.id && foldOrder s.content.eventTime.toCanon s.id <
        foldOrder sitting.birthEventTime sitting.birthEvent
  | .vocabularyDeclare v => (t.vocabulary[v.claimType]?).all fun sitting =>
      sitting.declaredBy ≠ s.id && foldOrder s.content.eventTime.toCanon s.id <
        foldOrder sitting.declaredAt sitting.declaredBy
  | _ => true

namespace Ledger

/-- `commit` on a database that refuses the rows it cannot hold. -/
def commitIn (db : Database) (ledger : Ledger) (s : Signed cr verify) :
    Except LedgerError (Appended × Ledger) := do
  let (outcome, committed) ← ledger.commit s
  if outcome = .new ∧ ledger.tables.writes s ∧ ¬ db.holds s then throw .db
  return (outcome, committed)

def submitIn (db : Database) (ledger : Ledger) (s : Signed cr verify) : Ledger :=
  match ledger.commitIn db s with
  | .ok (_, committed) => committed
  | .error _ => ledger

def submitAllIn (db : Database) (ledger : Ledger) (events : List (Signed cr verify)) : Ledger :=
  events.foldl (submitIn db) ledger

end Ledger

/-- `s'` claims the row that `s` claims, and is earlier. -/
def Signed.Shelters (s' s : Signed cr verify) : Prop :=
  (∃ k row row', s.birth = some (k, row) ∧ s'.birth = some (k, row') ∧ row'.order < row.order) ∨
  ∃ k row row', s.declaration = some (k, row) ∧ s'.declaration = some (k, row') ∧
    row'.order < row.order

/-- No event that the database does not hold has an earlier one on its row that it holds. -/
def OneFate (db : Database) (xs : List (Signed cr verify)) : Prop :=
  ∀ s ∈ xs, ∀ s' ∈ xs, db.holds s = false → db.holds s' = true → ¬ s'.Shelters s

end

section Runs
variable {cr : Crypto} {verify : Verify} {db : Database} {s s' : Signed cr verify}
  {ledger : Ledger} {xs ys : List (Signed cr verify)}

theorem Database.holds_storable (h : db.holds s = true) : s.Storable := by
  unfold Database.holds at h
  unfold Signed.Storable
  cases hbody : s.content.body <;> simp_all

/-! ## One commit -/

theorem commit_unioned (h : s.id ∈ ledger.events) : ledger.commit s = .ok (.unioned, ledger) := by
  rw [Ledger.commit, Ledger.append, if_pos (Maps.contains_iff.mpr h)]

theorem commit_new {outcome : Appended} {committed : Ledger} (hnew : s.id ∉ ledger.events)
    (h : ledger.commit s = .ok (outcome, committed)) : outcome = .new := by
  rw [Ledger.commit, Ledger.append, if_neg (by rwa [Maps.contains_iff])] at h
  obtain ⟨tables, _, h⟩ := bind_ok.mp h
  exact (Prod.mk.inj (Except.ok.inj h)).1.symm

/-- The database refuses what the projector writes and it does not hold, and nothing else. -/
theorem submitIn_eq (db : Database) (ledger : Ledger) (s : Signed cr verify) :
    ledger.submitIn db s = if s.id ∉ ledger.events ∧ ledger.tables.writes s = true ∧
      db.holds s = false then ledger else ledger.submit s := by
  unfold Ledger.submitIn Ledger.submit Ledger.commitIn
  by_cases hmem : s.id ∈ ledger.events
  · rw [commit_unioned hmem, if_neg fun h => h.1 hmem]
    rfl
  · cases hok : ledger.commit s with
    | error e => exact (ite_self ledger).symm
    | ok result =>
      obtain ⟨outcome, committed⟩ := result
      obtain rfl := commit_new hmem hok
      simp only [bind, Except.bind, hmem, not_false_eq_true, true_and, Bool.not_eq_true]
      split_ifs <;> rfl

theorem submitIn_of_holds (h : db.holds s = true) : ledger.submitIn db s = ledger.submit s := by
  rw [submitIn_eq, if_neg fun hnot => by simp [h] at hnot]

/-! ## When a row is written -/

section Rows
variable {A : Set (Signed cr verify)} {t : Tables}

theorem writes_birth {k : EntityId} {row : EntityRow} (h : s.birth = some (k, row)) :
    t.writes s = true ↔ ∀ sitting, t.entities[k]? = some sitting →
      sitting.birthEvent ≠ s.id ∧ row.order < sitting.order := by
  unfold Signed.birth at h
  split at h
  · next e hbody =>
    obtain ⟨rfl, rfl⟩ := Prod.mk.inj (Option.some.inj h)
    simp only [Tables.writes, hbody, Option.all_eq_true, Bool.and_eq_true, decide_eq_true_eq]
    rfl
  · cases h

theorem writes_declaration {k : BitVec 32} {row : VocabularyRow}
    (h : s.declaration = some (k, row)) :
    t.writes s = true ↔ ∀ sitting, t.vocabulary[k]? = some sitting →
      sitting.declaredBy ≠ s.id ∧ row.order < sitting.order := by
  unfold Signed.declaration at h
  split at h
  · next v hbody =>
    obtain ⟨rfl, rfl⟩ := Prod.mk.inj (Option.some.inj h)
    simp only [Tables.writes, hbody, Option.all_eq_true, Bool.and_eq_true, decide_eq_true_eq]
    rfl
  · cases h

theorem writes_of_none (hbirth : s.birth = none) (hdeclaration : s.declaration = none) :
    t.writes s = true := by
  unfold Signed.birth at hbirth
  unfold Signed.declaration at hdeclaration
  unfold Tables.writes
  cases hbody : s.content.body <;> simp_all

/-- The row of an event is written exactly when no earlier event claims it. -/
theorem Folded.writes_iff (h : Folded A t) (hnew : ∀ s' ∈ A, s'.id ≠ s.id) :
    t.writes s = true ↔ ∀ s' ∈ A, ¬ s'.Shelters s := by
  unfold Signed.Shelters
  cases hbirth : s.birth with
  | some claim =>
    obtain ⟨k, row⟩ := claim
    have hdeclaration : s.declaration = none := by
      unfold Signed.birth at hbirth
      unfold Signed.declaration
      cases hbody : s.content.body <;> simp_all
    have hothers : ∀ s' ∈ A, ∀ x, s'.birth = some (k, x) →
        x.birthEvent ≠ s.id ∧ x.order ≠ row.order := by
      intro s' hs' x hx
      have hne : x.birthEvent ≠ s.id := Signed.birth_event hx ▸ hnew s' hs'
      exact ⟨hne, fun heq => hne ((foldOrder_inj.mp heq).2.trans (Signed.birth_event hbirth))⟩
    rw [writes_birth hbirth, h.entities.before_iff hothers, hdeclaration]
    simp
  | none =>
    cases hdeclaration : s.declaration with
    | some claim =>
      obtain ⟨k, row⟩ := claim
      have hothers : ∀ s' ∈ A, ∀ x, s'.declaration = some (k, x) →
          x.declaredBy ≠ s.id ∧ x.order ≠ row.order := by
        intro s' hs' x hx
        have hne : x.declaredBy ≠ s.id := Signed.declaration_event hx ▸ hnew s' hs'
        exact ⟨hne, fun heq =>
          hne ((foldOrder_inj.mp heq).2.trans (Signed.declaration_event hdeclaration))⟩
      rw [writes_declaration hdeclaration, h.vocabulary.before_iff hothers]
      simp
    | none => simp [writes_of_none hbirth hdeclaration]

end Rows

/-! ## Runs -/

theorem submit_unioned (h : s.id ∈ ledger.events) : ledger.submit s = ledger := by
  simp only [Ledger.submit, commit_unioned h]

theorem submitAllIn_concat :
    ledger.submitAllIn db (ys ++ [s]) = (ledger.submitAllIn db ys).submitIn db s := by
  simp only [Ledger.submitAllIn, List.foldl_append, List.foldl_cons, List.foldl_nil]

/-- On events of one fate the database stores those it holds, in the order they come. -/
theorem run_holds (hfate : OneFate db xs) (hsub : ∀ s ∈ ys, s ∈ xs) :
    Ledger.empty.submitAllIn db ys = Ledger.empty.submitAll (ys.filter db.holds) := by
  induction ys using List.reverseRecOn with
  | nil => rfl
  | append_singleton before s ih =>
    have hbefore := ih fun s' hs' => hsub s' (List.mem_append_left _ hs')
    rw [submitAllIn_concat, hbefore, List.filter_append]
    by_cases hholds : db.holds s = true
    · rw [submitIn_of_holds hholds, List.filter_cons_of_pos hholds, List.filter_nil,
        submitAll_concat]
    · rw [Bool.not_eq_true] at hholds
      rw [List.filter_cons_of_neg (by simp [hholds]), List.filter_nil, List.append_nil, submitIn_eq]
      by_cases hmem : s.id ∈ (Ledger.empty.submitAll (before.filter db.holds)).events
      · rw [if_neg fun h => h.1 hmem, submit_unioned hmem]
      · have hsound := @run_sound cr verify (before.filter db.holds)
        have hwrites := hsound.folded.writes_iff (s := s) fun s' hs' hid =>
          hmem (hid ▸ Maps.mem_of_getElem? hs')
        refine if_pos ⟨hmem, hwrites.mpr fun s' hs' => ?_, hholds⟩
        obtain ⟨hs', hholds'⟩ := List.mem_filter.mp (run_stored hs')
        exact hfate s (hsub s (by simp)) s' (hsub s' (List.mem_append_left _ hs')) hholds hholds'

theorem submitIn_ids {id : Hash} (h : id ∈ (ledger.submitIn db s).events) :
    id ∈ ledger.events ∨ s.id = id := by
  rw [submitIn_eq] at h
  split at h
  · exact .inl h
  · rcases submit_cases ledger s with heq | ⟨_, hok⟩
    · rw [heq] at h
      exact .inl h
    · rcases commit_ok hok with ⟨_, heq⟩ | ⟨_, hevents, _⟩
      · rw [heq] at h
        exact .inl h
      · rw [hevents, Maps.mem_map_insert] at h
        exact h.symm.imp_right Eq.symm

theorem submitAllIn_ids {id : Hash} (h : id ∈ (ledger.submitAllIn db ys).events) :
    id ∈ ledger.events ∨ ∃ s ∈ ys, s.id = id := by
  induction ys using List.reverseRecOn with
  | nil => exact .inl h
  | append_singleton before s ih =>
    rw [submitAllIn_concat] at h
    rcases submitIn_ids h with h | rfl
    · rcases ih h with h | ⟨s', hs', hid⟩
      · exact .inl h
      · exact .inr ⟨s', List.mem_append_left _ hs', hid⟩
    · exact .inr ⟨s, by simp, rfl⟩

theorem submitAllIn_keeps (h : Stored ledger.events s') :
    Stored (ledger.submitAllIn db ys).events s' := by
  induction ys using List.reverseRecOn with
  | nil => exact h
  | append_singleton before s ih =>
    rw [submitAllIn_concat, submitIn_eq]
    split
    · exact ih
    · exact submit_keeps ih

/-! ## Texts that make the order matter -/

/-- One identity, one body, and one answer of the database. -/
theorem holds_of_canon (h : s.canon = s'.canon) : db.holds s = db.holds s' := by
  unfold Database.holds
  rw [(sameIdentity h).body]

theorem Signed.Shelters.storable (h : s'.Shelters s) (hholds : db.holds s' = true) :
    s.Storable := by
  have hstorable := db.holds_storable hholds
  unfold Signed.Storable at hstorable ⊢
  unfold Signed.Shelters Signed.birth Signed.declaration at h
  cases hbody : s.content.body <;> cases hbody' : s'.content.body <;> simp_all

/-- On an empty store a row is written. -/
theorem empty_refuses (hholds : ∀ s ∈ ys, db.holds s = false) :
    Ledger.empty.submitAllIn db ys = Ledger.empty := by
  induction ys using List.reverseRecOn with
  | nil => rfl
  | append_singleton before s ih =>
    rw [submitAllIn_concat, ih fun s' hs' => hholds s' (List.mem_append_left _ hs'), submitIn_eq]
    have hnone : ∀ s' : Signed cr verify, ¬ Stored Ledger.empty.events s' := fun s' hs' => by
      simp [Stored, Ledger.empty] at hs'
    have hsound := @sound_empty cr verify
    have hwrites := hsound.folded.writes_iff (s := s) fun s' hs' => absurd hs' (hnone s')
    refine if_pos ⟨by simp [Ledger.empty], hwrites.mpr fun s' hs' => absurd hs' (hnone s'), ?_⟩
    exact hholds s (by simp)

theorem submit_stored_of_short (hsound : ledger.Sound cr verify) (hshort : ShortSupersession xs)
    (hsub : ∀ s' : Signed cr verify, Stored ledger.events s' → s' ∈ xs) (hs : s ∈ xs)
    (hstorable : s.Storable) (hnew : s.id ∉ ledger.events) :
    (ledger.submit s).events = ledger.events.insert s.id s.row := by
  refine submit_new hsound hstorable hnew (hshort.log hsound.gated.insert fun s' hs' => ?_)
  rcases (stored_insert hnew).mp hs' with rfl | hs'
  · exact hs
  · exact hsub s' hs'

/-- Behind the earlier event of its row an event is stored, whatever its texts are. -/
theorem sheltered_stored (hshort : ShortSupersession xs) (hs : s ∈ xs) (hs' : s' ∈ xs)
    (hne : s.id ≠ s'.id) (hholds : db.holds s' = true) (h : s'.Shelters s) :
    Stored (Ledger.empty.submitAllIn db (s' :: s :: ys)).events s := by
  have hnone : ∀ x : Signed cr verify, Stored Ledger.empty.events x → x ∈ xs := fun x hx => by
    simp [Stored, Ledger.empty] at hx
  have hfirst := submit_stored_of_short (@sound_empty cr verify) hshort hnone hs'
    (db.holds_storable hholds) (by simp [Ledger.empty])
  have hsound : (Ledger.empty.submit s').Sound cr verify := sound_empty.submit
  have honly : ∀ x : Signed cr verify, Stored (Ledger.empty.submit s').events x → x = s' :=
    fun x hx => (submit_stored hx).resolve_left fun hx => by simp [Stored, Ledger.empty] at hx
  have hself : Stored (Ledger.empty.submit s').events s' := by
    rw [hfirst]
    exact stored_self
  have hnew : s.id ∉ (Ledger.empty.submit s').events := by
    rw [hfirst, Maps.mem_map_insert]
    simp [hne, Ledger.empty]
  have hwrites := hsound.folded.writes_iff (s := s) fun x hx hid => hne ((honly x hx) ▸ hid.symm)
  have hunwritten : ¬ (Ledger.empty.submit s').tables.writes s = true := fun hall =>
    hwrites.mp hall s' hself h
  have hsecond : Stored ((Ledger.empty.submit s').submit s).events s := by
    rw [submit_stored_of_short hsound hshort (fun x hx => honly x hx ▸ hs') hs (h.storable hholds)
      hnew]
    exact stored_self
  change Stored (((Ledger.empty.submitIn db s').submitIn db s).submitAllIn db ys).events s
  refine submitAllIn_keeps ?_
  rwa [submitIn_of_holds hholds, submitIn_eq, if_neg fun hall => hunwritten hall.2.1]

theorem oneFate_of_agree (hshort : ShortSupersession xs) (hids : CollisionFree xs)
    (h : ∀ ys zs : List (Signed cr verify), ys.Perm xs → zs.Perm xs →
      (Ledger.empty.submitAllIn db ys).SameView cr (Ledger.empty.submitAllIn db zs)) :
    OneFate db xs := by
  classical
  intro s hs s' hs' hnot hholds hshelters
  have hne : s.id ≠ s'.id := fun hid => by
    rw [holds_of_canon (hids s hs s' hs' hid), hholds] at hnot
    cases hnot
  -- behind the earlier event
  obtain ⟨ys, hys⟩ : ∃ ys, (s' :: s :: ys).Perm xs := by
    obtain ⟨before, after, rfl⟩ := List.append_of_mem hs'
    have hrest : s ∈ before ++ after := by
      simpa [show s ≠ s' from fun heq => hne (heq ▸ rfl)] using hs
    obtain ⟨before', after', hsplit⟩ := List.append_of_mem hrest
    refine ⟨before' ++ after', ?_⟩
    have hinner : (s :: (before' ++ after')).Perm (before ++ after) := by
      rw [hsplit]
      exact List.perm_middle.symm
    exact (hinner.cons s').trans List.perm_middle.symm
  have hin := @sheltered_stored _ _ db s s' xs ys hshort hs hs' hne hholds hshelters
  -- all of its identity first
  let own := xs.filter fun x => decide (x.id = s.id)
  let others := xs.filter fun x => !decide (x.id = s.id)
  have hzs : (own ++ others).Perm xs := List.filter_append_perm _ xs
  have hout : s.id ∉ (Ledger.empty.submitAllIn db (own ++ others)).events := by
    have hown : Ledger.empty.submitAllIn db own = Ledger.empty := by
      refine empty_refuses fun x hx => ?_
      obtain ⟨hx, hid⟩ := List.mem_filter.mp hx
      rw [holds_of_canon (hids x hx s hs (of_decide_eq_true hid)), hnot]
    intro hmem
    rw [Ledger.submitAllIn, List.foldl_append] at hmem
    change s.id ∈ ((Ledger.empty.submitAllIn db own).submitAllIn db others).events at hmem
    rw [hown] at hmem
    rcases submitAllIn_ids hmem with hmem | ⟨x, hx, hid⟩
    · simp [Ledger.empty] at hmem
    · simp [others, hid] at hx
  have hrow : (Ledger.empty.submitAllIn db (s' :: s :: ys)).events[s.id]? = some s.row := hin
  have hcolumns := (h _ _ hys hzs).rows s.id
  rw [hrow, Std.ExtTreeMap.getElem?_eq_none hout] at hcolumns
  cases hcolumns

/-- An order of what is held is one of all the events, with the rest behind it. -/
theorem held_agree (hfate : OneFate db xs)
    (h : ∀ ys zs : List (Signed cr verify), ys.Perm xs → zs.Perm xs →
      (Ledger.empty.submitAllIn db ys).SameView cr (Ledger.empty.submitAllIn db zs))
    {ys zs : List (Signed cr verify)} (hy : ys.Perm (xs.filter db.holds))
    (hz : zs.Perm (xs.filter db.holds)) :
    (Ledger.empty.submitAll ys).SameView cr (Ledger.empty.submitAll zs) := by
  have hrun : ∀ {ys : List (Signed cr verify)}, ys.Perm (xs.filter db.holds) →
      (ys ++ xs.filter fun s => !db.holds s).Perm xs ∧
        Ledger.empty.submitAllIn db (ys ++ xs.filter fun s => !db.holds s) =
          Ledger.empty.submitAll ys := by
    intro ys hy
    have hperm := (hy.append_right _).trans (List.filter_append_perm db.holds xs)
    have hys : ys.filter db.holds = ys :=
      List.filter_eq_self.mpr fun s hs => (List.mem_filter.mp (hy.mem_iff.mp hs)).2
    have hrest : (xs.filter fun s => !db.holds s).filter db.holds = [] := by simp
    refine ⟨hperm, ?_⟩
    rw [run_holds hfate fun s hs => hperm.mem_iff.mp hs, List.filter_append, hys, hrest,
      List.append_nil]
  obtain ⟨hy, hyrun⟩ := hrun hy
  obtain ⟨hz, hzrun⟩ := hrun hz
  rw [← hyrun, ← hzrun]
  exact h _ _ hy hz

/-- Two stores that commit the same events agree whatever the orders, exactly when no event that
the database does not hold comes behind an earlier one on its row, and of those it holds no
identity comes with two authors or record times and no moment supersedes one of another kind. -/
theorem stores_agree_iff (db : Database) (xs : List (Signed cr verify))
    (hshort : ShortSupersession xs) (hids : CollisionFree xs) (hsig : Deterministic xs) :
    (∀ ys zs : List (Signed cr verify), ys.Perm xs → zs.Perm xs →
      (Ledger.empty.submitAllIn db ys).SameView cr (Ledger.empty.submitAllIn db zs)) ↔
      OneFate db xs ∧ OneEnvelope (xs.filter db.holds) ∧ OwnKind (xs.filter db.holds) := by
  have hheld : ∀ s ∈ xs.filter db.holds, s ∈ xs := fun s hs => (List.mem_filter.mp hs).1
  have hiff := orders_agree_iff (xs.filter db.holds) (hshort.sub hheld)
    (fun s hs => db.holds_storable (List.mem_filter.mp hs).2)
    (fun s hs s' hs' => hids s (hheld s hs) s' (hheld s' hs'))
    fun s hs s' hs' => hsig s (hheld s hs) s' (hheld s' hs')
  constructor
  · intro h
    have hfate := oneFate_of_agree hshort hids h
    exact ⟨hfate, hiff.mp fun ys zs hy hz => held_agree hfate h hy hz⟩
  · rintro ⟨hfate, hconditions⟩ ys zs hy hz
    rw [run_holds hfate fun s hs => hy.mem_iff.mp hs, run_holds hfate fun s hs => hz.mem_iff.mp hs]
    exact hiff.mpr hconditions _ _ (hy.filter _) (hz.filter _)

end Runs

/-! ## One statement of two authors -/

namespace Sample

def byAlice : Signed crypto verify where
  content := statement alice
  signature := aliceSignature
  canon := canonOf (statement alice)
  written := rfl
  author := by decide
  verified := by decide

def byBob : Signed crypto verify where
  content := statement bob
  signature := bobSignature
  canon := canonOf (statement alice)
  written := rfl
  author := by decide
  verified := by decide

theorem statements_short : ShortSupersession [byAlice, byBob] := by
  refine shortSupersession_of_none fun s hs s' _ hcorrects => ?_
  have hsup := hcorrects.2.2
  simp only [List.mem_cons, List.not_mem_nil, or_false] at hs
  rcases hs with rfl | rfl <;> cases hsup

theorem statements_storable : ∀ s ∈ [byAlice, byBob], s.Storable :=
  List.forall_mem_cons.mpr ⟨trivial, List.forall_mem_cons.mpr ⟨trivial, by simp⟩⟩

theorem statements_collisionFree : CollisionFree [byAlice, byBob] := by
  have hcanon : ∀ s ∈ [byAlice, byBob], s.canon = canonOf (statement alice) :=
    List.forall_mem_cons.mpr ⟨rfl, List.forall_mem_cons.mpr ⟨rfl, by simp⟩⟩
  exact fun s hs s' hs' _ => (hcanon s hs).trans (hcanon s' hs').symm

theorem statements_deterministic : Deterministic [byAlice, byBob] := by
  intro s hs s' hs' _ hauthor
  simp only [List.mem_cons, List.not_mem_nil, or_false] at hs hs'
  rcases hs with rfl | rfl <;> rcases hs' with rfl | rfl
  · rfl
  · exact absurd hauthor (by decide)
  · exact absurd hauthor (by decide)
  · rfl

end Sample

/-- Alice and Bob make one statement: the store that hears Alice first has her row, the other one
Bob's. -/
theorem first_author_stays : ¬ ∀ (db : Database) (xs : List (Signed Sample.crypto Sample.verify)),
    ShortSupersession xs → CollisionFree xs → Deterministic xs →
    ∀ ys zs : List (Signed Sample.crypto Sample.verify), ys.Perm xs → zs.Perm xs →
      (Ledger.empty.submitAllIn db ys).SameView Sample.crypto
        (Ledger.empty.submitAllIn db zs) := by
  intro h
  have hall := h ⟨fun _ => true, fun _ => true⟩ _ Sample.statements_short
    Sample.statements_collisionFree Sample.statements_deterministic
  have hfate := oneFate_of_agree Sample.statements_short Sample.statements_collisionFree hall
  have henvelope : OneEnvelope [Sample.byAlice, Sample.byBob] :=
    envelope_of_agree Sample.statements_short Sample.statements_storable
      fun ys zs hy hz => held_agree hfate hall hy hz
  have hauthors := henvelope Sample.byAlice (by simp) Sample.byBob (by simp) rfl
  exact absurd hauthors.1 (by decide)

/-- A moment and an edge have no texts, and agree on a database that takes none. -/
theorem stores_agree_iff_textless : OneFate ⟨fun _ => false, fun _ => false⟩
      [Sample.byAlice, Sample.signedEdge] ∧
    ∀ ys zs : List (Signed Sample.crypto Sample.verify),
      ys.Perm [Sample.byAlice, Sample.signedEdge] → zs.Perm [Sample.byAlice, Sample.signedEdge] →
      (Ledger.empty.submitAllIn ⟨fun _ => false, fun _ => false⟩ ys).SameView Sample.crypto
        (Ledger.empty.submitAllIn ⟨fun _ => false, fun _ => false⟩ zs) := by
  have hne : Sample.byAlice.id ≠ Sample.signedEdge.id := by decide
  have hsame : ∀ s ∈ [Sample.byAlice, Sample.signedEdge],
      ∀ s' ∈ [Sample.byAlice, Sample.signedEdge], s.id = s'.id → s = s' := by
    intro s hs s' hs' hid
    simp only [List.mem_cons, List.not_mem_nil, or_false] at hs hs'
    rcases hs with rfl | rfl <;> rcases hs' with rfl | rfl
    · rfl
    · exact absurd hid hne
    · exact absurd hid.symm hne
    · rfl
  have hholds : ∀ s ∈ [Sample.byAlice, Sample.signedEdge],
      Database.holds ⟨fun _ => false, fun _ => false⟩ s = true :=
    List.forall_mem_cons.mpr ⟨rfl, List.forall_mem_cons.mpr ⟨by decide, by simp⟩⟩
  have hfate : OneFate ⟨fun _ => false, fun _ => false⟩ [Sample.byAlice, Sample.signedEdge] := by
    intro s hs _ _ hnot
    rw [hholds s hs] at hnot
    cases hnot
  have hroots : ∀ s ∈ [Sample.byAlice, Sample.signedEdge], s.content.supersedes = none :=
    List.forall_mem_cons.mpr ⟨rfl, List.forall_mem_cons.mpr ⟨rfl, by simp⟩⟩
  refine ⟨hfate, (stores_agree_iff _ _ ?_ ?_ ?_).mpr ⟨hfate, ?_⟩⟩
  · refine shortSupersession_of_none fun s hs s' _ hcorrects => ?_
    have hsup := hcorrects.2.2
    rw [hroots s hs] at hsup
    cases hsup
  · exact fun s hs s' hs' hid => hsame s hs s' hs' hid ▸ rfl
  · exact fun s hs s' hs' hid _ => hsame s hs s' hs' hid ▸ rfl
  · rw [List.filter_eq_self.mpr hholds]
    refine ⟨fun s hs s' hs' hid => hsame s hs s' hs' hid ▸ ⟨rfl, rfl⟩, fun s hs s' _ _ _ hsup => ?_⟩
    rw [hroots s hs] at hsup
    cases hsup

end Clockchain.V0
