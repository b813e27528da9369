import Clockchain.Anchor.Stream
import Clockchain.Interleavings
import Clockchain.V0.Agreement

/-!
# Calls of `publish_root`

`publish_root` and `record_root_moment` of `cc-anchor/src/store.rs`: the seal, the commit of its
moment and the update of its row are transactions of their own, so calls interleave with each
other and with whatever else writes to the ledger, and a call may stop between them.
-/

namespace Clockchain.Anchor.Publishing
open Codec V0 Interleavings
open V1 (Hash Crypto Verify)
set_option autoImplicit false

def rootBodyHash (cr : Crypto) (p : RootPublication) : Hash :=
  cr.sha256 <| framed "cc.anchor.root.v0".toUTF8.data.toList ++ beBytes 8 p.height ++
    beBytes 8 p.treeSize ++ beBytes 32 p.root.bytes.toNat ++
    match p.prevRoot with
    | none => [0]
    | some prev => 1 :: beBytes 32 prev.bytes.toNat

/-- The node-0 moment of a publication. -/
def rootMoment (cr : Crypto) (author : Hash) (p : RootPublication) (now : Tick) : EventContent where
  eventTime := now
  recordTime := now
  author := author
  supersedes := none
  body := .moment ⟨nodeZero, rootBodyHash cr p⟩

/-- The tables, and the number of the task that has sealed each root. -/
structure Sealed where
  store : Store
  sealers : List Nat

inductive Call (cr : Crypto) (verify : Verify) where
  | commit (s : Signed cr verify)
  | rebuild (settled : Settlement)
  | publishRoot (key : SecretKey cr verify) (now : Tick)

/-- Where a call stands. -/
inductive Task (cr : Crypto) (verify : Verify) where
  | begun (call : Call cr verify)
  | recording (key : SecretKey cr verify) (now : Tick) (p : RootPublication)
  | pointing (p : RootPublication) (moment : Hash)
  | returned (outcome : RootOutcome)
  | failed (e : AnchorError) (behind : Option RootPublication)
  | stopped (behind : Option RootPublication)
  | finished

section
variable {cr : Crypto} {verify : Verify}

namespace Task

/-- The root that the call has sealed. -/
def root : Task cr verify → Option RootPublication
  | .recording _ _ p | .pointing p _ | .returned (.published p) => some p
  | .failed _ behind | .stopped behind => behind
  | _ => none

/-- One transaction of the task with number `i`. -/
def step (i : Nat) (s : Sealed) : Task cr verify → Sealed × Task cr verify
  | .begun (.commit signed) =>
    ({ s with store := { s.store with ledger := s.store.ledger.submit signed } }, .finished)
  | .begun (.rebuild settled) =>
    ({ s with store := { s.store with ledger := (s.store.ledger.rebuild cr verify settled).1 } },
      .finished)
  | .begun (.publishRoot key now) =>
    match s.store.sealEpoch cr.sha256 with
    | .error e => (s, .failed e none)
    | .ok (.unchanged root height, store) =>
      ({ s with store }, .returned (.unchanged root height))
    | .ok (.published p, store) => (⟨store, s.sealers ++ [i]⟩, .recording key now p)
  | .recording key now p =>
    match Signed.sign key (rootMoment cr key.author p now) with
    | .error _ => (s, .stopped (some p))
    | .ok signed =>
      match s.store.ledger.commit signed with
      | .error e => (s, .failed (.ledger e) (some p))
      | .ok (_, ledger) => ({ s with store := { s.store with ledger } }, .pointing p signed.id)
  | .pointing p moment =>
    ({ s with store := s.store.setMoment moment p.root },
      .returned (.published { p with moment := some moment }))
  | t => (s, t)

/-- What is left when the process ends or the database does. -/
def stop : Task cr verify → Task cr verify
  | .begun _ => .stopped none
  | .recording _ _ p | .pointing p _ => .stopped (some p)
  | t => t

end Task

def publishing (cr : Crypto) (verify : Verify) :
    Machine (Call cr verify) Sealed (Task cr verify) where
  enter := .begun
  step i _ := Task.step i
  stop _ s t := (s, t.stop)

/-! ## One seal -/

variable {st st' : Store}

theorem insertRoot_row {prev : Option RootPublication} {height : Nat} {p : RootPublication}
    (h : st.insertRoot cr.sha256 prev height = .ok (p, st')) :
    ∃ row, st'.ledger = st.ledger ∧ st'.roots = st.roots ++ [row] ∧ Shows p row ∧
      p.moment = none := by
  simp only [Store.insertRoot, bind, Except.bind] at h
  split at h
  · cases h
  split at h
  · cases h
  split at h
  · cases h
  · obtain ⟨rfl, rfl⟩ := Prod.mk.inj (Except.ok.inj h)
    refine ⟨_, rfl, rfl, ⟨rfl, rfl, rfl, ?_, rfl⟩, rfl⟩
    cases prev <;> rfl

/-- A seal adds the row of the root that it publishes, or nothing. -/
theorem sealEpoch_row {outcome : RootOutcome} (h : st.sealEpoch cr.sha256 = .ok (outcome, st')) :
    (st' = st ∧ ∀ p, outcome ≠ .published p) ∨
      ∃ p row, outcome = .published p ∧ st'.ledger = st.ledger ∧ st'.roots = st.roots ++ [row] ∧
        Shows p row ∧ p.moment = none := by
  cases hlatest : st.latestRoot with
  | error e =>
    simp only [Store.sealEpoch, hlatest, bind, Except.bind] at h
    cases h
  | ok prev =>
    refine (sealEpoch_cases hlatest h).imp_right ?_
    rintro ⟨-, -, -, p, rfl, hinsert⟩
    obtain ⟨row, hledger, hroots, hshows, hmoment⟩ := insertRoot_row hinsert
    exact ⟨p, row, rfl, hledger, hroots, hshows, hmoment⟩

/-! ## What a step changes -/

variable {s s' : Sealed} {i j : Nat} {t : Task cr verify}

/-- A step leaves the tables, writes to the ledger, seals an epoch, or points a row at its
moment. -/
inductive Changes (i : Nat) (s : Sealed) (t : Task cr verify) : Sealed → Prop where
  | none : Changes i s t s
  | ledger (act : Act cr verify) (ledger : Ledger)
      (hact : s.store.act act = { s.store with ledger })
      (grows : ∀ id ∈ s.store.ledger.events, id ∈ ledger.events) :
      Changes i s t { s with store := { s.store with ledger } }
  | sealed (p : RootPublication) (row : RootRow) (store : Store)
      (hact : s.store.act (.sealEpoch : Act cr verify) = store)
      (hledger : store.ledger = s.store.ledger) (hroots : store.roots = s.store.roots ++ [row])
      (hshows : Shows p row) (hmoment : p.moment = Option.none) :
      Changes i s t ⟨store, s.sealers ++ [i]⟩
  | pointed (p : RootPublication) (moment : Hash) (ht : t = .pointing p moment) :
      Changes i s t { s with store := s.store.setMoment moment p.root }

theorem submit_grows (ledger : Ledger) (signed : Signed cr verify) :
    ∀ id ∈ ledger.events, id ∈ (ledger.submit signed).events := by
  intro id hid
  rcases submit_cases ledger signed with heq | ⟨_, hok⟩
  · rwa [heq]
  · rcases commit_ok hok with ⟨-, heq⟩ | ⟨-, hevents, -⟩
    · rwa [heq]
    · rw [hevents, Maps.mem_map_insert]
      exact Or.inr hid

theorem rebuild_events (ledger : Ledger) (settled : Settlement) :
    (ledger.rebuild cr verify settled).1.events = ledger.events := by
  unfold Ledger.rebuild
  split
  · rfl
  · dsimp only
    split <;> rfl

theorem submit_eq {ledger ledger' : Ledger} {signed : Signed cr verify} {outcome : Appended}
    (h : ledger.commit signed = .ok (outcome, ledger')) : ledger.submit signed = ledger' := by
  rw [Ledger.submit, h]

theorem step_changes (i : Nat) (s : Sealed) (t : Task cr verify) :
    Changes i s t (t.step i s).1 := by
  match t with
  | .begun (.commit signed) => exact .ledger (.commit signed) _ rfl (submit_grows _ _)
  | .begun (.rebuild settled) =>
    refine .ledger (.rebuild settled) _ rfl fun id hid => ?_
    rwa [rebuild_events]
  | .begun (.publishRoot key now) =>
    rw [Task.step]
    split
    · exact .none
    · next hseal =>
      rcases sealEpoch_row hseal with ⟨rfl, -⟩ | ⟨_, _, hp, -⟩
      · exact .none
      · cases hp
    · next hseal =>
      rcases sealEpoch_row hseal with ⟨-, hnone⟩ | ⟨_, row, hp, hledger, hroots, hshows, hmoment⟩
      · exact absurd rfl (hnone _)
      · obtain rfl := RootOutcome.published.inj hp
        refine .sealed _ row _ ?_ hledger hroots hshows hmoment
        rw [Store.act, hseal]
  | .recording key now p =>
    rw [Task.step]
    split
    · exact .none
    · next signed _ =>
      split
      · exact .none
      · next hcommit =>
        obtain rfl := submit_eq hcommit
        exact .ledger (.commit signed) _ rfl (submit_grows _ _)
  | .pointing p moment => exact .pointed p moment rfl
  | .returned _ | .failed _ _ | .stopped _ | .finished => exact .none

/-! ## The invariant -/

/-- An event of the ledger, at node 0 and about the time it is made, that commits to a root. -/
def Commits (cr : Crypto) (verify : Verify) (events : Events) (p : RootPublication)
    (moment : Hash) : Prop :=
  ∃ signed : Signed cr verify, signed.id = moment ∧ moment ∈ events ∧
    signed.content = rootMoment cr signed.content.author p signed.content.recordTime

/-- The task has sealed the root of a row. -/
def Owns (s : Sealed) (i : Nat) (p : RootPublication) : Prop :=
  ∃ (k : Nat) (row : RootRow), s.sealers[k]? = some i ∧ s.store.roots[k]? = some row ∧ Shows p row

structure Inv (cr : Crypto) (verify : Verify) (s : Sealed) : Prop where
  run : ∃ acts : List (Act cr verify), s.store = Store.empty.run acts
  sealers : s.sealers.length = s.store.roots.length
  recorded : ∀ row ∈ s.store.roots, ∀ moment, row.momentId = some moment →
    ∃ p, Shows p row ∧ Commits cr verify s.store.ledger.events p moment

/-- What a task relies on. -/
structure Holds (cr : Crypto) (verify : Verify) (i : Nat) (s : Sealed) (t : Task cr verify) :
    Prop where
  owns : ∀ p, t.root = some p → Owns s i p
  returned : ∀ p, t.root = some p → (p.moment ≠ none ↔ ∃ outcome, t = .returned outcome)
  committed : ∀ p moment, t = .pointing p moment →
    Commits cr verify s.store.ledger.events p moment

theorem Commits.mono {events events' : Events} {p : RootPublication} {moment : Hash}
    (h : Commits cr verify events p moment) (grows : ∀ id ∈ events, id ∈ events') :
    Commits cr verify events' p moment := by
  obtain ⟨signed, hid, hmem, hcontent⟩ := h
  exact ⟨signed, hid, grows _ hmem, hcontent⟩

theorem Inv.sound (inv : Inv cr verify s) : Sound cr.sha256 s.store := by
  obtain ⟨acts, hrun⟩ := inv.run
  rw [hrun]
  exact Sound.empty.run acts

theorem run_act (h : ∃ acts : List (Act cr verify), st = Store.empty.run acts)
    (act : Act cr verify) : ∃ acts : List (Act cr verify), st.act act = Store.empty.run acts := by
  obtain ⟨acts, rfl⟩ := h
  exact ⟨acts ++ [act], (List.foldl_concat ..).symm⟩

/-- Two rows of one root are one row. -/
theorem Inv.row_unique (inv : Inv cr verify s) {k l : Nat} {row row' : RootRow}
    (hrow : s.store.roots[k]? = some row) (hrow' : s.store.roots[l]? = some row')
    (heq : row.rootId = row'.rootId) : k = l := by
  have hk : k < (s.store.roots.map RootRow.rootId).length := by
    rw [List.length_map]
    exact (List.getElem?_eq_some_iff.mp hrow).1
  refine (List.getElem?_inj hk inv.sound.ids).mp ?_
  rw [List.getElem?_map, List.getElem?_map, hrow, hrow', Option.map_some, Option.map_some, heq]

/-- Two tasks have sealed different roots. -/
theorem Owns.root_ne (inv : Inv cr verify s) {p q : RootPublication} (h : Owns s i p)
    (h' : Owns s j q) (hij : i ≠ j) : p.root ≠ q.root := by
  obtain ⟨k, row, hi, hrow, hshows⟩ := h
  obtain ⟨l, row', hj, hrow', hshows'⟩ := h'
  intro heq
  rw [hshows.root, hshows'.root] at heq
  obtain rfl := inv.row_unique hrow hrow' (MerkleRoot.mk.inj heq)
  exact hij (Option.some.inj (hi.symm.trans hj))

/-- A row that is pointed at its moment shows the publication with that moment. -/
theorem shows_point {p : RootPublication} {row : RootRow} (h : Shows p row) (moment : Hash) :
    Shows { p with moment := some moment } (row.point moment p.root) := by
  have hpoint : row.point moment p.root = { row with momentId := some moment } :=
    if_pos (by rw [h.root])
  rw [hpoint]
  exact ⟨h.height, h.root, h.treeSize, h.prev, rfl⟩

theorem point_other {row : RootRow} {moment : Hash} {root : MerkleRoot}
    (h : row.rootId ≠ root.bytes) : row.point moment root = row := if_neg h

/-- The row of a root that a task has sealed shows it. -/
theorem Owns.shows (inv : Inv cr verify s) {p : RootPublication} (h : Owns s i p) {row : RootRow}
    (hrow : row ∈ s.store.roots) (hroot : row.rootId = p.root.bytes) : Shows p row := by
  obtain ⟨k, owned, -, howned, hshows⟩ := h
  obtain ⟨l, hl⟩ := List.getElem?_of_mem hrow
  rw [hshows.root] at hroot
  obtain rfl := inv.row_unique hl howned hroot
  obtain rfl := Option.some.inj (hl.symm.trans howned)
  exact hshows

namespace Changes

theorem keeps (inv : Inv cr verify s) (holds : Holds cr verify i s t) (h : Changes i s t s') :
    Inv cr verify s' := by
  cases h with
  | none => exact inv
  | ledger act ledger hact grows =>
    refine ⟨hact ▸ run_act inv.run act, inv.sealers, fun row hrow moment hmoment => ?_⟩
    obtain ⟨p, hshows, hcommits⟩ := inv.recorded row hrow moment hmoment
    exact ⟨p, hshows, hcommits.mono grows⟩
  | sealed p row store hact hledger hroots hshows hmoment =>
    refine ⟨hact ▸ run_act inv.run .sealEpoch, ?_, fun old hold moment hpointed => ?_⟩
    · rw [hroots, List.length_append, List.length_append, inv.sealers]
      rfl
    · rw [hroots, List.mem_append, List.mem_singleton] at hold
      rcases hold with hold | rfl
      · rw [hledger]
        exact inv.recorded old hold moment hpointed
      · rw [← hshows.moment, hmoment] at hpointed
        cases hpointed
  | pointed p moment ht =>
    refine ⟨run_act inv.run (.setMoment moment p.root), ?_, fun row hrow m hm => ?_⟩
    · rw [inv.sealers]
      exact (List.length_map _).symm
    · obtain ⟨old, hold, rfl⟩ := List.mem_map.mp hrow
      by_cases hroot : old.rootId = p.root.bytes
      · obtain ⟨signed, hid, hmem, hcontent⟩ := holds.committed p moment ht
        have hshows := (holds.owns p (by rw [ht]; rfl)).shows inv hold hroot
        have hpoint := shows_point hshows moment
        obtain rfl : moment = m := Option.some.inj (hpoint.moment.trans hm)
        exact ⟨_, hpoint, signed, hid, hmem, hcontent⟩
      · rw [point_other hroot] at hm ⊢
        exact inv.recorded old hold m hm

/-- What another task has sealed stays as it is. -/
theorem owns (inv : Inv cr verify s) (holds : Holds cr verify i s t) (h : Changes i s t s')
    {q : RootPublication} (hq : Owns s j q) (hji : j ≠ i) : Owns s' j q := by
  cases h with
  | none => exact hq
  | ledger => exact hq
  | sealed p row store hact hledger hroots hshows hmoment =>
    obtain ⟨k, owned, hj, howned, hshown⟩ := hq
    refine ⟨k, owned, ?_, ?_, hshown⟩
    · rw [List.getElem?_append_left (List.getElem?_eq_some_iff.mp hj).1]
      exact hj
    · change store.roots[k]? = _
      rw [hroots, List.getElem?_append_left (List.getElem?_eq_some_iff.mp howned).1]
      exact howned
  | pointed p moment ht =>
    have hroots := (holds.owns p (by rw [ht]; rfl)).root_ne inv hq hji.symm
    obtain ⟨k, owned, hj, howned, hshown⟩ := hq
    refine ⟨k, owned, hj, ?_, hshown⟩
    change (s.store.roots.map (RootRow.point moment p.root))[k]? = _
    rw [List.getElem?_map, howned, Option.map_some, point_other]
    intro heq
    rw [hshown.root] at hroots
    exact hroots (by rw [heq])

theorem events (h : Changes i s t s') :
    ∀ id ∈ s.store.ledger.events, id ∈ s'.store.ledger.events := by
  cases h with
  | ledger act ledger hact grows => exact grows
  | sealed p row store hact hledger =>
    intro id hid
    rwa [hledger]
  | none => exact fun _ hid => hid
  | pointed => exact fun _ hid => hid

/-- What another task relies on stays true. -/
theorem others (inv : Inv cr verify s) (holds : Holds cr verify i s t) (h : Changes i s t s')
    {u : Task cr verify} (hu : Holds cr verify j s u) (hji : j ≠ i) : Holds cr verify j s' u :=
  ⟨fun q hq => h.owns inv holds (hu.owns q hq) hji, hu.returned,
    fun p moment hp => (hu.committed p moment hp).mono h.events⟩

end Changes

/-! ## Every step keeps it -/

theorem Holds.of_none (hroot : t.root = none) (ht : ∀ p moment, t ≠ .pointing p moment) :
    Holds cr verify i s t := by
  have hnot : ∀ p, t.root ≠ some p := by simp [hroot]
  exact ⟨fun p hp => absurd hp (hnot p), fun p hp => absurd hp (hnot p),
    fun p moment heq => absurd heq (ht p moment)⟩

/-- A task whose root is not recorded yet. -/
theorem Holds.of_pending {p : RootPublication} (hroot : t.root = some p) (howns : Owns s i p)
    (hmoment : p.moment = none) (ht : ∀ outcome, t ≠ .returned outcome)
    (hcommitted : ∀ q moment, t = .pointing q moment →
      Commits cr verify s.store.ledger.events q moment) : Holds cr verify i s t := by
  refine ⟨fun q hq => ?_, fun q hq => ?_, hcommitted⟩
  · obtain rfl := Option.some.inj (hroot.symm.trans hq)
    exact howns
  · obtain rfl := Option.some.inj (hroot.symm.trans hq)
    exact iff_of_false (not_not.mpr hmoment) fun ⟨outcome, h⟩ => ht outcome h

/-- A task that has sealed and not returned. -/
theorem Holds.pending (holds : Holds cr verify i s t) {p : RootPublication}
    (hroot : t.root = some p) (ht : ∀ outcome, t ≠ .returned outcome) : p.moment = none := by
  by_contra hne
  obtain ⟨outcome, h⟩ := (holds.returned p hroot).mp hne
  exact ht outcome h

theorem step_holds (inv : Inv cr verify s) (holds : Holds cr verify i s t) :
    Holds cr verify i (t.step i s).1 (t.step i s).2 := by
  match t with
  | .begun (.commit _) | .begun (.rebuild _) => exact .of_none rfl nofun
  | .begun (.publishRoot key now) =>
    rw [Task.step]
    split
    · exact .of_none rfl nofun
    · exact .of_none rfl nofun
    · next p store hseal =>
      rcases sealEpoch_row hseal with ⟨-, hnone⟩ | ⟨_, row, hp, -, hroots, hshows, hmoment⟩
      · exact absurd rfl (hnone _)
      · obtain rfl := RootOutcome.published.inj hp
        refine .of_pending rfl ⟨s.store.roots.length, row, ?_, ?_, hshows⟩ hmoment nofun nofun
        · rw [← inv.sealers]
          exact List.getElem?_concat_length
        · change store.roots[_]? = _
          rw [hroots]
          exact List.getElem?_concat_length
  | .recording key now p =>
    have howns := holds.owns p rfl
    have hmoment := holds.pending rfl nofun
    rw [Task.step]
    split
    · exact .of_pending rfl howns hmoment nofun nofun
    · next signed hsign =>
      split
      · exact .of_pending rfl howns hmoment nofun nofun
      · next hcommit =>
        refine .of_pending rfl howns hmoment nofun fun q moment hq => ?_
        obtain ⟨rfl, rfl⟩ := Task.pointing.inj hq
        refine ⟨signed, rfl, ?_, ?_⟩
        · rcases commit_ok hcommit with ⟨hmem, rfl⟩ | ⟨-, hevents, -⟩
          · exact hmem
          · rw [hevents, Maps.mem_map_insert]
            exact Or.inl rfl
        · rw [sign_ok hsign]
          rfl
  | .pointing p moment =>
    refine ⟨fun q hq => ?_, fun q hq => ?_, nofun⟩
    · obtain rfl := Option.some.inj hq
      obtain ⟨k, row, hi, hrow, hshows⟩ := holds.owns p rfl
      refine ⟨k, row.point moment p.root, hi, ?_, shows_point hshows moment⟩
      change (s.store.roots.map _)[k]? = _
      rw [List.getElem?_map, hrow]
      rfl
    · obtain rfl := Option.some.inj hq
      exact iff_of_true nofun ⟨_, rfl⟩
  | .returned _ | .failed _ _ | .stopped _ | .finished => exact holds

theorem stop_holds (holds : Holds cr verify i s t) : Holds cr verify i s t.stop := by
  match t with
  | .begun _ => exact .of_none rfl nofun
  | .recording _ _ p | .pointing p _ =>
    exact .of_pending rfl (holds.owns p rfl) (holds.pending rfl nofun) nofun nofun
  | .returned _ | .failed _ _ | .stopped _ | .finished => exact holds

theorem keeps : (publishing cr verify).Keeps (fun _ s => Inv cr verify s)
    (fun i _ s t => Holds cr verify i s t) fun _ _ _ _ => True where
  enter _ _ _ _ _ := .of_none rfl fun _ _ => nofun
  later _ _ _ _ inv := ⟨inv, fun _ _ h => h⟩
  own i _ s t inv holds _ := ⟨(step_changes i s t).keeps inv holds, step_holds inv holds⟩
  others i _ _ s t _ inv holds _ hji hu := (step_changes i s t).others inv holds hu hji
  stop _ _ _ _ inv holds := ⟨inv, stop_holds holds, fun _ _ _ h => h⟩

/-- However the calls interleave and wherever they stop, the store is one that the transactions of
the stream lead to; a root that has a moment is committed to by an event of the ledger; the root of
a call stays in the stream, and it has a moment once the call has made its last transaction and no
sooner; two calls seal two roots; and the audit counts the roots that have none. -/
theorem publications_recorded (moves : List (Interleavings.Move (Call cr verify))) :
    let sys := (publishing cr verify).run ⟨⟨.empty, []⟩, 0, []⟩ moves
    let st := sys.store.store
    (∃ acts : List (Act cr verify), st = Store.empty.run acts) ∧
    (∀ row ∈ st.roots, ∀ moment, row.momentId = some moment →
      ∃ p, Shows p row ∧ Commits cr verify st.ledger.events p moment) ∧
    (∀ (i : Nat) t p, sys.tasks[i]? = some t → t.root = some p →
      (∃ row ∈ st.roots, Shows p row) ∧ (p.moment ≠ none ↔ ∃ outcome, t = .returned outcome)) ∧
    (∀ (i j : Nat) t u p q, i ≠ j → sys.tasks[i]? = some t → sys.tasks[j]? = some u →
      t.root = some p → u.root = some q → p.root ≠ q.root) ∧
    ∃ audit, Store.verifyRootChain cr.sha256 st = .ok audit ∧
      audit.unrecorded = st.roots.countP fun row => row.momentId.isNone := by
  intro sys st
  have start : Machine.Sound (fun _ s => Inv cr verify s) (fun i _ s t => Holds cr verify i s t)
      (⟨⟨.empty, []⟩, 0, []⟩ : Interleavings.System Sealed (Task cr verify)) :=
    ⟨⟨⟨[], rfl⟩, rfl, nofun⟩, nofun⟩
  have sound := start.run keeps (Machine.meets_of_forall (fun _ _ _ _ => trivial) moves)
  have inv : Inv cr verify sys.store := sound.store
  have holds : ∀ (i : Nat) t, sys.tasks[i]? = some t → Holds cr verify i sys.store t := sound.tasks
  refine ⟨inv.run, inv.recorded, fun i t p ht hp => ⟨?_, (holds i t ht).returned p hp⟩, ?_, ?_⟩
  · obtain ⟨k, row, -, hrow, hshows⟩ := (holds i t ht).owns p hp
    exact ⟨row, List.mem_of_getElem? hrow, hshows⟩
  · intro i j t u p q hij ht hu hp hq
    exact ((holds i t ht).owns p hp).root_ne inv ((holds j u hu).owns q hq) hij
  · obtain ⟨audit, haudit, -, -, -, hunrecorded⟩ := inv.sound.verifyRootChain_ok
    exact ⟨audit, haudit, hunrecorded⟩

end

end Clockchain.Anchor.Publishing
