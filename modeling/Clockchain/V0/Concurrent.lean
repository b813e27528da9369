import Clockchain.V0.Refusals
import Clockchain.V0.Statements

/-!
# Concurrent commits

Commits as transactions beside each other at READ COMMITTED. The trigger of `events` writes the one
row of `event_digest` before the projector reads anything, so a commit that has come that far is
alone until it ends. A commit with a text the database refuses is one that rolls back.
-/

namespace Clockchain.V0
open Codec Transactions Interleavings Lineages
open V1 (Hash BTreeMap Crypto Verify)
set_option autoImplicit false

/-! ## What the projector leaves alone -/

/-- The row of an event is there. -/
def Rows.stores (key : RowKey) (rows : Rows) : Bool :=
  match key with
  | .event id => rows.ledger.events.contains id
  | _ => false

/-- A program that writes no row of `events`. -/
def Program.Projects (k : Program) : Prop :=
  k.Writes fun f => ∀ key rows, Rows.stores key (f rows) = Rows.stores key rows

theorem stores_onTables (f : Tables → Tables) (key : RowKey) (rows : Rows) :
    Rows.stores key (rows.onTables f) = Rows.stores key rows := by
  cases key <;> rfl

namespace Program
variable {k : Program}

theorem projects_done (a : Appended) : Projects (.done a) := trivial

theorem projects_fail (e : LedgerError) : Projects (.fail e) := trivial

theorem projects_read {next : Rows → Program} (hnext : ∀ rows, (next rows).Projects) :
    Projects (.read next) := hnext

theorem projects_write {key : RowKey} {w : Rows → Option (Rows → Rows)} {next : Rows → Program}
    (hw : ∀ rows, ∀ f ∈ w rows, ∃ g, f = Rows.onTables g) (hnext : ∀ rows, (next rows).Projects) :
    Projects (.write key w next) := by
  refine fun rows => ⟨fun f hf => ?_, hnext rows⟩
  obtain ⟨g, rfl⟩ := hw rows f hf
  exact stores_onTables g

/-- A guarded write of one row. -/
theorem projects_insert {key : RowKey} {there : Rows → Bool} {g : Tables → Tables}
    {next : Rows → Program} (hnext : ∀ rows, (next rows).Projects) :
    Projects (.write key (fun rows => if there rows then none else some (Rows.onTables g))
      next) := by
  refine projects_write (fun rows f hf => ?_) hnext
  split at hf
  · cases hf
  · exact ⟨g, (Option.some.inj hf).symm⟩

theorem projects_update {key : RowKey} {there : Rows → Bool} {g : Tables → Tables}
    {next : Rows → Program} (hnext : ∀ rows, (next rows).Projects) :
    Projects (.write key (fun rows => if there rows then some (Rows.onTables g) else none)
      next) := by
  refine projects_write (fun rows f hf => ?_) hnext
  split at hf
  · exact ⟨g, (Option.some.inj hf).symm⟩
  · cases hf

theorem projects_guard {c : Prop} [Decidable c] {next : Program} (hk : k.Projects)
    (hnext : next.Projects) : Projects (if c then k else next) := by
  split
  · exact hk
  · exact hnext

variable (hk : k.Projects)
include hk

theorem projects_updateStats (f : LedgerStats → LedgerStats) : (updateStats f k).Projects := by
  refine projects_write (fun rows g hg => ?_) fun _ => hk
  obtain ⟨s, -, rfl⟩ := Option.map_eq_some_iff.mp hg
  exact ⟨_, rfl⟩

theorem projects_updateEdge (id : Hash) (f : EdgeRow → EdgeRow) : (updateEdge id f k).Projects := by
  refine projects_write (fun rows g hg => ?_) fun _ => hk
  obtain ⟨row, -, rfl⟩ := Option.map_eq_some_iff.mp hg
  exact ⟨_, rfl⟩

theorem projects_refreshEdge (id : Hash) : (refreshEdge id k).Projects := by
  refine projects_read fun rows => ?_
  split
  · exact hk
  · refine projects_read fun _ => projects_read fun rows => ?_
    split
    · refine projects_guard ?_ (projects_guard ?_ hk)
      · exact projects_updateEdge (projects_updateStats hk _) _ _
      · exact projects_updateEdge (projects_updateStats hk _) _ _
    · exact hk

theorem projects_refreshIncidentEdges (id : EntityId) : (refreshIncidentEdges id k).Projects := by
  refine projects_read fun rows => ?_
  induction (rows.ledger.tables.edges.toList.filter fun row =>
    row.2.srcEntity = id ∨ row.2.dstEntity = id).map Prod.fst with
  | nil => exact hk
  | cons id ids ih => exact projects_refreshEdge ih id

theorem projects_projectEntity (c : EventContent) (id : Hash) (e : EntityBirth) :
    (projectEntity c id e k).Projects := by
  have hrefresh := projects_refreshIncidentEdges hk e.entityId
  refine projects_read fun rows => ?_
  split
  · refine projects_insert fun rows => projects_guard (projects_fail _) ?_
    exact projects_updateStats hrefresh _
  · refine projects_guard hk (projects_guard ?_ hk)
    exact projects_update fun _ => hrefresh

theorem projects_projectVocabulary (c : EventContent) (id : Hash) (v : VocabularyEntry) :
    (projectVocabulary c id v k).Projects := by
  refine projects_guard (projects_fail _) (projects_read fun rows => ?_)
  split
  · exact projects_insert fun rows => projects_guard (projects_fail _) hk
  · exact projects_guard hk (projects_guard (projects_update fun _ => hk) hk)

omit hk in
theorem projects_chainRoot {fuel : Nat} {cur : Hash} {parent : Option Hash}
    {next : Option Hash → Program} (hnext : ∀ root, (next root).Projects) :
    (chainRoot fuel cur parent next).Projects := by
  induction fuel generalizing cur parent with
  | zero => exact trivial
  | succ fuel ih =>
    cases parent with
    | none => exact hnext _
    | some p =>
      refine projects_read fun rows => ?_
      split
      · exact hnext _
      · exact projects_guard (hnext _) ih

omit hk in
theorem projects_chainHead {fuel : Nat} {cur : Hash} {next : Hash → Program}
    (hnext : ∀ head, (next head).Projects) : (chainHead fuel cur next).Projects := by
  induction fuel generalizing cur with
  | zero => exact trivial
  | succ fuel ih =>
    refine projects_read fun rows => ?_
    split
    · exact hnext _
    · exact ih

omit hk in
theorem projects_momentColumns (cr : Crypto) (want haveId : Hash) (held : EventContent)
    {next : MomentRow → Program} (hnext : ∀ row, (next row).Projects) :
    (momentColumns cr want haveId held next).Projects := by
  refine projects_guard ?_ (projects_read fun rows => ?_)
  · cases V0.momentColumns cr ∅ want haveId held with
    | error e => exact trivial
    | ok row => exact hnext row
  · cases V0.momentColumns cr rows.ledger.events want haveId held with
    | error e => exact trivial
    | ok row => exact hnext row

theorem projects_projectMoment (cr : Crypto) (c : EventContent) (id : Hash) :
    (projectMoment cr c id k).Projects := by
  refine projects_chainRoot fun root => ?_
  cases root with
  | none => exact hk
  | some root =>
    refine projects_chainHead fun head => projects_momentColumns _ _ _ _ fun row => ?_
    refine projects_read fun rows => projects_write (fun _ f hf => ?_) fun _ => ?_
    · exact ⟨_, (Option.some.inj hf).symm⟩
    · exact projects_guard hk (projects_updateStats hk _)

theorem projects_projectEdge (c : EventContent) (id : Hash) (ed : EdgeBody) :
    (projectEdge c id ed k).Projects := by
  refine projects_guard (projects_fail _) (projects_insert fun rows => projects_guard hk ?_)
  exact projects_updateStats (projects_refreshEdge hk id) _

theorem projects_projectAttestation (c : EventContent) (id : Hash) (a : AttestationBody) :
    (projectAttestation c id a k).Projects :=
  projects_insert fun _ => projects_guard hk (projects_updateStats hk _)

theorem projects_apply (cr : Crypto) (c : EventContent) (id : Hash) :
    (apply cr c id k).Projects := by
  refine projects_insert fun _ => ?_
  cases c.body with
  | entityCreate e => exact projects_projectEntity hk c id e
  | moment m => exact projects_projectMoment hk cr c id
  | edge ed => exact projects_projectEdge hk c id ed
  | attestation a => exact projects_projectAttestation hk c id a
  | vocabularyDeclare v => exact projects_projectVocabulary hk c id v

end Program

/-! ## Commits -/

/-- `commit_in_tx`: the event's row, unless it is there, the digest by the trigger, and then the
projection. -/
def commits (cr : Crypto) (verify : Verify) :
    Family RowKey Rows LedgerError Appended (Signed cr verify) where
  own s := .event s.id
  lock := .digest
  has := Rows.stores
  insert s := Rows.setEvent s.id s.row
  touch s rows := Rows.setDigest (rows.digest.fold cr s.id)
  there := .unioned
  body s := Program.apply cr s.content s.id (.done .new)
  has_insert s key rows := by
    cases key with
    | event id =>
      simp only [Rows.stores, Rows.setEvent, Maps.contains_iff, Maps.mem_map_insert,
        RowKey.event.injEq]
    | _ => simp only [Rows.stores, Bool.false_eq_true, reduceCtorEq, or_self]
  has_touch s seen key rows := by cases key <;> rfl
  has_body s := Program.projects_apply (Program.projects_done _) cr s.content s.id

section Runs
variable {cr : Crypto} {verify : Verify} {rows start : Rows} {s : Signed cr verify}
  {xs log : List (Signed cr verify)}

/-- The transaction alone is `commit`. -/
theorem commits_exec : ((commits cr verify).txn s).exec rows = rows.commit s := by
  unfold Rows.commit Ledger.commit Ledger.append
  cases hmem : rows.ledger.events.contains s.id with
  | true => exact Family.exec_there (F := commits cr verify) hmem
  | false =>
    rw [Family.exec_new (F := commits cr verify) hmem]
    refine (Program.exec_apply cr s.content s.id).trans ?_
    simp only [Bool.false_eq_true, if_false]
    cases happly : rows.ledger.tables.apply cr (rows.ledger.events.insert s.id s.row) s.content
      s.id with
    | error e => simp only [commits, Rows.setDigest, Rows.setEvent, happly, bind, Except.bind]
    | ok t => simp only [commits, Rows.setDigest, Rows.setEvent, happly, bind, Except.bind]; rfl

/-! ## One after another -/

namespace Rows

/-- The rows after a call of `commit`, whatever it returned. -/
def submit (rows : Rows) (s : Signed cr verify) : Rows :=
  match rows.commit s with
  | .ok (_, committed) => committed
  | .error _ => rows

def submitAll (rows : Rows) (xs : List (Signed cr verify)) : Rows := xs.foldl submit rows

/-- A commit that does not store its event changes nothing. -/
theorem submit_cases (rows : Rows) (s : Signed cr verify) :
    rows.submit s = rows ∧ rows.ledger.submit s = rows.ledger ∨
    s.id ∉ rows.ledger.events ∧
      (rows.ledger.submit s).events = rows.ledger.events.insert s.id s.row ∧
      rows.submit s = ⟨rows.ledger.submit s, rows.digest.fold cr s.id⟩ := by
  unfold submit commit Ledger.submit
  by_cases hmem : s.id ∈ rows.ledger.events
  · rw [commit_unioned hmem]
    exact Or.inl ⟨rfl, rfl⟩
  · cases hok : rows.ledger.commit s with
    | error e => exact Or.inl ⟨rfl, rfl⟩
    | ok result =>
      obtain ⟨outcome, committed⟩ := result
      obtain rfl := commit_new hmem hok
      rcases commit_ok hok with ⟨hthere, _⟩ | ⟨_, hevents, _⟩
      · exact absurd hthere hmem
      · exact Or.inr ⟨hmem, hevents, rfl⟩

theorem submit_ledger : (rows.submit s).ledger = rows.ledger.submit s := by
  rcases rows.submit_cases s with ⟨heq, hledger⟩ | ⟨_, _, heq⟩
  · rw [heq, hledger]
  · rw [heq]

theorem submitAll_ledger : (rows.submitAll xs).ledger = rows.ledger.submitAll xs := by
  induction xs generalizing rows with
  | nil => rfl
  | cons s xs ih => exact ih.trans (congrArg (Ledger.submitAll · xs) submit_ledger)

theorem submitAll_append {ys : List (Signed cr verify)} :
    rows.submitAll (xs ++ ys) = (rows.submitAll xs).submitAll ys := List.foldl_append

theorem submit_keeps {id : Hash} (h : id ∈ rows.ledger.events) :
    id ∈ (rows.submit s).ledger.events := by
  rcases rows.submit_cases s with ⟨heq, _⟩ | ⟨_, hevents, heq⟩
  · rwa [heq]
  · rw [heq, hevents, Maps.mem_map_insert]
    exact Or.inr h

theorem commit_stores {outcome : Appended} {committed : Rows}
    (hok : rows.commit s = .ok (outcome, committed)) : s.id ∈ committed.ledger.events := by
  have hledger : rows.ledger.commit s = .ok (outcome, committed.ledger) := by
    unfold commit at hok
    split at hok
    · cases hok
    · next heq =>
      cases hok
      exact heq
    · next heq =>
      cases hok
      exact heq
  rcases commit_ok hledger with ⟨hmem, heq⟩ | ⟨_, hevents, _⟩
  · rwa [heq]
  · rw [hevents, Maps.mem_map_insert]
    exact Or.inl rfl

/-- The count and the XOR of the elements of the stored events. -/
def Digested (cr : Crypto) (rows : Rows) : Prop :=
  rows.digest = ⟨rows.ledger.events.size,
    (rows.ledger.events.keys.map (digestElem cr)).foldr (· ^^^ ·) 0⟩

theorem digested_empty : empty.Digested cr := rfl

theorem Digested.submit (h : rows.Digested cr) : (rows.submit s).Digested cr := by
  rcases rows.submit_cases s with ⟨heq, _⟩ | ⟨hnew, hevents, heq⟩
  · rw [heq]
    exact h
  · have hkeys := (Maps.keys_insert (v := s.row) hnew).map (digestElem cr)
    have hcomm : LeftCommutative (α := Hash) (· ^^^ ·) :=
      ⟨fun a b c => by rw [← BitVec.xor_assoc, BitVec.xor_comm a b, BitVec.xor_assoc]⟩
    have hsize : (rows.ledger.events.insert s.id s.row).size = rows.ledger.events.size + 1 := by
      rw [Std.ExtTreeMap.size_insert, if_neg (by rwa [Maps.contains_iff])]
    rw [Digested, heq, hevents, hsize, hkeys.foldr_eq, List.map_cons, List.foldr_cons,
      BitVec.xor_comm]
    exact congrArg (EventDigest.fold cr · s.id) h

theorem Digested.submitAll (h : rows.Digested cr) : (rows.submitAll xs).Digested cr := by
  induction xs generalizing rows with
  | nil => exact h
  | cons s xs ih => exact ih h.submit

end Rows

/-- What is committed is what the committed events leave one after another, and has them all. -/
theorem serial_commits (h : Serial (commits cr verify).txn start log rows) :
    rows = start.submitAll log ∧ ∀ s ∈ log, s.id ∈ rows.ledger.events := by
  induction h with
  | start => exact ⟨rfl, List.forall_mem_nil _⟩
  | @commit log rows committed s outcome _ hok ih =>
    obtain ⟨hrows, hstored⟩ := ih
    rw [commits_exec] at hok
    have hsubmit : committed = rows.submit s := by rw [Rows.submit, hok]
    refine ⟨?_, fun s' hs' => ?_⟩
    · rw [Rows.submitAll_append, ← hrows]
      exact hsubmit
    · rcases List.mem_append.mp hs' with hs' | hs'
      · rw [hsubmit]
        exact Rows.submit_keeps (hstored s' hs')
      · obtain rfl := List.mem_singleton.mp hs'
        exact Rows.commit_stores hok

/-! ## Held moments -/

/-- The chain of a moment is complete, and the tables have its row. -/
def Ledger.Shown (cr : Crypto) (verify : Verify) (ledger : Ledger) (id : Hash) : Prop :=
  ∃ root row, Rooted (up ledger.events) id root ∧ ledger.tables.moments[root]? = some row ∧
    Shows cr verify ledger.events root row

/-- No stored moment is held whose parent is stored and not itself a moment that is held. -/
def Ledger.Released (cr : Crypto) (verify : Verify) (ledger : Ledger) : Prop :=
  ∀ s : Signed cr verify, Stored ledger.events s → s.kind = .moment →
    (∀ p, s.content.supersedes = some p → ∃ row, ledger.events[p]? = some row ∧
      (row.kind = .moment → ledger.Shown cr verify p)) → ledger.Shown cr verify s.id

theorem Ledger.InChains.released {ledger : Ledger} (h : ledger.InChains cr verify)
    (hg : Gated cr verify ledger.events) : ledger.Released cr verify := by
  intro s hs hkind hparent
  have hrow : ledger.events[s.id]? = some s.row := hs
  have hmoment : s.row.kind = .moment := hkind
  obtain ⟨root, hroot⟩ : ∃ root, Rooted (up ledger.events) s.id root := by
    cases hsup : s.content.supersedes with
    | none =>
      have hsup' : s.row.supersedes = none := hsup
      exact ⟨s.id, .top (by simp [up, hrow, hmoment, hsup'])⟩
    | some p =>
      have hsup' : s.row.supersedes = some p := hsup
      obtain ⟨parent, hp, hshown⟩ := hparent p hsup
      by_cases hpkind : parent.kind = .moment
      · obtain ⟨root, _, hroot, _⟩ := hshown hpkind
        exact ⟨root, .above (by simp [up, hrow, hmoment, hsup', hp, hpkind]) hroot⟩
      · exact ⟨s.id, .top (by simp [up, hrow, hmoment, hsup', hp, hpkind])⟩
  have hfinite : {x | up ledger.events x ≠ .held}.Finite := by
    refine ledger.events.keys.finite_toSet.subset fun x hx => ?_
    obtain ⟨row, hrow, _⟩ := up_of_not_held hx
    exact Std.ExtTreeMap.mem_keys.mpr (Maps.mem_of_getElem? hrow)
  obtain ⟨head, hhead⟩ :=
    exists_headed (fun hx hnext => nextLink_up hx hnext) hfinite hroot.top_of
  obtain ⟨_, _, _, _, _, hshows⟩ := hg.shows hroot.top_of hhead
  exact ⟨root, _, hroot, (h root _).mpr ⟨⟨s, hs, hkind, hroot⟩, hshows⟩, hshows⟩

/-! ## Beside each other -/

/-- Commits beside each other, on a store that commits one after another have left. -/
def concurrently (xs : List (Signed cr verify)) (moves : List (Move (Signed cr verify))) :
    Server RowKey Rows (Signed cr verify) :=
  ((machine (commits cr verify).txn).run (idle (Rows.empty.submitAll xs)) moves).store

/-- The rows are those of the committed events one after another, and no update is lost. -/
structure InOrder (start : Rows) (db : Server RowKey Rows (Signed cr verify)) : Prop where
  rows : db.committed = start.submitAll db.log
  stored : ∀ s ∈ db.log, s.id ∈ db.committed.ledger.events
  digest : db.committed.Digested cr
  edges : db.committed.ledger.tables.Settled

/-- Concurrent commits lose no update. -/
theorem concurrent_commits (xs : List (Signed cr verify))
    (moves : List (Move (Signed cr verify))) :
    InOrder (Rows.empty.submitAll xs) (concurrently xs moves) ∧
      ((∀ before s, before ++ [s] <+: xs ++ (concurrently xs moves).log →
          ¬ (Ledger.empty.submitAll before).Late s) →
        (concurrently xs moves).committed.ledger.Released cr verify) := by
  obtain ⟨hrows, hstored⟩ :=
    serial_commits ((commits cr verify).serial (Rows.empty.submitAll xs) moves)
  have hall : (concurrently xs moves).committed =
      Rows.empty.submitAll (xs ++ (concurrently xs moves).log) :=
    hrows.trans Rows.submitAll_append.symm
  have hledger : (concurrently xs moves).committed.ledger =
      Ledger.empty.submitAll (xs ++ (concurrently xs moves).log) := by
    rw [hall]
    exact Rows.submitAll_ledger
  have hsound : (concurrently xs moves).committed.ledger.Sound cr verify := by
    rw [hledger]
    exact run_sound
  refine ⟨⟨hrows, hstored, ?_, hsound.folded.settled⟩, fun hlate => ?_⟩
  · rw [hall]
    exact Rows.digested_empty.submitAll
  · have hchains := run_chains hlate
    rw [← hledger] at hchains
    exact hchains.released hsound.gated

end Runs

/-! ## A correction and what it corrects -/

namespace Sample

instance : DecidableEq (Signed crypto verify) := fun s s' =>
  decidable_of_iff (s.row = s'.row) ⟨Signed.row_injective, congrArg Signed.row⟩

/-- Both events are inserted, then one commit gets the digest and the other waits for it. -/
def overlapped (first second : Nat) : List (Move (Signed crypto verify)) :=
  [.call signedCorrection, .call signedEdge, .step 0, .step 1, .step first, .step second] ++
    List.replicate 12 (.step first) ++ List.replicate 12 (.step second)

theorem log_edge : (concurrently [] (overlapped 1 0)).log = [signedEdge, signedCorrection] := by
  decide +kernel

theorem log_correction :
    (concurrently [] (overlapped 0 1)).log = [signedCorrection, signedEdge] := by
  decide +kernel

theorem early : ∀ before s, before ++ [s] <+: [signedEdge, signedCorrection] →
    ¬ (Ledger.empty.submitAll before).Late s := by
  intro before s hbegins hlate
  rcases before with _ | ⟨s', before⟩
  · obtain ⟨_, _, _, id, row, hrow, _⟩ := hlate
    simp [Ledger.submitAll, Ledger.empty] at hrow
  · obtain ⟨rfl, hrest⟩ := List.cons_prefix_cons.mp hbegins
    have hs := hrest.subset (List.mem_append_right before (List.mem_singleton_self s))
    obtain rfl := List.mem_singleton.mp hs
    exact hlate.2.2.1 rfl

end Sample

/-- The correction commits first: it stays held although the edge it names is stored. -/
theorem correction_stays_held : ¬ ∀ (xs : List (Signed Sample.crypto Sample.verify))
    (moves : List (Move (Signed Sample.crypto Sample.verify))),
    InOrder (Rows.empty.submitAll xs) (concurrently xs moves) ∧
      (concurrently xs moves).committed.ledger.Released Sample.crypto Sample.verify := by
  intro h
  obtain ⟨_, hreleased⟩ := h [] (Sample.overlapped 0 1)
  have hmoments : (concurrently [] (Sample.overlapped 0 1)).committed.ledger.tables.moments.isEmpty
      = true := by decide +kernel
  have hstored : (concurrently [] (Sample.overlapped 0 1)).committed.ledger.events[
      Sample.signedCorrection.id]? = some Sample.signedCorrection.row := by decide +kernel
  have hparent : (concurrently [] (Sample.overlapped 0 1)).committed.ledger.events[
      Sample.edgeId]? = some Sample.signedEdge.row := by decide +kernel
  obtain ⟨root, row, _, hrow, _⟩ := hreleased Sample.signedCorrection hstored rfl fun p hp => by
    obtain rfl := Option.some.inj hp
    exact ⟨_, hparent, fun hmoment => absurd hmoment (by decide)⟩
  rw [Std.ExtTreeMap.isEmpty_iff.mp hmoments] at hrow
  simp at hrow

/-- The edge commits first, while the correction waits. -/
theorem concurrent_commits_edge :
    (concurrently [] (Sample.overlapped 1 0)).log =
        [Sample.signedEdge, Sample.signedCorrection] ∧
      InOrder Rows.empty (concurrently [] (Sample.overlapped 1 0)) ∧
      (concurrently [] (Sample.overlapped 1 0)).committed.ledger.Released
        Sample.crypto Sample.verify := by
  obtain ⟨horder, hreleased⟩ := concurrent_commits [] (Sample.overlapped 1 0)
  refine ⟨Sample.log_edge, horder, hreleased ?_⟩
  rw [Sample.log_edge]
  exact Sample.early

end Clockchain.V0
