import Clockchain.Anchor.Stamp
import Clockchain.V0.Rebuild

/-!
# Settlement recorded once

Nothing holds a root between the check of its row and the write of it. As long as a call
commits its moment over the row it has read, with no other moment committed and not yet
shown, a root has one pending and one confirmed moment, and the confirmed row stays.
-/

namespace Clockchain.Anchor
open Codec V0
open V1 (Hash BTreeMap Crypto Verify)
set_option autoImplicit false

section
variable {cr : Crypto} {verify : Verify}

/-! ## The condition -/

/-- The moment a task hands to the ledger next. -/
def Task.commits : Task cr verify → Option Entry
  | .stampCommit c p => (c.moment p).toOption.map (Task.stampEntry c)
  | .confirmCommit _ c p pending => (c.moment p pending).toOption.map (Task.confirmEntry c pending)
  | _ => none

/-- The row a task has read before it commits its moment. -/
def Task.reads : Task cr verify → Option (MerkleRoot × Option AnchorRecord)
  | .stampCommit c _ => some (c.root, none)
  | .confirmCommit _ c _ pending => some (c.root, some pending)
  | _ => none

/-- The row is still what the task has read. -/
def Task.Fresh (db : Db) (t : Task cr verify) : Prop :=
  ∀ read ∈ t.reads, db.anchorFor read.1 = read.2

instance (db : Db) (t : Task cr verify) : Decidable (t.Fresh db) :=
  inferInstanceAs (Decidable (∀ read ∈ t.reads, db.anchorFor read.1 = read.2))

/-- A step that commits a moment of `r` repeats one, or it has read the row as it is and the
row has shown every moment of that status. -/
def Clear (r : MerkleRoot) (sys : System cr verify) : Move cr verify → Prop
  | .step i _ => ∀ t ∈ sys.tasks[i]?, ∀ e ∈ t.commits, e.root = r →
      e ∈ sys.committed ∨ t.Fresh sys.db ∧
        ∀ e' ∈ sys.committed, e'.root = r → e'.status = e.status → e' ∈ sys.written
  | _ => True

instance (r : MerkleRoot) (sys : System cr verify) : ∀ m, Decidable (Clear r sys m)
  | .step i _ => inferInstanceAs (Decidable (∀ t ∈ sys.tasks[i]?, ∀ e ∈ t.commits, e.root = r →
      e ∈ sys.committed ∨ t.Fresh sys.db ∧
        ∀ e' ∈ sys.committed, e'.root = r → e'.status = e.status → e' ∈ sys.written))
  | .call _ => inferInstanceAs (Decidable True)
  | .stop _ => inferInstanceAs (Decidable True)

def ClearRun (r : MerkleRoot) : System cr verify → List (Move cr verify) → Prop
  | _, [] => True
  | sys, m :: moves => Clear r sys m ∧ ClearRun r (sys.move m) moves

instance decidableClearRun (r : MerkleRoot) : ∀ (sys : System cr verify) moves,
    Decidable (ClearRun r sys moves)
  | _, [] => inferInstanceAs (Decidable True)
  | sys, m :: moves =>
    have := decidableClearRun r (sys.move m) moves
    inferInstanceAs (Decidable (Clear r sys m ∧ ClearRun r (sys.move m) moves))

/-! ## One step -/

/-- The row of the root shows this proof and calendar. -/
def Stamped (db : Db) (root : MerkleRoot) (blob : Hash) (calendar : String) : Prop :=
  ∃ row, db.anchors[root.bytes]? = some row ∧ row.otsBlobHash = blob ∧ row.calendarUrl = calendar

/-- What a task holds on to. -/
def Task.Holds (db : Db) (committed : List Entry) : Task cr verify → Prop
  | .stampCheck c p | .stampProof c p | .stampCommit c p => p.root = c.root
  | .stampInsert c e => e ∈ committed ∧ e.root = c.root ∧ e.status = .pending ∧
      e.calendarUrl = c.calendarUrl ∧ e.blockHeight = none
  | .confirmCheck _ c p => p.root = c.root
  | .confirmCommit _ c p pending => p.root = c.root ∧ pending.status = .pending ∧
      Stamped db c.root pending.otsBlobHash pending.calendarUrl
  | .confirmUpdate _ c e => e ∈ committed ∧ e.root = c.root ∧ e.status = .confirmed ∧
      e.blockHeight = some c.blockHeight ∧ Stamped db c.root e.otsBlobHash e.calendarUrl
  | _ => True

/-- The moment of an entry: its id is that of an event with the data of the entry. -/
def Entry.Named (cr : Crypto) (verify : Verify) (e : Entry) : Prop :=
  ∃ s : Signed cr verify, s.id = e.moment ∧ ∃ author epoch txid supersedes now,
    s.content = anchorMoment cr author e.root epoch e.status e.otsBlobHash e.calendarUrl
      e.blockHeight txid supersedes now

/-- What one step does to the database. -/
inductive Effect (db : Db) (t : Task cr verify) : Db → Task cr verify → Prop where
  | idle {db' : Db} {t' : Task cr verify} : db'.store = db.store → db'.anchors = db.anchors →
      (∀ sys : System cr verify, sys.note t t' = sys) →
      (∀ committed, t.Holds db committed → t'.Holds db committed) → Effect db t db' t'
  | commit {e : Entry} {s : Signed cr verify} {outcome : Appended} {ledger : Ledger}
      {t' : Task cr verify} : t.commits = some e → t'.entry = some e → e.moment = s.id →
      db.store.ledger.commit s = .ok (outcome, ledger) →
      (∀ committed, t.Holds db committed →
        e.Named cr verify ∧ t'.Holds db (e :: committed)) →
      Effect db t { db with store := { db.store with ledger } } t'
  | insert {c : StampCall cr verify} {e : Entry} : t = .stampInsert c e →
      db.anchors[c.root.bytes]? = none →
      Effect db t { db with anchors := (db.anchors.insert c.root.bytes
        ⟨.pending, e.otsBlobHash, c.calendarUrl, none, none, e.moment⟩) } (.stampRead c)
  | update {upgrade : Bool} {c : ConfirmCall cr verify} {e : Entry} {row : AnchorRow} :
      t = .confirmUpdate upgrade c e → db.anchors[c.root.bytes]? = some row →
      Effect db t { db with anchors := (db.anchors.insert c.root.bytes { row with
        status := .confirmed
        blockHeight := some c.blockHeight
        txid := c.txid
        momentId := e.moment }) } (.confirmRead upgrade c)

theorem publication_root {st : Store} {row : RootRow} {p : RootPublication}
    (h : st.publication row = .ok p) : p.root = ⟨row.rootId⟩ := by
  unfold Store.publication at h
  simp only at h
  split at h
  · obtain ⟨_, -, h⟩ := Programs.bind_ok.mp h
    obtain rfl := Except.ok.inj h
    rfl
  · obtain rfl := Except.ok.inj h
    rfl
  · nomatch h

theorem rootById_root {db : Db} {root : MerkleRoot} {p : RootPublication}
    (h : db.rootById root = .ok p) : p.root = root := by
  rw [Db.rootById] at h
  split at h
  · cases h
  · rename_i row hrow
    split at h
    · cases h
    · rename_i q hq
      obtain rfl := Except.ok.inj h
      have hid : row.rootId = root.bytes := by simpa using List.find?_some hrow
      rw [publication_root hq, hid]

theorem anchorFor_some {db : Db} {root : MerkleRoot} {r : AnchorRecord}
    (h : db.anchorFor root = some r) : ∃ row, db.anchors[root.bytes]? = some row ∧
      r = Db.record root row := by
  obtain ⟨row, hrow, rfl⟩ := Option.map_eq_some_iff.mp h
  exact ⟨row, hrow, rfl⟩

/-- A step that ends a task, or that goes on with what it has. -/
theorem Effect.same {db : Db} {t t' : Task cr verify}
    (hnote : ∀ sys : System cr verify, sys.note t t' = sys)
    (hholds : ∀ committed, t.Holds db committed → t'.Holds db committed) : Effect db t db t' :=
  .idle rfl rfl hnote hholds

theorem note_same {sys : System cr verify} {t t' : Task cr verify} (h : t.entry = none)
    (h' : t'.entry = none) : sys.note t t' = sys := by
  rw [System.note, h, h']

theorem step_commit {db : Db} {t : Task cr verify} {moment : Except CoreError (Signed cr verify)}
    {next : Signed cr verify → Task cr verify} (entry : Signed cr verify → Entry)
    (hentry : t.entry = none) (hcommits : t.commits = moment.toOption.map entry)
    (hnext : ∀ s, (next s).entry = some (entry s)) (hid : ∀ s, (entry s).moment = s.id)
    (hholds : ∀ s, moment = .ok s → ∀ committed, t.Holds db committed →
      (entry s).Named cr verify ∧ (next s).Holds db (entry s :: committed)) :
    Effect db t (Task.commit db moment next).1 (Task.commit db moment next).2 := by
  cases hmoment : moment with
  | error e => exact .same (fun sys => note_same hentry rfl) fun _ _ => trivial
  | ok s =>
    rw [Task.commit]
    simp only
    cases hcommit : db.store.ledger.commit s with
    | error e => exact .same (fun sys => note_same hentry rfl) fun _ _ => trivial
    | ok r =>
      exact .commit (by rw [hcommits, hmoment]; rfl) (hnext s) (hid s) hcommit (hholds s hmoment)

theorem step_effect {db : Db} {committed : List Entry} {t : Task cr verify} (reply : Reply)
    (h : t.Holds db committed) : Effect db t (t.step db reply).1 (t.step db reply).2 := by
  cases t with
  | stampBegin c =>
    simp only [Task.step]
    split
    · exact .same (fun _ => rfl) fun _ _ => trivial
    · split
      · exact .same (fun _ => rfl) fun _ _ => trivial
      · rename_i p hp
        exact .same (fun _ => rfl) fun _ _ => rootById_root hp
  | stampCheck c p =>
    simp only [Task.step]
    split
    · exact .same (fun _ => rfl) fun _ _ => trivial
    · exact .same (fun _ => rfl) fun _ h => h
  | stampProof c p =>
    simp only [Task.step, Db.insertProof]
    cases Db.proofFits c.proof with
    | false => exact .same (fun _ => rfl) fun _ _ => trivial
    | true => exact .idle rfl rfl (fun _ => rfl) fun _ h => h
  | stampCommit c p =>
    refine step_commit (Task.stampEntry c) rfl rfl (fun _ => rfl) (fun _ => rfl) ?_
    intro s hs committed hroot
    refine ⟨⟨s, rfl, c.key.author, p.height, none, none, c.now, ?_⟩, List.mem_cons_self, rfl, rfl,
      rfl, rfl⟩
    rw [sign_ok hs]
    simp only [anchorMoment, Task.stampEntry, show p.root = c.root from hroot]
  | stampInsert c e =>
    simp only [Task.step, Db.insertAnchor]
    split
    · exact .same (fun _ => rfl) fun _ _ => trivial
    · rename_i db' hdb
      split at hdb
      · cases hdb
      · rename_i hnone
        obtain rfl := Except.ok.inj hdb
        exact .insert rfl (by simpa using hnone)
  | stampRead c =>
    simp only [Task.step]
    split <;> exact .same (fun _ => rfl) fun _ _ => trivial
  | confirmBegin upgrade c =>
    simp only [Task.step]
    split
    · exact .same (fun _ => rfl) fun _ _ => trivial
    · rename_i p hp
      exact .same (fun _ => rfl) fun _ _ => rootById_root hp
  | confirmCheck upgrade c p =>
    simp only [Task.step]
    split
    · exact .same (fun _ => rfl) fun _ _ => trivial
    · rename_i pending hpending
      split
      · exact .same (fun _ => rfl) fun _ _ => trivial
      · rename_i hstatus
        obtain ⟨row, hrow, rfl⟩ := anchorFor_some hpending
        refine .same (fun _ => rfl) fun _ h => ⟨h, ?_, row, hrow, rfl, rfl⟩
        cases hs : row.status with
        | pending => exact hs
        | confirmed => exact absurd hs hstatus
  | confirmCommit upgrade c p pending =>
    refine step_commit (Task.confirmEntry c pending) rfl rfl (fun _ => rfl) (fun _ => rfl) ?_
    rintro s hs committed ⟨hroot, -, hshows⟩
    refine ⟨⟨s, rfl, c.key.author, p.height, c.txid, some pending.moment, c.now, ?_⟩,
      List.mem_cons_self, rfl, rfl, rfl, hshows⟩
    rw [sign_ok hs]
    simp only [anchorMoment, Task.confirmEntry, hroot]
  | confirmUpdate upgrade c e =>
    simp only [Task.step, Db.confirmRow]
    split
    · exact .same (fun _ => rfl) fun _ _ => trivial
    · rename_i db' hdb
      split at hdb
      · rename_i hnone
        obtain ⟨-, -, -, -, row, hrow, -⟩ := h
        rw [hnone] at hrow
        nomatch hrow
      · split at hdb
        · rename_i row hrow _
          obtain rfl := Except.ok.inj hdb
          exact .update rfl hrow
        · cases hdb
  | confirmRead upgrade c =>
    simp only [Task.step]
    split <;> exact .same (fun _ => rfl) fun _ _ => trivial
  | upgradeBegin c =>
    simp only [Task.step]
    split
    · exact .same (fun _ => rfl) fun _ _ => trivial
    · split <;> exact .same (fun _ => rfl) fun _ _ => trivial
  | upgradeLoad c r =>
    simp only [Task.step]
    split <;> exact .same (fun _ => rfl) fun _ _ => trivial
  | upgradeAsk c r =>
    simp only [Task.step]
    split <;> exact .same (fun _ => rfl) fun _ _ => trivial
  | done r => exact .same (fun _ => rfl) fun _ h => h
  | stopped => exact .same (fun _ => rfl) fun _ h => h

/-! ## What every step keeps -/

theorem Stamped.insert {db : Db} {root other : MerkleRoot} {row : AnchorRow} {blob : Hash}
    {calendar : String} (h : Stamped db other blob calendar)
    (hrow : ∀ old, db.anchors[root.bytes]? = some old →
      row.otsBlobHash = old.otsBlobHash ∧ row.calendarUrl = old.calendarUrl) :
    Stamped { db with anchors := db.anchors.insert root.bytes row } other blob calendar := by
  obtain ⟨old, hold, hblob, hcalendar⟩ := h
  by_cases heq : root.bytes = other.bytes
  · rw [← heq] at hold
    obtain ⟨h₁, h₂⟩ := hrow old hold
    exact ⟨row, by simp [heq], h₁.trans hblob, h₂.trans hcalendar⟩
  · exact ⟨old, by simpa [Std.ExtTreeMap.getElem?_insert, heq] using hold, hblob, hcalendar⟩

/-- The rows of a database stay, with their proofs and calendars. -/
def Db.Keeps (db db' : Db) : Prop :=
  ∀ root blob calendar, Stamped db root blob calendar → Stamped db' root blob calendar

theorem Task.Holds.mono {db db' : Db} {committed committed' : List Entry} {t : Task cr verify}
    (h : t.Holds db committed) (hdb : db.Keeps db') (hsub : committed ⊆ committed') :
    t.Holds db' committed' := by
  cases t with
  | stampInsert c e => exact ⟨hsub h.1, h.2⟩
  | confirmCommit upgrade c p pending => exact ⟨h.1, h.2.1, hdb _ _ _ h.2.2⟩
  | confirmUpdate upgrade c e => exact ⟨hsub h.1, h.2.1, h.2.2.1, h.2.2.2.1, hdb _ _ _ h.2.2.2.2⟩
  | _ => exact h

/-- The row is that of the entry. -/
def Entry.Row (e : Entry) (row : AnchorRow) : Prop :=
  e.status = row.status ∧ e.otsBlobHash = row.otsBlobHash ∧ e.calendarUrl = row.calendarUrl ∧
    e.blockHeight = row.blockHeight ∧ e.moment = row.momentId

/-- What holds after every step of a run from a root with no row. -/
structure Settling (r : MerkleRoot) (sys : System cr verify) : Prop where
  tasks : ∀ t ∈ sys.tasks, t.Holds sys.db sys.committed
  named : ∀ e ∈ sys.committed, e.Named cr verify ∧ e.moment ∈ sys.db.store.ledger.events
  appended : sys.appended ⊆ sys.committed
  fresh : (sys.appended.map Entry.moment).Nodup
  written : ∀ e ∈ sys.written, e ∈ sys.committed ∧ (e.root = r →
    ∃ row, sys.db.anchors[r.bytes]? = some row ∧ (e.status = .confirmed → row.status = .confirmed))
  row : ∀ row, sys.db.anchors[r.bytes]? = some row → ∃ e ∈ sys.committed, e.root = r ∧ e.Row row
  single : ∀ e ∈ sys.committed, ∀ e' ∈ sys.committed, e.root = r → e'.root = r →
    e.status = e'.status → e = e'

section
variable {r : MerkleRoot} {sys : System cr verify} (h : Settling r sys)
include h

theorem Settling.tasks_set {db : Db} {committed : List Entry} {t : Task cr verify} (i : Nat)
    (hdb : sys.db.Keeps db) (hsub : sys.committed ⊆ committed) (ht : t.Holds db committed) :
    ∀ u ∈ sys.tasks.set i t, u.Holds db committed := by
  intro u hu
  rcases List.mem_or_eq_of_mem_set hu with hmem | rfl
  · exact (h.tasks u hmem).mono hdb hsub
  · exact ht

theorem Settling.idle {db : Db} {t : Task cr verify} (i : Nat) (hstore : db.store = sys.db.store)
    (hanchors : db.anchors = sys.db.anchors) (ht : t.Holds sys.db sys.committed) :
    Settling r { sys with db := db, tasks := sys.tasks.set i t } := by
  have hdb : sys.db.Keeps db := by
    rintro root blob calendar ⟨row, hrow⟩
    exact ⟨row, by rwa [hanchors]⟩
  have hsub : sys.committed ⊆ sys.committed := fun _ he => he
  exact {
    tasks := h.tasks_set i hdb hsub (ht.mono hdb hsub)
    named := by simpa only [hstore] using h.named
    appended := h.appended
    fresh := h.fresh
    written := by simpa only [hanchors] using h.written
    row := by simpa only [hanchors] using h.row
    single := h.single }

/-- A moment committed over the row a task has read, with none of its status unwritten, is the
first of its status. -/
theorem Settling.first {t : Task cr verify} {e e' : Entry} (ht : t.Holds sys.db sys.committed)
    (hcommits : t.commits = some e) (hfresh : t.Fresh sys.db) (hr : e.root = r)
    (hwritten : e' ∈ sys.written) (hr' : e'.root = r) (hstatus : e'.status = e.status) : False := by
  obtain ⟨-, hrow⟩ := h.written e' hwritten
  obtain ⟨row, hrow, hconfirmed⟩ := hrow hr'
  cases t with
  | stampCommit c p =>
    simp only [Task.commits] at hcommits
    obtain ⟨s, -, rfl⟩ := Option.map_eq_some_iff.mp hcommits
    have hnone : sys.db.anchorFor c.root = none := hfresh _ rfl
    rw [Db.anchorFor, show c.root = r from hr, hrow] at hnone
    nomatch hnone
  | confirmCommit upgrade c p pending =>
    simp only [Task.commits] at hcommits
    obtain ⟨s, -, rfl⟩ := Option.map_eq_some_iff.mp hcommits
    have hsome : sys.db.anchorFor c.root = some pending := hfresh _ rfl
    rw [Db.anchorFor, show c.root = r from hr, hrow] at hsome
    obtain rfl := Option.some.inj hsome
    have hpending : row.status = .pending := ht.2.1
    rw [hconfirmed hstatus] at hpending
    nomatch hpending
  | _ => nomatch hcommits

theorem Settling.commit {t t' : Task cr verify} {e : Entry} {s : Signed cr verify}
    {outcome : Appended} {ledger : Ledger} (i : Nat) (ht : t.Holds sys.db sys.committed)
    (hcommits : t.commits = some e) (hmoment : e.moment = s.id)
    (hcommit : sys.db.store.ledger.commit s = .ok (outcome, ledger)) (hnamed : e.Named cr verify)
    (ht' : t'.Holds sys.db (e :: sys.committed))
    (hclear : e.root = r → e ∈ sys.committed ∨ t.Fresh sys.db ∧
      ∀ e' ∈ sys.committed, e'.root = r → e'.status = e.status → e' ∈ sys.written) :
    Settling r { sys with
      db := { sys.db with store := { sys.db.store with ledger } }
      tasks := sys.tasks.set i t'
      committed := e :: sys.committed
      appended := if sys.db.store.ledger.events.contains e.moment then sys.appended
        else e :: sys.appended } := by
  have hsub : sys.committed ⊆ e :: sys.committed := List.subset_cons_self e sys.committed
  have hevents : s.id ∈ ledger.events ∧ ∀ id ∈ sys.db.store.ledger.events, id ∈ ledger.events := by
    rcases commit_ok hcommit with ⟨hmem, rfl⟩ | ⟨-, hevents, -⟩
    · exact ⟨hmem, fun _ hid => hid⟩
    · rw [hevents]
      exact ⟨by simp, fun id hid => by simp [hid]⟩
  have hfirst : ∀ e' ∈ sys.committed, e.root = r → e'.root = r → e'.status = e.status → e' = e := by
    intro e' he' hr hr' hstatus
    rcases hclear hr with hmem | ⟨hfresh, hwritten⟩
    · exact h.single e' he' e hmem hr' hr hstatus
    · exact (h.first ht hcommits hfresh hr (hwritten e' he' hr' hstatus) hr' hstatus).elim
  refine {
    tasks := h.tasks_set i (fun _ _ _ hstamped => hstamped) hsub ht'
    named := ?_
    appended := ?_
    fresh := ?_
    written := fun e' he' => ⟨hsub (h.written e' he').1, (h.written e' he').2⟩
    row := ?_
    single := ?_ }
  · rintro e' he'
    rcases List.mem_cons.mp he' with rfl | he'
    · exact ⟨hnamed, hmoment ▸ hevents.1⟩
    · exact ⟨(h.named e' he').1, hevents.2 _ (h.named e' he').2⟩
  · intro e' he'
    split at he'
    · exact hsub (h.appended he')
    · rcases List.mem_cons.mp he' with rfl | he'
      · exact List.mem_cons_self
      · exact hsub (h.appended he')
  · split
    · exact h.fresh
    · rename_i hnew
      refine List.nodup_cons.mpr ⟨fun hmem => ?_, h.fresh⟩
      obtain ⟨e', he', hmoment'⟩ := List.mem_map.mp hmem
      have hstored := (h.named e' (h.appended he')).2
      rw [hmoment'] at hstored
      exact hnew hstored
  · intro row hrow
    obtain ⟨e', he', hmatches⟩ := h.row row hrow
    exact ⟨e', hsub he', hmatches⟩
  · intro e₁ he₁ e₂ he₂ hr₁ hr₂ hstatus
    rcases List.mem_cons.mp he₁ with rfl | hold₁
    · rcases List.mem_cons.mp he₂ with rfl | hold₂
      · rfl
      · exact (hfirst e₂ hold₂ hr₁ hr₂ hstatus.symm).symm
    · rcases List.mem_cons.mp he₂ with rfl | hold₂
      · exact hfirst e₁ hold₁ hr₂ hr₁ hstatus
      · exact h.single e₁ hold₁ e₂ hold₂ hr₁ hr₂ hstatus

/-- The row of the entry `e` written, over the row that is there. -/
theorem Settling.write {t : Task cr verify} {e : Entry} {row : AnchorRow} (i : Nat)
    (he : e ∈ sys.committed) (hmatches : e.Row row)
    (hold : ∀ old, sys.db.anchors[e.root.bytes]? = some old → row.otsBlobHash = old.otsBlobHash ∧
      row.calendarUrl = old.calendarUrl ∧ row.status = .confirmed)
    (ht : ∀ db committed, t.Holds db committed) :
    Settling r { sys with
      db := { sys.db with anchors := sys.db.anchors.insert e.root.bytes row }
      tasks := sys.tasks.set i t
      written := e :: sys.written } := by
  have hdb : sys.db.Keeps { sys.db with anchors := sys.db.anchors.insert e.root.bytes row } :=
    fun _ _ _ hstamped => hstamped.insert fun old hrow => ⟨(hold old hrow).1, (hold old hrow).2.1⟩
  refine {
    tasks := h.tasks_set i hdb (fun _ he => he) (ht _ _)
    named := h.named
    appended := h.appended
    fresh := h.fresh
    written := ?_
    row := ?_
    single := h.single }
  · intro e' he'
    by_cases hbytes : e.root.bytes = r.bytes
    · have hshown : ∃ row', (sys.db.anchors.insert e.root.bytes row)[r.bytes]? = some row' ∧
          row' = row := ⟨row, by simp [hbytes], rfl⟩
      obtain ⟨row', hrow', rfl⟩ := hshown
      rcases List.mem_cons.mp he' with rfl | he'
      · exact ⟨he, fun _ => ⟨row', hrow', fun hc => hmatches.1 ▸ hc⟩⟩
      · refine ⟨(h.written e' he').1, fun hr => ⟨row', hrow', fun _ => ?_⟩⟩
        obtain ⟨old, hrow, -⟩ := (h.written e' he').2 hr
        exact (hold old (hbytes ▸ hrow)).2.2
    · have hother :
          (sys.db.anchors.insert e.root.bytes row)[r.bytes]? = sys.db.anchors[r.bytes]? := by
        simp [Std.ExtTreeMap.getElem?_insert, hbytes]
      rcases List.mem_cons.mp he' with rfl | he'
      · exact ⟨he, fun hr => absurd (congrArg MerkleRoot.bytes hr) hbytes⟩
      · simpa only [hother] using h.written e' he'
  · intro row' hrow'
    by_cases hbytes : e.root.bytes = r.bytes
    · obtain rfl : row = row' := by simpa [hbytes] using hrow'
      refine ⟨e, he, ?_, hmatches⟩
      cases hroot : e.root
      rw [hroot] at hbytes
      exact congrArg MerkleRoot.mk hbytes
    · exact h.row row' (by simpa [Std.ExtTreeMap.getElem?_insert, hbytes] using hrow')

/-- The step lemma. -/
theorem Settling.move {m : Move cr verify} (hclear : Clear r sys m) :
    Settling r (sys.move m) := by
  cases m with
  | call c =>
    refine { h with tasks := fun t ht => ?_ }
    rcases List.mem_append.mp ht with ht | ht
    · exact h.tasks t ht
    · obtain rfl := List.mem_singleton.mp ht
      cases c <;> trivial
  | stop i =>
    exact { h with tasks := h.tasks_set i (fun _ _ _ hs => hs) (fun _ he => he) trivial }
  | step i reply =>
    rw [System.move]
    cases htask : sys.tasks[i]? with
    | none => exact h
    | some t =>
      have ht := h.tasks t (List.mem_of_getElem? htask)
      have heffect := step_effect reply ht
      simp only
      generalize t.step sys.db reply = next at heffect ⊢
      obtain ⟨db, t'⟩ := next
      simp only at heffect ⊢
      cases heffect with
      | idle hstore hanchors hnote hholds =>
        rw [hnote]
        exact h.idle i hstore hanchors (hholds _ ht)
      | commit hcommits hentry hmoment hcommit hholds =>
        rw [System.note, hentry]
        obtain ⟨hnamed, ht'⟩ := hholds _ ht
        exact h.commit i ht hcommits hmoment hcommit hnamed ht' (hclear t htask _ hcommits)
      | @insert c e heq hnone =>
        subst heq
        obtain ⟨he, hroot, hpending, hcalendar, hheight⟩ := ht
        rw [← hroot] at hnone ⊢
        exact h.write i he ⟨hpending, rfl, hcalendar, hheight, rfl⟩
          (fun old hold => by simp [hnone] at hold) fun _ _ => trivial
      | @update upgrade c e row heq hrow =>
        subst heq
        obtain ⟨he, hroot, hconfirmed, hheight, old, hold, hblob, hcalendar⟩ := ht
        rw [← hroot] at hrow hold ⊢
        obtain rfl := Option.some.inj (hold.symm.trans hrow)
        refine h.write i he ⟨hconfirmed, hblob.symm, hcalendar.symm, hheight, rfl⟩
          (fun row' hrow' => ?_) fun _ _ => trivial
        obtain rfl := Option.some.inj (hold.symm.trans hrow')
        exact ⟨rfl, rfl, rfl⟩

/-- A confirmed row keeps its height and its moment. -/
theorem Settling.keeps {m : Move cr verify} {row : AnchorRow}
    (hrow : sys.db.anchors[r.bytes]? = some row) (hstatus : row.status = .confirmed) :
    ∃ row', (sys.move m).db.anchors[r.bytes]? = some row' ∧ row'.status = .confirmed ∧
      row'.blockHeight = row.blockHeight ∧ row'.momentId = row.momentId := by
  have hsame : ∃ row', sys.db.anchors[r.bytes]? = some row' ∧ row'.status = .confirmed ∧
      row'.blockHeight = row.blockHeight ∧ row'.momentId = row.momentId :=
    ⟨row, hrow, hstatus, rfl, rfl⟩
  cases m with
  | call c => exact hsame
  | stop i => exact hsame
  | step i reply =>
    rw [System.move]
    cases htask : sys.tasks[i]? with
    | none => exact hsame
    | some t =>
      have ht := h.tasks t (List.mem_of_getElem? htask)
      have heffect := step_effect reply ht
      simp only
      generalize t.step sys.db reply = next at heffect ⊢
      obtain ⟨db, t'⟩ := next
      simp only at heffect ⊢
      cases heffect with
      | idle hstore hanchors hnote hholds => rwa [hanchors]
      | commit hcommits hentry hmoment hcommit hholds => exact hsame
      | @insert c e heq hnone =>
        have hother : c.root.bytes ≠ r.bytes := by
          intro hbytes
          rw [hbytes, hrow] at hnone
          nomatch hnone
        simpa [Std.ExtTreeMap.getElem?_insert, hother] using hsame
      | @update upgrade c e old heq hold =>
        subst heq
        obtain ⟨he, hroot, hconfirmed, hheight, -⟩ := ht
        by_cases hbytes : c.root.bytes = r.bytes
        · obtain ⟨e', he', hr', hstatus', -, -, hheight', hmoment'⟩ := h.row row hrow
          have hr : e.root = r := by
            rw [hroot]
            cases hc : c.root
            rw [hc] at hbytes
            exact congrArg MerkleRoot.mk hbytes
          -- the moment of a confirmed row is the only confirmed one
          obtain rfl : e = e' :=
            h.single e he e' he' hr hr' (by rw [hconfirmed, hstatus', hstatus])
          have hwritten : ∀ row : AnchorRow,
              (sys.db.anchors.insert c.root.bytes row)[r.bytes]? = some row := by simp [hbytes]
          exact ⟨_, hwritten _, rfl, hheight.symm.trans hheight', hmoment'⟩
        · simpa [Std.ExtTreeMap.getElem?_insert, hbytes] using hsame

end

/-! ## Every run -/

theorem run_append (sys : System cr verify) (before after : List (Move cr verify)) :
    sys.run (before ++ after) = (sys.run before).run after :=
  List.foldl_append

theorem clearRun_append {r : MerkleRoot} {sys : System cr verify}
    {before after : List (Move cr verify)} (h : ClearRun r sys (before ++ after)) :
    ClearRun r sys before ∧ ClearRun r (sys.run before) after := by
  induction before generalizing sys with
  | nil => exact ⟨trivial, h⟩
  | cons m before ih =>
    obtain ⟨hbefore, hafter⟩ := ih h.2
    exact ⟨⟨h.1, hbefore⟩, hafter⟩

theorem Settling.run {r : MerkleRoot} {sys : System cr verify} {moves : List (Move cr verify)}
    (h : Settling r sys) (hclear : ClearRun r sys moves) : Settling r (sys.run moves) := by
  induction moves generalizing sys with
  | nil => exact h
  | cons m moves ih => exact ih (h.move hclear.1) hclear.2

theorem Settling.keeps_run {r : MerkleRoot} {sys : System cr verify} {row : AnchorRow}
    {moves : List (Move cr verify)} (h : Settling r sys) (hclear : ClearRun r sys moves)
    (hrow : sys.db.anchors[r.bytes]? = some row) (hstatus : row.status = .confirmed) :
    ∃ row', (sys.run moves).db.anchors[r.bytes]? = some row' ∧ row'.status = .confirmed ∧
      row'.blockHeight = row.blockHeight ∧ row'.momentId = row.momentId := by
  induction moves generalizing sys row with
  | nil => exact ⟨row, hrow, hstatus, rfl, rfl⟩
  | cons m moves ih =>
    obtain ⟨row₁, hrow₁, hstatus₁, hheight₁, hmoment₁⟩ := h.keeps hrow hstatus
    obtain ⟨row₂, hrow₂, hstatus₂, hheight₂, hmoment₂⟩ :=
      ih (h.move hclear.1) hclear.2 hrow₁ hstatus₁
    exact ⟨row₂, hrow₂, hstatus₂, hheight₂.trans hheight₁, hmoment₂.trans hmoment₁⟩

theorem settling_start {r : MerkleRoot} {db : Db} (hr : db.anchors[r.bytes]? = none) :
    Settling r (System.start db : System cr verify) where
  tasks := fun _ ht => nomatch ht
  named := fun _ he => nomatch he
  appended := fun _ he => nomatch he
  fresh := List.nodup_nil
  written := fun _ he => nomatch he
  row := fun row hrow => by
    rw [show (System.start db : System cr verify).db = db from rfl, hr] at hrow
    nomatch hrow
  single := fun _ he => nomatch he

/-- The moments of the root and the status that were appended. -/
def System.moments (sys : System cr verify) (r : MerkleRoot) (status : AnchorStatus) :
    List Entry :=
  sys.appended.filter fun e => e.root = r ∧ e.status = status

theorem Settling.moments_le {r : MerkleRoot} {sys : System cr verify} (h : Settling r sys)
    (status : AnchorStatus) : (sys.moments r status).length ≤ 1 := by
  have hsame : ∀ e ∈ sys.moments r status, ∀ e' ∈ sys.moments r status, e = e' := by
    intro e he e' he'
    obtain ⟨hmem, hr⟩ := List.mem_filter.mp he
    obtain ⟨hmem', hr'⟩ := List.mem_filter.mp he'
    simp only [decide_eq_true_eq] at hr hr'
    exact h.single e (h.appended hmem) e' (h.appended hmem') hr.1 hr'.1 (hr.2.trans hr'.2.symm)
  have hnodup : (sys.moments r status).Nodup := (h.fresh.of_map _).filter _
  match hlist : sys.moments r status with
  | [] => exact Nat.zero_le 1
  | [_] => exact le_rfl
  | e :: e' :: rest =>
    rw [hlist] at hsame hnodup
    have heq := hsame e (by simp) e' (by simp)
    simp [heq] at hnodup

/-- One moment of each status, and a row that names a stored moment of its own state. -/
structure System.Settled (sys : System cr verify) (r : MerkleRoot) : Prop where
  once : ∀ status, (sys.moments r status).length ≤ 1
  row : ∀ row, sys.db.anchors[r.bytes]? = some row →
    row.momentId ∈ sys.db.store.ledger.events ∧
      Entry.Named cr verify
        ⟨r, row.status, row.otsBlobHash, row.calendarUrl, row.blockHeight, row.momentId⟩

theorem Settling.settled {r : MerkleRoot} {sys : System cr verify} (h : Settling r sys) :
    sys.Settled r where
  once := h.moments_le
  row := fun row hrow => by
    obtain ⟨⟨root, status, blob, calendar, height, moment⟩, he, rfl, rfl, rfl, rfl, rfl, rfl⟩ :=
      h.row row hrow
    exact ⟨(h.named _ he).2, (h.named _ he).1⟩

theorem settled_once {r : MerkleRoot} {db : Db} (hr : db.anchors[r.bytes]? = none)
    {before after : List (Move cr verify)}
    (h : ClearRun r (System.start db) (before ++ after)) :
    ((System.start db).run before).Settled r ∧
      ∀ row, ((System.start db).run before).db.anchors[r.bytes]? = some row →
        row.status = .confirmed →
        ∃ row', ((System.start db).run (before ++ after)).db.anchors[r.bytes]? = some row' ∧
          row'.status = .confirmed ∧ row'.blockHeight = row.blockHeight ∧
          row'.momentId = row.momentId := by
  obtain ⟨hbefore, hafter⟩ := clearRun_append h
  have hsettling := (settling_start hr).run hbefore
  refine ⟨hsettling.settled, fun row hrow hstatus => ?_⟩
  rw [run_append]
  exact hsettling.keeps_run hafter hrow hstatus

end

namespace Sample

def alice : Hash := 0xd75a980182b10ab7d54bfed3c964073a0ee172f3daa62325af021a68f707511a

def first : EventContent := ⟨1, 1, alice, none, .moment ⟨nodeZero, 7⟩⟩
def firstId : Hash := 0x273d4f5881ba5e77200a6a67bd569e438be1f922c07418455b59b342dcd312e3

/-- The root of a log that holds the one event. -/
def root : MerkleRoot := ⟨0x01971c8b0f6d83c1c07f9d95d0f4fb0dce66b11358e90ecf6122412db071707d⟩

def calendar : String := "https://a.pool.opentimestamps.org"

/-- A pending attestation of the calendar. -/
def proof : Bytes :=
  OtsProof.headerMagic ++ [1, OtsProof.opSha256] ++ asBytes root.bytes ++
    [8, 0, 0x83, 0xdf, 0xe3, 0x0d, 0x2e, 0xf9, 0x0c, 0x8e, 34, 33] ++ calendar.toUTF8.data.toList

def blob : Hash := 0x25b2ca739fa153ae82f2b33b22542a1c2a145cdd5eca80757fd1874f6309919d

def bodyOf (status height : Bytes) : Bytes :=
  framed "cc.anchor.stamp.v0".toUTF8.data.toList ++ asBytes root.bytes ++ beBytes 8 0 ++ status ++
    asBytes blob ++ framed calendar.toUTF8.data.toList ++ height ++ framed []

def pendingBody : Hash := 0x8b2bbdefd1956764dc5ee03c6bedf69ec9e30226c7a54b10f3daeabdb70ebc13
def confirmedBody : Hash := 0x7f566b0525be51798015e4259cebe152996de576ea0414f9668a57c82f2cc4ee

def canonOf (c : EventContent) : Bytes := (canonEvent c).toOption.getD []

def moment (now : Tick) (body : Hash) (supersedes : Option Hash) : Bytes :=
  canonOf ⟨now, now, alice, supersedes, .moment ⟨nodeZero, body⟩⟩

def pendingId : Hash := 0xd32cb05f660150008ba7bea0997127e7db10a624515d1578564767dc5e234b84
def laterId : Hash := 0xc834c03c1330ff1981160f33bfd2c972ca66d0858dfbe20abfac6f499201b822
def confirmedId : Hash := 0xfca3ae9e5d84ad72cb0ad279de8d9b3058b0c05cc5ee74dc6201f71aaecc3d47

/-- SHA-256 on the preimages. -/
def digests : List (Bytes × Hash) := [
  (canonOf first, firstId),
  (leafPrefix :: beBytes 32 firstId.toNat, root.bytes),
  (proof, blob),
  (bodyOf [0] [0], pendingBody),
  (bodyOf [1] (1 :: beBytes 8 840000), confirmedBody),
  (moment 1000 pendingBody none, pendingId),
  (moment 2000 pendingBody none, laterId),
  (moment 3000 confirmedBody (some pendingId), confirmedId)]

def crypto : Crypto where
  sha256 bytes := ((digests.find? fun p => p.1 == bytes).map Prod.snd).getD 0
  authorKey k := decide (k = alice)

/-- Ed25519 under Alice's key on the ids. -/
def signatures : List (Hash × Nat) := [
  (firstId,
    0xc90723887d727a764a7d8c0dc8f0706e8948929c8483aa894ad32b7460bfa5571b25bfa873c14ee25a43aa410fc798a73ec083225e9235260ec0019631b4ba0c),
  (pendingId,
    0x5b320d40c1292946243b6e2291e732f70b02354e7556be630951729296671eaa4112e71ee1e4144dcd1a7c6357ef5365ea3e1f5777552033c98d982e1dac0f06),
  (laterId,
    0x13c04f924c8ad86fc474b693cb6e7a2a9caac3c413013525e43083426921ef857fc68c050a50edf5426a9f546114f10e290a995778c22fb05c2fbc2327b99a06),
  (confirmedId,
    0x97b439d069634e2aae01e99d4d0561047cc4e0a6e4498d71c1200e9a9d5f846eb3df0a285d055070c5f02fceb38f56d1aa057690ad6b39ecf9e22ce5c35d1a0f)]

def signMessage (message : Bytes) : Bytes :=
  ((signatures.find? fun p => asBytes p.1 == message).map fun p => beBytes 64 p.2).getD []

def verify : Verify := fun k message signature =>
  decide (k = alice ∧ signature = signMessage message)

def key : SecretKey crypto verify where
  author := alice
  isAuthor := by decide
  signMessage := signMessage
  verified := by simp [verify]

/-- The ledger that holds the one event, and its root. -/
def published : Store :=
  match Signed.sign key first with
  | .error _ => .empty
  | .ok s =>
    match Ledger.empty.commit s with
    | .error _ => .empty
    | .ok (_, ledger) =>
      match ({ Store.empty with ledger } : Store).sealEpoch crypto.sha256 with
      | .error _ => .empty
      | .ok (_, store) => store

def db : Db := ⟨published, ∅, ∅⟩

def stamp (now : Tick) : StampCall crypto verify := ⟨key, root, proof, calendar, now⟩
def confirm (now : Tick) : ConfirmCall crypto verify := ⟨key, root, 840000, none, now⟩

def steps (i n : Nat) : List (Move crypto verify) := List.replicate n (.step i (.ok none))

/-- Two stamps that both find no row. -/
def overlapping : List (Move crypto verify) :=
  [.call (.stamp (stamp 1000)), .call (.stamp (stamp 2000))] ++ steps 0 2 ++ steps 1 2 ++
    steps 0 4 ++ steps 1 4

/-- A stamp, then a confirmation. -/
def inTurn : List (Move crypto verify) :=
  [.call (.stamp (stamp 1000))] ++ steps 0 6 ++ [.call (.confirm (confirm 3000))] ++ steps 1 5

theorem overlapping_twice :
    (((System.start db).run overlapping).moments root .pending).length = 2 := by
  decide +kernel

theorem inTurn_clear : ClearRun root (System.start db) inTurn := by
  decide +kernel

/-- Each of two overlapping stamps appends its moment. -/
theorem stamps_overlap : ∃ moves : List (Move crypto verify),
    db.anchors[root.bytes]? = none ∧ ¬ ((System.start db).run moves).Settled root := by
  refine ⟨overlapping, rfl, fun h => ?_⟩
  have honce := h.once .pending
  rw [overlapping_twice] at honce
  omega

theorem inTurn_settled : ((System.start db).run inTurn).Settled root :=
  (@settled_once _ _ root db rfl inTurn [] (by simpa using inTurn_clear)).1

end Sample

end Clockchain.Anchor
