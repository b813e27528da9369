import Clockchain.Operator.Leases

/-!
# Image runs

The commands of `ops/generation_worker.py`, each a sequence of calls on the job table. An image run
puts a reviewed job back in the queue and acquires it in a second transaction; other workers may
take a step in between.
-/

namespace Clockchain.Operator.Images
set_option autoImplicit false
open Leases

/-! ## The commands -/

/-- The environment and the state directory of a worker. -/
structure Site where
  env : Environment
  root : String
  deriving DecidableEq

/-- What a run asks of the table while it has a lease. -/
inductive Ask where
  | guard
  | reserve (ident kind : String) (cents : Int)
  deriving DecidableEq

/-- The part of a run that the world outside decides: what is asked, and the error it ends with. -/
structure Work where
  asks : List Ask
  raises : Option String
  deriving DecidableEq

inductive Command where
  | enqueue (job brief : String)
  | operate (control : Control)
  /-- One round of the loop. -/
  | serve (site : Site) (work : Work)
  | run (site : Site) (job : String) (work : Work)
  | image (site : Site) (job : String) (timeout : Int) (work : Work)
  | candidateStage (job : String)
  deriving DecidableEq

/-- An image run: the row that it has selected, and the row that its requeue has found. -/
structure Image where
  row : Job
  found : Option Job
  deriving DecidableEq

/-- A run that has a lease. -/
structure Held where
  site : Site
  job : String
  fence : Nat
  work : Work
  image : Option Image
  deriving DecidableEq

/-- Which call of a command is under way. -/
inductive Pc where
  | plain
  | serving (site : Site) (work : Work)
  | polling (site : Site) (work : Work)
  | running (site : Site) (job : String) (work : Work)
  | selecting (site : Site) (job : String) (timeout : Int) (work : Work)
  | requeueing (site : Site) (job : String) (timeout : Int) (work : Work) (image : Image)
  | starting (site : Site) (job : String) (work : Work) (image : Image)
  | holding (held : Held)
  | finishing (held : Held)
  | failing (held : Held) (text : String)
  | staging
  deriving DecidableEq

inductive End where
  | returned
  | raised (text : String)
  /-- An image run that has not got the lease. -/
  | refused (image : Image) (text : String)
  | staged (brief : String) (result : Option String)
  deriving DecidableEq

inductive Worker where
  | active (pc : Pc) (task : Task)
  | ended (result : End)
  deriving DecidableEq

/-! ## From call to call -/

/-- `Path.parent`. -/
def parent (path : String) : String :=
  String.ofList ((path.toList.reverse.dropWhile (· ≠ '/')).drop 1).reverse

def Held.directory (h : Held) : String :=
  match h.image with
  | none => h.site.root ++ "/" ++ h.job ++ "/" ++ toString h.fence
  | some image => parent (image.row.result.getD "") ++ "/image-" ++ toString h.fence

/-- A run without a proposal to read ends with an error. -/
def Held.raises (h : Held) : Option String :=
  match h.image with
  | some ⟨⟨_, _, _, _, _, _, none, _⟩, _⟩ => some "TypeError"
  | _ => h.work.raises

/-- The result and the error of a failed run. -/
def Held.failure (h : Held) (text : String) : Option String × String :=
  match h.image with
  | none => (none, text)
  | some image => (image.row.result, "image generation failed; reservation retained")

def Held.fail (h : Held) (text : String) : Worker :=
  .active (.failing h text) (.called (.finish h.site.env h.job h.fence .failed (h.failure text).1
    (some (h.failure text).2)))

/-- The next call of a run that has a lease. -/
def Held.proceed (h : Held) : Worker :=
  match h.work.asks with
  | .guard :: asks =>
    .active (.holding { h with work := ⟨asks, h.work.raises⟩ })
      (.called (.guard h.site.env h.job h.fence))
  | .reserve ident kind cents :: asks =>
    .active (.holding { h with work := ⟨asks, h.work.raises⟩ })
      (.called (.reserve h.site.env ident h.job h.fence kind cents))
  | [] =>
    match h.raises with
    | some text => h.fail text
    | none => .active (.finishing h) (.called (.finish h.site.env h.job h.fence .review
        (some (h.directory ++ "/proposal.json")) none))

/-- What a command does with the end of a call. -/
def next : Pc → Except String Return → Worker
  | .plain, .ok _ => .ended .returned
  | .serving site work, .ok _ => .active (.polling site work) (.called .poll)
  | .polling site work, .ok (.id (some job)) =>
    .active (.running site job work) (.called (.acquire site.env job 1800))
  | .running site job work, .ok (.lease fence _) => Held.proceed ⟨site, job, fence, work, none⟩
  | .selecting site job timeout work, .ok (.row (some row)) =>
    if row.state = .review then
      .active (.requeueing site job timeout work ⟨row, none⟩) (.called (.requeue job))
    else .ended (.raised "job must have completed proposal")
  | .selecting .., .ok _ => .ended (.raised "job must have completed proposal")
  | .requeueing site job timeout work image, .ok _ =>
    .active (.starting site job work image) (.called (.acquire site.env job (timeout + 120)))
  | .starting site job work image, .ok (.lease fence _) =>
    Held.proceed ⟨site, job, fence, work, some image⟩
  | .starting _ _ _ image, .error text => .ended (.refused image text)
  | .holding h, .ok _ => h.proceed
  | .holding h, .error text => h.fail ("ValueError: " ++ text)
  | .finishing _, .ok _ => .ended .returned
  | .finishing h, .error text => h.fail ("ValueError: " ++ text)
  | .failing _ text, _ => .ended (.raised text)
  | .staging, .ok (.row (some row)) =>
    if row.state = .review then .ended (.staged row.brief row.result)
    else .ended (.raised "job not ready for review")
  | .staging, .ok _ => .ended (.raised "job not ready for review")
  | _, .error text => .ended (.raised text)
  | _, .ok _ => .ended .returned

/-- The tables, and the requeues of reviewed jobs so far, the last one first. -/
structure Desk where
  table : Store
  requeues : List (String × Nat)
  deriving DecidableEq

def reviewed (found : Option Job) : Bool := found.any fun r => r.state = .review

/-- An image run remembers what its requeue finds. -/
def Pc.observe (d : Desk) : Pc → Pc
  | .requeueing site job timeout work image =>
    .requeueing site job timeout work { image with found := d.table.row job }
  | pc => pc

def Pc.record (i : Nat) (d : Desk) : Pc → List (String × Nat)
  | .requeueing _ job _ _ _ =>
    if reviewed (d.table.row job) then (job, i) :: d.requeues else d.requeues
  | _ => d.requeues

def step (i now : Nat) (d : Desk) : Worker → Desk × Worker
  | .active pc (.done outcome) => (d, next pc outcome)
  | .active pc task =>
    let after := Leases.step i now d.table task
    (⟨after.1, pc.record i d⟩, .active (pc.observe d) after.2)
  | .ended result => (d, .ended result)

def enter : Command → Worker
  | .enqueue job brief => .active .plain (.called (.enqueue job brief))
  | .operate control => .active .plain (.called (.operate control))
  | .serve site work => .active (.serving site work) (.called (.enabled site.env))
  | .run site job work =>
    .active (.running site job work) (.called (.acquire site.env job 1800))
  | .image site job timeout work =>
    .active (.selecting site job timeout work) (.called (.select job))
  | .candidateStage job => .active .staging (.called (.select job))

def stop (_ : Nat) (d : Desk) (_ : Worker) : Desk × Worker := (d, .ended (.raised "stopped"))

def machine : Interleavings.Machine Command Desk Worker := ⟨enter, step, stop⟩

/-- Empty tables, at some time. -/
def initial (control : Control) (now : Nat) : Interleavings.System Desk Worker :=
  ⟨⟨.empty control, []⟩, now, []⟩

/-! ## Reviewed proposals -/

/-- The image run of a worker that has begun its requeue and not yet acquired the job. -/
def Worker.waits : Worker → Option (String × Image)
  | .active (.requeueing _ job _ _ image) _ => some (job, image)
  | .active (.starting _ job _ image) (.called _) => some (job, image)
  | .active (.starting _ job _ image) (.acquiring ..) => some (job, image)
  | _ => none

def Worker.held : Worker → Option Held
  | .active (.holding h) _ => some h
  | .active (.finishing h) _ => some h
  | .active (.failing h _) _ => some h
  | _ => none

/-- No image run loses a reviewed proposal before it starts. -/
structure Intact (sys : Interleavings.System Desk Worker) : Prop where
  /-- Without the lease, an image run leaves the row as its requeue has found it. -/
  refused : ∀ (i : Nat) (image : Image) (text : String),
    sys.tasks[i]? = some (.ended (.refused image text)) → ∀ r ∈ image.found, r.requeue = r
  /-- Nobody acquires a job between a requeue and the acquire after it. -/
  untaken : ∀ (i : Nat) (w : Worker) (job : String) (image : Image) (found : Job),
    sys.tasks[i]? = some w → w.waits = some (job, image) → image.found = some found →
    found.state = .review → ∃ row, sys.store.table.row job = some row ∧ row.fence = found.fence
  started : ∀ (i : Nat) (w : Worker) (h : Held) (image : Image) (found : Job),
    sys.tasks[i]? = some w → w.held = some h → h.image = some image →
    image.found = some found → found.state = .review → h.fence = found.fence + 1

/-- The row that the requeue of a worker's image run has found. -/
def Pc.found : Pc → Option Job
  | .starting _ _ _ image => image.found
  | _ => none

/-- A requeue of a reviewed job finds an attempt left, generation is enabled when its acquire looks,
and no other acquire finds the job queued with its proposal. -/
def Worker.unhindered (d : Desk) : Worker → Bool
  | .active (.requeueing _ job _ _ _) (.called _) =>
    (d.table.row job).all fun r => r.state ≠ .review || r.attempts < 3
  | .active (.starting site _ _ image) (.called _) =>
    !reviewed image.found || (enabled site.env d.table).isOk
  | .active pc (.acquiring job _) =>
    reviewed pc.found || (d.table.row job).all fun r => r.state ≠ .queued || r.result.isNone
  | _ => true

/-! ## Rows between two calls -/

/-- The last worker that has requeued a job in review. -/
def Desk.owner (d : Desk) (job : String) : Option Nat :=
  (d.requeues.find? fun entry => entry.1 = job).map Prod.snd

/-- A queued or reviewed job has no lease, and a reviewed one has a proposal. -/
def Settled (s : Store) : Prop :=
  ∀ job row, s.row job = some row →
    ((row.state = .queued ∨ row.state = .review) → row.lease = 0) ∧
      (row.state = .review → row.result.isSome = true)

/-- The job waits for the image run that has requeued it. -/
structure Window (i : Nat) (d : Desk) (job : String) (found row : Job) : Prop where
  here : d.table.row job = some row
  state : row.state = .queued
  result : row.result.isSome = true
  attempts : row.attempts < 3
  fence : row.fence = found.fence
  owner : d.owner job = some i

def Waits (i : Nat) (d : Desk) (job : String) (image : Image) : Prop :=
  ∀ found ∈ image.found, found.state = .review → ∃ row, Window i d job found row

def Held.Sound (h : Held) : Prop :=
  ∀ image ∈ h.image, ∀ found ∈ image.found, found.state = .review → h.fence = found.fence + 1

/-- A run finishes with a proposal or fails. -/
def Task.Finishes : Task → Prop
  | .called (.finish _ _ _ state result _) =>
    state = .failed ∨ (state = .review ∧ result.isSome = true)
  | _ => True

/-- What is known of a worker from where it is. -/
def Worker.Holds (i _ : Nat) (d : Desk) : Worker → Prop
  | .ended (.refused image _) => ∀ found ∈ image.found, found.state ≠ .review
  | .ended _ => True
  | .active (.requeueing _ job _ _ image) (.called call) =>
    call = .requeue job ∧ image.found = none
  | .active (.requeueing _ job _ _ image) (.done outcome) =>
    (∃ r, outcome = .ok r) ∧ Waits i d job image
  | .active (.requeueing ..) _ => False
  | .active (.starting site job _ image) (.called call) =>
    (∃ seconds, call = .acquire site.env job seconds) ∧ Waits i d job image
  | .active (.starting _ job _ image) (.acquiring job' _) => job' = job ∧ Waits i d job image
  | .active (.starting _ _ _ image) (.done (.ok (.lease fence _))) =>
    ∀ found ∈ image.found, found.state = .review → fence = found.fence + 1
  | .active (.starting _ _ _ image) (.done _) => ∀ found ∈ image.found, found.state ≠ .review
  | .active (.starting ..) _ => False
  | .active (.holding h) task => h.Sound ∧ Task.Finishes task
  | .active (.finishing h) task => h.Sound ∧ Task.Finishes task
  | .active (.failing h _) task => h.Sound ∧ Task.Finishes task
  | .active _ task => Task.Finishes task

section
variable {i j now now' : Nat} {s s' : Store} {d d' : Desk} {t : Task} {w u : Worker} {job : String}
variable {row found : Job} {image : Image} {h : Held} {pc : Pc}

theorem requeue_of_ne (hstate : row.state ≠ .review) : row.requeue = row := by
  unfold Job.requeue
  exact if_neg hstate

theorem requeue_of_review (hstate : row.state = .review) :
    row.requeue = { row with state := .queued } := by
  unfold Job.requeue
  exact if_pos hstate

theorem reviewed_eq_true : reviewed image.found = true ↔
    ∃ found ∈ image.found, found.state = .review := by
  unfold reviewed
  cases image.found with
  | none => simp
  | some found => simp

/-- A queued row is left alone by whoever does not acquire the job. -/
theorem row_kept (hrow : s.row job = some row) (hstate : row.state = .queued)
    (hlease : row.lease = 0) (hchange : Change i now s t s')
    (hother : ∀ seconds, t ≠ .acquiring job seconds) : s'.row job = some row := by
  cases hchange with
  | same t => exact hrow
  | operate control => exact hrow
  | enqueue job' brief hnew => rw [row_insert, hrow, Option.some_or]
  | acquire job' seconds =>
    have hne : job ≠ job' := fun heq => hother seconds (heq ▸ rfl)
    have hkept : (s.update job' fun r => r.lend (now + seconds * second)).row job = s.row job :=
      row_update_ne (fun _ => rfl) hne
    exact hkept.trans hrow
  | requeue job' =>
    unfold requeue
    by_cases hjob : job = job'
    · subst hjob
      rw [row_update_self requeue_id, hrow, Option.map_some, requeue_of_ne (by rw [hstate]; decide)]
    · rw [row_update_ne requeue_id hjob, hrow]
  | reserve => exact hrow
  | finish env job' fence state result error hcurrent =>
    by_cases hjob : job = job'
    · subst hjob
      obtain ⟨row', hrow', -, hlive⟩ := current_eq_true.mp hcurrent
      rw [hrow] at hrow'
      obtain rfl := Option.some.inj hrow'
      omega
    · rw [row_update_ne settle_id hjob, hrow]

theorem Settled.change (hs : Settled s) (hchange : Change i now s t s')
    (hfinishes : Task.Finishes t) : Settled s' := by
  cases hchange with
  | same t => exact hs
  | operate control => exact hs
  | enqueue job' brief hnew =>
    intro other row hrow
    rw [row_insert] at hrow
    cases hold : s.row other with
    | some old =>
      rw [hold, Option.some_or] at hrow
      obtain rfl := Option.some.inj hrow
      exact hs other _ hold
    | none =>
      rw [hold, Option.none_or] at hrow
      split at hrow
      · obtain rfl := Option.some.inj hrow
        refine ⟨fun _ => rfl, fun hreview => ?_⟩
        cases hreview
      · cases hrow
  | acquire job' seconds =>
    intro other row hrow
    obtain ⟨old, hold, rfl⟩ := Option.map_eq_some_iff.mp
      ((row_update (f := fun r => r.lend (now + seconds * second)) (fun _ => rfl) other).symm.trans
        hrow)
    split
    · refine ⟨fun hstate => ?_, fun hstate => ?_⟩
      · rcases hstate with hstate | hstate <;> cases hstate
      · cases hstate
    · exact hs other old hold
  | requeue job' =>
    intro other row hrow
    unfold requeue at hrow
    rw [row_update requeue_id] at hrow
    obtain ⟨old, hold, rfl⟩ := Option.map_eq_some_iff.mp hrow
    have hold' := hs other old hold
    split
    · by_cases hreview : old.state = .review
      · rw [requeue_of_review hreview]
        refine ⟨fun _ => hold'.1 (.inr hreview), fun hstate => ?_⟩
        cases hstate
      · rw [requeue_of_ne hreview]
        exact hold'
    · exact hold'
  | reserve => exact hs
  | finish env job' fence state result error hcurrent =>
    intro other row hrow
    rw [row_update settle_id] at hrow
    obtain ⟨old, hold, rfl⟩ := Option.map_eq_some_iff.mp hrow
    have hold' := hs other old hold
    split
    · unfold Job.settle
      split
      · refine ⟨fun _ => rfl, fun hreview => ?_⟩
        rcases hfinishes with hfailed | ⟨-, hresult⟩
        · rw [hfailed] at hreview
          cases hreview
        · exact hresult
      · exact hold'
    · exact hold'

/-! ## One step -/

theorem step_active (hactive : ∀ outcome, t ≠ .done outcome) : step i now d (.active pc t) =
    (⟨(Leases.step i now d.table t).1, pc.record i d⟩,
      .active (pc.observe d) (Leases.step i now d.table t).2) := by
  cases t with
  | done outcome => exact absurd rfl (hactive outcome)
  | _ => rfl

/-- After a step a call is never back at its beginning. -/
theorem step_finishes : Task.Finishes (Leases.step i now s t).2 := by
  cases t with
  | called call =>
    cases call with
    | enqueue | finish =>
      simp only [Leases.step, written]
      split <;> exact trivial
    | acquire | guard | reserve | enabled =>
      simp only [Leases.step, looked]
      split <;> exact trivial
    | _ => exact trivial
  | acquiring =>
    simp only [Leases.step]
    split <;> exact trivial
  | reserving =>
    simp only [Leases.step, written]
    split <;> exact trivial
  | _ => exact trivial

theorem fail_holds (hs : h.Sound) (text : String) : Worker.Holds i now d (h.fail text) :=
  ⟨hs, .inl rfl⟩

theorem proceed_holds (hs : h.Sound) : Worker.Holds i now d h.proceed := by
  unfold Held.proceed
  split
  · exact ⟨hs, trivial⟩
  · exact ⟨hs, trivial⟩
  · split
    · exact fail_holds hs _
    · exact ⟨hs, .inr ⟨rfl, rfl⟩⟩

/-- The end of a call leaves its command with the next one. -/
theorem next_holds (outcome : Except String Return)
    (hw : Worker.Holds i now d (.active pc (.done outcome))) :
    Worker.Holds i now d (next pc outcome) := by
  cases pc with
  | plain => cases outcome <;> exact trivial
  | serving site work => cases outcome <;> exact trivial
  | polling site work =>
    cases outcome with
    | error text => exact trivial
    | ok r =>
      cases r with
      | id job => cases job <;> exact trivial
      | _ => exact trivial
  | running site job work =>
    cases outcome with
    | error text => exact trivial
    | ok r =>
      cases r with
      | lease fence brief =>
        refine proceed_holds fun image himage => ?_
        cases himage
      | _ => exact trivial
  | selecting site job timeout work =>
    cases outcome with
    | error text => exact trivial
    | ok r =>
      cases r with
      | row row =>
        cases row with
        | none => exact trivial
        | some row =>
          simp only [next]
          split
          · exact ⟨rfl, rfl⟩
          · exact trivial
      | _ => exact trivial
  | requeueing site job timeout work image =>
    obtain ⟨⟨r, rfl⟩, hwaits⟩ := hw
    exact ⟨⟨_, rfl⟩, hwaits⟩
  | starting site job work image =>
    cases outcome with
    | error text => exact hw
    | ok r =>
      cases r with
      | lease fence brief =>
        refine proceed_holds fun image' himage => ?_
        obtain rfl := Option.some.inj himage
        exact hw
      | _ => exact trivial
  | holding h =>
    cases outcome with
    | error text => exact fail_holds hw.1 _
    | ok r => exact proceed_holds hw.1
  | finishing h =>
    cases outcome with
    | error text => exact fail_holds hw.1 _
    | ok r => exact trivial
  | failing h text => cases outcome <;> exact trivial
  | staging =>
    cases outcome with
    | error text => exact trivial
    | ok r =>
      cases r with
      | row row =>
        cases row with
        | none => exact trivial
        | some row =>
          simp only [next]
          split <;> exact trivial
      | _ => exact trivial

/-! ## The window of an image run -/

theorem reviewed_none (hrow : d.table.row job = some row) (hstate : row.state ≠ .review) :
    reviewed (d.table.row job) = false := by
  rw [hrow]
  exact decide_eq_false hstate

/-- Another requeue of a queued job is not recorded. -/
theorem owner_record (hrow : d.table.row job = some row) (hstate : row.state ≠ .review) :
    ((pc.record j d).find? fun entry => entry.1 = job) =
      d.requeues.find? fun entry => entry.1 = job := by
  cases pc with
  | requeueing site job' timeout work image =>
    simp only [Pc.record]
    by_cases hjob : job' = job
    · subst hjob
      rw [reviewed_none hrow hstate]
      rfl
    · split
      · rw [List.find?_cons_of_neg (by simpa using hjob)]
      · rfl
  | _ => rfl

/-- A worker that acquires the job of a window is the one that it belongs to. -/
theorem window_acquire {seconds : Int} (hwindow : Window i d job found row)
    (hw : Worker.Holds j now d (.active pc (.acquiring job seconds)))
    (hfree : Worker.unhindered d (.active pc (.acquiring job seconds)) = true) : j = i := by
  have hother : reviewed pc.found = false → False := by
    intro hnot
    have hall : (reviewed pc.found || (d.table.row job).all fun r =>
        r.state ≠ .queued || r.result.isNone) = true := by
      cases pc <;> exact hfree
    rw [hnot, Bool.false_or, hwindow.here] at hall
    have hresult := hwindow.result
    simp only [Option.all_some, hwindow.state, ne_eq, not_true_eq_false, decide_false,
      Bool.false_or, Option.isNone_iff_eq_none] at hall
    rw [hall] at hresult
    cases hresult
  cases pc with
  | starting site job' work image =>
    cases hreviewed : reviewed image.found with
    | false => exact (hother hreviewed).elim
    | true =>
      obtain ⟨rfl, hwaits⟩ := hw
      obtain ⟨found', hfound, hstate⟩ := reviewed_eq_true.mp hreviewed
      obtain ⟨row', hwindow'⟩ := hwaits found' hfound hstate
      exact Option.some.inj (hwindow'.owner.symm.trans hwindow.owner)
  | _ => exact (hother rfl).elim

theorem waits_step (hs : Settled d.table) (hw : Worker.Holds j now d w)
    (hfree : w.unhindered d = true) (hne : i ≠ j) (hwaits : Waits i d job image) :
    Waits i (step j now d w).1 job image := by
  cases w with
  | ended result => exact hwaits
  | active pc task =>
    by_cases hdone : ∃ outcome, task = .done outcome
    · obtain ⟨outcome, rfl⟩ := hdone
      exact hwaits
    · rw [step_active fun outcome heq => hdone ⟨outcome, heq⟩]
      intro found hfound hstate
      obtain ⟨row, hwindow⟩ := hwaits found hfound hstate
      refine ⟨row, ⟨?_, hwindow.state, hwindow.result, hwindow.attempts, hwindow.fence, ?_⟩⟩
      · refine row_kept hwindow.here hwindow.state ?_ (step_change task) fun seconds heq => ?_
        · exact (hs job row hwindow.here).1 (.inl hwindow.state)
        · subst heq
          exact hne (window_acquire hwindow hw hfree).symm
      · have hstate' : row.state ≠ .review := by
          rw [hwindow.state]
          decide
        exact (congrArg (Option.map Prod.snd) (owner_record hwindow.here hstate')).trans
          hwindow.owner

/-- What is known of a worker depends on the tables in the window only. -/
theorem Worker.Holds.mono (h : ∀ job image, Waits i d job image → Waits i d' job image)
    (hu : Worker.Holds i now d u) : Worker.Holds i now d' u := by
  cases u with
  | ended result => cases result <;> exact hu
  | active pc task =>
    cases pc with
    | requeueing site job timeout work image =>
      cases task with
      | done outcome => exact ⟨hu.1, h _ _ hu.2⟩
      | _ => exact hu
    | starting site job work image =>
      cases task with
      | called call => exact ⟨hu.1, h _ _ hu.2⟩
      | acquiring job' seconds => exact ⟨hu.1, h _ _ hu.2⟩
      | done outcome =>
        cases outcome with
        | error text => exact hu
        | ok r => cases r <;> exact hu
      | _ => exact hu
    | _ => exact hu

/-! ## Steps of an image run -/

theorem enabled_ok {site : Site} (h : (enabled site.env s).isOk = true) :
    enabled site.env s = .ok () := by
  cases hlook : enabled site.env s with
  | ok u => rfl
  | error text =>
    rw [hlook] at h
    cases h

/-- The requeue of a reviewed job opens a window. -/
theorem requeue_waits (hs : Settled d.table) {site : Site} {timeout : Int} {work : Work}
    (hfree : (d.table.row job).all (fun r => r.state ≠ .review || r.attempts < 3) = true) :
    Waits i ⟨requeue d.table job, (Pc.requeueing site job timeout work image).record i d⟩ job
      { image with found := d.table.row job } := by
  intro found hfound hstate
  have hrow : d.table.row job = some found := hfound
  rw [hrow] at hfree
  simp only [Option.all_some, hstate, ne_eq, not_true_eq_false, decide_false, Bool.false_or,
    decide_eq_true_eq] at hfree
  obtain ⟨-, hresult⟩ := hs job found hrow
  refine ⟨{ found with state := .queued }, ⟨?_, rfl, hresult hstate, hfree, rfl, ?_⟩⟩
  · change (requeue d.table job).row job = _
    unfold requeue
    rw [row_update_self requeue_id, hrow, Option.map_some, requeue_of_review hstate]
  · have hreviewed : reviewed (d.table.row job) = true := by
      rw [hrow]
      exact decide_eq_true hstate
    simp only [Desk.owner, Pc.record, if_pos hreviewed]
    rw [List.find?_cons_of_pos (by simp)]
    rfl

/-- In its window an image run gets the lease. -/
theorem acquire_window (now : Nat) (seconds : Int) (hs : Settled d.table)
    (hwindow : Window i d job found row) :
    ∃ s' brief, acquire i now d.table job seconds = .ok (s', found.fence + 1, brief) := by
  have hlease := (hs job row hwindow.here).1 (.inl hwindow.state)
  unfold acquire
  simp only [hwindow.here, hwindow.state, State.runnable, Bool.not_true, Bool.false_eq_true,
    if_false, if_neg (Nat.not_le.mpr hwindow.attempts), hlease,
    if_neg (Int.not_lt.mpr (Int.natCast_nonneg now)), hwindow.fence]
  exact ⟨_, _, rfl⟩

theorem step_own (hs : Settled d.table) (hw : Worker.Holds i now d w)
    (hfree : w.unhindered d = true) : Settled (step i now d w).1.table ∧
      Worker.Holds i now (step i now d w).1 (step i now d w).2 := by
  cases w with
  | ended result => exact ⟨hs, hw⟩
  | active pc task =>
    by_cases hdone : ∃ outcome, task = .done outcome
    · obtain ⟨outcome, rfl⟩ := hdone
      exact ⟨hs, next_holds outcome hw⟩
    rw [step_active fun outcome heq => hdone ⟨outcome, heq⟩]
    have hfinishes : Task.Finishes task := by
      cases pc with
      | requeueing =>
        cases task with
        | called call =>
          obtain ⟨rfl, -⟩ := hw
          exact trivial
        | _ => exact trivial
      | starting =>
        cases task with
        | called call =>
          obtain ⟨⟨seconds, rfl⟩, -⟩ := hw
          exact trivial
        | _ => exact trivial
      | holding | finishing | failing => exact hw.2
      | _ => exact hw
    refine ⟨hs.change (step_change task) hfinishes, ?_⟩
    cases pc with
    | requeueing site job timeout work image =>
      cases task with
      | called call =>
        obtain ⟨rfl, -⟩ := hw
        exact ⟨⟨_, rfl⟩, requeue_waits hs hfree⟩
      | done outcome => exact absurd ⟨outcome, rfl⟩ hdone
      | _ => exact hw.elim
    | starting site job work image =>
      cases task with
      | called call =>
        obtain ⟨⟨seconds, rfl⟩, hwaits⟩ := hw
        cases hlook : enabled site.env d.table with
        | ok u =>
          simp only [Leases.step, looked, hlook]
          exact ⟨rfl, hwaits⟩
        | error text =>
          simp only [Leases.step, looked, hlook]
          intro found hfound hstate
          have hreviewed : reviewed image.found = true :=
            reviewed_eq_true.mpr ⟨found, hfound, hstate⟩
          have hok : (!reviewed image.found || (enabled site.env d.table).isOk) = true := hfree
          rw [hreviewed, Bool.not_true, Bool.false_or] at hok
          rw [enabled_ok hok] at hlook
          cases hlook
      | acquiring job' seconds =>
        obtain ⟨rfl, hwaits⟩ := hw
        simp only [Leases.step]
        split
        · rename_i s' fence brief hacquire
          intro found hfound hstate
          obtain ⟨row, hwindow⟩ := hwaits found hfound hstate
          obtain ⟨s'', brief', hok⟩ := acquire_window now seconds hs hwindow
          rw [hacquire] at hok
          cases hok
          rfl
        · rename_i text hacquire
          intro found hfound hstate
          obtain ⟨row, hwindow⟩ := hwaits found hfound hstate
          obtain ⟨s'', brief', hok⟩ := acquire_window now seconds hs hwindow
          rw [hacquire] at hok
          cases hok
      | done outcome => exact absurd ⟨outcome, rfl⟩ hdone
      | _ => exact hw.elim
    | holding h => exact ⟨hw.1, step_finishes⟩
    | finishing h => exact ⟨hw.1, step_finishes⟩
    | failing h text => exact ⟨hw.1, step_finishes⟩
    | _ => exact step_finishes

end

/-! ## Every run -/

theorem machine_keeps : machine.Keeps (fun _ d => Settled d.table) Worker.Holds
    fun _ _ d w => w.unhindered d = true where
  enter _ _ _ c _ := by cases c <;> exact trivial
  later _ _ _ _ h := ⟨h, fun _ _ hw => hw⟩
  own _ _ _ _ h hw hfree := step_own h hw hfree
  others _ _ _ _ _ _ h hw hfree hne hu := hu.mono fun _ _ => waits_step h hw hfree hne
  stop _ _ _ _ h _ := ⟨h, trivial, fun _ _ _ hu => hu⟩

theorem initial_sound (control : Control) (now : Nat) :
    Interleavings.Machine.Sound (fun _ d => Settled d.table) Worker.Holds
      (initial control now) where
  store _ _ hrow := by cases hrow
  tasks _ _ h := by cases h

theorem Worker.Holds.sound {i now : Nat} {d : Desk} {w : Worker} {h : Held}
    (hw : Worker.Holds i now d w) (hheld : w.held = some h) : h.Sound := by
  cases w with
  | ended result => cases hheld
  | active pc task =>
    cases pc with
    | holding | finishing | failing =>
      cases hheld
      exact hw.1
    | _ => cases hheld

theorem Worker.Holds.waits {i now : Nat} {d : Desk} {w : Worker} {job : String} {image : Image}
    (hw : Worker.Holds i now d w) (hwaits : w.waits = some (job, image)) : Waits i d job image := by
  cases w with
  | ended result => cases hwaits
  | active pc task =>
    cases pc with
    | requeueing =>
      cases hwaits
      cases task with
      | called call =>
        intro found hfound
        rw [hw.2] at hfound
        cases hfound
      | done outcome => exact hw.2
      | _ => exact hw.elim
    | starting =>
      cases task with
      | called call =>
        cases hwaits
        exact hw.2
      | acquiring job' seconds =>
        cases hwaits
        exact hw.2
      | _ => cases hwaits
    | _ => cases hwaits

/-- In every run whose workers are unhindered, no image run loses a proposal before it starts. -/
theorem proposals_intact (control : Control) (now : Nat)
    (moves : List (Interleavings.Move Command))
    (hfree : machine.Meets (fun _ _ d w => w.unhindered d = true) (initial control now) moves) :
    Intact (machine.run (initial control now) moves) := by
  have hsound := (initial_sound control now).run machine_keeps hfree
  refine ⟨fun i image text hw r hr => ?_, fun i w job image found hw hwaits hfound hstate => ?_,
    fun i w h image found hw hheld himage hfound hstate => ?_⟩
  · have hnot : ∀ found ∈ image.found, found.state ≠ .review := hsound.tasks i _ hw
    exact requeue_of_ne (hnot r hr)
  · obtain ⟨row, hwindow⟩ := (hsound.tasks i w hw).waits hwaits found hfound hstate
    exact ⟨row, hwindow.here, hwindow.fence⟩
  · exact (hsound.tasks i w hw).sound hheld image himage found hfound hstate

/-! ## A pause -/

namespace Sample
open Interleavings (Move)

def site : Site := ⟨[("CC_GENERATION_ENABLED", "1")], "/data/generation"⟩

def open_ : Control := ⟨some false, false⟩

def work : Work := ⟨[], none⟩

def command (i n : Nat) (c : Command) : List (Move Command) := .call c :: List.replicate n (.step i)

/-- A job is generated; an image run of it comes after a pause, or not. -/
def moves (control : Control) : List (Move Command) :=
  command 0 2 (.enqueue "j" "b") ++ command 1 5 (.run site "j" work) ++
    command 2 2 (.operate control) ++ command 3 7 (.image site "j" 1200 work) ++
    command 4 2 (.candidateStage "j")

def paused : Control := ⟨some true, false⟩

end Sample

/-- The paused image run leaves the job queued, and its proposal is no longer accepted. -/
theorem paused_image_lost :
    ¬ Intact (machine.run (initial Sample.open_ 0) (Sample.moves Sample.paused)) ∧
      (machine.run (initial Sample.open_ 0) (Sample.moves Sample.paused)).tasks[4]? =
        some (.ended (.raised "job not ready for review")) := by
  have hrun : (machine.run (initial Sample.open_ 0) (Sample.moves Sample.paused)).tasks[3]? =
      some (.ended (.refused ⟨⟨"j", "b", .review, 1, 0, 1,
        some "/data/generation/j/1/proposal.json", none⟩, some ⟨"j", "b", .review, 1, 0, 1,
        some "/data/generation/j/1/proposal.json", none⟩⟩
        "operator/deployment pause active")) := by decide
  refine ⟨fun h => ?_, by decide⟩
  have hsame := congrArg Job.state (h.refused 3 _ _ hrun _ rfl)
  cases hsame

/-- Without the pause the image run gets the lease. -/
theorem proposals_intact_open :
    Intact (machine.run (initial Sample.open_ 0) (Sample.moves Sample.open_)) :=
  proposals_intact Sample.open_ 0 (Sample.moves Sample.open_) (by decide)

end Clockchain.Operator.Images
