import Clockchain.Interleavings
import Mathlib.Algebra.BigOperators.Group.List.Basic
import Mathlib.Algebra.GroupWithZero.Nat

/-!
# Generation leases

`Jobs` of `ops/generation_worker.py`: workers that share the tables of `generation_jobs` and
`generation_reservations`. A transaction holds the advisory lock and is one step; what a call looks
at before its transaction is a step of its own.
-/

namespace Clockchain.Operator.Leases
set_option autoImplicit false

/-! ## The tables -/

/-- The clock counts microseconds. -/
def second : Nat := 1000000

/-- `now()[:10]`; days are counted. -/
def utcDay (now : Nat) : Nat := now / (86400 * second)

inductive State where
  | queued
  | running
  | review
  | failed
  deriving Repr, DecidableEq

/-- A row of `generation_jobs`. -/
structure Job where
  id : String
  brief : String
  state : State
  fence : Nat
  lease : Int
  attempts : Nat
  result : Option String
  error : Option String
  deriving Repr, DecidableEq

/-- A row of `generation_reservations`. -/
structure Reservation where
  id : String
  day : Nat
  job : String
  kind : String
  cents : Nat
  created : Nat
  deriving Repr, DecidableEq

/-- `paused` of the row of `publication_control`, and the STOP file. -/
structure Control where
  paused : Option Bool
  stopFile : Bool
  deriving Repr, DecidableEq

/-- A worker's environment. -/
abbrev Environment := List (String × String)

def signingKeys : List String :=
  ["MIGRATOR_SECRET_KEY", "CC_LEDGER_SIGNING_KEY", "CC_NODE_API_KEY", "GENESIS_SECRET_KEY"]

/-- A successful acquire, and the number of the task that made it. -/
structure Acquisition where
  task : Nat
  job : String
  fence : Nat
  deriving Repr, DecidableEq

/-- The tables, the controls, and the acquisitions so far, the last one first. -/
structure Store where
  jobs : List Job
  reservations : List Reservation
  control : Control
  log : List Acquisition
  deriving Repr, DecidableEq

namespace Store

def empty (control : Control) : Store := ⟨[], [], control, []⟩

/-- `SELECT * FROM generation_jobs WHERE id=%s`. -/
def row (s : Store) (job : String) : Option Job := s.jobs.find? fun r => r.id = job

/-- `UPDATE generation_jobs .. WHERE id=%s`. -/
def update (s : Store) (job : String) (f : Job → Job) : Store :=
  { s with jobs := s.jobs.map fun r => if r.id = job then f r else r }

def insert (s : Store) (job brief : String) : Store :=
  { s with jobs := s.jobs ++ [⟨job, brief, .queued, 0, 0, 0, none, none⟩] }

/-- The sum of the cents of a day. -/
def cents (s : Store) (day : Nat) : Nat :=
  ((s.reservations.filter fun r => r.day = day).map Reservation.cents).sum

/-- The text reservations of a day. -/
def calls (s : Store) (day : Nat) : Nat :=
  s.reservations.countP fun r => r.day = day && r.kind = "text"

end Store

/-! ## The transactions -/

def Environment.get (env : Environment) (key : String) : Option String :=
  (env.find? fun entry => entry.1 = key).map Prod.snd

def enabled (env : Environment) (s : Store) : Except String Unit :=
  if s.control.paused ≠ some false then throw "operator/deployment pause active"
  else if env.get "CC_GENERATION_ENABLED" ≠ some "1" || s.control.stopFile then
    throw "generation disabled (CC_GENERATION_ENABLED=1 and no STOP file required)"
  else if signingKeys.any fun key => (env.get key).any fun value => value ≠ "" then
    throw "worker environment contains ledger signing material"
  else pure ()

/-- What `guard` asks of the row. -/
def current (now : Nat) (s : Store) (job : String) (fence : Nat) : Bool :=
  (s.row job).any fun r => r.fence = fence && (now : Int) < r.lease

def guard (env : Environment) (now : Nat) (s : Store) (job : String) (fence : Nat) :
    Except String Unit := do
  enabled env s
  if current now s job fence then pure () else throw "stale lease"

def enqueue (s : Store) (job brief : String) : Except String Store :=
  match s.row job with
  | some old => if old.brief ≠ brief then throw "job id already binds another brief" else pure s
  | none => pure (s.insert job brief)

def State.runnable : State → Bool
  | .queued | .failed | .running => true
  | .review => false

/-- The row that a worker leaves when it takes a job. -/
def Job.lend (r : Job) (until_ : Int) : Job :=
  { r with
    state := .running, fence := r.fence + 1, lease := until_, error := none,
    attempts := r.attempts + 1 }

/-- The transaction of `acquire`. -/
def acquire (i now : Nat) (s : Store) (job : String) (seconds : Int) :
    Except String (Store × Nat × String) :=
  match s.row job with
  | none => throw "job not runnable"
  | some row =>
    if !row.state.runnable then throw "job not runnable"
    else if 3 ≤ row.attempts then throw "attempt limit reached; operator must create a new job"
    else if (now : Int) < row.lease then throw "job leased"
    else
      let lent := s.update job fun r => r.lend (now + seconds * second)
      pure ({ lent with log := ⟨i, job, row.fence + 1⟩ :: s.log }, row.fence + 1, row.brief)

/-- The part of `reserve` before its transaction. -/
def reserveArguments (env : Environment) (s : Store) (kind : String) (cents : Int) :
    Except String Unit := do
  enabled env s
  if (kind ≠ "text" && kind ≠ "image") || cents < 0 || (kind = "text" && cents ≠ 0) then
    throw "invalid reservation"

/-- The transaction of `reserve`; `ident` is the random id of the row. -/
def reserve (env : Environment) (now : Nat) (s : Store) (ident job : String) (fence : Nat)
    (kind : String) (cents : Nat) : Except String Store := do
  guard env now s job fence
  let day := utcDay now
  if 500 < s.cents day + cents || (kind = "text" && 40 ≤ s.calls day) then
    throw "daily budget exhausted"
  if s.reservations.any fun r => r.id = ident then throw "duplicate key value"
  pure { s with reservations := s.reservations ++ [⟨ident, day, job, kind, cents, now⟩] }

/-- The row that a worker leaves when it gives a job up. -/
def Job.settle (r : Job) (fence : Nat) (state : State) (result error : Option String) : Job :=
  if r.fence = fence then { r with state := state, result := result, error := error, lease := 0 }
  else r

def finish (env : Environment) (now : Nat) (s : Store) (job : String) (fence : Nat) (state : State)
    (result error : Option String) : Except String Store := do
  guard env now s job fence
  pure (s.update job fun r => r.settle fence state result error)

/-- `image_job` puts a job in review back in the queue. -/
def Job.requeue (r : Job) : Job := if r.state = .review then { r with state := .queued } else r

def requeue (s : Store) (job : String) : Store := s.update job Job.requeue

/-- `serve`: the first job that waits. -/
def poll (now : Nat) (s : Store) : Option String :=
  ((s.jobs.filter fun r => r.state = .queued && r.lease ≤ (now : Int)).map Job.id).foldl
    (fun first id => if first.any (· ≤ id) then first else some id) none

/-! ## The calls -/

inductive Call where
  | enqueue (job brief : String)
  | acquire (env : Environment) (job : String) (seconds : Int)
  | guard (env : Environment) (job : String) (fence : Nat)
  | reserve (env : Environment) (ident job : String) (fence : Nat) (kind : String) (cents : Int)
  | finish (env : Environment) (job : String) (fence : Nat) (state : State)
      (result error : Option String)
  | requeue (job : String)
  | enabled (env : Environment)
  | select (job : String)
  | poll
  | operate (control : Control)
  deriving Repr, DecidableEq

inductive Return where
  | none
  | lease (fence : Nat) (brief : String)
  | row (row : Option Job)
  | id (job : Option String)
  deriving Repr, DecidableEq

/-- Where a call is: before its first look, before its transaction or last look, or at its end. -/
inductive Task where
  | called (call : Call)
  | acquiring (job : String) (seconds : Int)
  | guarding (job : String) (fence : Nat)
  | reserving (env : Environment) (ident job : String) (fence : Nat) (kind : String) (cents : Nat)
  | done (outcome : Except String Return)
  deriving DecidableEq

/-- The end of a call that reads. -/
def seen (s : Store) (outcome : Except String Return) : Store × Task := (s, .done outcome)

/-- The end of a call that writes: a transaction that raises is rolled back. -/
def written (s : Store) : Except String Store → Store × Task
  | .ok s' => (s', .done (.ok .none))
  | .error text => (s, .done (.error text))

/-- A look, and what follows when it raises nothing. -/
def looked (s : Store) (look : Except String Unit) (next : Task) : Store × Task :=
  match look with
  | .ok () => (s, next)
  | .error text => (s, .done (.error text))

def step (i now : Nat) (s : Store) : Task → Store × Task
  | .called (.enqueue job brief) => written s (enqueue s job brief)
  | .called (.acquire env job seconds) => looked s (enabled env s) (.acquiring job seconds)
  | .called (.guard env job fence) => looked s (enabled env s) (.guarding job fence)
  | .called (.reserve env ident job fence kind cents) =>
    looked s (reserveArguments env s kind cents) (.reserving env ident job fence kind cents.toNat)
  | .called (.finish env job fence state result error) =>
    written s (finish env now s job fence state result error)
  | .called (.requeue job) => written s (.ok (requeue s job))
  | .called (.enabled env) => looked s (enabled env s) (.done (.ok .none))
  | .called (.select job) => seen s (.ok (.row (s.row job)))
  | .called .poll => seen s (.ok (.id (poll now s)))
  | .called (.operate control) => written s (.ok { s with control := control })
  | .acquiring job seconds =>
    match acquire i now s job seconds with
    | .ok (s', fence, brief) => (s', .done (.ok (.lease fence brief)))
    | .error text => (s, .done (.error text))
  | .guarding job fence =>
    seen s (if current now s job fence then .ok .none else .error "stale lease")
  | .reserving env ident job fence kind cents =>
    written s (reserve env now s ident job fence kind cents)
  | .done outcome => (s, .done outcome)

/-- A worker ends; an open transaction is rolled back. -/
def stop (_ : Nat) (s : Store) (_ : Task) : Store × Task := (s, .done (.error "stopped"))

def machine : Interleavings.Machine Call Store Task := ⟨.called, step, stop⟩

/-! ## What leases promise -/

/-- The job and the fence under which a task writes. -/
def Task.writes : Task → Option (String × Nat)
  | .called (.reserve _ _ job fence _ _) => some (job, fence)
  | .called (.finish _ job fence _ _ _) => some (job, fence)
  | .reserving _ _ job fence _ _ => some (job, fence)
  | _ => none

/-- The leases of a job follow one another, and nobody writes without the last one. -/
structure Exclusive (sys : Interleavings.System Store Task) : Prop where
  fences : sys.store.log.Pairwise fun later earlier =>
    later.job = earlier.job → earlier.fence < later.fence
  holder : ∀ a ∈ sys.store.log, ∀ b ∈ sys.store.log, ∀ env env', a.job = b.job →
    guard env sys.clock sys.store a.job a.fence = .ok () →
    guard env' sys.clock sys.store b.job b.fence = .ok () → a = b
  stale : ∀ (i : Nat) (t : Task) (job : String) (fence : Nat), sys.tasks[i]? = some t →
    t.writes = some (job, fence) → current sys.clock sys.store job fence = false →
    (step i sys.clock sys.store t).1 = sys.store
  thrice : ∀ job, (sys.store.log.countP fun a => a.job = job) ≤ 3
  calls : ∀ day, sys.store.calls day ≤ 40
  cents : ∀ day, sys.store.cents day ≤ 500

/-- Jobs stay, with their briefs, and their fences do not fall. -/
def Store.Follows (s s' : Store) : Prop :=
  ∀ job row, s.row job = some row →
    ∃ row', s'.row job = some row' ∧ row'.brief = row.brief ∧ row.fence ≤ row'.fence

/-! ## What a step does -/

/-- The changes that a step of a task can make. -/
inductive Change (i now : Nat) (s : Store) : Task → Store → Prop where
  | same (t : Task) : Change i now s t s
  | operate (control : Control) :
      Change i now s (.called (.operate control)) { s with control := control }
  | enqueue (job brief : String) (hnew : s.row job = none) :
      Change i now s (.called (.enqueue job brief)) (s.insert job brief)
  | acquire (job : String) (seconds : Int) (row : Job) (hrow : s.row job = some row)
      (hstate : row.state.runnable = true) (hattempts : row.attempts < 3)
      (hlease : row.lease ≤ (now : Int)) :
      Change i now s (.acquiring job seconds)
        { s.update job fun r => r.lend (now + seconds * second) with
          log := ⟨i, job, row.fence + 1⟩ :: s.log }
  | requeue (job : String) : Change i now s (.called (.requeue job)) (requeue s job)
  | reserve (env : Environment) (ident job kind : String) (fence cents : Nat)
      (hcurrent : current now s job fence = true) (hcents : s.cents (utcDay now) + cents ≤ 500)
      (hcalls : kind = "text" → s.calls (utcDay now) < 40) :
      Change i now s (.reserving env ident job fence kind cents)
        { s with reservations := s.reservations ++ [⟨ident, utcDay now, job, kind, cents, now⟩] }
  | finish (env : Environment) (job : String) (fence : Nat) (state : State)
      (result error : Option String) (hcurrent : current now s job fence = true) :
      Change i now s (.called (.finish env job fence state result error))
        (s.update job fun r => r.settle fence state result error)

section
variable {i now fence cents : Nat} {s s' : Store} {job brief ident kind : String} {state : State}
variable {result error : Option String} {env : Environment} {f : Job → Job} {t : Task}

theorem guard_ok : guard env now s job fence = .ok () ↔
    enabled env s = .ok () ∧ current now s job fence = true := by
  unfold guard
  cases enabled env s with
  | error text =>
    refine ⟨fun h => ?_, fun h => ?_⟩
    · cases h
    · cases h.1
  | ok u =>
    cases current now s job fence with
    | true => exact ⟨fun _ => ⟨rfl, rfl⟩, fun _ => rfl⟩
    | false =>
      refine ⟨fun h => ?_, fun h => ?_⟩
      · cases h
      · cases h.2

theorem guard_error (env : Environment) (h : current now s job fence = false) :
    ∃ text, guard env now s job fence = .error text := by
  cases hguard : guard env now s job fence with
  | error text => exact ⟨text, rfl⟩
  | ok u =>
    have := (guard_ok.mp hguard).2
    rw [h] at this
    cases this

theorem current_eq_true : current now s job fence = true ↔
    ∃ row, s.row job = some row ∧ row.fence = fence ∧ (now : Int) < row.lease := by
  unfold current
  cases s.row job with
  | none => simp
  | some row => simp

/-! ## Rows -/

theorem row_id {row : Job} (h : s.row job = some row) : row.id = job := by
  have := List.find?_some h
  exact of_decide_eq_true this

theorem row_update (hf : ∀ r, (f r).id = r.id) (other : String) :
    (s.update job f).row other = (s.row other).map fun r => if r.id = job then f r else r := by
  unfold Store.row Store.update
  rw [List.find?_map]
  congr 2
  funext r
  simp only [Function.comp]
  split
  · rw [hf]
  · rfl

theorem row_update_self (hf : ∀ r, (f r).id = r.id) :
    (s.update job f).row job = (s.row job).map f := by
  rw [row_update hf]
  cases h : s.row job with
  | none => rfl
  | some row => simp only [Option.map_some, if_pos (row_id h)]

theorem row_update_ne {other : String} (hf : ∀ r, (f r).id = r.id) (hne : other ≠ job) :
    (s.update job f).row other = s.row other := by
  rw [row_update hf]
  cases h : s.row other with
  | none => rfl
  | some row =>
    have : row.id ≠ job := fun heq => hne ((row_id h).symm.trans heq)
    simp only [Option.map_some, if_neg this]

theorem row_insert (other : String) : (s.insert job brief).row other =
    (s.row other).or (if job = other then some ⟨job, brief, .queued, 0, 0, 0, none, none⟩
      else none) := by
  unfold Store.row Store.insert
  rw [List.find?_append, List.find?_singleton]
  simp only [decide_eq_true_eq]

@[simp] theorem settle_id (r : Job) : (r.settle fence state result error).id = r.id := by
  unfold Job.settle
  split <;> rfl

@[simp] theorem requeue_id (r : Job) : r.requeue.id = r.id := by
  unfold Job.requeue
  split <;> rfl

/-- Only a lease moves the brief, the fence or the attempts of a row. -/
theorem settle_keeps (r : Job) : (r.settle fence state result error).brief = r.brief ∧
    (r.settle fence state result error).fence = r.fence ∧
    (r.settle fence state result error).attempts = r.attempts := by
  unfold Job.settle
  split <;> exact ⟨rfl, rfl, rfl⟩

theorem requeue_keeps (r : Job) :
    r.requeue.brief = r.brief ∧ r.requeue.fence = r.fence ∧ r.requeue.attempts = r.attempts := by
  unfold Job.requeue
  split <;> exact ⟨rfl, rfl, rfl⟩

/-! ## Every step is one of the changes -/

theorem enqueue_change :
    Change i now s (.called (.enqueue job brief)) (written s (enqueue s job brief)).1 := by
  unfold enqueue
  cases hrow : s.row job with
  | none => exact .enqueue job brief hrow
  | some old =>
    by_cases hbrief : old.brief ≠ brief
    · simp only [if_pos hbrief]
      exact .same _
    · simp only [if_neg hbrief]
      exact .same _

theorem looked_same {look : Except String Unit} {next : Task} : (looked s look next).1 = s := by
  unfold looked
  split <;> rfl

/-- What a successful acquire has found and done. -/
theorem acquire_ok {seconds : Int} {brief : String}
    (h : acquire i now s job seconds = .ok (s', fence, brief)) :
    ∃ row, s.row job = some row ∧ row.state.runnable = true ∧ row.attempts < 3 ∧
      row.lease ≤ (now : Int) ∧ fence = row.fence + 1 ∧ brief = row.brief ∧
      s' = { s.update job fun r => r.lend (now + seconds * second) with
        log := ⟨i, job, row.fence + 1⟩ :: s.log } := by
  unfold acquire at h
  cases hrow : s.row job with
  | none =>
    rw [hrow] at h
    cases h
  | some row =>
    rw [hrow] at h
    dsimp only at h
    split at h
    · cases h
    rename_i hstate
    split at h
    · cases h
    rename_i hattempts
    split at h
    · cases h
    rename_i hlease
    cases h
    exact ⟨row, rfl, by simpa using hstate, Nat.lt_of_not_le hattempts, Int.not_lt.mp hlease, rfl,
      rfl, rfl⟩

theorem reserve_ok (h : reserve env now s ident job fence kind cents = .ok s') :
    current now s job fence = true ∧ s.cents (utcDay now) + cents ≤ 500 ∧
      (kind = "text" → s.calls (utcDay now) < 40) ∧
      s' = { s with
        reservations := s.reservations ++ [⟨ident, utcDay now, job, kind, cents, now⟩] } := by
  unfold reserve at h
  cases hguard : guard env now s job fence with
  | error text =>
    rw [hguard] at h
    cases h
  | ok u =>
    rw [hguard] at h
    dsimp only [bind, Except.bind] at h
    split at h
    · cases h
    rename_i hbudget
    split at h
    · cases h
    cases h
    simp only [Bool.or_eq_true, Bool.and_eq_true, decide_eq_true_eq, not_or, not_and] at hbudget
    exact ⟨(guard_ok.mp hguard).2, by omega, fun hk => Nat.lt_of_not_le (hbudget.2 hk), rfl⟩

theorem finish_ok (h : finish env now s job fence state result error = .ok s') :
    current now s job fence = true ∧
      s' = s.update job fun r => r.settle fence state result error := by
  unfold finish at h
  cases hguard : guard env now s job fence with
  | error text =>
    rw [hguard] at h
    cases h
  | ok u =>
    rw [hguard] at h
    cases h
    exact ⟨(guard_ok.mp hguard).2, rfl⟩

theorem step_change (t : Task) : Change i now s t (step i now s t).1 := by
  cases t with
  | called call =>
    cases call with
    | enqueue job brief => exact enqueue_change
    | acquire env job seconds => exact looked_same ▸ .same _
    | guard env job fence => exact looked_same ▸ .same _
    | reserve env ident job fence kind cents => exact looked_same ▸ .same _
    | finish env job fence state result error =>
      simp only [step]
      cases h : finish env now s job fence state result error with
      | error text => exact .same _
      | ok s' =>
        obtain ⟨hcurrent, rfl⟩ := finish_ok h
        exact .finish env job fence state result error hcurrent
    | requeue job => exact .requeue job
    | enabled env => exact looked_same ▸ .same _
    | select job => exact .same _
    | poll => exact .same _
    | operate control => exact .operate control
  | acquiring job seconds =>
    simp only [step]
    cases h : acquire i now s job seconds with
    | error text => exact .same _
    | ok out =>
      obtain ⟨s', fence, brief⟩ := out
      obtain ⟨row, hrow, hstate, hattempts, hlease, -, -, rfl⟩ := acquire_ok h
      exact .acquire job seconds row hrow hstate hattempts hlease
  | guarding job fence => exact .same _
  | reserving env ident job fence kind cents =>
    simp only [step]
    cases h : reserve env now s ident job fence kind cents with
    | error text => exact .same _
    | ok s' =>
      obtain ⟨hcurrent, hcents, hcalls, rfl⟩ := reserve_ok h
      exact .reserve env ident job kind fence cents hcurrent hcents hcalls
  | done outcome => exact .same _

/-! ## Jobs stay -/

theorem follows_update (job : String) (hid : ∀ r, (f r).id = r.id)
    (hbrief : ∀ r, (f r).brief = r.brief) (hfence : ∀ r, r.fence ≤ (f r).fence) :
    s.Follows (s.update job f) := by
  intro other row hrow
  refine ⟨if row.id = job then f row else row, ?_, ?_, ?_⟩
  · rw [row_update hid, hrow, Option.map_some]
  · split
    · exact hbrief row
    · rfl
  · split
    · exact hfence row
    · exact Nat.le_refl _

theorem follows_refl (s : Store) : s.Follows s := fun _ row hrow =>
  ⟨row, hrow, rfl, Nat.le_refl _⟩

theorem follows_trans (s s' s'' : Store) (h : s.Follows s') (h' : s'.Follows s'') :
    s.Follows s'' := by
  intro job row hrow
  obtain ⟨row', hrow', hbrief, hfence⟩ := h job row hrow
  obtain ⟨row'', hrow'', hbrief', hfence'⟩ := h' job row' hrow'
  exact ⟨row'', hrow'', hbrief'.trans hbrief, Nat.le_trans hfence hfence'⟩

theorem Change.follows (h : Change i now s t s') : s.Follows s' := by
  cases h with
  | same t => exact follows_refl s
  | operate control => exact follows_refl s
  | enqueue job brief hnew =>
    intro other row hrow
    refine ⟨row, ?_, rfl, Nat.le_refl _⟩
    rw [row_insert, hrow, Option.some_or]
  | acquire job seconds row =>
    exact follows_update job (fun _ => rfl) (fun _ => rfl) fun r => Nat.le_succ r.fence
  | requeue job =>
    exact follows_update job requeue_id (fun r => (requeue_keeps r).1)
      fun r => Nat.le_of_eq (requeue_keeps r).2.1.symm
  | reserve => exact follows_refl s
  | finish env job fence state result error =>
    exact follows_update job settle_id (fun r => (settle_keeps r).1) fun r =>
      Nat.le_of_eq (settle_keeps r).2.1.symm

/-! ## The invariant -/

/-- Every acquisition has its fence below the row's, and the row counts them. -/
structure Fenced (s : Store) : Prop where
  fences : s.log.Pairwise fun later earlier => later.job = earlier.job → earlier.fence < later.fence
  rows : ∀ a ∈ s.log, ∃ row, s.row a.job = some row ∧ a.fence ≤ row.fence
  attempts : ∀ job row, s.row job = some row →
    (s.log.countP fun a => a.job = job) = row.attempts ∧ row.attempts ≤ 3
  calls : ∀ day, s.calls day ≤ 40
  cents : ∀ day, s.cents day ≤ 500

theorem empty_fenced (control : Control) : Fenced (.empty control) where
  fences := .nil
  rows a ha := by cases ha
  attempts job row hrow := by cases hrow
  calls _ := Nat.zero_le _
  cents _ := Nat.zero_le _

theorem Fenced.count_none (h : Fenced s) (hrow : s.row job = none) :
    (s.log.countP fun a => a.job = job) = 0 := by
  rw [List.countP_eq_zero]
  intro a ha hjob
  obtain ⟨row, hsome, -⟩ := h.rows a ha
  rw [of_decide_eq_true hjob, hrow] at hsome
  cases hsome

/-- A change of rows that is no acquisition. -/
theorem Fenced.update (h : Fenced s) (hid : ∀ r, (f r).id = r.id)
    (hfence : ∀ r, (f r).brief = r.brief ∧ (f r).fence = r.fence ∧ (f r).attempts = r.attempts) :
    Fenced (s.update job f) where
  fences := h.fences
  rows a ha := by
    obtain ⟨row, hrow, hle⟩ := h.rows a ha
    obtain ⟨row', hrow', -, hle'⟩ :=
      follows_update job hid (fun r => (hfence r).1) (fun r => Nat.le_of_eq (hfence r).2.1.symm)
        a.job row hrow
    exact ⟨row', hrow', Nat.le_trans hle hle'⟩
  attempts other row hrow := by
    rw [row_update hid] at hrow
    obtain ⟨old, hold, rfl⟩ := Option.map_eq_some_iff.mp hrow
    have hcount := h.attempts other old hold
    split
    · rw [(hfence old).2.2]
      exact hcount
    · exact hcount
  calls := h.calls
  cents := h.cents

theorem Fenced.acquire (h : Fenced s) {row : Job} {until_ : Int} (hrow : s.row job = some row)
    (hattempts : row.attempts < 3) :
    Fenced { s.update job fun r => r.lend until_ with log := ⟨i, job, row.fence + 1⟩ :: s.log } where
  fences := by
    refine List.pairwise_cons.mpr ⟨fun a ha hjob => ?_, h.fences⟩
    obtain ⟨row', hrow', hle⟩ := h.rows a ha
    rw [← show job = a.job from hjob, hrow] at hrow'
    obtain rfl := Option.some.inj hrow'
    exact Nat.lt_succ_of_le hle
  rows a ha := by
    rcases List.mem_cons.mp ha with rfl | ha
    · refine ⟨row.lend until_, ?_, Nat.le_refl _⟩
      have hself : (s.update job fun r => r.lend until_).row job = _ := row_update_self fun _ => rfl
      rw [hrow] at hself
      exact hself
    · obtain ⟨row', hrow', hle⟩ := h.rows a ha
      obtain ⟨row'', hrow'', -, hle'⟩ :=
        follows_update (f := fun r => r.lend until_) job (fun _ => rfl)
          (fun _ => rfl) (fun r => Nat.le_succ r.fence) a.job row' hrow'
      exact ⟨row'', hrow'', Nat.le_trans hle hle'⟩
  attempts other row' hrow' := by
    change (s.update job fun r => r.lend until_).row other = some row' at hrow'
    rw [row_update (f := fun r => r.lend until_) fun _ => rfl] at hrow'
    obtain ⟨old, hold, rfl⟩ := Option.map_eq_some_iff.mp hrow'
    obtain ⟨hcount, hle⟩ := h.attempts other old hold
    rw [List.countP_cons]
    by_cases hjob : job = other
    · subst hjob
      rw [hrow] at hold
      obtain rfl := Option.some.inj hold
      rw [if_pos (row_id hrow), if_pos (decide_eq_true rfl), hcount]
      exact ⟨rfl, hattempts⟩
    · have hid : old.id ≠ job := fun heq => hjob (heq.symm.trans (row_id hold))
      rw [if_neg hid, if_neg (by simpa using hjob)]
      exact ⟨hcount, hle⟩
  calls := h.calls
  cents := h.cents

theorem Fenced.reserve (h : Fenced s) (hcents : s.cents (utcDay now) + cents ≤ 500)
    (hcalls : kind = "text" → s.calls (utcDay now) < 40) :
    Fenced { s with
      reservations := s.reservations ++ [⟨ident, utcDay now, job, kind, cents, now⟩] } where
  fences := h.fences
  rows := h.rows
  attempts := h.attempts
  calls day := by
    have hold := h.calls day
    unfold Store.calls at hold hcalls ⊢
    rw [List.countP_append, List.countP_singleton]
    split
    · rename_i hnew
      simp only [Bool.and_eq_true, decide_eq_true_eq] at hnew
      obtain ⟨rfl, hkind⟩ := hnew
      exact hcalls hkind
    · exact hold
  cents day := by
    have hold := h.cents day
    unfold Store.cents at hold hcents ⊢
    rw [List.filter_append, List.map_append, List.sum_append, List.filter_singleton]
    by_cases hday : utcDay now = day
    · subst hday
      simpa using hcents
    · simpa [hday] using hold

theorem Fenced.change (h : Fenced s) (hchange : Change i now s t s') : Fenced s' := by
  cases hchange with
  | same t => exact h
  | operate control => exact ⟨h.fences, h.rows, h.attempts, h.calls, h.cents⟩
  | enqueue job brief hnew =>
    refine ⟨h.fences, fun a ha => ?_, fun other row hrow => ?_, h.calls, h.cents⟩
    · obtain ⟨row, hrow, hle⟩ := h.rows a ha
      obtain ⟨row', hrow', -, hle'⟩ :=
        (show Change i now s _ _ from .enqueue job brief hnew).follows a.job row hrow
      exact ⟨row', hrow', Nat.le_trans hle hle'⟩
    · rw [row_insert] at hrow
      cases hold : s.row other with
      | some old =>
        rw [hold, Option.some_or] at hrow
        obtain rfl := Option.some.inj hrow
        exact h.attempts other _ hold
      | none =>
        rw [hold, Option.none_or] at hrow
        split at hrow
        · obtain rfl := Option.some.inj hrow
          exact ⟨h.count_none hold, Nat.zero_le _⟩
        · cases hrow
  | acquire job seconds row hrow hstate hattempts hlease => exact h.acquire hrow hattempts
  | requeue job => exact h.update requeue_id requeue_keeps
  | reserve env ident job kind fence cents hcurrent hcents hcalls => exact h.reserve hcents hcalls
  | finish env job fence state result error => exact h.update settle_id settle_keeps

/-- Two fences of one job that the guard lets through are one acquisition. -/
theorem Fenced.holder (h : Fenced s) {a b : Acquisition} (ha : a ∈ s.log) (hb : b ∈ s.log)
    (hjob : a.job = b.job) (hpass : current now s a.job a.fence = true)
    (hpass' : current now s b.job b.fence = true) : a = b := by
  obtain ⟨row, hrow, hfence, -⟩ := current_eq_true.mp hpass
  obtain ⟨row', hrow', hfence', -⟩ := current_eq_true.mp hpass'
  rw [← hjob, hrow] at hrow'
  obtain rfl := Option.some.inj hrow'
  have hsame : a.fence = b.fence := hfence.symm.trans hfence'
  have hlater : ∀ x y : Acquisition, (x.job = y.job → y.fence < x.fence) → x.job = y.job →
      x.fence = y.fence → x = y :=
    fun x y hxy hjob hfence => absurd hfence (Nat.ne_of_gt (hxy hjob))
  refine List.Pairwise.forall_of_forall_of_flip
    (R := fun x y : Acquisition => x.job = y.job → x.fence = y.fence → x = y)
    (fun _ _ _ _ => rfl) (h.fences.imp (hlater _ _)) (h.fences.imp fun hxy hjob hfence => ?_)
    ha hb hjob hsame
  exact (hlater _ _ hxy hjob.symm hfence.symm).symm

/-- Without the last fence, or after its lease, a write raises. -/
theorem stale_step {t : Task} (hwrites : t.writes = some (job, fence))
    (hstale : current now s job fence = false) : (step i now s t).1 = s := by
  cases t with
  | called call =>
    cases call with
    | reserve env ident job' fence' kind cents => exact looked_same
    | finish env job' fence' state result error =>
      cases hwrites
      obtain ⟨text, hguard⟩ := guard_error env hstale
      simp only [step, finish, hguard]
      rfl
    | _ => cases hwrites
  | reserving env ident job' fence' kind cents =>
    cases hwrites
    obtain ⟨text, hguard⟩ := guard_error env hstale
    simp only [step, reserve, hguard]
    rfl
  | _ => cases hwrites

end

/-! ## Every run -/

theorem machine_keeps :
    machine.Keeps (fun _ => Fenced) (fun _ _ _ _ => True) fun _ _ _ _ => True where
  enter _ _ _ _ _ := trivial
  later _ _ _ _ h := ⟨h, fun _ _ _ => trivial⟩
  own _ _ _ t h _ _ := ⟨h.change (step_change t), trivial⟩
  others _ _ _ _ _ _ _ _ _ _ _ := trivial
  stop _ _ _ _ h _ := ⟨h, trivial, fun _ _ _ _ => trivial⟩

/-- Empty tables, at some time. -/
def initial (control : Control) (now : Nat) : Interleavings.System Store Task :=
  ⟨.empty control, now, []⟩

theorem run_fenced (control : Control) (now : Nat) (moves : List (Interleavings.Move Call)) :
    Fenced (machine.run (initial control now) moves).store := by
  have hsound : Interleavings.Machine.Sound (fun _ => Fenced)
      (fun _ _ _ (_ : Task) => True) (initial control now) :=
    ⟨empty_fenced control, fun _ _ _ => trivial⟩
  exact (hsound.run machine_keeps
    (Interleavings.Machine.meets_of_forall (fun _ _ _ _ => trivial) moves)).store

theorem run_follows (sys : Interleavings.System Store Task)
    (moves : List (Interleavings.Move Call)) : sys.store.Follows (machine.run sys moves).store :=
  Interleavings.Machine.run_rel follows_refl follows_trans (fun _ _ _ t => (step_change t).follows)
    (fun _ s _ => follows_refl s) sys moves

end Clockchain.Operator.Leases
