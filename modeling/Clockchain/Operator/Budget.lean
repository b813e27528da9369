import Clockchain.Interleavings
import Mathlib.Algebra.BigOperators.Group.List.Basic
import Mathlib.Algebra.GroupWithZero.Nat
import Mathlib.Data.List.Nodup

/-!
# Model spending

`Budget` of `ops/model_policy.py`: processes that hold and settle amounts in one database. A
transaction has the write lock from its `BEGIN IMMEDIATE` on; every statement is a step of its own,
and so is the look at the clock before the lock is asked for.
-/

namespace Clockchain.Operator.Budget
set_option autoImplicit false

/-! ## Amounts -/

/-- A finite `Decimal`. -/
structure Decimal where
  negative : Bool
  coefficient : Nat
  exponent : Int
  deriving Repr, DecidableEq

/-- A reported cost: a finite number, or anything `amount` refuses before it looks at the sign. -/
inductive Cost where
  | decimal (d : Decimal)
  | other
  deriving Repr, DecidableEq

/-- `amount`. Every exception is `none`, the `InvalidOperation` of a text that is no number too. -/
def amount : Cost → Option Decimal
  | .decimal d => if d.negative && d.coefficient ≠ 0 then none else some d
  | .other => none

/-- The 28 digits of the context, rounded half to even; the least and the greatest exponent of the
context are left out. -/
def rounded (d : Decimal) : Decimal :=
  let excess := (Nat.toDigits 10 d.coefficient).length - 28
  let unit := 10 ^ excess
  let kept := d.coefficient / unit
  let rest := d.coefficient % unit
  let up := unit < 2 * rest || (2 * rest = unit && kept % 2 = 1)
  ⟨d.negative, if up then kept + 1 else kept, d.exponent + excess⟩

/-- `to_integral_value(rounding=ROUND_CEILING)` of a number that is not negative. -/
def ceiling (d : Decimal) : Nat :=
  if 0 ≤ d.exponent then d.coefficient * 10 ^ d.exponent.toNat
  else
    let unit := 10 ^ (-d.exponent).toNat
    (d.coefficient + (unit - 1)) / unit

def micro (value : Cost) : Option Nat :=
  (amount value).map fun d => ceiling (rounded { d with coefficient := d.coefficient * 1000000 })

/-! ## The database -/

structure Policy where
  totalLimitMicroUsd : Nat
  dailyLimitMicroUsd : Nat
  maxDailyCalls : Nat
  deriving Repr, DecidableEq

/-- A row of `attempts`; days are counted. -/
structure Attempt where
  id : String
  day : Nat
  reserved : Nat
  actual : Option Nat
  settledDay : Option Nat
  deriving Repr, DecidableEq

/-- `utc()[:10]`, the clock being in seconds. -/
def utcDay (now : Nat) : Nat := now / 86400

/-- `res if actual is None else actual`. -/
def Attempt.charge (a : Attempt) : Nat := a.actual.getD a.reserved

/-- `actual=?,settled_day=?` of a row. -/
def Attempt.settle (actual day : Nat) (a : Attempt) : Attempt :=
  { a with actual := some actual, settledDay := some day }

/-- What a committed transaction did. -/
inductive Commit where
  | reserved (id : String)
  | settled (id : String) (reserved actual : Nat)
  deriving Repr, DecidableEq

/-- The tables, the task that has the write lock, and the transactions committed so far, the last
one first. -/
structure Store where
  attempts : List Attempt
  blocked : Bool
  lock : Option Nat
  log : List Commit
  deriving Repr, DecidableEq

namespace Store

def empty : Store := ⟨[], false, none, []⟩

/-- The sum of some rows. -/
def sum (s : Store) (p : Attempt → Bool) : Nat := ((s.attempts.filter p).map Attempt.charge).sum

def total (s : Store) : Nat := s.sum fun _ => true

def settledOn (s : Store) (day : Nat) : Nat := s.sum fun a => a.settledDay = some day

/-- `daily`: what is open, and what was settled on the day. -/
def daily (s : Store) (day : Nat) : Nat := s.sum fun a => a.actual.isNone || a.settledDay = some day

def begun (s : Store) (day : Nat) : Nat := s.attempts.countP fun a => a.day = day

def exhausted (p : Policy) (s : Store) (upper day : Nat) : Bool :=
  p.totalLimitMicroUsd < s.total + upper || p.dailyLimitMicroUsd < s.daily day + upper ||
    p.maxDailyCalls ≤ s.begun day

/-- The end of a transaction without its changes. -/
def rollback (s : Store) : Store := { s with lock := none }

def insert (s : Store) (ident : String) (upper day : Nat) : Store :=
  { s with
    attempts := s.attempts ++ [⟨ident, day, upper, none, none⟩]
    lock := none
    log := .reserved ident :: s.log }

def update (s : Store) (ident : String) (reserved actual day : Nat) : Store :=
  { s with
    attempts := s.attempts.map fun a => if a.id = ident then Attempt.settle actual day a else a
    blocked := s.blocked || reserved < actual
    lock := none
    log := .settled ident reserved actual :: s.log }

end Store

/-! ## The calls -/

inductive Call where
  | reserve (ident : String) (upper : Int)
  | settle (ident : String) (cost : Cost)
  deriving Repr, DecidableEq

/-- Where a call is; `done` has the error it raised. -/
inductive Task where
  | reserveDay (ident : String) (upper : Int)
  | reserveBegin (ident : String) (upper day : Nat)
  | reserveBlocked (ident : String) (upper day : Nat)
  | reserveRows (ident : String) (upper day : Nat)
  | reserveInsert (ident : String) (upper day : Nat)
  | reserveCommit (ident : String) (upper day : Nat)
  | settleCost (ident : String) (cost : Cost)
  | settleBegin (ident : String) (actual : Nat)
  | settleRow (ident : String) (actual : Nat)
  | settleUpdate (ident : String) (reserved actual : Nat)
  | settleBlock (ident : String) (reserved actual day : Nat)
  | settleCommit (ident : String) (reserved actual day : Nat)
  | done (error : Option String)
  deriving Repr, DecidableEq

def enter : Call → Task
  | .reserve ident upper => .reserveDay ident upper
  | .settle ident cost => .settleCost ident cost

/-- The transaction of a call has begun. -/
def Task.inside : Task → Bool
  | .reserveBlocked .. | .reserveRows .. | .reserveInsert .. | .reserveCommit .. | .settleRow ..
  | .settleUpdate .. | .settleBlock .. | .settleCommit .. => true
  | _ => false

/-- An exception inside the transaction. -/
def raised (s : Store) (text : String) : Store × Task := (s.rollback, .done (some text))

/-- `BEGIN IMMEDIATE`: a task waits for the lock. -/
def begin (i : Nat) (s : Store) (here next : Task) : Store × Task :=
  if s.lock = none then ({ s with lock := some i }, next) else (s, here)

def step (p : Policy) (i now : Nat) (s : Store) : Task → Store × Task
  | .reserveDay ident upper =>
    if 0 ≤ upper ∧ upper ≤ 100000000 then (s, .reserveBegin ident upper.toNat (utcDay now))
    else (s, .done (some "integer outside bounds"))
  | .reserveBegin ident upper day =>
    begin i s (.reserveBegin ident upper day) (.reserveBlocked ident upper day)
  | .reserveBlocked ident upper day =>
    if s.blocked then raised s "budget frozen after price overrun"
    else (s, .reserveRows ident upper day)
  | .reserveRows ident upper day =>
    if s.exhausted p upper day then raised s "model budget exhausted"
    else (s, .reserveInsert ident upper day)
  | .reserveInsert ident upper day =>
    if s.attempts.any fun a => a.id = ident then raised s "UNIQUE constraint failed: attempts.id"
    else (s, .reserveCommit ident upper day)
  | .reserveCommit ident upper day => (s.insert ident upper day, .done none)
  | .settleCost ident cost =>
    match micro cost with
    | none => (s, .done (some "invalid monetary amount"))
    | some actual => (s, .settleBegin ident actual)
  | .settleBegin ident actual => begin i s (.settleBegin ident actual) (.settleRow ident actual)
  | .settleRow ident actual =>
    match s.attempts.find? fun a => a.id = ident with
    | some ⟨_, _, reserved, none, _⟩ => (s, .settleUpdate ident reserved actual)
    | _ => raised s "missing/already settled attempt"
  | .settleUpdate ident reserved actual =>
    -- An SQLite integer has 64 bits.
    if 2 ^ 63 ≤ actual then raised s "Python int too large to convert to SQLite INTEGER"
    else (s, .settleBlock ident reserved actual (utcDay now))
  | .settleBlock ident reserved actual day => (s, .settleCommit ident reserved actual day)
  | .settleCommit ident reserved actual day =>
    (s.update ident reserved actual day, .done (if reserved < actual then
      some "reported charge exceeded reservation; budget frozen" else none))
  | .done error => (s, .done error)

/-- A process ends, or a statement fails: the transaction of the call is undone. -/
def stop (i : Nat) (s : Store) (_ : Task) : Store × Task :=
  (if s.lock = some i then s.rollback else s, .done (some "stopped"))

def machine (p : Policy) : Interleavings.Machine Call Store Task := ⟨enter, step p, stop⟩

/-! ## What the policy asks for -/

/-- The charge is above what was held for it. -/
def Attempt.overrun (a : Attempt) : Bool := a.actual.any fun actual => a.reserved < actual

def Commit.overrun : Commit → Bool
  | .reserved _ => false
  | .settled _ held charge => held < charge

def Commit.isReserved : Commit → Bool
  | .reserved _ => true
  | .settled .. => false

def Commit.settledId : Commit → Option String
  | .reserved _ => none
  | .settled id _ _ => some id

/-- No settled charge exceeds its reservation. -/
def Store.NoOverrun (s : Store) : Prop := ∀ a ∈ s.attempts, a.overrun = false

structure Within (p : Policy) (s : Store) : Prop where
  total : s.NoOverrun → s.total ≤ p.totalLimitMicroUsd
  daily : s.NoOverrun → ∀ day, s.settledOn day ≤ p.dailyLimitMicroUsd
  calls : ∀ day, s.begun day ≤ p.maxDailyCalls
  once : (s.log.filterMap Commit.settledId).Nodup
  /-- No reservation after an overrun. -/
  frozen : s.log.Pairwise fun later earlier => earlier.overrun = true → later.isReserved = false

/-- A reservation that passes its checks also keeps the limit of every day after the one it has
read on which charges have been settled by now. -/
def Task.Timely (p : Policy) (_ _ : Nat) (s : Store) : Task → Prop
  | .reserveRows _ upper day => s.exhausted p upper day = false →
      ∀ a ∈ s.attempts, ∀ settled ∈ a.settledDay, day < settled →
        s.daily settled + upper ≤ p.dailyLimitMicroUsd
  | _ => True

instance (p : Policy) (i now : Nat) (s : Store) : ∀ t, Decidable (Task.Timely p i now s t)
  | .reserveRows _ upper day => inferInstanceAs (Decidable (s.exhausted p upper day = false →
      ∀ a ∈ s.attempts, ∀ settled ∈ a.settledDay, day < settled →
        s.daily settled + upper ≤ p.dailyLimitMicroUsd))
  | .reserveDay .. | .reserveBegin .. | .reserveBlocked .. | .reserveInsert .. | .reserveCommit ..
  | .settleCost .. | .settleBegin .. | .settleRow .. | .settleUpdate .. | .settleBlock ..
  | .settleCommit .. | .done _ => inferInstanceAs (Decidable True)

/-! ## Sums of rows -/

namespace Store
variable {s : Store} {q r : Attempt → Bool} {ident : String} {upper day reserved actual : Nat}

theorem sum_le (h : ∀ a ∈ s.attempts, q a = true → r a = true) : s.sum q ≤ s.sum r := by
  unfold sum
  generalize s.attempts = rows at h
  induction rows with
  | nil => exact Nat.le_refl _
  | cons a rows ih =>
    have htail := ih fun b hb => h b (List.mem_cons_of_mem a hb)
    rw [List.filter_cons, List.filter_cons]
    by_cases hq : q a = true
    · rw [if_pos hq, if_pos (h a List.mem_cons_self hq), List.map_cons, List.map_cons,
        List.sum_cons, List.sum_cons]
      omega
    · rw [if_neg hq]
      split
      · rw [List.map_cons, List.sum_cons]
        omega
      · exact htail

theorem sum_insert (s : Store) (q : Attempt → Bool) (ident : String) (upper day : Nat) :
    (s.insert ident upper day).sum q =
      s.sum q + if q ⟨ident, day, upper, none, none⟩ then upper else 0 := by
  simp only [sum, insert, List.filter_append, List.map_append, List.sum_append]
  congr 1
  rw [List.filter_singleton]
  cases q ⟨ident, day, upper, none, none⟩ with
  | true => rfl
  | false => rfl

theorem begun_insert (d : Nat) :
    (s.insert ident upper day).begun d = s.begun d + if day = d then 1 else 0 := by
  simp only [begun, insert, List.countP_append]
  congr 1
  rw [List.countP_singleton]
  simp

/-- The row of an attempt among the others. -/
theorem exists_split (reserved actual day : Nat)
    (hids : (s.attempts.map Attempt.id).Nodup) {a : Attempt}
    (ha : a ∈ s.attempts) : ∃ before after, s.attempts = before ++ a :: after ∧
      (s.update a.id reserved actual day).attempts =
        before ++ Attempt.settle actual day a :: after := by
  obtain ⟨before, after, heq⟩ := List.append_of_mem ha
  refine ⟨before, after, heq, ?_⟩
  rw [heq, List.map_append, List.map_cons, List.nodup_append] at hids
  obtain ⟨-, htail, hdisjoint⟩ := hids
  rw [List.nodup_cons] at htail
  have hsame : ∀ rows : List Attempt, (∀ b ∈ rows, b.id ≠ a.id) →
      rows.map (fun b => if b.id = a.id then Attempt.settle actual day b else b) = rows := by
    intro rows h
    refine (List.map_congr_left fun b hb => if_neg (h b hb)).trans (List.map_id rows)
  change s.attempts.map _ = _
  rw [heq, List.map_append, List.map_cons, if_pos rfl, hsame before, hsame after]
  · intro b hb hid
    exact htail.1 (List.mem_map.mpr ⟨b, hb, hid⟩)
  · intro b hb hid
    exact hdisjoint _ (List.mem_map_of_mem hb) _ List.mem_cons_self hid

/-- A settled row counts with its charge where it counted with what was held. -/
theorem sum_update (reserved actual day : Nat)
    (hids : (s.attempts.map Attempt.id).Nodup) {a : Attempt}
    (ha : a ∈ s.attempts) (q : Attempt → Bool) :
    (s.update a.id reserved actual day).sum q + (if q a then a.charge else 0) =
      s.sum q + if q (Attempt.settle actual day a) then actual else 0 := by
  obtain ⟨before, after, heq, hupdate⟩ :=
    exists_split reserved actual day hids ha
  simp only [sum, heq, hupdate, List.filter_append, List.map_append, List.sum_append,
    List.filter_cons]
  split <;> split <;> simp [Attempt.settle, Attempt.charge] <;> omega

theorem begun_update (d : Nat) : (s.update ident reserved actual day).begun d = s.begun d := by
  simp only [begun, update, List.countP_map]
  refine List.countP_congr fun a _ => ?_
  simp only [Function.comp]
  split <;> exact Iff.rfl

end Store

/-! ## The invariant -/

/-- The attempt is open with this reservation. -/
def Store.Open (s : Store) (ident : String) (reserved : Nat) : Prop :=
  ∃ a ∈ s.attempts, a.id = ident ∧ a.actual = none ∧ a.reserved = reserved

/-- Nothing has been reserved or settled after the day. -/
def Store.Until (s : Store) (day : Nat) : Prop :=
  ∀ a ∈ s.attempts, a.day ≤ day ∧ ∀ settled ∈ a.settledDay, settled ≤ day

/-- From the last day of the books on, what is open fits into the limit beside what was settled on
that day. -/
structure Accounts (p : Policy) (now : Nat) (s : Store) : Prop where
  ids : (s.attempts.map Attempt.id).Nodup
  days : s.Until (utcDay now)
  paired : ∀ a ∈ s.attempts, a.settledDay.isSome = a.actual.isSome
  blocked : ∀ a ∈ s.attempts, a.overrun = true → s.blocked = true
  total : s.NoOverrun → s.total ≤ p.totalLimitMicroUsd
  settled : s.NoOverrun → ∀ day, s.settledOn day ≤ p.dailyLimitMicroUsd
  daily : s.NoOverrun → ∀ day, s.Until day → s.daily day ≤ p.dailyLimitMicroUsd
  calls : ∀ day, s.begun day ≤ p.maxDailyCalls
  logged : ∀ id ∈ s.log.filterMap Commit.settledId,
    ∃ a ∈ s.attempts, a.id = id ∧ a.actual.isSome = true
  once : (s.log.filterMap Commit.settledId).Nodup
  overran : ∀ c ∈ s.log, c.overrun = true → s.blocked = true
  frozen : s.log.Pairwise fun later earlier => earlier.overrun = true → later.isReserved = false

/-- What a task relies on. -/
def Task.Holds (p : Policy) (i now : Nat) (s : Store) : Task → Prop
  | .reserveBegin _ _ day => day ≤ utcDay now
  | .reserveBlocked _ _ day => s.lock = some i ∧ day ≤ utcDay now
  | .reserveRows _ _ day => s.lock = some i ∧ day ≤ utcDay now ∧ s.blocked = false
  | .reserveInsert ident upper day => s.lock = some i ∧ day ≤ utcDay now ∧ s.blocked = false ∧
      s.exhausted p upper day = false ∧ Task.Timely p i now s (.reserveRows ident upper day)
  | .reserveCommit ident upper day => s.lock = some i ∧ day ≤ utcDay now ∧ s.blocked = false ∧
      s.exhausted p upper day = false ∧ Task.Timely p i now s (.reserveRows ident upper day) ∧
      ∀ a ∈ s.attempts, a.id ≠ ident
  | .settleRow _ _ => s.lock = some i
  | .settleUpdate ident reserved _ => s.lock = some i ∧ s.Open ident reserved
  | .settleBlock ident reserved _ day | .settleCommit ident reserved _ day =>
      s.lock = some i ∧ s.Open ident reserved ∧ s.Until day ∧ day ≤ utcDay now
  | _ => True

section
variable {p : Policy} {i j now now' : Nat} {s : Store} {t : Task}

theorem utcDay_mono (h : now ≤ now') : utcDay now ≤ utcDay now' := Nat.div_le_div_right h

theorem Store.Until.mono {day day' : Nat} (h : s.Until day) (hle : day ≤ day') : s.Until day' := by
  intro a ha
  obtain ⟨hday, hsettled⟩ := h a ha
  exact ⟨Nat.le_trans hday hle, fun d hd => Nat.le_trans (hsettled d hd) hle⟩

theorem not_exhausted {upper day : Nat} (h : s.exhausted p upper day = false) :
    s.total + upper ≤ p.totalLimitMicroUsd ∧ s.daily day + upper ≤ p.dailyLimitMicroUsd ∧
      s.begun day < p.maxDailyCalls := by
  simp only [Store.exhausted, Bool.or_eq_false_iff, decide_eq_false_iff_not] at h
  omega

/-- The lock is for the tasks that are inside a transaction. -/
theorem Task.Holds.lock (h : Task.Holds p i now s t) (hin : t.inside = true) : s.lock = some i := by
  cases t with
  | reserveBlocked | reserveRows | reserveInsert | reserveCommit | settleUpdate | settleBlock
  | settleCommit => exact h.1
  | settleRow => exact h
  | _ => cases hin

/-- While another task has the lock, a step changes nothing. -/
theorem step_waits (h : Task.Holds p i now s t) (hlock : s.lock = some j) (hne : j ≠ i) :
    (step p i now s t).1 = s := by
  have hout : t.inside = false := by
    apply Bool.eq_false_iff.mpr
    intro hin
    have := h.lock hin
    rw [hlock] at this
    exact hne (Option.some.inj this)
  cases t with
  | reserveDay ident upper =>
    simp only [step]
    split <;> rfl
  | reserveBegin ident upper day => simp [step, begin, hlock]
  | settleCost ident cost =>
    simp only [step]
    split <;> rfl
  | settleBegin ident actual => simp [step, begin, hlock]
  | done error => rfl
  | _ => cases hout

theorem Task.Holds.later (h : Task.Holds p i now s t) (hle : now ≤ now') :
    Task.Holds p i now' s t := by
  have hday := utcDay_mono hle
  cases t with
  | reserveBegin ident upper day => exact Nat.le_trans h hday
  | reserveBlocked ident upper day => exact ⟨h.1, Nat.le_trans h.2 hday⟩
  | reserveRows ident upper day => exact ⟨h.1, Nat.le_trans h.2.1 hday, h.2.2⟩
  | reserveInsert ident upper day => exact ⟨h.1, Nat.le_trans h.2.1 hday, h.2.2⟩
  | reserveCommit ident upper day => exact ⟨h.1, Nat.le_trans h.2.1 hday, h.2.2⟩
  | settleBlock ident reserved actual day =>
    exact ⟨h.1, h.2.1, h.2.2.1, Nat.le_trans h.2.2.2 hday⟩
  | settleCommit ident reserved actual day =>
    exact ⟨h.1, h.2.1, h.2.2.1, Nat.le_trans h.2.2.2 hday⟩
  | _ => exact h

/-- What a task outside relies on does not depend on the store. -/
theorem Task.Holds.outside {s' : Store} (h : Task.Holds p i now s t) (hout : t.inside = false) :
    Task.Holds p i now s' t := by
  cases t with
  | reserveDay | reserveBegin | settleCost | settleBegin | done => exact h
  | _ => cases hout

/-- A store with the same rows keeps its accounts. -/
theorem Accounts.same (h : Accounts p now s) {lock : Option Nat} :
    Accounts p now { s with lock := lock } :=
  ⟨h.ids, h.days, h.paired, h.blocked, h.total, h.settled, h.daily, h.calls, h.logged, h.once,
    h.overran, h.frozen⟩

theorem Accounts.later (h : Accounts p now s) (hle : now ≤ now') : Accounts p now' s :=
  { h with days := h.days.mono (utcDay_mono hle) }

/-! ## The two commits -/

/-- A row is open or was settled on a day. -/
theorem settledOn_le (day : Nat) : s.settledOn day ≤ s.daily day :=
  Store.sum_le fun _ _ hday => by simp [hday]

theorem Accounts.insert (h : Accounts p now s) {ident : String} {upper day : Nat}
    (hday : day ≤ utcDay now) (hblocked : s.blocked = false)
    (hfits : s.exhausted p upper day = false)
    (htimely : Task.Timely p i now s (.reserveRows ident upper day))
    (hnew : ∀ a ∈ s.attempts, a.id ≠ ident) : Accounts p now (s.insert ident upper day) := by
  obtain ⟨htotal, hdaily, hcalls⟩ := not_exhausted hfits
  have hmem : ∀ a, a ∈ (s.insert ident upper day).attempts ↔
      a ∈ s.attempts ∨ a = ⟨ident, day, upper, none, none⟩ := by
    intro a
    simp [Store.insert]
  have hclear : s.NoOverrun := by
    intro a ha
    apply Bool.eq_false_iff.mpr
    intro hover
    have := h.blocked a ha hover
    rw [hblocked] at this
    cases this
  refine {
    ids := ?_
    days := ?_
    paired := ?_
    blocked := ?_
    total := ?_
    settled := ?_
    daily := ?_
    calls := ?_
    logged := ?_
    once := h.once
    overran := ?_
    frozen := ?_ }
  · simp only [Store.insert, List.map_append, List.map_cons, List.map_nil]
    refine List.nodup_append.mpr ⟨h.ids, by simp, ?_⟩
    rintro x hx y hy rfl
    obtain ⟨a, ha, rfl⟩ := List.mem_map.mp hx
    exact hnew a ha (List.mem_singleton.mp hy)
  · intro a ha
    rcases (hmem a).mp ha with ha | rfl
    · exact h.days a ha
    · exact ⟨hday, fun d hd => by cases hd⟩
  · intro a ha
    rcases (hmem a).mp ha with ha | rfl
    · exact h.paired a ha
    · rfl
  · intro a ha hover
    rcases (hmem a).mp ha with ha | rfl
    · exact h.blocked a ha hover
    · cases hover
  · intro _
    have hsum := s.sum_insert (fun _ => true) ident upper day
    unfold Store.total at htotal ⊢
    rw [hsum, if_pos rfl]
    exact htotal
  · intro _ d
    have hsum := s.sum_insert (fun a => a.settledDay = some d) ident upper day
    unfold Store.settledOn
    rw [hsum, if_neg (by simp), Nat.add_zero]
    exact h.settled hclear d
  · intro _ d huntil
    have hle : day ≤ d := (huntil _ ((hmem _).mpr (.inr rfl))).1
    have hsum := s.sum_insert (fun a => a.actual.isNone || a.settledDay = some d) ident upper day
    unfold Store.daily
    rw [hsum, if_pos (by simp)]
    change s.daily d + upper ≤ _
    by_cases hsettled : ∃ a ∈ s.attempts, a.settledDay = some d
    · obtain ⟨a, ha, hd⟩ := hsettled
      rcases Nat.eq_or_lt_of_le hle with rfl | hlt
      · exact hdaily
      · exact htimely hfits a ha d hd hlt
    · -- Nothing was settled on that day, so only what is open counts.
      have hopen : s.daily d ≤ s.daily day := by
        refine Store.sum_le fun a ha hq => ?_
        simp only [Bool.or_eq_true, decide_eq_true_eq] at hq ⊢
        exact hq.imp_right fun hd => absurd ⟨a, ha, hd⟩ hsettled
      omega
  · intro d
    rw [Store.begun_insert]
    split
    · rename_i heq
      rw [← heq]
      exact hcalls
    · exact h.calls d
  · intro id hid
    obtain ⟨a, ha, hsettled⟩ := h.logged id hid
    exact ⟨a, (hmem a).mpr (.inl ha), hsettled⟩
  · intro c hc hover
    rcases List.mem_cons.mp hc with rfl | hc
    · cases hover
    · exact h.overran c hc hover
  · refine List.pairwise_cons.mpr ⟨fun c hc hover => ?_, h.frozen⟩
    have := h.overran c hc hover
    rw [hblocked] at this
    cases this

theorem id_unique (hids : (s.attempts.map Attempt.id).Nodup) {a b : Attempt} (ha : a ∈ s.attempts)
    (hb : b ∈ s.attempts) (h : a.id = b.id) : a = b :=
  List.inj_on_of_nodup_map hids ha hb h

theorem Accounts.update (h : Accounts p now s) {a : Attempt} (ha : a ∈ s.attempts)
    (hopen : a.actual = none) {actual day : Nat} (hday : day ≤ utcDay now) (huntil : s.Until day) :
    Accounts p now (s.update a.id a.reserved actual day) := by
  set s' := s.update a.id a.reserved actual day with hs'
  have hmem : ∀ b, b ∈ s'.attempts →
      (b ∈ s.attempts ∧ b.id ≠ a.id) ∨ b = Attempt.settle actual day a := by
    intro b hb
    obtain ⟨c, hc, rfl⟩ := List.mem_map.mp hb
    by_cases hid : c.id = a.id
    · obtain rfl := id_unique h.ids hc ha hid
      exact .inr (if_pos rfl)
    · rw [if_neg hid]
      exact .inl ⟨hc, hid⟩
  have hself : Attempt.settle actual day a ∈ s'.attempts :=
    List.mem_map.mpr ⟨a, ha, if_pos rfl⟩
  have hother : ∀ b ∈ s.attempts, b.id ≠ a.id → b ∈ s'.attempts :=
    fun b hb hid => List.mem_map.mpr ⟨b, hb, if_neg hid⟩
  have hsettled : a.settledDay = none := by
    have := h.paired a ha
    rw [hopen] at this
    simpa using this
  have hcharge : a.charge = a.reserved := by rw [Attempt.charge, hopen, Option.getD_none]
  have hids : s'.attempts.map Attempt.id = s.attempts.map Attempt.id := by
    simp only [hs', Store.update, List.map_map]
    refine List.map_congr_left fun b _ => ?_
    simp only [Function.comp]
    split <;> rfl
  have hbefore : s'.NoOverrun → s.NoOverrun ∧ actual ≤ a.reserved := by
    intro hno
    constructor
    · intro b hb
      by_cases hid : b.id = a.id
      · obtain rfl := id_unique h.ids hb ha hid
        rw [Attempt.overrun, hopen, Option.any_none]
      · exact hno b (hother b hb hid)
    · have hfalse : decide (a.reserved < actual) = false := hno _ hself
      exact Nat.le_of_not_lt (of_decide_eq_false hfalse)
  have hnow : s'.Until day := by
    intro b hb
    rcases hmem b hb with ⟨hb, -⟩ | rfl
    · exact huntil b hb
    · refine ⟨(huntil a ha).1, fun d hd => ?_⟩
      obtain rfl := Option.some.inj hd
      exact Nat.le_refl _
  have hdaily : s'.NoOverrun → ∀ d, s'.Until d → s'.daily d ≤ p.dailyLimitMicroUsd := by
    intro hno d hd
    obtain ⟨hclear, hle⟩ := hbefore hno
    have hlast : day ≤ d := (hd _ hself).2 day rfl
    have hsum := Store.sum_update a.reserved actual day h.ids ha
      fun b => b.actual.isNone || b.settledDay = some d
    have hold := h.daily hclear d (huntil.mono hlast)
    rw [hopen, hcharge, if_pos (by simp)] at hsum
    change s'.daily d + _ = s.daily d + _ at hsum
    split at hsum <;> omega
  refine {
    ids := hids ▸ h.ids
    days := hnow.mono hday
    paired := ?_
    blocked := ?_
    total := ?_
    settled := ?_
    daily := hdaily
    calls := ?_
    logged := ?_
    once := ?_
    overran := ?_
    frozen := ?_ }
  · intro b hb
    rcases hmem b hb with ⟨hb, -⟩ | rfl
    · exact h.paired b hb
    · rfl
  · intro b hb hover
    change (s.blocked || decide (a.reserved < actual)) = true
    rcases hmem b hb with ⟨hb, -⟩ | rfl
    · rw [h.blocked b hb hover, Bool.true_or]
    · have : decide (a.reserved < actual) = true := hover
      rw [this, Bool.or_true]
  · intro hno
    obtain ⟨hclear, hle⟩ := hbefore hno
    have hsum := Store.sum_update a.reserved actual day h.ids ha
      fun _ => true
    have hold := h.total hclear
    rw [if_pos rfl, if_pos rfl, hcharge] at hsum
    change s'.total + _ = s.total + _ at hsum
    omega
  · intro hno d
    by_cases hd : day = d
    · subst hd
      exact Nat.le_trans (settledOn_le day) (hdaily hno day hnow)
    · have hsum := Store.sum_update a.reserved actual day h.ids ha
        fun b => b.settledDay = some d
      rw [hsettled, if_neg (by simp), if_neg (by simp [Attempt.settle, hd])] at hsum
      change s'.settledOn d + 0 = s.settledOn d + 0 at hsum
      have hold := h.settled (hbefore hno).1 d
      omega
  · intro d
    rw [hs', Store.begun_update]
    exact h.calls d
  · intro id hid
    rcases List.mem_cons.mp hid with rfl | hid
    · exact ⟨_, hself, rfl, rfl⟩
    · obtain ⟨b, hb, rfl, hactual⟩ := h.logged id hid
      refine ⟨b, hother b hb fun heq => ?_, rfl, hactual⟩
      obtain rfl := id_unique h.ids hb ha heq
      rw [hopen] at hactual
      cases hactual
  · refine List.nodup_cons.mpr ⟨fun hid => ?_, h.once⟩
    obtain ⟨b, hb, heq, hactual⟩ := h.logged _ hid
    obtain rfl := id_unique h.ids hb ha heq
    rw [hopen] at hactual
    cases hactual
  · intro c hc hover
    change (s.blocked || decide (a.reserved < actual)) = true
    rcases List.mem_cons.mp hc with rfl | hc
    · have : decide (a.reserved < actual) = true := hover
      rw [this, Bool.or_true]
    · rw [h.overran c hc hover, Bool.true_or]
  · exact List.pairwise_cons.mpr ⟨fun _ _ _ => rfl, h.frozen⟩

/-! ## Every step -/

theorem step_own (h : Accounts p now s) (ht : Task.Holds p i now s t)
    (htimely : Task.Timely p i now s t) : Accounts p now (step p i now s t).1 ∧
      Task.Holds p i now (step p i now s t).1 (step p i now s t).2 := by
  cases t with
  | reserveDay ident upper =>
    simp only [step]
    split
    · exact ⟨h, Nat.le_refl _⟩
    · exact ⟨h, trivial⟩
  | reserveBegin ident upper day =>
    simp only [step, begin]
    split
    · exact ⟨h.same, rfl, ht⟩
    · exact ⟨h, ht⟩
  | reserveBlocked ident upper day =>
    simp only [step]
    split
    · exact ⟨h.same, trivial⟩
    · rename_i hblocked
      exact ⟨h, ht.1, ht.2, by simpa using hblocked⟩
  | reserveRows ident upper day =>
    simp only [step]
    split
    · exact ⟨h.same, trivial⟩
    · rename_i hfits
      exact ⟨h, ht.1, ht.2.1, ht.2.2, by simpa using hfits, htimely⟩
  | reserveInsert ident upper day =>
    simp only [step]
    split
    · exact ⟨h.same, trivial⟩
    · rename_i hnew
      refine ⟨h, ht.1, ht.2.1, ht.2.2.1, ht.2.2.2.1, ht.2.2.2.2, fun a ha heq => hnew ?_⟩
      exact List.any_eq_true.mpr ⟨a, ha, decide_eq_true heq⟩
  | reserveCommit ident upper day =>
    obtain ⟨-, hday, hblocked, hfits, htime, hnew⟩ := ht
    exact ⟨h.insert hday hblocked hfits htime hnew, trivial⟩
  | settleCost ident cost =>
    simp only [step]
    split <;> exact ⟨h, trivial⟩
  | settleBegin ident actual =>
    simp only [step, begin]
    split
    · exact ⟨h.same, rfl⟩
    · exact ⟨h, trivial⟩
  | settleRow ident actual =>
    simp only [step]
    split
    · rename_i id day reserved settledDay hfind
      have hid := List.find?_some hfind
      exact ⟨h, ht, _, List.mem_of_find?_eq_some hfind, by simpa using hid, rfl, rfl⟩
    · exact ⟨h.same, trivial⟩
  | settleUpdate ident reserved actual =>
    simp only [step]
    split
    · exact ⟨h.same, trivial⟩
    · exact ⟨h, ht.1, ht.2, h.days, Nat.le_refl _⟩
  | settleBlock ident reserved actual day => exact ⟨h, ht⟩
  | settleCommit ident reserved actual day =>
    obtain ⟨-, ⟨a, ha, rfl, hopen, rfl⟩, huntil, hday⟩ := ht
    exact ⟨h.update ha hopen hday huntil, trivial⟩
  | done error => exact ⟨h, trivial⟩

theorem step_others {u : Task} (ht : Task.Holds p i now s t) (hne : j ≠ i)
    (hu : Task.Holds p j now s u) : Task.Holds p j now (step p i now s t).1 u := by
  cases hin : u.inside with
  | true =>
    rw [step_waits ht (hu.lock hin) hne]
    exact hu
  | false => exact hu.outside hin

theorem stop_keeps (h : Accounts p now s) : Accounts p now (stop i s t).1 ∧
    Task.Holds p i now (stop i s t).1 (stop i s t).2 ∧
      ∀ j u, j ≠ i → Task.Holds p j now s u → Task.Holds p j now (stop i s t).1 u := by
  refine ⟨?_, trivial, fun j u hne hu => ?_⟩
  · unfold stop
    split
    · exact h.same
    · exact h
  · cases hin : u.inside with
    | true =>
      have hlock := hu.lock hin
      have hnot : ¬ s.lock = some i := by
        rw [hlock]
        exact fun heq => hne (Option.some.inj heq)
      unfold stop
      rw [if_neg hnot]
      exact hu
    | false => exact hu.outside hin

end

theorem machine_keeps (p : Policy) :
    (machine p).Keeps (Accounts p) (Task.Holds p) (Task.Timely p) where
  enter _ _ _ c _ := by cases c <;> exact trivial
  later _ _ _ hle h := ⟨h.later hle, fun _ _ ht => ht.later hle⟩
  own _ _ _ _ h ht htimely := step_own h ht htimely
  others _ _ _ _ _ _ _ ht _ hne hu := step_others ht hne hu
  stop _ _ _ t h _ := stop_keeps (t := t) h

/-- A new registry, at some time. -/
def initial (now : Nat) : Interleavings.System Store Task := ⟨.empty, now, []⟩

theorem initial_sound (p : Policy) (now : Nat) :
    Interleavings.Machine.Sound (Accounts p) (Task.Holds p) (initial now) where
  store := by
    refine ⟨List.nodup_nil, ?_, ?_, ?_, fun _ => Nat.zero_le _, fun _ _ => Nat.zero_le _,
      fun _ _ _ => Nat.zero_le _, fun _ => Nat.zero_le _, ?_, List.nodup_nil, ?_, .nil⟩ <;>
      exact fun a ha => by cases ha
  tasks _ _ h := by cases h

/-- In every run whose reservations are timely, spending stays within the policy. -/
theorem spending_within (p : Policy) (now : Nat) (moves : List (Interleavings.Move Call))
    (htimely : (machine p).Meets (Task.Timely p) (initial now) moves) :
    Within p ((machine p).run (initial now) moves).store := by
  have h := ((initial_sound p now).run (machine_keeps p) htimely).store
  exact ⟨h.total, h.settled, h.calls, h.once, h.frozen⟩

/-! ## Across midnight -/

namespace Sample
open Interleavings (Move)

def policy : Policy := ⟨300, 100, 10⟩

/-- A minute before midnight. -/
def evening : Interleavings.System Store Task := initial 86340

def steps (i n : Nat) : List (Move Call) := List.replicate n (.step i)

/-- One attempt is settled after midnight, while a second call that has read its day before
midnight waits; it is reserved and settled then. -/
def midnight (upper : Int) (cost : Cost) : List (Move Call) :=
  [.call (.reserve "a" upper)] ++ steps 0 6 ++
  [.call (.reserve "b" upper), .step 1, .tick 120, .call (.settle "a" cost)] ++ steps 2 6 ++
  steps 1 5 ++ [.call (.settle "b" cost)] ++ steps 3 6

/-- A charge of 100 and one of 40 millionths. -/
def cost : Cost := .decimal ⟨false, 1, -4⟩
def smallCost : Cost := .decimal ⟨false, 4, -5⟩

end Sample

/-- Two charges settled on one day are above its limit. -/
theorem midnight_overspent :
    ¬ Within Sample.policy ((machine Sample.policy).run Sample.evening
      (Sample.midnight 100 Sample.cost)).store := by
  intro h
  have hclear : Store.NoOverrun ((machine Sample.policy).run Sample.evening
      (Sample.midnight 100 Sample.cost)).store := by
    unfold Store.NoOverrun
    decide
  have hdaily := h.daily hclear 1
  revert hdaily
  decide

/-- With smaller charges the same run is within the policy. -/
theorem spending_within_midnight :
    Within Sample.policy ((machine Sample.policy).run Sample.evening
      (Sample.midnight 40 Sample.smallCost)).store :=
  spending_within Sample.policy 86340 (Sample.midnight 40 Sample.smallCost) (by decide)

end Clockchain.Operator.Budget
