import Clockchain.Interleavings
import Mathlib.Logic.Function.Basic

/-!
# Transactions at READ COMMITTED

Programs of statements over a database, run beside each other: each statement reads what was
committed before it and the transaction's own writes, and a write waits while another open
transaction has written its row. Where every transaction inserts a row of its own and then writes
one row that all of them share, whatever is committed is what the committed ones leave one after
another.
-/

namespace Transactions
open Interleavings
set_option autoImplicit false

universe u
variable {κ σ ε α ι : Type u}

/-- What is left of a transaction. A `write` says of the rows it sees what it writes under its
key, if anything, and how the transaction goes on. -/
inductive Txn (κ σ ε α : Type u) where
  | done (a : α)
  | fail (e : ε)
  | read (k : σ → Txn κ σ ε α)
  | write (key : κ) (w : σ → Option (σ → σ)) (k : σ → Txn κ σ ε α)

namespace Txn

/-- The transaction alone. -/
def exec : Txn κ σ ε α → σ → Except ε (α × σ)
  | done a, s => .ok (a, s)
  | fail e, _ => .error e
  | read k, s => (k s).exec s
  | write _ w k, s => (k s).exec ((w s).elim s (· s))

/-- A property of all that a transaction may write. -/
def Writes (P : (σ → σ) → Prop) : Txn κ σ ε α → Prop
  | done _ | fail _ => True
  | read k => ∀ s, (k s).Writes P
  | write _ w k => ∀ s, (∀ f ∈ w s, P f) ∧ (k s).Writes P

end Txn

/-! ## The server -/

/-- What is committed, which open transaction has written a row, and which tasks were committed,
in order. -/
structure Server (κ σ ι : Type u) where
  committed : σ
  locks : κ → Option Nat
  log : List ι

inductive Session (κ σ ε α ι : Type u) where
  | opened (task : ι) (writes : List (σ → σ)) (rest : Txn κ σ ε α)
  | closed

namespace Server
variable (db : Server κ σ ι)

/-- The committed rows and a transaction's own. -/
def visible (writes : List (σ → σ)) : σ := writes.foldl (fun s w => w s) db.committed

/-- The rows of a transaction that ends. -/
def release (i : Nat) : Server κ σ ι :=
  { db with locks := fun key => if db.locks key = some i then none else db.locks key }

end Server

section
variable [DecidableEq κ] (i : Nat) (db : Server κ σ ι)

/-- A write; it waits for the open transaction that has written the row. -/
def write (task : ι) (writes : List (σ → σ)) (key : κ) (w : σ → Option (σ → σ))
    (k : σ → Txn κ σ ε α) : Server κ σ ι × Session κ σ ε α ι :=
  if ∃ j ∈ db.locks key, j ≠ i then (db, .opened task writes (.write key w k))
  else match w (db.visible writes) with
    | none => (db, .opened task writes (k (db.visible writes)))
    | some f =>
      ({ db with locks := Function.update db.locks key (some i) },
        .opened task (writes ++ [f]) (k (db.visible writes)))

/-- The next statement of a session; the last of them is COMMIT. -/
def step : Session κ σ ε α ι → Server κ σ ι × Session κ σ ε α ι
  | .closed => (db, .closed)
  | .opened task writes (.done _) =>
    ({ db.release i with committed := db.visible writes, log := db.log ++ [task] }, .closed)
  | .opened _ _ (.fail _) => (db.release i, .closed)
  | .opened task writes (.read k) => (db, .opened task writes (k (db.visible writes)))
  | .opened task writes (.write key w k) => write i db task writes key w k

/-- Transactions of tasks, each of which may be rolled back at any point. -/
def machine (prog : ι → Txn κ σ ε α) : Machine ι (Server κ σ ι) (Session κ σ ε α ι) where
  enter task := .opened task [] (prog task)
  step i _ := step i
  stop i db _ := (db.release i, .closed)

end

def idle (s : σ) : System (Server κ σ ι) (Session κ σ ε α ι) := ⟨⟨s, fun _ => none, []⟩, 0, []⟩

/-- The tasks commit one after another. -/
inductive Serial (prog : ι → Txn κ σ ε α) (start : σ) : List ι → σ → Prop where
  | start : Serial prog start [] start
  | commit {log : List ι} {s s' : σ} {task : ι} {a : α} : Serial prog start log s →
      (prog task).exec s = .ok (a, s') → Serial prog start (log ++ [task]) s'

/-! ## A row that all tasks share -/

/-- Tasks that insert a row of their own, if it is not there, then write the row `lock`, and then
do the rest. No other write inserts or removes a row that `has` speaks of. -/
structure Family (κ σ ε α ι : Type u) where
  own : ι → κ
  lock : κ
  has : κ → σ → Bool
  insert : ι → σ → σ
  touch : ι → σ → σ → σ
  there : α
  body : ι → Txn κ σ ε α
  has_insert : ∀ x k s, has k (insert x s) = true ↔ k = own x ∨ has k s = true
  has_touch : ∀ x seen k s, has k (touch x seen s) = has k s
  has_body : ∀ x, (body x).Writes fun f => ∀ k s, has k (f s) = has k s

namespace Family
variable (F : Family κ σ ε α ι)

def txn (x : ι) : Txn κ σ ε α :=
  .write (F.own x) (fun s => if F.has (F.own x) s then none else some (F.insert x)) fun s =>
    if F.has (F.own x) s then .done F.there
    else .write F.lock (fun s => some (F.touch x s)) fun _ => F.body x

/-- How far a session has come, and what it relies on. -/
inductive Relies (i : Nat) (db : Server κ σ ι) : Session κ σ ε α ι → Prop where
  | closed : Relies i db .closed
  | begun (x : ι) : Relies i db (.opened x [] (F.txn x))
  | there (x : ι) : F.has (F.own x) db.committed = true →
      Relies i db (.opened x [] (.done F.there))
  | inserted (x : ι) : db.locks (F.own x) = some i → F.has (F.own x) db.committed = false →
      Relies i db (.opened x [F.insert x]
        (.write F.lock (fun s => some (F.touch x s)) fun _ => F.body x))
  | running {x : ι} {writes : List (σ → σ)} {rest : Txn κ σ ε α} : db.locks (F.own x) = some i →
      db.locks F.lock = some i → rest.exec (db.visible writes) = (F.txn x).exec db.committed →
      (rest.Writes fun f => ∀ k s, F.has k (f s) = F.has k s) →
      (∀ k, F.has k (db.visible writes) = true ↔ k = F.own x ∨ F.has k db.committed = true) →
      Relies i db (.opened x writes rest)

/-- What a step of session `i` leaves to the others. -/
structure Leaves (i : Nat) (db db' : Server κ σ ι) : Prop where
  locks : ∀ {j key}, j ≠ i → db.locks key = some j → db'.locks key = some j
  committed : db'.committed = db.committed ∨ db.locks F.lock = some i ∧ ∃ x,
    db.locks (F.own x) = some i ∧ ∀ k, F.has k db'.committed = true ↔
      k = F.own x ∨ F.has k db.committed = true

variable {F} {i j : Nat} {db db' : Server κ σ ι} {t : Session κ σ ε α ι} {start : σ}

/-- A transaction whose row is there ends at once. -/
theorem exec_there {x : ι} {s : σ} (h : F.has (F.own x) s = true) :
    (F.txn x).exec s = .ok (F.there, s) := by
  simp [txn, Txn.exec, h]

theorem exec_new {x : ι} {s : σ} (h : F.has (F.own x) s = false) :
    (F.txn x).exec s = (F.body x).exec (F.touch x (F.insert x s) (F.insert x s)) := by
  simp [txn, Txn.exec, h]

theorem Leaves.release : F.Leaves i db (db.release i) where
  locks := by
    intro j key hj hkey
    have hne : ¬ db.locks key = some i := by
      rw [hkey, Option.some.injEq]
      exact hj
    exact (if_neg hne).trans hkey
  committed := Or.inl rfl

theorem Leaves.refl : F.Leaves i db db := ⟨fun _ h => h, Or.inl rfl⟩

theorem Relies.other (h : F.Relies j db t) (hj : j ≠ i) (leaves : F.Leaves i db db') :
    F.Relies j db' t := by
  cases h with
  | closed => exact .closed
  | begun x => exact .begun x
  | there x hhas =>
    refine .there x ?_
    rcases leaves.committed with heq | ⟨-, y, -, hrows⟩
    · rw [heq, hhas]
    · exact (hrows (F.own x)).mpr (Or.inr hhas)
  | inserted x hown hnew =>
    refine .inserted x (leaves.locks hj hown) ?_
    rcases leaves.committed with heq | ⟨-, y, hlock, hrows⟩
    · rw [heq, hnew]
    · -- the row of `x` is locked, so it is not the one that was committed
      have hne : F.own x ≠ F.own y := by
        intro heq
        rw [heq, hlock] at hown
        exact hj (Option.some.inj hown).symm
      rw [Bool.eq_false_iff, ne_eq, hrows, not_or]
      exact ⟨hne, by simp [hnew]⟩
  | running hown hlock hexec hquiet hrows =>
    rcases leaves.committed with heq | ⟨hlock', -⟩
    · have hvisible : ∀ writes, db'.visible writes = db.visible writes := by
        intro writes
        rw [Server.visible, heq, Server.visible]
      refine .running (leaves.locks hj hown) (leaves.locks hj hlock) ?_ hquiet ?_
      · rw [hvisible, heq, hexec]
      · rw [hvisible, heq]
        exact hrows
    · rw [hlock'] at hlock
      exact absurd (Option.some.inj hlock).symm hj

end Family

@[simp] theorem visible_nil (db : Server κ σ ι) : db.visible [] = db.committed := rfl

theorem visible_concat (db : Server κ σ ι) (writes : List (σ → σ)) (f : σ → σ) :
    db.visible (writes ++ [f]) = f (db.visible writes) := by
  rw [Server.visible, List.foldl_append]
  rfl

variable [DecidableEq κ] {i : Nat} {db : Server κ σ ι}

theorem write_cases (i : Nat) (db : Server κ σ ι) (x : ι) (writes : List (σ → σ)) (key : κ)
    (w : σ → Option (σ → σ)) (k : σ → Txn κ σ ε α) :
    write i db x writes key w k = (db, .opened x writes (.write key w k)) ∨
    w (db.visible writes) = none ∧
      write i db x writes key w k = (db, .opened x writes (k (db.visible writes))) ∨
    ∃ f, w (db.visible writes) = some f ∧ (∀ j, db.locks key = some j → j = i) ∧
      write i db x writes key w k = ({ db with locks := Function.update db.locks key (some i) },
        .opened x (writes ++ [f]) (k (db.visible writes))) := by
  unfold write
  split_ifs with hwait
  · exact Or.inl rfl
  · have hfree : ∀ j, db.locks key = some j → j = i := by
      intro j hj
      by_contra hne
      exact hwait ⟨j, hj, hne⟩
    cases hw : w (db.visible writes) with
    | none => exact Or.inr (Or.inl ⟨rfl, rfl⟩)
    | some f => exact Or.inr (Or.inr ⟨f, rfl, hfree, rfl⟩)

theorem locked_update (key : κ) {key' : κ} (h : db.locks key' = some i) :
    Function.update db.locks key (some i) key' = some i := by
  by_cases hkey : key' = key
  · rw [hkey, Function.update_self]
  · rw [Function.update_of_ne hkey, h]

namespace Family
variable {F : Family κ σ ε α ι} {t : Session κ σ ε α ι} {start : σ}

/-- A lock taken by the session that holds it or by none. -/
theorem Leaves.take {key : κ} (hfree : ∀ j, db.locks key = some j → j = i) :
    F.Leaves i db { db with locks := Function.update db.locks key (some i) } where
  locks := by
    intro j key' hj hkey
    have hne : key' ≠ key := by
      rintro rfl
      exact hj (hfree j hkey)
    exact (Function.update_of_ne hne _ _).trans hkey
  committed := Or.inl rfl

/-- What a step owes: the log, its own assertion, and what it leaves to the others. -/
structure Steps (F : Family κ σ ε α ι) (start : σ) (i : Nat) (db : Server κ σ ι)
    (next : Server κ σ ι × Session κ σ ε α ι) : Prop where
  serial : Serial F.txn start next.1.log next.1.committed
  own : F.Relies i next.1 next.2
  others : F.Leaves i db next.1

section
variable (serial : Serial F.txn start db.log db.committed)
include serial

/-- The COMMIT of a session that has run to its end. -/
theorem Steps.commit {x : ι} {writes : List (σ → σ)} {a : α}
    (hexec : (F.txn x).exec db.committed = .ok (a, db.visible writes))
    (hrows : db.visible writes = db.committed ∨ db.locks F.lock = some i ∧
      db.locks (F.own x) = some i ∧ ∀ k, F.has k (db.visible writes) = true ↔
        k = F.own x ∨ F.has k db.committed = true) :
    F.Steps start i db (step i db (.opened x writes (.done a))) where
  serial := serial.commit hexec
  own := .closed
  others := by
    have released : F.Leaves i db (db.release i) := .release
    refine ⟨fun hj hkey => released.locks hj hkey, ?_⟩
    rcases hrows with heq | ⟨hlock, hown, hrows⟩
    · exact Or.inl heq
    · exact Or.inr ⟨hlock, x, hown, hrows⟩

theorem Steps.running {x : ι} {writes : List (σ → σ)} {rest : Txn κ σ ε α}
    (hown : db.locks (F.own x) = some i) (hlock : db.locks F.lock = some i)
    (hexec : rest.exec (db.visible writes) = (F.txn x).exec db.committed)
    (hquiet : rest.Writes fun f => ∀ k s, F.has k (f s) = F.has k s)
    (hrows : ∀ k, F.has k (db.visible writes) = true ↔
      k = F.own x ∨ F.has k db.committed = true) :
    F.Steps start i db (step i db (.opened x writes rest)) := by
  cases rest with
  | done a => exact .commit serial hexec.symm (Or.inr ⟨hlock, hown, hrows⟩)
  | fail e => exact ⟨serial, .closed, .release⟩
  | read k => exact ⟨serial, .running hown hlock hexec (hquiet _) hrows, .refl⟩
  | write key w k =>
    obtain ⟨hw, hk⟩ := hquiet (db.visible writes)
    rw [step]
    rcases write_cases i db x writes key w k with hstep | ⟨hnone, hstep⟩ | ⟨f, hf, hfree, hstep⟩
    · rw [hstep]
      exact ⟨serial, .running hown hlock hexec hquiet hrows, .refl⟩
    · rw [hstep]
      refine ⟨serial, .running hown hlock ?_ hk hrows, .refl⟩
      rw [← hexec, Txn.exec, hnone]
      rfl
    · rw [hstep]
      refine ⟨serial, .running (locked_update _ hown) (locked_update _ hlock) ?_ hk ?_,
        .take hfree⟩
      · rw [← hexec, Txn.exec, hf]
        exact congrArg _ (visible_concat _ writes f)
      · intro key'
        rw [← hrows key', ← hw f hf key' (db.visible writes)]
        exact iff_of_eq (congrArg (F.has key' · = true) (visible_concat _ writes f))

theorem Relies.step (h : F.Relies i db t) : F.Steps start i db (step i db t) := by
  cases h with
  | closed => exact ⟨serial, .closed, .refl⟩
  | begun x =>
    rw [txn, Transactions.step]
    rcases write_cases i db x [] (F.own x) _ _ with hstep | ⟨hw, hstep⟩ | ⟨f, hw, hfree, hstep⟩
    · rw [hstep]
      exact ⟨serial, .begun x, .refl⟩
    · split_ifs at hw with hhas
      rw [hstep, if_pos hhas]
      exact ⟨serial, .there x hhas, .refl⟩
    · split_ifs at hw with hhas
      obtain rfl := Option.some.inj hw
      rw [hstep, if_neg hhas]
      exact ⟨serial, .inserted x (Function.update_self ..) (by simpa using hhas), .take hfree⟩
  | there x hhas => exact .commit serial (exec_there hhas) (Or.inl rfl)
  | inserted x hown hnew =>
    rw [Transactions.step]
    rcases write_cases i db x [F.insert x] F.lock _ _ with hstep | ⟨hw, -⟩ | ⟨f, hw, hfree, hstep⟩
    · rw [hstep]
      exact ⟨serial, .inserted x hown hnew, .refl⟩
    · cases hw
    · obtain rfl := Option.some.inj hw
      rw [hstep]
      refine ⟨serial, .running (locked_update _ hown) (Function.update_self ..) ?_ (F.has_body x)
        fun k => ?_, .take hfree⟩
      · exact (exec_new hnew).symm
      · exact (iff_of_eq (congrArg (· = true) (F.has_touch x _ k _))).trans (F.has_insert x k _)
  | running hown hlock hexec hquiet hrows => exact .running serial hown hlock hexec hquiet hrows

end

theorem keeps (F : Family κ σ ε α ι) (start : σ) : (machine F.txn).Keeps
    (fun _ db => Serial F.txn start db.log db.committed) (fun i _ db t => F.Relies i db t)
    fun _ _ _ _ => True where
  enter _ _ _ x _ := .begun x
  later _ _ _ _ h := ⟨h, fun _ _ ht => ht⟩
  own _ _ _ _ serial h _ := ⟨(h.step serial).serial, (h.step serial).own⟩
  others _ _ _ _ _ _ serial h _ hj hu := hu.other hj (h.step serial).others
  stop _ _ _ _ serial _ := ⟨serial, .closed, fun _ _ hj hu => hu.other hj .release⟩

/-- In every state of every run, what is committed is what the committed tasks leave one after
another, in the order of their commits. -/
theorem serial (F : Family κ σ ε α ι) (start : σ) (moves : List (Move ι)) :
    Serial F.txn start ((machine F.txn).run (idle start) moves).store.log
      ((machine F.txn).run (idle start) moves).store.committed := by
  have sound : Machine.Sound (fun _ db => Serial F.txn start db.log db.committed)
      (fun i _ db t => F.Relies i db t) (idle start) := ⟨.start, nofun⟩
  exact (sound.run (F.keeps start) (Machine.meets_of_forall (fun _ _ _ _ => trivial) moves)).store

end Family

end Transactions
