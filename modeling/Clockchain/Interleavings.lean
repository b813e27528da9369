import Mathlib.Data.List.Basic

/-!
# Interleavings

Tasks that share a store and a clock, one step of one task at a time, in any order and with any
delay between. What is to hold of every state is split into an invariant of the store and, for
each task, what it relies on; a step owes the invariant, its own assertion, and those of the other
tasks.
-/

namespace Interleavings
set_option autoImplicit false

universe u
variable {ι σ τ : Type u}

/-- How a call begins, what a task with its number does at a time, and what is left of it when it
stops. -/
structure Machine (ι σ τ : Type u) where
  enter : ι → τ
  step : Nat → Nat → σ → τ → σ × τ
  stop : Nat → σ → τ → σ × τ

structure System (σ τ : Type u) where
  store : σ
  clock : Nat
  tasks : List τ

inductive Move (ι : Type u) where
  | call (c : ι)
  | step (i : Nat)
  | stop (i : Nat)
  | tick (n : Nat)

namespace Machine
variable (M : Machine ι σ τ)

/-- One step of the task with number `i`. -/
def act (f : Nat → σ → τ → σ × τ) (sys : System σ τ) (i : Nat) : System σ τ :=
  match sys.tasks[i]? with
  | none => sys
  | some t =>
    { sys with store := (f i sys.store t).1, tasks := sys.tasks.set i (f i sys.store t).2 }

def move (sys : System σ τ) : Move ι → System σ τ
  | .call c => { sys with tasks := sys.tasks ++ [M.enter c] }
  | .step i => act (fun i => M.step i sys.clock) sys i
  | .stop i => act M.stop sys i
  | .tick n => { sys with clock := sys.clock + n }

def run (sys : System σ τ) (moves : List (Move ι)) : System σ τ := moves.foldl M.move sys

/-- Every step that a task takes meets a condition. -/
def Meets (cond : Nat → Nat → σ → τ → Prop) : System σ τ → List (Move ι) → Prop
  | _, [] => True
  | sys, .step i :: moves =>
    (∀ t ∈ sys.tasks[i]?, cond i sys.clock sys.store t) ∧ Meets cond (M.move sys (.step i)) moves
  | sys, m :: moves => Meets cond (M.move sys m) moves

instance decidableMeets (cond : Nat → Nat → σ → τ → Prop)
    [∀ i now s t, Decidable (cond i now s t)] :
    ∀ (sys : System σ τ) (moves : List (Move ι)), Decidable (M.Meets cond sys moves)
  | _, [] => inferInstanceAs (Decidable True)
  | sys, .step i :: moves =>
    have := decidableMeets cond (M.move sys (.step i)) moves
    inferInstanceAs (Decidable ((∀ t ∈ sys.tasks[i]?, cond i sys.clock sys.store t) ∧
      M.Meets cond (M.move sys (.step i)) moves))
  | sys, .call c :: moves => decidableMeets cond (M.move sys (.call c)) moves
  | sys, .stop i :: moves => decidableMeets cond (M.move sys (.stop i)) moves
  | sys, .tick n :: moves => decidableMeets cond (M.move sys (.tick n)) moves

/-- The store and every task are as they should be. -/
structure Sound (inv : Nat → σ → Prop) (holds : Nat → Nat → σ → τ → Prop) (sys : System σ τ) :
    Prop where
  store : inv sys.clock sys.store
  tasks : ∀ i t, sys.tasks[i]? = some t → holds i sys.clock sys.store t

/-- What the steps of a machine owe. -/
structure Keeps (inv : Nat → σ → Prop) (holds cond : Nat → Nat → σ → τ → Prop) : Prop where
  enter : ∀ i now s c, inv now s → holds i now s (M.enter c)
  later : ∀ now now' s, now ≤ now' → inv now s →
    inv now' s ∧ ∀ i t, holds i now s t → holds i now' s t
  own : ∀ i now s t, inv now s → holds i now s t → cond i now s t →
    inv now (M.step i now s t).1 ∧ holds i now (M.step i now s t).1 (M.step i now s t).2
  others : ∀ i j now s t u, inv now s → holds i now s t → cond i now s t → j ≠ i →
    holds j now s u → holds j now (M.step i now s t).1 u
  stop : ∀ i now s t, inv now s → holds i now s t →
    inv now (M.stop i s t).1 ∧ holds i now (M.stop i s t).1 (M.stop i s t).2 ∧
      ∀ j u, j ≠ i → holds j now s u → holds j now (M.stop i s t).1 u

section
variable {M} {inv : Nat → σ → Prop} {holds cond : Nat → Nat → σ → τ → Prop}
variable {sys : System σ τ}

theorem act_some {f : Nat → σ → τ → σ × τ} {i : Nat} {t : τ} (h : sys.tasks[i]? = some t) :
    act f sys i =
      { sys with store := (f i sys.store t).1, tasks := sys.tasks.set i (f i sys.store t).2 } := by
  rw [act, h]

theorem act_none {f : Nat → σ → τ → σ × τ} {i : Nat} (h : sys.tasks[i]? = none) :
    act f sys i = sys := by
  rw [act, h]

/-- A step that keeps the invariant and all assertions keeps the system sound. -/
theorem Sound.act {f : Nat → σ → τ → σ × τ} {i : Nat} (h : Sound inv holds sys)
    (hown : ∀ t, sys.tasks[i]? = some t → inv sys.clock (f i sys.store t).1 ∧
      holds i sys.clock (f i sys.store t).1 (f i sys.store t).2 ∧
      ∀ j u, j ≠ i → holds j sys.clock sys.store u → holds j sys.clock (f i sys.store t).1 u) :
    Sound inv holds (Machine.act f sys i) := by
  cases ht : sys.tasks[i]? with
  | none =>
    rw [act_none ht]
    exact h
  | some t =>
    obtain ⟨hinv, hself, hrest⟩ := hown t ht
    rw [act_some ht]
    refine ⟨hinv, fun j u hu => ?_⟩
    rw [List.getElem?_set] at hu
    by_cases hj : i = j
    · subst hj
      rw [if_pos rfl] at hu
      split at hu
      · obtain rfl := Option.some.inj hu
        exact hself
      · cases hu
    · rw [if_neg hj] at hu
      exact hrest j u (Ne.symm hj) (h.tasks j u hu)

theorem Sound.move (keeps : M.Keeps inv holds cond) (h : Sound inv holds sys) (m : Move ι)
    (hcond : ∀ i, m = .step i → ∀ t, sys.tasks[i]? = some t → cond i sys.clock sys.store t) :
    Sound inv holds (M.move sys m) := by
  cases m with
  | call c =>
    refine ⟨h.store, fun i t ht => ?_⟩
    change (sys.tasks ++ [M.enter c])[i]? = some t at ht
    rw [List.getElem?_append] at ht
    split at ht
    · exact h.tasks i t ht
    · rw [List.getElem?_singleton] at ht
      split at ht
      · obtain rfl := Option.some.inj ht
        exact keeps.enter i _ _ c h.store
      · cases ht
  | step i =>
    refine h.act (f := fun i => M.step i sys.clock) fun t ht => ?_
    have ht' := h.tasks i t ht
    have hc := hcond i rfl t ht
    obtain ⟨hinv, hself⟩ := keeps.own i _ _ t h.store ht' hc
    exact ⟨hinv, hself, fun j u hj => keeps.others i j _ _ t u h.store ht' hc hj⟩
  | stop i => exact h.act (f := M.stop) fun t ht => keeps.stop i _ _ t h.store (h.tasks i t ht)
  | tick n =>
    obtain ⟨hinv, htasks⟩ := keeps.later _ (sys.clock + n) _ (Nat.le_add_right _ _) h.store
    exact ⟨hinv, fun i t ht => htasks i t (h.tasks i t ht)⟩

/-- Every state of a run is sound whose steps all meet the condition. -/
theorem Sound.run (keeps : M.Keeps inv holds cond) (h : Sound inv holds sys) {moves : List (Move ι)}
    (hmeets : M.Meets cond sys moves) : Sound inv holds (M.run sys moves) := by
  induction moves generalizing sys with
  | nil => exact h
  | cons m moves ih =>
    rw [Machine.run, List.foldl_cons]
    cases m with
    | step i =>
      obtain ⟨hcond, hrest⟩ := hmeets
      refine ih (h.move keeps _ fun j hj t ht => ?_) hrest
      obtain rfl := Move.step.inj hj
      exact hcond t ht
    | call c => exact ih (h.move keeps _ fun j hj => by cases hj) hmeets
    | stop i => exact ih (h.move keeps _ fun j hj => by cases hj) hmeets
    | tick n => exact ih (h.move keeps _ fun j hj => by cases hj) hmeets

/-- A condition that holds of every step is met by every run. -/
theorem meets_of_forall (h : ∀ i now s t, cond i now s t) (moves : List (Move ι)) :
    M.Meets cond sys moves := by
  induction moves generalizing sys with
  | nil => exact trivial
  | cons m moves ih =>
    cases m with
    | step i => exact ⟨fun t _ => h _ _ _ t, ih⟩
    | call c => exact ih
    | stop i => exact ih
    | tick n => exact ih

theorem act_rel {R : σ → σ → Prop} (hrefl : ∀ s, R s s) {f : Nat → σ → τ → σ × τ}
    (hf : ∀ i s t, R s (f i s t).1) (sys : System σ τ) (i : Nat) :
    R sys.store (act f sys i).store := by
  cases ht : sys.tasks[i]? with
  | none =>
    rw [act_none ht]
    exact hrefl _
  | some t =>
    rw [act_some ht]
    exact hf i _ t

/-- A preorder that every step follows is followed by every run. -/
theorem run_rel {R : σ → σ → Prop} (hrefl : ∀ s, R s s)
    (htrans : ∀ s s' s'', R s s' → R s' s'' → R s s'')
    (hstep : ∀ i now s t, R s (M.step i now s t).1) (hstop : ∀ i s t, R s (M.stop i s t).1)
    (sys : System σ τ) (moves : List (Move ι)) : R sys.store (M.run sys moves).store := by
  induction moves generalizing sys with
  | nil => exact hrefl _
  | cons m moves ih =>
    refine htrans _ (M.move sys m).store _ ?_ (ih _)
    cases m with
    | call c => exact hrefl _
    | step i => exact act_rel hrefl (fun i => hstep i sys.clock) sys i
    | stop i => exact act_rel hrefl hstop sys i
    | tick n => exact hrefl _

theorem run_append (sys : System σ τ) (moves more : List (Move ι)) :
    M.run sys (moves ++ more) = M.run (M.run sys moves) more := List.foldl_append

end

end Machine

end Interleavings
