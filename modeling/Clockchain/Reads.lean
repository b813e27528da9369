import Mathlib.Data.List.Basic

/-!
# Reads that may fail

Several reads may be made one after the other until one of them decides, or all at once. Both
ways find the same first answer that decides, unless the second one fails where the first did
not look.
-/

namespace Reads
set_option autoImplicit false

universe u v
variable {ε : Type u} {α : Type v} {p : α → Bool} {reads : List (Except ε α)} {answers : List α}

/-- The reads are made until an answer decides. -/
def first (p : α → Bool) : List (Except ε α) → Except ε (Option α)
  | [] => .ok none
  | .error e :: _ => .error e
  | .ok a :: reads => if p a then .ok (some a) else first p reads

def all : List (Except ε α) → Except ε (List α)
  | [] => .ok []
  | .error e :: _ => .error e
  | .ok a :: reads => (all reads).map (a :: ·)

theorem first_of_all (h : all reads = .ok answers) : first p reads = .ok (answers.find? p) := by
  induction reads generalizing answers with
  | nil =>
    obtain rfl := Except.ok.inj h
    rfl
  | cons read reads ih =>
    cases read with
    | error e => nomatch h
    | ok a =>
      rw [all] at h
      cases hall : all reads with
      | error e =>
        rw [hall] at h
        nomatch h
      | ok rest =>
        rw [hall] at h
        obtain rfl := Except.ok.inj h
        rw [first, ih hall, List.find?_cons]
        cases p a <;> rfl

/-- What fails before an answer decides fails when all reads are made. -/
theorem all_error {e : ε} (h : first p reads = .error e) : all reads = .error e := by
  induction reads with
  | nil => nomatch h
  | cons read reads ih =>
    cases read with
    | error e' =>
      obtain rfl := Except.error.inj h
      rfl
    | ok a =>
      rw [first] at h
      split at h
      · nomatch h
      · rw [all, ih h]
        rfl

theorem first_none :
    first p reads = .ok none ↔ ∀ read ∈ reads, ∃ a, read = .ok a ∧ p a = false := by
  induction reads with
  | nil => simp [first]
  | cons read reads ih =>
    rw [List.forall_mem_cons, ← ih]
    cases read with
    | error e => simp [first]
    | ok a => cases hp : p a <;> simp [first, hp]

/-- The answer that decides comes after answers that do not. -/
theorem first_some {a : α} (h : first p reads = .ok (some a)) :
    ∃ before after, reads = before ++ .ok a :: after ∧ p a = true ∧
      ∀ read ∈ before, ∃ b, read = .ok b ∧ p b = false := by
  induction reads with
  | nil => nomatch h
  | cons read reads ih =>
    cases read with
    | error e => nomatch h
    | ok b =>
      rw [first] at h
      split at h
      · next hp =>
        obtain rfl := Option.some.inj (Except.ok.inj h)
        exact ⟨[], reads, rfl, hp, by simp⟩
      · next hp =>
        obtain ⟨before, after, rfl, ha, hbefore⟩ := ih h
        refine ⟨.ok b :: before, after, rfl, ha, List.forall_mem_cons.mpr ⟨⟨b, rfl, ?_⟩, hbefore⟩⟩
        exact Bool.eq_false_iff.mpr hp

end Reads
