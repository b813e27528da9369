import Mathlib.Data.List.Basic

/-!
# Recursive queries

`WITH RECURSIVE … UNION ALL` evaluates its recursive term on the rows of the round before, round
after round, until a round finds nothing. `DISTINCT ON` keeps the first row of each key.
-/

namespace Recursion
set_option autoImplicit false

universe u v
variable {α : Type u} {κ : Type v} {step : α → List α} {base : List α}

/-- What round `n` finds, when the first term finds `base`. -/
def round (step : α → List α) : Nat → List α → List α
  | 0, base => base
  | n + 1, base => round step n (base.flatMap step)

/-- `none` is a query that has not ended after `fuel` rounds. -/
def rows (step : α → List α) : Nat → List α → Option (List α)
  | 0, _ => none
  | fuel + 1, working =>
    if working.isEmpty then some []
    else (rows step fuel (working.flatMap step)).map (working ++ ·)

theorem round_nil (n : Nat) : round step n [] = [] := by
  induction n with
  | zero => rfl
  | succ n ih => exact ih

theorem mem_round_succ {n : Nat} {a : α} :
    a ∈ round step (n + 1) base ↔ ∃ b ∈ round step n base, a ∈ step b := by
  induction n generalizing base with
  | zero => exact List.mem_flatMap
  | succ n ih => exact ih

/-- A query with a round that finds nothing returns what its rounds find. -/
theorem rows_spec {bound : Nat} (hdry : round step bound base = []) :
    ∃ found, rows step (bound + 1) base = some found ∧
      ∀ a, a ∈ found ↔ ∃ n, a ∈ round step n base := by
  induction bound generalizing base with
  | zero =>
    obtain rfl : base = [] := hdry
    refine ⟨[], rfl, fun a => iff_of_false List.not_mem_nil ?_⟩
    rintro ⟨n, ha⟩
    rw [round_nil] at ha
    exact List.not_mem_nil ha
  | succ bound ih =>
    obtain ⟨found, hfound, hmem⟩ := ih hdry
    cases base with
    | nil =>
      refine ⟨[], rfl, fun a => iff_of_false List.not_mem_nil ?_⟩
      rintro ⟨n, ha⟩
      rw [round_nil] at ha
      exact List.not_mem_nil ha
    | cons b base =>
      refine ⟨b :: base ++ found, ?_, fun a => ?_⟩
      · rw [rows, hfound]
        rfl
      · rw [List.mem_append, hmem]
        constructor
        · rintro (ha | ⟨n, ha⟩)
          · exact ⟨0, ha⟩
          · exact ⟨n + 1, ha⟩
        · rintro ⟨n, ha⟩
          cases n with
          | zero => exact .inl ha
          | succ n => exact .inr ⟨n, ha⟩

/-! ## The first row of each key -/

section
variable [DecidableEq κ] {key : α → κ}

def distinctOn (key : α → κ) : List α → List α
  | [] => []
  | a :: rest => a :: (distinctOn key rest).filter fun b => key b ≠ key a

theorem distinctOn_pairwise (key : α → κ) (l : List α) :
    (distinctOn key l).Pairwise fun a b => key a ≠ key b := by
  induction l with
  | nil => exact .nil
  | cons a rest ih =>
    refine .cons (fun b hb => ?_) (ih.filter _)
    exact (of_decide_eq_true (List.mem_filter.1 hb).2).symm

/-- Sorted by falling rank within a key, the first row is the one of the highest rank. -/
theorem mem_distinctOn {rank : α → Nat} {l : List α}
    (hsorted : l.Pairwise fun a b => key a = key b → rank b ≤ rank a)
    (hinj : ∀ a ∈ l, ∀ b ∈ l, key a = key b → rank a = rank b → a = b) {a : α} :
    a ∈ distinctOn key l ↔ a ∈ l ∧ ∀ b ∈ l, key b = key a → rank b ≤ rank a := by
  induction l with
  | nil => exact iff_of_false List.not_mem_nil fun h => List.not_mem_nil h.1
  | cons first rest ih =>
    obtain ⟨hfirst, hrest⟩ := List.pairwise_cons.1 hsorted
    have hmem := ih hrest fun a ha b hb =>
      hinj a (List.mem_cons_of_mem _ ha) b (List.mem_cons_of_mem _ hb)
    rw [distinctOn, List.mem_cons, List.mem_filter, hmem, decide_eq_true_iff]
    constructor
    · rintro (rfl | ⟨⟨ha, hmax⟩, hne⟩)
      · refine ⟨List.mem_cons_self, fun b hb hkey => ?_⟩
        cases hb with
        | head => exact Nat.le_refl _
        | tail _ hb => exact hfirst b hb hkey.symm
      · refine ⟨List.mem_cons_of_mem _ ha, fun b hb hkey => ?_⟩
        cases hb with
        | head => exact absurd hkey.symm hne
        | tail _ hb => exact hmax b hb hkey
    · rintro ⟨ha, hmax⟩
      by_cases heq : a = first
      · exact .inl heq
      have harest : a ∈ rest := by
        cases ha with
        | head => exact absurd rfl heq
        | tail _ ha => exact ha
      refine .inr ⟨⟨harest, fun b hb => hmax b (List.mem_cons_of_mem _ hb)⟩, fun hkey => ?_⟩
      have hle := hmax first List.mem_cons_self hkey.symm
      have hge := hfirst a harest hkey.symm
      exact heq (hinj a ha first List.mem_cons_self hkey (by omega))

end

end Recursion
