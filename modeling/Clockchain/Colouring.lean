import Mathlib.Data.List.Perm.Basic

/-!
# Colour refinement

In every round a vertex gets a colour for the one it has and those of its neighbours. After `n`
rounds it depends on what lies within `n` steps, and on that only up to isomorphism.
-/

namespace Colouring
set_option autoImplicit false

universe u v w
variable {α : Type u} {β : Type v} {κ : Type w} {mix : κ → List κ → κ} {seed : κ}
  {neighbours : α → List α} {inside : α → Bool} {n : Nat} {a : α}

/-- The colour after so many rounds. -/
def colour (mix : κ → List κ → κ) (seed : κ) (neighbours : α → List α) : Nat → α → κ
  | 0, _ => seed
  | n + 1, a =>
    mix (colour mix seed neighbours n a) ((neighbours a).map (colour mix seed neighbours n))

/-- The induced subgraph. -/
def induced (neighbours : α → List α) (inside : α → Bool) (a : α) : List α :=
  (neighbours a).filter inside

/-- No walk of at most `n` steps leaves. -/
def Deep (neighbours : α → List α) (inside : α → Bool) : Nat → α → Prop
  | 0, a => inside a = true
  | n + 1, a => inside a = true ∧ ∀ b ∈ neighbours a, Deep neighbours inside n b

theorem Deep.self (h : Deep neighbours inside n a) : inside a = true := by
  cases n with
  | zero => exact h
  | succ n => exact h.1

theorem Deep.of_succ (h : Deep neighbours inside (n + 1) a) : Deep neighbours inside n a := by
  induction n generalizing a with
  | zero => exact h.1
  | succ n ih => exact ⟨h.1, fun b hb => ih (h.2 b hb)⟩

theorem Deep.of_le {m : Nat} (hle : m ≤ n) (h : Deep neighbours inside n a) :
    Deep neighbours inside m a := by
  induction hle with
  | refl => exact h
  | step _ ih => exact ih h.of_succ

theorem Deep.of_closed (hclosed : ∀ a, inside a = true → ∀ b ∈ neighbours a, inside b = true)
    (ha : inside a = true) : Deep neighbours inside n a := by
  induction n generalizing a with
  | zero => exact ha
  | succ n ih => exact ⟨ha, fun b hb => ih (hclosed a ha b hb)⟩

/-- Where no walk leaves, the subgraph gives the colour of the whole graph. -/
theorem Deep.colour_eq (h : Deep neighbours inside n a) :
    colour mix seed (induced neighbours inside) n a = colour mix seed neighbours n a := by
  induction n generalizing a with
  | zero => rfl
  | succ n ih =>
    have hall : induced neighbours inside a = neighbours a :=
      List.filter_eq_self.2 fun b hb => (h.2 b hb).self
    have hmap : (neighbours a).map (colour mix seed (induced neighbours inside) n) =
        (neighbours a).map (colour mix seed neighbours n) :=
      List.map_congr_left fun b hb => ih (h.2 b hb)
    rw [colour, colour, ih h.of_succ, hall, hmap]

/-- A map that keeps the neighbours, in whatever order, keeps the colour. -/
theorem colour_map {neighbours' : β → List β} {f : α → β}
    (hmix : ∀ k l l', List.Perm l l' → mix k l = mix k l')
    (hf : ∀ a, (neighbours' (f a)).Perm ((neighbours a).map f)) :
    colour mix seed neighbours' n (f a) = colour mix seed neighbours n a := by
  induction n generalizing a with
  | zero => rfl
  | succ n ih =>
    have hcolours : ((neighbours' (f a)).map (colour mix seed neighbours' n)).Perm
        ((neighbours a).map (colour mix seed neighbours n)) := by
      refine ((hf a).map _).trans ?_
      rw [List.map_map]
      exact .of_eq (List.map_congr_left fun b _ => ih)
    rw [colour, colour, ih, hmix _ _ _ hcolours]

end Colouring
