import Clockchain.Search
import Mathlib.Data.List.Lex

/-!
# Trails

A trail lists the vertices of a walk with its labels. In a symmetric graph two searches from both
ends meet at the distance of the ends, and the steps that come nearer to the target, the least
one first, make the least of the shortest trails.
-/

namespace Search
set_option autoImplicit false

universe u v
variable {α : Type u} {ε : Type v} {next : α → List (α × ε)}

/-! ## Distances -/

theorem Within.append {x y z : α} {a b : Nat} (h : Within next x a y) (h' : Within next y b z) :
    Within next x (a + b) z := by
  obtain ⟨path, hwalk, hlen⟩ := h
  obtain ⟨path', hwalk', hlen'⟩ := h'
  exact ⟨path ++ path', hwalk.append hwalk', by rw [List.length_append]; omega⟩

theorem Within.step {x y z : α} {d : Nat} {e : ε} (h : Step next x e y) (h' : Within next y d z) :
    Within next x (d + 1) z := by
  rw [Nat.add_comm]
  exact Within.append ⟨[e], .single h, le_rfl⟩ h'

/-- Each step can be taken back. -/
def Symmetric (next : α → List (α × ε)) : Prop :=
  ∀ {x : α} {e : ε} {y : α}, Step next x e y → Step next y e x

theorem Within.symm (hsymm : Symmetric next) {x y : α} {d : Nat} (h : Within next x d y) :
    Within next y d x := by
  obtain ⟨path, hwalk, hlen⟩ := h
  exact ⟨path.reverse, hwalk.reverse hsymm, by rwa [List.length_reverse]⟩

theorem At.symm (hsymm : Symmetric next) {x y : α} {d : Nat} (h : At next x d y) :
    At next y d x :=
  ⟨h.1.symm hsymm, fun k hk hwithin => h.2 k hk (hwithin.symm hsymm)⟩

theorem At.le {x y : α} {d k : Nat} (h : At next x d y) (h' : Within next x k y) : d ≤ k :=
  Nat.not_lt.mp fun hlt => h.2 k hlt h'

theorem At.unique {x y : α} {d d' : Nat} (h : At next x d y) (h' : At next x d' y) : d = d' :=
  Nat.le_antisymm (h.le h'.1) (h'.le h.1)

/-- The last step to a vertex comes from the level before. -/
theorem At.pred {x y : α} {d : Nat} (h : At next x (d + 1) y) :
    ∃ z e, At next x d z ∧ Step next z e y := by
  rcases within_succ.mp h.1 with hnear | ⟨z, e, hz, hstep⟩
  · exact absurd hnear (h.2 d d.lt_succ_self)
  · refine ⟨z, e, ⟨hz, fun k hk hwithin => ?_⟩, hstep⟩
    exact h.2 (k + 1) (by omega) (within_succ.mpr (Or.inr ⟨z, e, hwithin, hstep⟩))

/-- On the way to a vertex there is one at each distance. -/
theorem At.split {x y : α} {i j : Nat} (h : At next x (i + j) y) :
    ∃ z, At next x i z ∧ At next z j y := by
  induction j generalizing y with
  | zero => exact ⟨y, h, within_zero.mpr rfl, fun k hk => absurd hk k.not_lt_zero⟩
  | succ j ih =>
    obtain ⟨w, e, hw, hstep⟩ := At.pred (d := i + j) h
    obtain ⟨z, hz, hzw⟩ := ih hw
    refine ⟨z, hz, within_succ.mpr (Or.inr ⟨w, e, hzw.1, hstep⟩), fun k hk hwithin => ?_⟩
    exact h.2 (i + k) (by omega) (Within.append hz.1 hwithin)

/-- Of the vertices near both ends, one is on a shortest walk. -/
theorem At.meet (hsymm : Symmetric next) {x y : α} {d i j : Nat} (h : At next x d y)
    (hd : d ≤ i + j) : ∃ z n m, n ≤ i ∧ m ≤ j ∧ At next x n z ∧ At next y m z ∧ n + m = d := by
  obtain ⟨n, m, rfl, hn, hm⟩ : ∃ n m, d = n + m ∧ n ≤ i ∧ m ≤ j :=
    ⟨min d i, d - min d i, by omega, by omega, by omega⟩
  obtain ⟨z, hz, hzy⟩ := h.split
  exact ⟨z, n, m, hn, hm, hz, hzy.symm hsymm, rfl⟩

/-! ## Trails -/

/-- A walk along steps, with the labels and the vertices it goes through. -/
inductive Trail (next : α → List (α × ε)) : α → List (α × ε) → α → Prop where
  | nil (x : α) : Trail next x [] x
  | cons {x y z : α} {e : ε} {steps : List (α × ε)} : Step next x e y → Trail next y steps z →
      Trail next x ((y, e) :: steps) z

theorem Trail.concat {x y z : α} {e : ε} {steps : List (α × ε)} (h : Trail next x steps y)
    (hstep : Step next y e z) : Trail next x (steps ++ [(z, e)]) z := by
  induction h with
  | nil x => exact .cons hstep (.nil z)
  | cons hfirst _ ih => exact .cons hfirst (ih hstep)

theorem Trail.within {x y : α} {steps : List (α × ε)} (h : Trail next x steps y) :
    Within next x steps.length y := by
  induction h with
  | nil x => exact within_zero.mpr rfl
  | cons hstep _ ih => exact ih.step hstep

theorem within_iff_trail {x y : α} {d : Nat} :
    Within next x d y ↔ ∃ steps, Trail next x steps y ∧ steps.length ≤ d := by
  constructor
  · rintro ⟨path, hwalk, hlen⟩
    have htrail : ∃ steps, Trail next x steps y ∧ steps.length = path.length := by
      clear hlen
      induction hwalk with
      | nil => exact ⟨[], .nil _, rfl⟩
      | snoc _ hstep ih =>
        obtain ⟨steps, htrail, hlen⟩ := ih
        exact ⟨_, htrail.concat hstep, by simp [hlen]⟩
    obtain ⟨steps, htrail, hsteps⟩ := htrail
    exact ⟨steps, htrail, hsteps.trans_le hlen⟩
  · rintro ⟨steps, htrail, hlen⟩
    exact htrail.within.mono hlen

/-! ## The least trail -/

variable {lt : α × ε → α × ε → Prop}

/-- No trail of its length between its ends comes before it. -/
structure LeastTrail (next : α → List (α × ε)) (lt : α × ε → α × ε → Prop) (x : α)
    (steps : List (α × ε)) (y : α) : Prop where
  trail : Trail next x steps y
  least : ∀ others, Trail next x others y → others.length = steps.length →
    others = steps ∨ List.Lex lt steps others

theorem LeastTrail.nil (x : α) : LeastTrail next lt x [] x where
  trail := .nil x
  least := fun _ _ hlen => .inl (List.length_eq_zero_iff.mp hlen)

/-- The least step that comes nearer to the target begins the least shortest trail. -/
theorem LeastTrail.cons {x y z : α} {e : ε} {steps : List (α × ε)}
    (hat : At next x (steps.length + 1) z) (hstep : Step next x e y)
    (hleast : ∀ y' e', Step next x e' y' → At next y' steps.length z →
      (y', e') = (y, e) ∨ lt (y, e) (y', e'))
    (h : LeastTrail next lt y steps z) : LeastTrail next lt x ((y, e) :: steps) z where
  trail := .cons hstep h.trail
  least := by
    intro others hothers hlen
    cases hothers with
    | nil => nomatch hlen
    | @cons _ y' _ e' others hstep' hothers =>
      have hrest : others.length = steps.length := Nat.succ.inj hlen
      have hnear : Within next y' steps.length z := hrest ▸ hothers.within
      have hat' : At next y' steps.length z := by
        refine ⟨hnear, fun k hk hwithin => ?_⟩
        exact hat.2 (k + 1) (by omega) (hwithin.step hstep')
      rcases hleast y' e' hstep' hat' with heq | hlt
      · obtain ⟨rfl, rfl⟩ := Prod.mk.inj heq
        rcases h.least others hothers hrest with rfl | hlex
        · exact .inl rfl
        · exact .inr (.cons hlex)
      · exact .inr (.rel hlt)

end Search
