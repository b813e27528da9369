import Mathlib.Data.List.Induction
import Mathlib.Data.List.Perm.Basic
import Mathlib.Data.List.Triplewise

/-!
# Merges

A list is gone through once. What matches something kept is merged with the first such thing, and
the fuller one of the two stays, in the other's place if need be. A match is a relation that need
not be transitive.
-/

namespace Merges
set_option autoImplicit false

universe u
variable {α : Type u}

/-- The first element that matches gives way. -/
def replaceFirst (p : α → Bool) (e : α) : List α → List α
  | [] => []
  | k :: kept => if p k then e :: kept else k :: replaceFirst p e kept

section
variable (same fuller : α → α → Bool)

/-- What is kept, and the merges so far, each with what stays before what goes. -/
def step (state : List α × List (α × α)) (e : α) : List α × List (α × α) :=
  match state.1.find? (same e) with
  | none => (state.1 ++ [e], state.2)
  | some hit =>
    if fuller e hit then (replaceFirst (same e) e state.1, state.2 ++ [(e, hit)])
    else (state.1, state.2 ++ [(hit, e)])

def run (state : List α × List (α × α)) (entries : List α) : List α × List (α × α) :=
  entries.foldl (step same fuller) state

/-- `e` restates two elements that do not restate one another, and is fuller than one of them. -/
def Forks (f g e : α) : Prop :=
  same e f = true ∧ same e g = true ∧ same f g = false ∧ (fuller e f = true ∨ fuller e g = true)

instance (f g e : α) : Decidable (Forks same fuller f g e) := inferInstanceAs (Decidable (_ ∧ _))

end

section
variable {same fuller : α → α → Bool} {R : α → α → Prop} {state : List α × List (α × α)} {e hit : α}

theorem find_split {kept : List α} (h : kept.find? (same e) = some hit) :
    ∃ before after, kept = before ++ hit :: after ∧ same e hit = true ∧
      replaceFirst (same e) e kept = before ++ e :: after := by
  induction kept with
  | nil => cases h
  | cons k kept ih =>
    rw [List.find?_cons] at h
    cases hk : same e k with
    | true =>
      rw [hk] at h
      obtain rfl := Option.some.inj h
      exact ⟨[], kept, rfl, hk, if_pos hk⟩
    | false =>
      rw [hk] at h
      obtain ⟨before, after, rfl, hhit, hreplace⟩ := ih h
      refine ⟨k :: before, after, rfl, hhit, ?_⟩
      rw [replaceFirst, if_neg (by rw [hk]; decide), hreplace, List.cons_append]

/-- What a step does: it appends, replaces or drops. -/
theorem step_cases (same fuller : α → α → Bool) (state : List α × List (α × α)) (e : α) :
    ((∀ k ∈ state.1, same e k = false) ∧
      step same fuller state e = (state.1 ++ [e], state.2)) ∨
    (∃ before hit after, state.1 = before ++ hit :: after ∧ same e hit = true ∧
      fuller e hit = true ∧
      step same fuller state e = (before ++ e :: after, state.2 ++ [(e, hit)])) ∨
    (∃ hit ∈ state.1, same e hit = true ∧
      step same fuller state e = (state.1, state.2 ++ [(hit, e)])) := by
  unfold step
  cases hfind : state.1.find? (same e) with
  | none =>
    refine .inl ⟨fun k hk => ?_, rfl⟩
    simpa using List.find?_eq_none.mp hfind k hk
  | some hit =>
    obtain ⟨before, after, hkept, hsame, hreplace⟩ := find_split hfind
    dsimp only
    cases hfuller : fuller e hit with
    | true =>
      rw [if_pos rfl, hreplace]
      exact .inr (.inl ⟨before, hit, after, hkept, hsame, hfuller, rfl⟩)
    | false =>
      rw [if_neg Bool.false_ne_true]
      exact .inr (.inr ⟨hit, List.mem_of_find?_eq_some hfind, hsame, rfl⟩)

theorem run_concat (entries : List α) : run same fuller state (entries ++ [e]) =
    step same fuller (run same fuller state entries) e := by
  rw [run, List.foldl_append, List.foldl_cons, List.foldl_nil, run]

/-! ## Nothing is lost -/

theorem step_perm (state : List α × List (α × α)) (e : α) :
    ((step same fuller state e).1 ++ (step same fuller state e).2.map Prod.snd).Perm
      (e :: (state.1 ++ state.2.map Prod.snd)) := by
  rcases step_cases same fuller state e with ⟨-, h⟩ | ⟨before, hit, after, hkept, -, -, h⟩ |
    ⟨hit, -, -, h⟩
  · rw [h, List.append_assoc, List.singleton_append]
    exact List.perm_middle
  · rw [h, hkept, List.map_append, List.map_singleton, ← List.append_assoc]
    refine List.perm_append_singleton _ _ |>.trans ?_
    simp only [List.append_assoc, List.cons_append]
    exact ((List.perm_middle.cons hit).trans (.swap e hit _)).trans (List.perm_middle.symm.cons e)
  · rw [h, List.map_append, List.map_singleton, ← List.append_assoc]
    exact List.perm_append_singleton _ _

/-- Every element is kept, or goes in one merge. -/
theorem run_perm (same fuller : α → α → Bool) (state : List α × List (α × α)) (entries : List α) :
    ((run same fuller state entries).1 ++ (run same fuller state entries).2.map Prod.snd).Perm
      (entries ++ (state.1 ++ state.2.map Prod.snd)) := by
  induction entries generalizing state with
  | nil => exact .refl _
  | cons e entries ih =>
    refine (ih (step same fuller state e)).trans ?_
    refine ((step_perm state e).append_left entries).trans ?_
    rw [List.cons_append]
    exact List.perm_middle

theorem run_same (hsymm : ∀ x y, same x y = same y x) (entries : List α)
    (h : ∀ m ∈ state.2, same m.2 m.1 = true) :
    ∀ m ∈ (run same fuller state entries).2, same m.2 m.1 = true := by
  induction entries generalizing state with
  | nil => exact h
  | cons e entries ih =>
    apply ih
    rcases step_cases same fuller state e with ⟨-, heq⟩ |
      ⟨before, hit, after, -, hsame, -, heq⟩ | ⟨hit, -, hsame, heq⟩
    · rw [heq]
      exact h
    · rw [heq]
      intro m hm
      rcases List.mem_append.mp hm with hm | hm
      · exact h m hm
      · obtain rfl := List.mem_singleton.mp hm
        exact (hsymm hit e).trans hsame
    · rw [heq]
      intro m hm
      rcases List.mem_append.mp hm with hm | hm
      · exact h m hm
      · obtain rfl := List.mem_singleton.mp hm
        exact hsame

/-! ## What is kept is told apart -/

theorem pairwise_insert (hsymm : ∀ x y, R x y → R y x) {before after : List α} :
    (before ++ e :: after).Pairwise R ↔
      (before ++ after).Pairwise R ∧ ∀ k ∈ before ++ after, R e k := by
  rw [(List.perm_middle (a := e)).pairwise_iff fun {x y} => hsymm x y, List.pairwise_cons]
  exact and_comm

/-- What holds of every two elements holds of every two kept ones. -/
theorem run_pairwise (same fuller : α → α → Bool) (hsymm : ∀ x y, R x y → R y x)
    (entries : List α) (h : entries.Pairwise R) :
    (run same fuller ([], []) entries).1.Pairwise R := by
  have hperm := run_perm same fuller ([], []) entries
  rw [List.map_nil, List.append_nil, List.append_nil] at hperm
  exact (List.pairwise_append.mp ((hperm.pairwise_iff fun {x y} => hsymm x y).mpr h)).1

theorem Forks.symm (hsymm : ∀ x y, same x y = same y x) {f g e : α}
    (h : Forks same fuller f g e) : Forks same fuller g f e :=
  ⟨h.2.1, h.1, hsymm g f ▸ h.2.2.1, h.2.2.2.symm⟩

/-- An element takes the place of the first match. Another match among the kept ones would be told
apart from that, and the new element would fork. -/
theorem step_apart (hsymm : ∀ x y, same x y = same y x)
    (h : state.1.Pairwise fun x y => same x y = false)
    (hforks : state.1.Pairwise fun f g => ¬ Forks same fuller f g e) :
    (step same fuller state e).1.Pairwise fun x y => same x y = false := by
  have hsymm' : ∀ x y, same x y = false → same y x = false := fun x y hxy => hsymm y x ▸ hxy
  rcases step_cases same fuller state e with ⟨hnone, heq⟩ |
    ⟨before, hit, after, hkept, hsame, hfuller, heq⟩ | ⟨hit, -, -, heq⟩
  · rw [heq]
    refine List.pairwise_append.mpr ⟨h, List.pairwise_singleton _ _, fun k hk x hx => ?_⟩
    rw [List.mem_singleton.mp hx]
    exact hsymm' e k (hnone k hk)
  · rw [hkept] at h hforks
    obtain ⟨hrest, hhit⟩ := (pairwise_insert hsymm').mp h
    have hforks := ((pairwise_insert fun f g hnot hgf => hnot (hgf.symm hsymm)).mp hforks).2
    rw [heq]
    refine (pairwise_insert hsymm').mpr ⟨hrest, fun k hk => ?_⟩
    by_contra hsame'
    rw [Bool.not_eq_false] at hsame'
    exact hforks k hk ⟨hsame, hsame', hhit k hk, .inl hfuller⟩
  · rw [heq]
    exact h

/-- Where no element forks two before it, what is kept is told apart. -/
theorem run_apart (hsymm : ∀ x y, same x y = same y x) (entries : List α)
    (h : entries.Triplewise fun f g e => ¬ Forks same fuller f g e) :
    (run same fuller ([], []) entries).1.Pairwise fun x y => same x y = false := by
  induction entries using List.reverseRecOn with
  | nil => exact .nil
  | append_singleton entries e ih =>
    obtain ⟨hfirst, -, -, hlast⟩ := List.triplewise_append.mp h
    rw [run_concat]
    refine step_apart hsymm (ih hfirst) ?_
    exact run_pairwise same fuller (fun f g hnot hgf => hnot (hgf.symm hsymm)) entries
      (hlast e (List.mem_singleton_self e))

theorem run_forks {f g : α} (hsymm : ∀ x y, same x y = same y x) (hf : same e f = true)
    (hfg : same f g = false) (hfuller : fuller e f = true) :
    (run same fuller ([], []) [f, g, e]).1 = [e, g] := by
  have hgf : same g f = false := hsymm g f ▸ hfg
  simp [run, step, replaceFirst, hf, hgf, hfuller]

/-- Elements that nothing matches are kept, in their order. -/
theorem run_filter (fuller : α → α → Bool) {p : α → Bool}
    (hp : ∀ x y, p x = true → same x y = false) (hsymm : ∀ x y, same x y = same y x)
    (entries : List α) :
    (run same fuller ([], []) entries).1.filter p = entries.filter p := by
  have hout : ∀ {x y}, same x y = true → p x = false ∧ p y = false := by
    intro x y hxy
    constructor
    · by_contra hx
      rw [hp x y (by simpa using hx)] at hxy
      cases hxy
    · by_contra hy
      rw [hsymm, hp y x (by simpa using hy)] at hxy
      cases hxy
  induction entries using List.reverseRecOn with
  | nil => rfl
  | append_singleton entries e ih =>
    rw [run_concat, List.filter_append, ← ih]
    rcases step_cases same fuller (run same fuller ([], []) entries) e with ⟨-, heq⟩ |
      ⟨before, hit, after, hkept, hsame, -, heq⟩ | ⟨hit, -, hsame, heq⟩
    · rw [heq, List.filter_append]
    · rw [heq, hkept]
      simp [(hout hsame).1, (hout hsame).2]
    · rw [heq]
      simp [(hout hsame).1]

end

end Merges
