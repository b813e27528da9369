import Mathlib.Data.Set.Function
import Mathlib.Data.List.Basic

/-!
# Hash trees by levels

A level pairs its neighbours and promotes an odd last node unchanged. Splitting a list
at the largest power of two below its length and hashing the two halves gives the same
tree, so what a recursion on splits computes can be read level by level.
-/

namespace Levels
set_option autoImplicit false

universe u
variable {H : Type u} (node : H → H → H)

/-- One level up. -/
def pairUp : List H → List H
  | [] => []
  | [a] => [a]
  | a :: b :: rest => node a b :: pairUp rest

/-- The pairs a level hashes. -/
def adjacent : List H → List (H × H)
  | [] => []
  | [_] => []
  | a :: b :: rest => (a, b) :: adjacent rest

theorem length_pairUp (xs : List H) : (pairUp node xs).length = (xs.length + 1) / 2 := by
  induction xs using pairUp.induct with
  | case1 => simp [pairUp]
  | case2 a => simp [pairUp]
  | case3 a b rest ih =>
    simp only [pairUp, List.length_cons, ih]
    omega

theorem take_pairUp (xs : List H) (i : Nat) :
    (pairUp node xs).take i = pairUp node (xs.take (2 * i)) := by
  induction i generalizing xs with
  | zero => simp [pairUp]
  | succ i ih =>
    rw [show 2 * (i + 1) = 2 * i + 1 + 1 by omega]
    cases xs using pairUp.fun_cases with
    | case1 => simp [pairUp]
    | case2 a => simp [pairUp]
    | case3 a b rest => simp only [pairUp, List.take_succ_cons, ih]

theorem drop_pairUp (xs : List H) (i : Nat) :
    (pairUp node xs).drop i = pairUp node (xs.drop (2 * i)) := by
  induction i generalizing xs with
  | zero => simp
  | succ i ih =>
    rw [show 2 * (i + 1) = 2 * i + 1 + 1 by omega]
    cases xs using pairUp.fun_cases with
    | case1 => simp [pairUp]
    | case2 a => simp [pairUp]
    | case3 a b rest => simp only [pairUp, List.drop_succ_cons, ih]

theorem adjacent_split (xs : List H) (i : Nat) :
    adjacent xs = adjacent (xs.take (2 * i)) ++ adjacent (xs.drop (2 * i)) := by
  induction i generalizing xs with
  | zero => simp [adjacent]
  | succ i ih =>
    rw [show 2 * (i + 1) = 2 * i + 1 + 1 by omega]
    cases xs using pairUp.fun_cases with
    | case1 => simp [adjacent]
    | case2 a => simp [adjacent]
    | case3 a b rest =>
      simp only [adjacent, List.take_succ_cons, List.drop_succ_cons, List.cons_append]
      rw [ih rest]

/-- A node above two neighbours. -/
theorem getElem?_pairUp_pair {xs : List H} {i : Nat} {a b : H} (ha : xs[2 * i]? = some a)
    (hb : xs[2 * i + 1]? = some b) :
    (pairUp node xs)[i]? = some (node a b) ∧ (a, b) ∈ adjacent xs := by
  have hdrop : xs.drop (2 * i) = a :: b :: xs.drop (2 * i + 2) := by
    rw [List.drop_eq_getElem?_toList_append, ha, List.drop_eq_getElem?_toList_append, hb]
    rfl
  constructor
  · have h : (pairUp node xs).drop i = node a b :: pairUp node (xs.drop (2 * i + 2)) := by
      rw [drop_pairUp, hdrop, pairUp]
    have := congrArg (·[0]?) h
    simpa using this
  · rw [adjacent_split xs i, hdrop]
    simp [adjacent]

/-- A last node without a neighbour. -/
theorem getElem?_pairUp_last {xs : List H} {i : Nat} {a : H} (ha : xs[2 * i]? = some a)
    (hlen : xs.length = 2 * i + 1) : (pairUp node xs)[i]? = some a := by
  have hdrop : xs.drop (2 * i) = [a] := by
    rw [List.drop_eq_getElem?_toList_append, ha, List.drop_of_length_le (by omega)]
    rfl
  have h : (pairUp node xs).drop i = [a] := by rw [drop_pairUp, hdrop, pairUp]
  have := congrArg (·[0]?) h
  simpa using this

/-- No two different pairs of `S` hash alike. -/
def Distinct (S : Set (H × H)) : Prop := Set.InjOn (fun p : H × H => node p.1 p.2) S

section
variable {node}

theorem Distinct.pair {S : Set (H × H)} (h : Distinct node S) {a b c d : H} (hp : (a, b) ∈ S)
    (hq : (c, d) ∈ S) (heq : node a b = node c d) : a = c ∧ b = d :=
  Prod.mk.inj (h hp hq heq)

/-- Two lists of one length with the same level above are the same. -/
theorem pairUp_injective {S : Set (H × H)} (hS : Distinct node S) {xs ys : List H}
    (hlen : xs.length = ys.length) (hx : ∀ p ∈ adjacent xs, p ∈ S) (hy : ∀ p ∈ adjacent ys, p ∈ S)
    (h : pairUp node xs = pairUp node ys) : xs = ys := by
  induction xs using pairUp.induct generalizing ys with
  | case1 => exact (List.length_eq_zero_iff.mp hlen.symm).symm
  | case2 a =>
    obtain ⟨b, rfl⟩ := List.length_eq_one_iff.mp hlen.symm
    exact h
  | case3 a b rest ih =>
    cases ys using pairUp.fun_cases with
    | case1 => simp at hlen
    | case2 c => simp at hlen
    | case3 c d rest' =>
      simp only [pairUp, List.cons.injEq] at h
      simp only [adjacent, List.forall_mem_cons] at hx hy
      obtain ⟨rfl, rfl⟩ := hS.pair hx.1 hy.1 h.1
      simp only [List.length_cons, Nat.add_right_cancel_iff] at hlen
      rw [ih hlen hx.2 hy.2 h.2]

end

/-- The node above all others. -/
def top (xs : List H) : Option H :=
  if _ : xs.length ≤ 1 then xs.head? else top (pairUp node xs)
termination_by xs.length
decreasing_by
  rw [length_pairUp]
  omega

theorem top_short {xs : List H} (h : xs.length ≤ 1) : top node xs = xs.head? := by
  rw [top, dif_pos h]

theorem top_pairUp (xs : List H) : top node (pairUp node xs) = top node xs := by
  by_cases h : xs.length ≤ 1
  · rcases xs with _ | ⟨a, _ | ⟨b, rest⟩⟩
    · rfl
    · rfl
    · simp only [List.length_cons] at h
      omega
  · rw [top.eq_1 node xs, dif_neg h]

/-- The pairs hashed on the way to the top. -/
def levelPairs (xs : List H) : List (H × H) :=
  if _ : xs.length ≤ 1 then [] else adjacent xs ++ levelPairs (pairUp node xs)
termination_by xs.length
decreasing_by
  rw [length_pairUp]
  omega

theorem mem_levelPairs {xs : List H} {p : H × H} :
    p ∈ levelPairs node xs ↔ p ∈ adjacent xs ∨ p ∈ levelPairs node (pairUp node xs) := by
  by_cases h : xs.length ≤ 1
  · rcases xs with _ | ⟨a, _ | ⟨b, rest⟩⟩
    · simp [adjacent, pairUp]
    · simp [adjacent, pairUp]
    · simp only [List.length_cons] at h
      omega
  · rw [levelPairs, dif_neg h, List.mem_append]

/-- The index of the neighbour a node is paired with. -/
def sibling (m : Nat) : Nat := if m % 2 = 1 then m - 1 else m + 1

/-- The neighbours met on the way up from node `m`. -/
def siblings (xs : List H) (m : Nat) : List H :=
  if _ : xs.length ≤ 1 then []
  else xs[sibling m]?.toList ++ siblings (pairUp node xs) (m / 2)
termination_by xs.length
decreasing_by
  rw [length_pairUp]
  omega

inductive Side where
  | left | right
  deriving Repr, DecidableEq

/-- A neighbour and the side it stands on. -/
abbrev Turn (H : Type u) := Side × H

def turn (r : H) : Turn H → H
  | (.left, p) => node p r
  | (.right, p) => node r p

def ascend (turns : List (Turn H)) (r : H) : H := turns.foldl (turn node) r

/-- The pairs an ascent hashes. -/
def joins : List (Turn H) → H → List (H × H)
  | [], _ => []
  | (.left, p) :: turns, r => (p, r) :: joins turns (node p r)
  | (.right, p) :: turns, r => (r, p) :: joins turns (node r p)

/-- The turns whose neighbour stands on the left. -/
def lefts (turns : List (Turn H)) : List (Turn H) := turns.filter fun t => t.1 = .left

/-- `turns` lead from node `f` of a level whose last node is `s` to the top. -/
inductive Ascent : Nat → Nat → List (Turn H) → Prop
  | root : Ascent 0 0 []
  | left {f s : Nat} {turns : List (Turn H)} (p : H) (odd : f % 2 = 1) (le : f ≤ s)
      (above : Ascent (f / 2) (s / 2) turns) : Ascent f s ((.left, p) :: turns)
  | right {f s : Nat} {turns : List (Turn H)} (p : H) (even : f % 2 = 0) (lt : f < s)
      (above : Ascent (f / 2) (s / 2) turns) : Ascent f s ((.right, p) :: turns)
  | promoted {f : Nat} {turns : List (Turn H)} (even : f % 2 = 0) (ne : f ≠ 0)
      (above : Ascent (f / 2) (f / 2) turns) : Ascent f f turns

theorem getElem?_le (xs : List H) (i : Nat) (h : i < xs.length) : ∃ a, xs[i]? = some a :=
  ⟨xs[i], List.getElem?_eq_getElem h⟩

/-- Only the node of its level ascends to the top of that level. -/
theorem Ascent.sound {f s : Nat} {turns : List (Turn H)} (ascent : Ascent f s turns)
    {S : Set (H × H)} (hS : Distinct node S) {xs : List H} (hlen : xs.length = s + 1)
    (hpairs : ∀ p ∈ levelPairs node xs, p ∈ S) {r : H} (hjoins : ∀ p ∈ joins node turns r, p ∈ S)
    (h : top node xs = some (ascend node turns r)) : xs[f]? = some r := by
  induction ascent generalizing xs r with
  | root =>
    obtain ⟨a, rfl⟩ := List.length_eq_one_iff.mp hlen
    simpa [top_short, ascend] using h
  | @left f s turns p odd le above ih =>
    obtain ⟨a, ha⟩ := getElem?_le xs (2 * (f / 2)) (by omega)
    obtain ⟨b, hb⟩ := getElem?_le xs (2 * (f / 2) + 1) (by omega)
    obtain ⟨hab, hmem⟩ := getElem?_pairUp_pair node ha hb
    simp only [joins, List.forall_mem_cons] at hjoins
    have hup := @ih (pairUp node xs) (by rw [length_pairUp]; omega)
      (fun q hq => hpairs q ((mem_levelPairs node).mpr (Or.inr hq))) _ hjoins.2
      (by rw [top_pairUp]; exact h)
    have heq := Option.some.inj (hab.symm.trans hup)
    obtain ⟨_, rfl⟩ := hS.pair (hpairs _ ((mem_levelPairs node).mpr (Or.inl hmem))) hjoins.1 heq
    rw [show f = 2 * (f / 2) + 1 by omega]
    exact hb
  | @right f s turns p even lt above ih =>
    obtain ⟨a, ha⟩ := getElem?_le xs (2 * (f / 2)) (by omega)
    obtain ⟨b, hb⟩ := getElem?_le xs (2 * (f / 2) + 1) (by omega)
    obtain ⟨hab, hmem⟩ := getElem?_pairUp_pair node ha hb
    simp only [joins, List.forall_mem_cons] at hjoins
    have hup := @ih (pairUp node xs) (by rw [length_pairUp]; omega)
      (fun q hq => hpairs q ((mem_levelPairs node).mpr (Or.inr hq))) _ hjoins.2
      (by rw [top_pairUp]; exact h)
    have heq := Option.some.inj (hab.symm.trans hup)
    obtain ⟨rfl, _⟩ := hS.pair (hpairs _ ((mem_levelPairs node).mpr (Or.inl hmem))) hjoins.1 heq
    rw [show f = 2 * (f / 2) by omega]
    exact ha
  | @promoted f turns even ne above ih =>
    obtain ⟨a, ha⟩ := getElem?_le xs (2 * (f / 2)) (by omega)
    have hlast := getElem?_pairUp_last node ha (by omega)
    have hup := @ih (pairUp node xs) (by rw [length_pairUp]; omega)
      (fun q hq => hpairs q ((mem_levelPairs node).mpr (Or.inr hq))) _ hjoins
      (by rw [top_pairUp]; exact h)
    rw [show f = 2 * (f / 2) by omega, ha, ← hlast, hup]

theorem siblings_short {xs : List H} (h : xs.length ≤ 1) (m : Nat) : siblings node xs m = [] := by
  rw [siblings, dif_pos h]

theorem siblings_pairUp {xs : List H} (h : 1 < xs.length) (m : Nat) :
    siblings node xs m = xs[sibling m]?.toList ++ siblings node (pairUp node xs) (m / 2) := by
  rw [siblings, dif_neg (by omega)]

/-- A node ascends along its siblings to the top. -/
theorem ascends {s : Nat} {xs : List H} (hlen : xs.length = s + 1) {f : Nat} {r : H}
    (hr : xs[f]? = some r) :
    ∃ turns, Ascent f s turns ∧ turns.map Prod.snd = siblings node xs f ∧
      top node xs = some (ascend node turns r) := by
  induction s using Nat.strong_induction_on generalizing xs f r with
  | _ s ih =>
    have hf : f < xs.length := (List.getElem?_eq_some_iff.mp hr).1
    by_cases hs : s = 0
    · obtain ⟨a, rfl⟩ := List.length_eq_one_iff.mp (show xs.length = 1 by omega)
      obtain rfl : f = 0 := by simpa using hf
      obtain rfl : s = 0 := hs
      refine ⟨[], .root, ?_, ?_⟩
      · rw [siblings_short node (by simp)]
        rfl
      · simpa [top_short, ascend] using hr
    have hup : (pairUp node xs).length = s / 2 + 1 := by rw [length_pairUp]; omega
    rw [siblings_pairUp node (by omega), ← top_pairUp]
    rcases Nat.mod_two_eq_zero_or_one f with heven | hodd
    · have hr' : xs[2 * (f / 2)]? = some r := by rwa [show 2 * (f / 2) = f by omega]
      by_cases hlast : f = s
      · obtain ⟨turns, hascent, hsib, htop⟩ :=
          ih (s / 2) (by omega) hup (getElem?_pairUp_last node hr' (by omega))
        subst hlast
        refine ⟨turns, .promoted heven hs hascent, ?_, htop⟩
        rw [List.getElem?_eq_none (by simp only [sibling]; split <;> omega)]
        exact hsib
      · obtain ⟨b, hb⟩ := getElem?_le xs (2 * (f / 2) + 1) (by omega)
        obtain ⟨turns, hascent, hsib, htop⟩ :=
          ih (s / 2) (by omega) hup (getElem?_pairUp_pair node hr' hb).1
        refine ⟨(.right, b) :: turns, .right b heven (by omega) hascent, ?_, htop⟩
        rw [show sibling f = 2 * (f / 2) + 1 by simp only [sibling]; split <;> omega, hb]
        simp [hsib]
    · have hr' : xs[2 * (f / 2) + 1]? = some r := by rwa [show 2 * (f / 2) + 1 = f by omega]
      obtain ⟨a, ha⟩ := getElem?_le xs (2 * (f / 2)) (by omega)
      obtain ⟨turns, hascent, hsib, htop⟩ :=
        ih (s / 2) (by omega) hup (getElem?_pairUp_pair node ha hr').1
      refine ⟨(.left, a) :: turns, .left a hodd (by omega) hascent, ?_, htop⟩
      rw [show sibling f = 2 * (f / 2) by simp only [sibling]; split <;> omega, ha]
      simp [hsib]

theorem mem_levelPairs_up {xs : List H} {S : Set (H × H)} (h : ∀ p ∈ levelPairs node xs, p ∈ S) :
    (∀ p ∈ adjacent xs, p ∈ S) ∧ ∀ p ∈ levelPairs node (pairUp node xs), p ∈ S :=
  ⟨fun p hp => h p ((mem_levelPairs node).mpr (Or.inl hp)),
    fun p hp => h p ((mem_levelPairs node).mpr (Or.inr hp))⟩

theorem adjacent_take {xs : List H} {S : Set (H × H)} (h : ∀ p ∈ adjacent xs, p ∈ S) (i : Nat) :
    ∀ p ∈ adjacent (xs.take (2 * i)), p ∈ S := by
  intro p hp
  apply h p
  rw [adjacent_split xs i]
  exact List.mem_append_left _ hp

/-- Prefixes agree where the prefixes of the level above do. -/
theorem take_eq_of_pairUp {S : Set (H × H)} (hS : Distinct node S) {xs ys : List H} {q : Nat}
    (hx : 2 * q ≤ xs.length) (hy : 2 * q ≤ ys.length) (hxs : ∀ p ∈ adjacent xs, p ∈ S)
    (hys : ∀ p ∈ adjacent ys, p ∈ S) (h : (pairUp node xs).take q = (pairUp node ys).take q) :
    xs.take (2 * q) = ys.take (2 * q) := by
  rw [take_pairUp, take_pairUp] at h
  refine pairUp_injective hS ?_ (adjacent_take hxs q) (adjacent_take hys q) h
  rw [List.length_take, List.length_take]
  omega

theorem take_succ_eq {xs ys : List H} {i : Nat} {a : H} (h : xs.take i = ys.take i)
    (hx : xs[i]? = some a) (hy : ys[i]? = some a) : xs.take (i + 1) = ys.take (i + 1) := by
  rw [List.take_add_one, List.take_add_one, h, hx, hy]

/-- Two levels whose tops are rebuilt along one ascent agree before the node it starts from.
The shorter level ends at that node. -/
theorem Ascent.agree {f s : Nat} {turns : List (Turn H)} (ascent : Ascent f s turns)
    {S : Set (H × H)} (hS : Distinct node S) {old new : List H} (hold : old.length = f + 1)
    (hnew : new.length = s + 1) (hoS : ∀ p ∈ levelPairs node old, p ∈ S)
    (hnS : ∀ p ∈ levelPairs node new, p ∈ S) {fr sr : H}
    (hfr : ∀ p ∈ joins node (lefts turns) fr, p ∈ S) (hsr : ∀ p ∈ joins node turns sr, p ∈ S)
    (ho : top node old = some (ascend node (lefts turns) fr))
    (hn : top node new = some (ascend node turns sr)) :
    old[f]? = some fr ∧ old.take f = new.take f := by
  induction ascent generalizing old new fr sr with
  | root =>
    obtain ⟨a, rfl⟩ := List.length_eq_one_iff.mp hold
    exact ⟨by simpa [top_short, lefts, ascend] using ho, by simp⟩
  | @left f s turns p odd le above ih =>
    obtain ⟨hoadj, houp⟩ := mem_levelPairs_up node hoS
    obtain ⟨hnadj, hnup⟩ := mem_levelPairs_up node hnS
    have hlo : (pairUp node old).length = f / 2 + 1 := by rw [length_pairUp]; omega
    have hln : (pairUp node new).length = s / 2 + 1 := by rw [length_pairUp]; omega
    have hlefts : lefts ((.left, p) :: turns) = (.left, p) :: lefts turns := by simp [lefts]
    rw [hlefts] at hfr ho
    simp only [joins, List.forall_mem_cons] at hfr hsr
    rw [← top_pairUp] at ho hn
    obtain ⟨hlast, htake⟩ := ih hlo hln houp hnup hfr.2 hsr.2 ho hn
    have hnlast := above.sound node hS hln hnup hsr.2 hn
    obtain ⟨a, ha⟩ := getElem?_le old (2 * (f / 2)) (by omega)
    obtain ⟨b, hb⟩ := getElem?_le old (2 * (f / 2) + 1) (by omega)
    obtain ⟨a', ha'⟩ := getElem?_le new (2 * (f / 2)) (by omega)
    obtain ⟨b', hb'⟩ := getElem?_le new (2 * (f / 2) + 1) (by omega)
    obtain ⟨hab, hmem⟩ := getElem?_pairUp_pair node ha hb
    obtain ⟨hab', hmem'⟩ := getElem?_pairUp_pair node ha' hb'
    obtain ⟨rfl, rfl⟩ := hS.pair (hoadj _ hmem) hfr.1 (Option.some.inj (hab.symm.trans hlast))
    obtain ⟨rfl, _⟩ := hS.pair (hnadj _ hmem') hsr.1 (Option.some.inj (hab'.symm.trans hnlast))
    have hbelow := take_eq_of_pairUp node hS (by omega) (by omega) hoadj hnadj htake
    rw [show f = 2 * (f / 2) + 1 by omega]
    exact ⟨hb, take_succ_eq hbelow ha ha'⟩
  | @right f s turns p even lt above ih =>
    obtain ⟨hoadj, houp⟩ := mem_levelPairs_up node hoS
    obtain ⟨hnadj, hnup⟩ := mem_levelPairs_up node hnS
    have hlefts : lefts ((.right, p) :: turns) = lefts turns := by simp [lefts]
    rw [hlefts] at hfr ho
    simp only [joins, List.forall_mem_cons] at hsr
    rw [← top_pairUp] at ho hn
    obtain ⟨hlast, htake⟩ := ih (by rw [length_pairUp]; omega) (by rw [length_pairUp]; omega)
      houp hnup hfr hsr.2 ho hn
    obtain ⟨a, ha⟩ := getElem?_le old (2 * (f / 2)) (by omega)
    have hown := getElem?_pairUp_last node ha (by omega)
    have hbelow := take_eq_of_pairUp node hS (by omega) (by omega) hoadj hnadj htake
    rw [show f = 2 * (f / 2) by omega]
    exact ⟨ha.trans (hown.symm.trans hlast), hbelow⟩
  | @promoted f turns even ne above ih =>
    obtain ⟨hoadj, houp⟩ := mem_levelPairs_up node hoS
    obtain ⟨hnadj, hnup⟩ := mem_levelPairs_up node hnS
    rw [← top_pairUp] at ho hn
    obtain ⟨hlast, htake⟩ := ih (by rw [length_pairUp]; omega) (by rw [length_pairUp]; omega)
      houp hnup hfr hsr ho hn
    obtain ⟨a, ha⟩ := getElem?_le old (2 * (f / 2)) (by omega)
    have hown := getElem?_pairUp_last node ha (by omega)
    have hbelow := take_eq_of_pairUp node hS (by omega) (by omega) hoadj hnadj htake
    rw [show f = 2 * (f / 2) by omega]
    exact ⟨ha.trans (hown.symm.trans hlast), hbelow⟩

/-- The siblings of a node of the longer level rebuild the top of the level that ends there. -/
theorem Ascent.rebuild {f s : Nat} {turns : List (Turn H)} (ascent : Ascent f s turns)
    {old new : List H} (hold : old.length = f + 1) (hnew : new.length = s + 1)
    (hsib : turns.map Prod.snd = siblings node new f) (htake : old.take f = new.take f) {fr : H}
    (hfr : old[f]? = some fr) : top node old = some (ascend node (lefts turns) fr) := by
  induction ascent generalizing old new fr with
  | root =>
    obtain ⟨a, rfl⟩ := List.length_eq_one_iff.mp hold
    simpa [top_short, lefts, ascend] using hfr
  | @left f s turns p odd le above ih =>
    have hlefts : lefts ((.left, p) :: turns) = (.left, p) :: lefts turns := by simp [lefts]
    obtain ⟨a, ha⟩ := getElem?_le old (2 * (f / 2)) (by omega)
    have hb : old[2 * (f / 2) + 1]? = some fr := by rwa [show 2 * (f / 2) + 1 = f by omega]
    have hshared : new[2 * (f / 2)]? = some a := by
      rw [← ha, ← List.getElem?_take_of_lt (show 2 * (f / 2) < f by omega), ← htake,
        List.getElem?_take_of_lt (by omega)]
    rw [siblings_pairUp node (by omega),
      show sibling f = 2 * (f / 2) by simp only [sibling]; split <;> omega, hshared] at hsib
    have habove : turns.map Prod.snd = siblings node (pairUp node new) (f / 2) :=
      (List.cons.inj hsib).2
    obtain rfl : p = a := (List.cons.inj hsib).1
    have hprefix : (pairUp node old).take (f / 2) = (pairUp node new).take (f / 2) := by
      have := congrArg (List.take (2 * (f / 2))) htake
      rw [List.take_take, List.take_take, Nat.min_eq_left (by omega)] at this
      rw [take_pairUp, take_pairUp, this]
    rw [← top_pairUp, hlefts]
    exact ih (by rw [length_pairUp]; omega) (by rw [length_pairUp]; omega) habove hprefix
      (getElem?_pairUp_pair node ha hb).1
  | @right f s turns p even lt above ih =>
    have hlefts : lefts ((.right, p) :: turns) = lefts turns := by simp [lefts]
    have ha : old[2 * (f / 2)]? = some fr := by rwa [show 2 * (f / 2) = f by omega]
    obtain ⟨b, hb⟩ := getElem?_le new (f + 1) (by omega)
    rw [siblings_pairUp node (by omega),
      show sibling f = f + 1 by simp only [sibling]; split <;> omega, hb] at hsib
    have hprefix : (pairUp node old).take (f / 2) = (pairUp node new).take (f / 2) := by
      rw [take_pairUp, take_pairUp, show 2 * (f / 2) = f by omega, htake]
    rw [← top_pairUp, hlefts]
    exact ih (by rw [length_pairUp]; omega) (by rw [length_pairUp]; omega)
      (List.cons.inj hsib).2 hprefix (getElem?_pairUp_last node ha (by omega))
  | @promoted f turns even ne above ih =>
    have ha : old[2 * (f / 2)]? = some fr := by rwa [show 2 * (f / 2) = f by omega]
    rw [siblings_pairUp node (by omega),
      List.getElem?_eq_none (by simp only [sibling]; split <;> omega)] at hsib
    have hprefix : (pairUp node old).take (f / 2) = (pairUp node new).take (f / 2) := by
      rw [take_pairUp, take_pairUp, show 2 * (f / 2) = f by omega, htake]
    rw [← top_pairUp]
    exact ih (by rw [length_pairUp]; omega) (by rw [length_pairUp]; omega) hsib hprefix
      (getElem?_pairUp_last node ha (by omega))

/-- Two levels of one length with the same top are the same. -/
theorem top_injective {S : Set (H × H)} (hS : Distinct node S) {xs ys : List H}
    (hlen : xs.length = ys.length) (hx : ∀ p ∈ levelPairs node xs, p ∈ S)
    (hy : ∀ p ∈ levelPairs node ys, p ∈ S) (h : top node xs = top node ys) : xs = ys := by
  induction hn : xs.length using Nat.strong_induction_on generalizing xs ys with
  | _ n ih =>
    subst hn
    by_cases hshort : xs.length ≤ 1
    · rw [top_short node hshort, top_short node (by omega)] at h
      rcases xs with _ | ⟨a, _ | ⟨b, rest⟩⟩
      · exact (List.length_eq_zero_iff.mp hlen.symm).symm
      · obtain ⟨c, rfl⟩ := List.length_eq_one_iff.mp hlen.symm
        exact congrArg (fun x => [x]) (Option.some.inj h)
      · simp only [List.length_cons] at hshort
        omega
    · obtain ⟨hxadj, hxup⟩ := mem_levelPairs_up node hx
      obtain ⟨hyadj, hyup⟩ := mem_levelPairs_up node hy
      rw [← top_pairUp node xs, ← top_pairUp node ys] at h
      apply pairUp_injective hS hlen hxadj hyadj
      exact ih _ (by rw [length_pairUp]; omega) (by rw [length_pairUp, length_pairUp, hlen])
        hxup hyup h rfl

end Levels
