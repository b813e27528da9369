import Clockchain.Maps

/-!
# Queues

An ordered map is a queue of its bindings: erasing a key drops its binding, and a binding above
all others comes last. Of a queue with weights, room for a new weight is made by dropping the
shortest beginning that is enough.
-/

namespace Queues
open Std
set_option autoImplicit false

universe u v w

section
variable {α : Type u} {β : Type v} {cmp : α → α → Ordering} [TransCmp cmp]

/-- Ordered lists with the same members are the same. -/
theorem ordered_unique {γ : Type w} (key : γ → α) {l m : List γ}
    (hl : l.Pairwise fun p q => cmp (key p) (key q) = .lt)
    (hm : m.Pairwise fun p q => cmp (key p) (key q) = .lt) (hmem : ∀ p, p ∈ l ↔ p ∈ m) : l = m := by
  have hirrefl : ∀ p q : γ, cmp (key p) (key q) = .lt → p ≠ q := by
    rintro p q hlt rfl
    have heq : cmp (key p) (key p) = .eq := ReflCmp.compare_self
    rw [heq] at hlt
    nomatch hlt
  refine List.Perm.eq_of_pairwise (fun p q _ _ hpq hqp => ?_) hl hm ?_
  · rw [OrientedCmp.gt_of_lt hpq] at hqp
    nomatch hqp
  · exact (List.perm_ext_iff_of_nodup (hl.imp (hirrefl _ _)) (hm.imp (hirrefl _ _))).mpr hmem

/-- The bindings of an ordered map are the only ordered list of them. -/
theorem toList_unique [LawfulEqCmp cmp] {t : ExtTreeMap α β cmp} {l : List (α × β)}
    (hsorted : l.Pairwise fun p q => cmp p.1 q.1 = .lt)
    (hmem : ∀ p, p ∈ l ↔ t[p.1]? = some p.2) : t.toList = l := by
  refine ordered_unique Prod.fst t.ordered_keys_toList hsorted fun p => ?_
  rw [hmem, ← ExtTreeMap.mem_toList_iff_getElem?_eq_some]

/-- What a rule lets through of two maps is one list when it is in both or in neither. -/
theorem filter_toList_congr [LawfulEqCmp cmp] {s t : ExtTreeMap α β cmp} {rule : α × β → Bool}
    (h : ∀ p : α × β, rule p = true → (s[p.1]? = some p.2 ↔ t[p.1]? = some p.2)) :
    s.toList.filter rule = t.toList.filter rule := by
  refine ordered_unique Prod.fst (s.ordered_keys_toList.filter _)
    (t.ordered_keys_toList.filter _) fun p => ?_
  rw [List.mem_filter, List.mem_filter, ExtTreeMap.mem_toList_iff_getElem?_eq_some,
    ExtTreeMap.mem_toList_iff_getElem?_eq_some]
  exact and_congr_left (h p)

theorem filter_toList_set_congr [LawfulEqCmp cmp] {s t : ExtTreeSet α cmp} {rule : α → Bool}
    (h : ∀ a, rule a = true → (a ∈ s ↔ a ∈ t)) :
    s.toList.filter rule = t.toList.filter rule := by
  refine ordered_unique id (s.ordered_toList.filter _) (t.ordered_toList.filter _) fun a => ?_
  rw [List.mem_filter, List.mem_filter, ExtTreeSet.mem_toList, ExtTreeSet.mem_toList]
  exact and_congr_left (h a)

theorem toList_erase [LawfulEqCmp cmp] [DecidableEq α] (t : ExtTreeMap α β cmp) (k : α) :
    (t.erase k).toList = t.toList.filter fun p => p.1 ≠ k := by
  refine toList_unique ((ExtTreeMap.ordered_keys_toList).filter _) fun p => ?_
  rw [List.mem_filter, ExtTreeMap.mem_toList_iff_getElem?_eq_some, ExtTreeMap.getElem?_erase]
  by_cases hk : k = p.1
  · simp [hk]
  · simp [hk, Ne.symm hk]

theorem toList_insert_last [LawfulEqCmp cmp] [DecidableEq α] {t : ExtTreeMap α β cmp}
    {k : α} (v : β) (hlast : ∀ p ∈ t.toList, cmp p.1 k = .lt) :
    (t.insert k v).toList = t.toList ++ [(k, v)] := by
  have hnew : t[k]? = none := by
    cases hk : t[k]? with
    | none => rfl
    | some w =>
      have hlt := hlast (k, w) (ExtTreeMap.mem_toList_iff_getElem?_eq_some.mpr hk)
      have heq : cmp k k = .eq := ReflCmp.compare_self
      rw [heq] at hlt
      nomatch hlt
  refine toList_unique ?_ fun p => ?_
  · refine List.pairwise_append.mpr ⟨ExtTreeMap.ordered_keys_toList,
      List.pairwise_singleton _ _, ?_⟩
    intro p hp q hq
    rw [List.mem_singleton.mp hq]
    exact hlast p hp
  · rw [List.mem_append, List.mem_singleton, ExtTreeMap.mem_toList_iff_getElem?_eq_some,
      Maps.getElem?_insert]
    obtain ⟨a, w⟩ := p
    by_cases hk : k = a
    · subst hk
      simp [hnew, eq_comm]
    · simp [hk, Ne.symm hk]

end

/-! ## Room -/

section
variable {α : Type u} (weight : α → Nat)

def total (l : List α) : Nat := (l.map weight).sum

/-- The shortest beginning goes that leaves room for `need`. -/
def makeRoom (capacity need : Nat) : List α → List α
  | [] => []
  | x :: l => if capacity < total weight (x :: l) + need then makeRoom capacity need l else x :: l

variable {weight} {capacity need : Nat}

theorem total_cons (x : α) (l : List α) : total weight (x :: l) = weight x + total weight l := by
  simp [total]

theorem total_append (l m : List α) : total weight (l ++ m) = total weight l + total weight m := by
  simp [total]

/-- What a key weighs is missing once the key is gone. -/
theorem total_filter_ne {κ : Type v} [DecidableEq κ] (key : α → κ) {l : List α} {x : α}
    (hkeys : l.Pairwise fun y z => key y ≠ key z) (hx : x ∈ l) :
    total weight (l.filter fun y => key y ≠ key x) + weight x = total weight l := by
  induction l with
  | nil => nomatch hx
  | cons y l ih =>
    obtain ⟨hy, hl⟩ := List.pairwise_cons.mp hkeys
    rcases List.mem_cons.mp hx with rfl | hx
    · have hall : l.filter (fun y => key y ≠ key x) = l :=
        List.filter_eq_self.mpr fun z hz => by simpa using (hy z hz).symm
      rw [List.filter_cons_of_neg (by simp), hall, total_cons, Nat.add_comm]
    · rw [List.filter_cons_of_pos (by simpa using hy x hx), total_cons, total_cons, Nat.add_assoc,
        ih hl hx]

theorem filter_key {κ : Type v} [DecidableEq κ] (key : α → κ) {l : List α} {x : α}
    (hkeys : l.Pairwise fun y z => key y ≠ key z) (hx : x ∈ l) :
    (l.filter fun y => key y = key x) = [x] := by
  induction l with
  | nil => nomatch hx
  | cons y l ih =>
    obtain ⟨hy, hl⟩ := List.pairwise_cons.mp hkeys
    rcases List.mem_cons.mp hx with rfl | hx
    · have hnone : l.filter (fun y => key y = key x) = [] :=
        List.filter_eq_nil_iff.mpr fun z hz => by simpa using (hy z hz).symm
      rw [List.filter_cons_of_pos (by simp), hnone]
    · rw [List.filter_cons_of_neg (by simpa using hy x hx)]
      exact ih hl hx

theorem total_makeRoom (h : need ≤ capacity) (l : List α) :
    total weight (makeRoom weight capacity need l) + need ≤ capacity := by
  induction l with
  | nil => simpa [makeRoom, total] using h
  | cons x l ih =>
    rw [makeRoom]
    split
    · exact ih
    · omega

/-- What goes is a beginning, and no shorter one leaves room. -/
theorem makeRoom_shortest (l : List α) :
    ∃ n ≤ l.length, makeRoom weight capacity need l = l.drop n ∧
      ∀ m < n, capacity < total weight (l.drop m) + need := by
  induction l with
  | nil => exact ⟨0, le_rfl, rfl, fun m hm => absurd hm (Nat.not_lt_zero m)⟩
  | cons x l ih =>
    rw [makeRoom]
    split
    · next hfull =>
      obtain ⟨n, hn, hdrop, hshort⟩ := ih
      refine ⟨n + 1, Nat.succ_le_succ hn, hdrop, fun m hm => ?_⟩
      cases m with
      | zero => exact hfull
      | succ m => exact hshort m (Nat.lt_of_succ_lt_succ hm)
    · exact ⟨0, Nat.zero_le _, rfl, fun m hm => absurd hm (Nat.not_lt_zero m)⟩

end

end Queues
