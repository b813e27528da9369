import Std.Data.ExtTreeMap
import Std.Data.ExtTreeSet
import Mathlib.Data.Finset.Card
import Mathlib.Data.Set.Card

/-!
# Ordered maps and sets

Facts about ordered maps whose comparison decides equality: a map is the finite
partial function its lookups define, `toList` is its graph and `size` the number of
its keys.
-/

namespace Maps
open Std
set_option autoImplicit false

universe u v w
variable {α : Type u} {β : Type v} {cmp : α → α → Ordering} [TransCmp cmp]

theorem mem_iff {t : ExtTreeMap α β cmp} {k : α} : k ∈ t ↔ ∃ v, t[k]? = some v := by
  rw [ExtTreeMap.mem_iff_isSome_getElem?, Option.isSome_iff_exists]

theorem mem_of_getElem? {t : ExtTreeMap α β cmp} {k : α} {v : β} (h : t[k]? = some v) : k ∈ t :=
  mem_iff.mpr ⟨v, h⟩

theorem contains_iff {t : ExtTreeMap α β cmp} {k : α} : t.contains k = true ↔ k ∈ t :=
  ExtTreeMap.contains_iff_mem

@[simp] theorem contains_eq_false {t : ExtTreeMap α β cmp} {k : α} :
    t.contains k = false ↔ k ∉ t := by
  rw [← Bool.not_eq_true, contains_iff]

@[simp] theorem set_contains_eq_false {s : ExtTreeSet α cmp} {k : α} :
    s.contains k = false ↔ k ∉ s := by
  rw [← Bool.not_eq_true, ExtTreeSet.contains_iff_mem]

theorem nodup_fst_toList (t : ExtTreeMap α β cmp) : (t.toList.map Prod.fst).Nodup := by
  rw [ExtTreeMap.map_fst_toList_eq_keys]
  exact ExtTreeMap.nodup_keys

theorem nodup_toList (s : ExtTreeSet α cmp) : s.toList.Nodup :=
  s.distinct_toList.imp ReflCmp.ne_of_cmp_ne_eq

theorem getElem?_union_eq {s t : ExtTreeMap α β cmp} {k : α} :
    (s ∪ t)[k]? = t[k]?.or s[k]? :=
  ExtTreeMap.getElem?_union

variable [LawfulEqCmp cmp]

theorem getElem?_insert [DecidableEq α] {t : ExtTreeMap α β cmp} {k a : α} {v : β} :
    (t.insert k v)[a]? = if k = a then some v else t[a]? := by
  rw [ExtTreeMap.getElem?_insert]
  simp only [LawfulEqCmp.compare_eq_iff_eq]

/-- Two maps with the same graph are one. -/
theorem ext_graph {s t : ExtTreeMap α β cmp} 
    (h : ∀ (k : α) (v : β), s[k]? = some v ↔ t[k]? = some v) : s = t :=
  ExtTreeMap.ext_getElem? fun {k} => Option.ext fun v => h k v

theorem getElem?_ofList {l : List (α × β)} (h : (l.map Prod.fst).Nodup) {k : α} {v : β} :
    (ExtTreeMap.ofList l cmp)[k]? = some v ↔ (k, v) ∈ l := by
  classical
  have hdistinct : l.Pairwise fun a b => ¬ cmp a.1 b.1 = .eq := by
    rw [List.Nodup, List.pairwise_map] at h
    exact h.imp fun hne heq => hne (LawfulEqCmp.compare_eq_iff_eq.mp heq)
  constructor
  · intro hk
    have hmem : k ∈ ExtTreeMap.ofList l cmp := mem_of_getElem? hk
    let _ : BEq α := instBEqOfDecidableEq
    rw [ExtTreeMap.mem_ofList, List.contains_iff_mem, List.mem_map] at hmem
    obtain ⟨⟨k', w⟩, hw, rfl⟩ := hmem
    rw [ExtTreeMap.getElem?_ofList_of_mem ReflCmp.compare_self hdistinct hw] at hk
    rwa [← Option.some.inj hk]
  · exact ExtTreeMap.getElem?_ofList_of_mem ReflCmp.compare_self hdistinct

/-- A selection from the entries of a map that names the key it is from. -/
theorem mem_filterMap_toList {γ : Type w} {t : ExtTreeMap α β cmp} {f : α × β → Option γ}
    (key : γ → α) (hkey : ∀ {p b}, f p = some b → key b = p.1) {b : γ} :
    b ∈ t.toList.filterMap f ↔ ∃ v, t[key b]? = some v ∧ f (key b, v) = some b := by
  rw [List.mem_filterMap]
  constructor
  · rintro ⟨⟨k, v⟩, hp, hb⟩
    obtain rfl := hkey hb
    exact ⟨v, ExtTreeMap.mem_toList_iff_getElem?_eq_some.mp hp, hb⟩
  · rintro ⟨v, hv, hb⟩
    exact ⟨(key b, v), ExtTreeMap.mem_toList_iff_getElem?_eq_some.mpr hv, hb⟩

/-- Such selections depend on what the maps say of each key. -/
theorem filterMap_perm {γ : Type w} {s t : ExtTreeMap α β cmp} {f : α × β → Option γ} (key : γ → α)
    (hkey : ∀ {p b}, f p = some b → key b = p.1)
    (h : ∀ b, (∃ v, s[key b]? = some v ∧ f (key b, v) = some b) ↔
      ∃ v, t[key b]? = some v ∧ f (key b, v) = some b) :
    (s.toList.filterMap f).Perm (t.toList.filterMap f) := by
  have hnodup : ∀ r : ExtTreeMap α β cmp, (r.toList.filterMap f).Nodup := fun r => by
    rw [List.Nodup, List.pairwise_filterMap]
    refine (List.pairwise_map.mp (nodup_fst_toList r)).imp fun hne b hb b' hb' heq => hne ?_
    rw [← hkey hb, ← hkey hb', heq]
  refine (List.perm_ext_iff_of_nodup (hnodup s) (hnodup t)).mpr fun b => ?_
  rw [mem_filterMap_toList key hkey, mem_filterMap_toList key hkey, h]

/-- Rebuilding a map from part of its list keeps exactly that part of its graph. -/
theorem getElem?_ofList_part {t : ExtTreeMap α β cmp} {l : List (α × β)} (h : l.Sublist t.toList)
    {k : α} {v : β} : (ExtTreeMap.ofList l cmp)[k]? = some v ↔ (k, v) ∈ l :=
  getElem?_ofList ((nodup_fst_toList t).sublist (h.map Prod.fst))

/-- Inserting a list that never disagrees with the map or with itself. -/
theorem getElem?_insertMany {t : ExtTreeMap α β cmp} {l : List (α × β)}
    (agree : ∀ {k : α} {v w : β}, (k, v) ∈ l → t[k]? = some w ∨ (k, w) ∈ l → v = w) {k : α}
    {v : β} :
    (t.insertMany l)[k]? = some v ↔ t[k]? = some v ∨ (k, v) ∈ l := by
  classical
  induction l generalizing t with
  | nil => simp
  | cons x l ih =>
    obtain ⟨a, b⟩ := x
    have hx : ∀ {w : β}, t[a]? = some w ∨ (a, w) ∈ l → b = w := fun hw =>
      agree List.mem_cons_self (hw.imp_right (List.mem_cons_of_mem _))
    rw [ExtTreeMap.insertMany_cons, ih]
    · simp only [getElem?_insert, List.mem_cons, Prod.mk.injEq]
      by_cases hk : a = k
      · subst hk
        simp only [if_true, Option.some.injEq, true_and]
        constructor
        · rintro (rfl | hv)
          · exact Or.inr (Or.inl rfl)
          · exact Or.inr (Or.inr hv)
        · rintro (hv | rfl | hv)
          · exact Or.inl (hx (Or.inl hv))
          · exact Or.inl rfl
          · exact Or.inr hv
      · simp [hk, Ne.symm hk]
    · intro c v w hv hw
      rw [getElem?_insert] at hw
      split_ifs at hw with hc
      · subst hc
        rcases hw with hw | hw
        · exact Option.some.inj hw ▸ (hx (Or.inr hv)).symm
        · exact (hx (Or.inr hv)).symm.trans (hx (Or.inr hw))
      · exact agree (List.mem_cons_of_mem _ hv) (hw.imp_right (List.mem_cons_of_mem _))

theorem getElem?_ofList_graph {l : List (α × β)}
    (agree : ∀ {k : α} {v w : β}, (k, v) ∈ l → (k, w) ∈ l → v = w) {k : α} {v : β} :
    (ExtTreeMap.ofList l cmp)[k]? = some v ↔ (k, v) ∈ l := by
  rw [ExtTreeMap.ofList_eq_insertMany_empty, getElem?_insertMany]
  · simp
  · intro c v w hv hw
    exact agree hv (hw.resolve_left (by simp))

theorem mem_singleton {k a : α} : a ∈ ({k} : ExtTreeSet α cmp) ↔ a = k := by
  change a ∈ (∅ : ExtTreeSet α cmp).insert k ↔ a = k
  rw [ExtTreeSet.mem_insert, LawfulEqCmp.compare_eq_iff_eq, or_iff_left ExtTreeSet.not_mem_empty,
    eq_comm]

theorem mem_insert {s : ExtTreeSet α cmp} {k a : α} : a ∈ s.insert k ↔ a = k ∨ a ∈ s := by
  rw [ExtTreeSet.mem_insert, LawfulEqCmp.compare_eq_iff_eq, eq_comm]

theorem mem_map_insert {t : ExtTreeMap α β cmp} {k a : α} {v : β} :
    a ∈ t.insert k v ↔ a = k ∨ a ∈ t := by
  rw [ExtTreeMap.mem_insert, LawfulEqCmp.compare_eq_iff_eq, eq_comm]

theorem keys_insert {t : ExtTreeMap α β cmp} {k : α} {v : β} (hnew : k ∉ t) :
    (t.insert k v).keys.Perm (k :: t.keys) := by
  refine (List.perm_ext_iff_of_nodup ExtTreeMap.nodup_keys ?_).mpr fun a => ?_
  · exact List.nodup_cons.mpr ⟨by rwa [ExtTreeMap.mem_keys], ExtTreeMap.nodup_keys⟩
  · rw [List.mem_cons, ExtTreeMap.mem_keys, ExtTreeMap.mem_keys, mem_map_insert]

theorem getElem?_insertIfNew {t : ExtTreeMap α β cmp} {k a : α} {v w : β} :
    (t.insertIfNew k v)[a]? = some w ↔ t[a]? = some w ∨ a ∉ t ∧ a = k ∧ w = v := by
  simp only [ExtTreeMap.getElem?_insertIfNew, LawfulEqCmp.compare_eq_iff_eq]
  by_cases hk : k = a
  · subst hk
    by_cases hmem : k ∈ t
    · simp [hmem]
    · simpa [hmem] using eq_comm
  · simp [hk, Ne.symm hk]

theorem mem_insertIfNew {t : ExtTreeMap α β cmp} {k a : α} {v : β} :
    a ∈ t.insertIfNew k v ↔ a = k ∨ a ∈ t := by
  rw [ExtTreeMap.mem_insertIfNew, LawfulEqCmp.compare_eq_iff_eq, eq_comm]

theorem mem_ofSet {l : List α} {k : α} : k ∈ ExtTreeSet.ofList l cmp ↔ k ∈ l := by
  classical
  let _ : BEq α := instBEqOfDecidableEq
  rw [ExtTreeSet.mem_ofList, List.contains_iff_mem]

theorem mem_insertMany {s : ExtTreeSet α cmp} {l : List α} {k : α} :
    k ∈ s.insertMany l ↔ k ∈ s ∨ k ∈ l := by
  classical
  let _ : BEq α := instBEqOfDecidableEq
  rw [ExtTreeSet.mem_insertMany_list, List.contains_iff_mem]

theorem isEmpty_eq_false {s : ExtTreeSet α cmp} : s.isEmpty = false ↔ ∃ k, k ∈ s := by
  constructor
  · intro h
    by_contra hnone
    have : s = ∅ := ExtTreeSet.ext_mem fun {k} =>
      ⟨fun hk => absurd ⟨k, hk⟩ hnone, fun hk => absurd hk ExtTreeSet.not_mem_empty⟩
    simp [this] at h
  · rintro ⟨k, hk⟩
    rw [ExtTreeSet.isEmpty_eq_false_iff]
    rintro rfl
    exact ExtTreeSet.not_mem_empty hk

/-! ## Size -/

omit [LawfulEqCmp cmp] in
theorem size_ofList_part {t : ExtTreeMap α β cmp} {l : List (α × β)} (h : l.Sublist t.toList) :
    (ExtTreeMap.ofList l cmp).size = l.length := by
  refine ExtTreeMap.size_ofList ?_
  exact t.distinct_keys_toList.sublist h

theorem finite_keys (t : ExtTreeMap α β cmp) : {k | k ∈ t}.Finite := by
  refine (List.finite_toSet t.keys).subset fun k hk => ?_
  exact ExtTreeMap.mem_keys.mpr hk

theorem ncard_keys (t : ExtTreeMap α β cmp) : {k | k ∈ t}.ncard = t.size := by
  classical
  have heq : {k | k ∈ t} = (t.keys.toFinset : Set α) := by
    ext k
    simp
  rw [heq, Set.ncard_coe_finset, List.toFinset_card_of_nodup ExtTreeMap.nodup_keys,
    ExtTreeMap.length_keys]

theorem ncard_le_size {t : ExtTreeMap α β cmp} {A : Set α} (h : ∀ k ∈ A, k ∈ t) :
    A.ncard ≤ t.size := by
  rw [← ncard_keys t]
  exact Set.ncard_le_ncard h (finite_keys t)

theorem size_lt_iff {γ : Type w} {s : ExtTreeMap α β cmp} {t : ExtTreeMap α γ cmp}
    (h : ∀ k ∈ s, k ∈ t) : s.size < t.size ↔ ∃ k ∈ t, k ∉ s := by
  rw [← ncard_keys s, ← ncard_keys t]
  constructor
  · intro hlt
    by_contra hall
    have hsub : {k | k ∈ t} ⊆ {k | k ∈ s} := fun k hk => by
      by_contra hks
      exact hall ⟨k, hk, hks⟩
    exact absurd (Set.ncard_le_ncard hsub (finite_keys s)) (by omega)
  · rintro ⟨k, hk, hks⟩
    exact Set.ncard_lt_ncard ⟨h, fun hsub => hks (hsub hk)⟩ (finite_keys t)

theorem ncard_set (s : ExtTreeSet α cmp) : {k | k ∈ s}.ncard = s.size := by
  classical
  have heq : {k | k ∈ s} = (s.toList.toFinset : Set α) := by
    ext k
    simp
  rw [heq, Set.ncard_coe_finset, List.toFinset_card_of_nodup (nodup_toList s),
    ExtTreeSet.length_toList]

/-! ## Counting -/

omit [LawfulEqCmp cmp] in
theorem size_insert_new {t : ExtTreeMap α β cmp} {k : α} {v : β} (hnew : k ∉ t) :
    (t.insert k v).size = t.size + 1 := by
  rw [ExtTreeMap.size_insert]
  exact if_neg hnew

omit [LawfulEqCmp cmp] in
theorem size_insert_old {t : ExtTreeMap α β cmp} {k : α} {v : β} (hold : k ∈ t) :
    (t.insert k v).size = t.size := by
  rw [ExtTreeMap.size_insert]
  exact if_pos hold

omit [LawfulEqCmp cmp] in
theorem size_erase_new {t : ExtTreeMap α β cmp} {k : α} (hnew : k ∉ t) :
    (t.erase k).size = t.size := by
  rw [ExtTreeMap.size_erase]
  exact if_neg hnew

omit [LawfulEqCmp cmp] in
theorem size_erase_old {t : ExtTreeMap α β cmp} {k : α} (hold : k ∈ t) :
    (t.erase k).size + 1 = t.size := by
  have hsize : t.size ≠ 0 := fun h => by
    have hempty : t.isEmpty = true := by rw [ExtTreeMap.isEmpty_eq_size_beq_zero, h]; rfl
    rw [ExtTreeMap.isEmpty_iff] at hempty
    rw [hempty] at hold
    exact ExtTreeMap.not_mem_empty hold
  have herase : (t.erase k).size = t.size - 1 := by
    rw [ExtTreeMap.size_erase]
    exact if_pos hold
  omega

/-- How many values satisfy a test. -/
def count (p : β → Bool) (t : ExtTreeMap α β cmp) : Nat := (t.filter fun _ v => p v).size

omit [LawfulEqCmp cmp] in
theorem getElem?_filter {p : β → Bool} {t : ExtTreeMap α β cmp} {k : α} {v : β} :
    (t.filter fun _ v => p v)[k]? = some v ↔ t[k]? = some v ∧ p v = true := by
  rw [ExtTreeMap.getElem?_filter]
  cases t[k]? with
  | none => simp
  | some w =>
    by_cases hw : p w = true
    · simp [Option.pfilter, hw]
      rintro rfl
      exact hw
    · simp [Option.pfilter, hw]
      rintro rfl
      simpa using hw

omit [LawfulEqCmp cmp] in
theorem mem_filter {p : β → Bool} {t : ExtTreeMap α β cmp} {k : α} :
    k ∈ (t.filter fun _ v => p v) ↔ ∃ v, t[k]? = some v ∧ p v = true := by
  rw [mem_iff]
  exact exists_congr fun v => getElem?_filter

theorem count_empty {p : β → Bool} : count p (∅ : ExtTreeMap α β cmp) = 0 := by
  have h : (∅ : ExtTreeMap α β cmp).filter (fun _ v => p v) = ∅ :=
    ext_graph fun k v => by simp
  rw [count, h, ExtTreeMap.size_empty]

theorem filter_insert [DecidableEq α] {p : β → Bool} {t : ExtTreeMap α β cmp} {k : α} {v : β} :
    (t.insert k v).filter (fun _ v => p v) =
      if p v then (t.filter fun _ v => p v).insert k v else (t.filter fun _ v => p v).erase k := by
  refine ext_graph fun a w => ?_
  rw [getElem?_filter, getElem?_insert]
  by_cases hv : p v = true
  · rw [if_pos hv, getElem?_insert]
    by_cases hk : k = a
    · simp only [if_pos hk, Option.some.injEq]
      exact ⟨fun h => h.1, fun h => ⟨h, h ▸ hv⟩⟩
    · simp only [if_neg hk, getElem?_filter]
  · rw [if_neg hv, ExtTreeMap.getElem?_erase]
    by_cases hk : k = a
    · simp only [hk, if_true, Option.some.injEq, ReflCmp.compare_self]
      exact ⟨fun h => absurd (h.1 ▸ h.2) hv, fun h => by simp at h⟩
    · have hcmp : cmp k a ≠ .eq := fun h => hk (LawfulEqCmp.compare_eq_iff_eq.mp h)
      simp only [if_neg hk, if_neg hcmp, getElem?_filter]

/-- A value at a fresh key. -/
theorem count_insert_new [DecidableEq α] {p : β → Bool} {t : ExtTreeMap α β cmp} {k : α} {v : β}
    (hnew : k ∉ t) : count p (t.insert k v) = count p t + if p v then 1 else 0 := by
  have hmem : k ∉ t.filter fun _ v => p v := fun h => by
    obtain ⟨w, hw, _⟩ := mem_filter.mp h
    exact hnew (mem_of_getElem? hw)
  rw [count, filter_insert]
  split
  · exact size_insert_new hmem
  · exact size_erase_new hmem

/-- A value in the place of another. -/
theorem count_insert_old [DecidableEq α] {p : β → Bool} {t : ExtTreeMap α β cmp} {k : α} {v w : β}
    (hold : t[k]? = some w) : count p (t.insert k v) + (if p w then 1 else 0) =
      count p t + if p v then 1 else 0 := by
  have hmem : k ∈ (t.filter fun _ v => p v) ↔ p w = true := by
    rw [mem_filter]
    constructor
    · rintro ⟨x, hx, hp⟩
      rwa [Option.some.inj (hold.symm.trans hx)]
    · exact fun hw => ⟨w, hold, hw⟩
  rw [count, filter_insert]
  by_cases hw : p w = true
  · rw [if_pos hw]
    split
    · rw [size_insert_old (hmem.mpr hw), count]
    · exact size_erase_old (hmem.mpr hw)
  · have hnot : k ∉ t.filter fun _ v => p v := fun h => hw (hmem.mp h)
    rw [if_neg hw]
    split
    · exact size_insert_new hnot
    · exact size_erase_new hnot

end Maps
