import Clockchain.V1.Derivation

/-!
# Causal cones

`cone` returns the part of the candidates that the head descends from, when all of it
is known. The cones of an event's parents unite to its strict past.
-/

namespace Clockchain.V1
open Relation Maps Programs
set_option autoImplicit false

/-- `K` holds the events of `C` that satisfy `P`. -/
def IsPart (K C : Candidates) (P : Hash → Prop) : Prop :=
  ∀ (e : Hash) (s : Signed), K[e]? = some s ↔ C[e]? = some s ∧ P e

namespace IsPart
variable {K K' C : Candidates} {P Q : Hash → Prop}

theorem within (h : IsPart K C P) : Within K C := ⟨fun hs => ((h _ _).mp hs).1⟩

theorem mem_iff (h : IsPart K C P) {e : Hash} : e ∈ K ↔ e ∈ C ∧ P e := by
  rw [Maps.mem_iff, Maps.mem_iff]
  constructor
  · rintro ⟨s, hs⟩
    exact ⟨⟨s, ((h e s).mp hs).1⟩, ((h e s).mp hs).2⟩
  · rintro ⟨⟨s, hs⟩, hP⟩
    exact ⟨s, (h e s).mpr ⟨hs, hP⟩⟩

theorem congr (h : IsPart K C P) (hPQ : ∀ e, P e ↔ Q e) : IsPart K C Q :=
  fun e s => by rw [h e s, hPQ e]

end IsPart

/-! ## The walk -/

section
variable {cr : Crypto} {all : Candidates} {head : Hash}

/-- What the stack and the visited events have in common at every turn. -/
structure Walk (cr : Crypto) (all : Candidates) (head : Hash) (todo : List Hash)
    (found : Candidates) : Prop where
  todo_anc : ∀ x ∈ todo, (history cr all).Anc x head
  within : Within found all
  found_anc : ∀ e ∈ found, (history cr all).Anc e head
  parent : ∀ {e p : Hash} {s : Signed}, found[e]? = some s → p ∈ parentsOf s → p ∈ found ∨ p ∈ todo
  start : head ∈ found ∨ head ∈ todo

/-- The parents still to be pushed. -/
def unpushed (all found : Candidates) : Nat :=
  (all.toList.map fun item => if found.contains item.1 then 0 else (parentsOf item.2).length).sum

theorem unpushed_insert {found : Candidates} {e : Hash} {s : Signed} (hs : all[e]? = some s)
    (hnew : e ∉ found) :
    unpushed all (found.insert e s) + (parentsOf s).length = unpushed all found := by
  have hkeep : ∀ k, k ≠ e → (found.insert e s).contains k = found.contains k := by
    intro k hk
    rw [Bool.eq_iff_iff, contains_iff, contains_iff, mem_map_insert]
    exact or_iff_right hk
  have go : ∀ l : List (Hash × Signed), (l.map Prod.fst).Nodup → (e, s) ∈ l →
      (l.map fun item =>
        if (found.insert e s).contains item.1 then 0 else (parentsOf item.2).length).sum +
        (parentsOf s).length =
      (l.map fun item => if found.contains item.1 then 0 else (parentsOf item.2).length).sum := by
    intro l
    induction l with
    | nil => simp
    | cons x l ih =>
      intro hnodup hmem
      rw [List.map_cons, List.nodup_cons] at hnodup
      rcases List.mem_cons.mp hmem with rfl | hmem
      · -- The inserted key does not occur again.
        have hrest : l.map (fun item => if (found.insert e s).contains item.1 then 0
            else (parentsOf item.2).length) =
            l.map fun item => if found.contains item.1 then 0 else (parentsOf item.2).length := by
          apply List.map_congr_left
          intro x hx
          rw [hkeep x.1 fun heq => hnodup.1 (List.mem_map.mpr ⟨x, hx, heq⟩)]
        rw [List.map_cons, List.map_cons, List.sum_cons, List.sum_cons, hrest]
        simp [hnew]
        omega
      · have hne : x.1 ≠ e := fun heq => hnodup.1 (List.mem_map.mpr ⟨(e, s), hmem, heq.symm⟩)
        have := ih hnodup.2 hmem
        simp only [List.map_cons, List.sum_cons, hkeep x.1 hne]
        omega
  exact go all.toList (nodup_fst_toList all) (Std.ExtTreeMap.mem_toList_iff_getElem?_eq_some.mpr hs)

theorem coneTurn_spec (known : ∀ a, (history cr all).Anc a head → a ∈ all) {x : Hash}
    {todo : List Hash} {found : Candidates} (walk : Walk cr all head (x :: todo) found) :
    ∃ todo' found', coneTurn all (x :: todo, found) = some (todo', found') ∧
      Walk cr all head todo' found' ∧
      todo'.length + unpushed all found' < (x :: todo).length + unpushed all found := by
  by_cases hx : x ∈ found
  · refine ⟨todo, found, by simp [coneTurn, hx], ⟨?_, walk.within, walk.found_anc, ?_, ?_⟩,
      by simp⟩
    · exact fun y hy => walk.todo_anc y (List.mem_cons_of_mem x hy)
    · intro e p s hs hp
      rcases walk.parent hs hp with h | h
      · exact Or.inl h
      · rcases List.mem_cons.mp h with rfl | h
        · exact Or.inl hx
        · exact Or.inr h
    · rcases walk.start with h | h
      · exact Or.inl h
      · rcases List.mem_cons.mp h with rfl | h
        · exact Or.inl hx
        · exact Or.inr h
  · have hanc := walk.todo_anc x List.mem_cons_self
    obtain ⟨s, hs⟩ := mem_iff.mp (known x hanc)
    refine ⟨(parentsOf s).reverse ++ todo, found.insert x s, ?_, ⟨?_, ⟨?_⟩, ?_, ?_, ?_⟩, ?_⟩
    · simp [coneTurn, hx, hs]
    · intro y hy
      rcases List.mem_append.mp hy with hy | hy
      · exact ReflTransGen.head ⟨s, hs, List.mem_reverse.mp hy⟩ hanc
      · exact walk.todo_anc y (List.mem_cons_of_mem x hy)
    · intro e t ht
      rw [getElem?_insert] at ht
      split at ht
      case isTrue heq =>
        subst heq
        rwa [← Option.some.inj ht]
      case isFalse => exact walk.within.sub ht
    · intro e he
      rcases mem_map_insert.mp he with rfl | he
      · exact hanc
      · exact walk.found_anc e he
    · intro e p t ht hp
      rw [getElem?_insert] at ht
      split at ht
      case isTrue heq =>
        subst heq
        obtain rfl := Option.some.inj ht
        exact Or.inr (List.mem_append_left _ (List.mem_reverse.mpr hp))
      case isFalse =>
        rcases walk.parent ht hp with h | h
        · exact Or.inl (mem_map_insert.mpr (Or.inr h))
        · rcases List.mem_cons.mp h with rfl | h
          · exact Or.inl (mem_map_insert.mpr (Or.inl rfl))
          · exact Or.inr (List.mem_append_right _ h)
    · rcases walk.start with h | h
      · exact Or.inl (mem_map_insert.mpr (Or.inr h))
      · rcases List.mem_cons.mp h with rfl | h
        · exact Or.inl (mem_map_insert.mpr (Or.inl rfl))
        · exact Or.inr (List.mem_append_right _ h)
    · have := unpushed_insert hs hx
      simp only [List.length_append, List.length_reverse, List.length_cons]
      omega

/-- The cone of an event whose whole past is known. -/
theorem cone_spec (known : ∀ a, (history cr all).Anc a head → a ∈ all) :
    ∃ found, cone all head = some found ∧
      IsPart found all fun a => (history cr all).Anc a head := by
  have hrun : ∃ state : List Hash × Candidates,
      loopWhile (fun s => !s.1.isEmpty) (coneTurn all) (coneFuel all) ([head], ∅) = some state ∧
      Walk cr all head state.1 state.2 ∧ (!state.1.isEmpty) = false := by
    refine loopWhile_spec (fun state : List Hash × Candidates => Walk cr all head state.1 state.2)
      (fun state => state.1.length + unpushed all state.2) ?_ ⟨?_, ⟨?_⟩, ?_, ?_, ?_⟩ ?_
    · rintro ⟨todo, found⟩ walk hcond
      cases todo with
      | nil => simp at hcond
      | cons x todo =>
        obtain ⟨todo', found', hturn, walk', hlt⟩ := coneTurn_spec known walk
        exact ⟨(todo', found'), hturn, walk', hlt⟩
    · intro x hx
      obtain rfl := List.mem_singleton.mp hx
      exact ReflTransGen.refl
    · simp
    · simp
    · simp
    · exact Or.inr (List.mem_singleton_self head)
    · simp [unpushed, coneFuel]
  obtain ⟨⟨todo, found⟩, hrun, walk, hend⟩ := hrun
  obtain rfl : todo = [] := by simpa using hend
  have hhead : head ∈ found := walk.start.resolve_right (by simp)
  have hall : ∀ a, (history cr all).Anc a head → a ∈ found := by
    intro a ha
    induction ha using ReflTransGen.head_induction_on with
    | refl => exact hhead
    | head hp _ ih =>
      obtain ⟨s, hs, hp⟩ := hp
      exact (walk.parent (walk.within.get ih hs) hp).resolve_right (by simp)
  refine ⟨found, by simp [cone, hrun], fun e s => ?_⟩
  exact ⟨fun hs => ⟨walk.within.sub hs, walk.found_anc e (mem_of_getElem? hs)⟩,
    fun ⟨hs, ha⟩ => walk.within.get (hall e ha) hs⟩

end

/-! ## Cones inside a branch -/

/-- The cone of `p`, when the walk returns. -/
def coneOf (C : Candidates) (p : Hash) : Candidates := (cone C p).getD ∅

theorem union_part {C : Candidates} {P : Hash → Hash → Prop} {ps : List Hash}
    {K : Hash → Candidates} (h : ∀ p ∈ ps, IsPart (K p) C (P p)) :
    IsPart ((ps.map K).foldl (· ∪ ·) ∅) C fun a => ∃ p ∈ ps, P p a := by
  have go : ∀ (ps : List Hash) (start : Candidates) (Q : Hash → Prop), IsPart start C Q →
      (∀ p ∈ ps, IsPart (K p) C (P p)) →
      IsPart ((ps.map K).foldl (· ∪ ·) start) C fun a => Q a ∨ ∃ p ∈ ps, P p a := by
    intro ps
    induction ps with
    | nil => exact fun start Q hstart _ => hstart.congr (by simp)
    | cons p ps ih =>
      intro start Q hstart hps
      have hunion : IsPart (start ∪ K p) C fun a => Q a ∨ P p a := by
        intro e s
        have hp := hps p List.mem_cons_self e s
        have hs := hstart e s
        rw [getElem?_union_eq, Option.or_eq_some_iff]
        constructor
        · rintro (h | ⟨_, h⟩)
          · exact ⟨(hp.mp h).1, Or.inr (hp.mp h).2⟩
          · exact ⟨(hs.mp h).1, Or.inl (hs.mp h).2⟩
        · rintro ⟨hC, hQ⟩
          cases hK : (K p)[e]? with
          | some t =>
            left
            rw [← hC]
            exact (((hps p List.mem_cons_self e t).mp hK).1).symm
          | none =>
            right
            refine ⟨rfl, hs.mpr ⟨hC, hQ.resolve_right fun hP => ?_⟩⟩
            have := hp.mpr ⟨hC, hP⟩
            simp [hK] at this
      have hrest := ih (start ∪ K p) _ hunion fun q hq => hps q (List.mem_cons_of_mem p hq)
      exact hrest.congr fun a => by simp [or_assoc]
  refine (go ps ∅ (fun _ => False) ?_ h).congr (by simp)
  intro e s
  simp

namespace Branch
variable {cr : Crypto} {C W : Candidates} (branch : Branch cr C W)
include branch

theorem known {p : Hash} (hp : p ∈ W) : ∀ a, (history cr C).Anc a p → a ∈ C :=
  fun _ ha => branch.within.mem (branch.within.anc_lift branch.closed hp ha).1

theorem cone_some {p : Hash} (hp : p ∈ W) : cone C p = some (coneOf C p) := by
  obtain ⟨K, hK, _⟩ := cone_spec (branch.known hp)
  simp [coneOf, hK]

theorem cone_part {p : Hash} (hp : p ∈ W) :
    IsPart (coneOf C p) C fun a => (history cr C).Anc a p := by
  obtain ⟨K, hK, hpart⟩ := cone_spec (branch.known hp)
  simpa [coneOf, hK] using hpart

/-- A part of `C` inside `W` that is closed under ancestry is a branch. -/
theorem part {K : Candidates} {P : Hash → Prop} (hK : IsPart K C P) (hP : ∀ a, P a → a ∈ W)
    (hdown : ∀ a b, P b → (history cr C).Anc a b → P a) : Branch cr C K := by
  refine branch.mono ⟨fun hs => ?_⟩ ⟨fun {e p s} hs hp => ?_⟩
  · obtain ⟨hC, hPe⟩ := (hK _ _).mp hs
    exact branch.within.get (hP _ hPe) hC
  · obtain ⟨hC, hPe⟩ := (hK _ _).mp hs
    have hPp := hdown p e hPe (ReflTransGen.single ⟨s, hC, hp⟩)
    exact hK.mem_iff.mpr ⟨branch.within.mem (hP p hPp), hPp⟩

theorem cone_branch {p : Hash} (hp : p ∈ W) : Branch cr C (coneOf C p) :=
  branch.part (branch.cone_part hp)
    (fun _ ha => (branch.within.anc_lift branch.closed hp ha).1)
    fun _ _ hb hab => hab.trans hb

theorem cones_some {ps : List Hash} (hps : ∀ p ∈ ps, p ∈ W) :
    ps.mapM (cone C) = some (ps.map (coneOf C)) :=
  mapM_spec fun p hp => branch.cone_some (hps p hp)

theorem past_part {ps : List Hash} (hps : ∀ p ∈ ps, p ∈ W) :
    IsPart ((ps.map (coneOf C)).foldl (· ∪ ·) ∅) C
      fun a => ∃ p ∈ ps, (history cr C).Anc a p :=
  union_part fun p hp => branch.cone_part (hps p hp)

theorem past_branch {ps : List Hash} (hps : ∀ p ∈ ps, p ∈ W) :
    Branch cr C ((ps.map (coneOf C)).foldl (· ∪ ·) ∅) := by
  refine branch.part (branch.past_part hps) ?_ ?_
  · rintro a ⟨p, hp, ha⟩
    exact (branch.within.anc_lift branch.closed (hps p hp) ha).1
  · rintro a b ⟨p, hp, hb⟩ hab
    exact ⟨p, hp, hab.trans hb⟩

end Branch

end Clockchain.V1
