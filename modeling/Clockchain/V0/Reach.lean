import Clockchain.Trails
import Clockchain.V0.Filter

/-!
# Exact reachability

What `known_k` answers over a view whose reads agree: the distance when it is within the bound,
and the least of the shortest walks.
-/

namespace Clockchain.V0
open V1 (Hash)
set_option autoImplicit false

/-! ## Canonical neighbour lists -/

theorem Edge.order_injective : Function.Injective Edge.order := by
  rintro ⟨other, via⟩ ⟨other', via'⟩ h
  obtain ⟨hother, hvia⟩ := Prod.mk.inj (toLex_inj.mp h)
  obtain rfl := BitVec.toInt_inj.mp hother
  obtain rfl := BitVec.toNat_inj.mp hvia
  rfl

theorem Edge.sort_sorted (edges : List Edge) :
    (sort edges).Pairwise fun a b => a.order ≤ b.order := by
  have hsorted : (sort edges).Pairwise fun a b => decide (a.order ≤ b.order) := by
    refine List.pairwise_mergeSort (fun a b c hab hbc => ?_) (fun a b => ?_) edges
    · simp only [decide_eq_true_eq] at hab hbc ⊢
      exact hab.trans hbc
    · simpa using le_total a.order b.order
  exact hsorted.imp of_decide_eq_true

theorem Edge.sort_perm {edges edges' : List Edge} (h : edges.Perm edges') :
    sort edges = sort edges' := by
  refine List.Perm.eq_of_pairwise (fun a b _ _ hab hba => ?_) (sort_sorted edges)
    (sort_sorted edges') ?_
  · exact order_injective (le_antisymm hab hba)
  · exact (List.mergeSort_perm _ _).trans (h.trans (List.mergeSort_perm _ _).symm)

theorem mem_sort {edges : List Edge} {e : Edge} : e ∈ Edge.sort edges ↔ e ∈ edges :=
  List.mem_mergeSort

theorem canonicalEdges_perm {edges edges' : List Edge} (h : edges.Perm edges') :
    canonicalEdges edges = canonicalEdges edges' := by
  rw [canonicalEdges, canonicalEdges, Edge.sort_perm h]

theorem mem_canonicalEdges {edges : List Edge} {e : Edge} :
    e ∈ canonicalEdges edges ↔ e ∈ edges := by
  rw [canonicalEdges, List.mem_dedup, mem_sort]

theorem canonicalEdges_sorted (edges : List Edge) :
    (canonicalEdges edges).Pairwise fun a b => a.order < b.order := by
  have hle := (Edge.sort_sorted edges).sublist (List.dedup_sublist _)
  have hne := List.nodup_dedup (Edge.sort edges)
  refine (hle.and hne).imp ?_
  rintro a b ⟨hab, hdistinct⟩
  exact lt_of_le_of_ne hab fun heq => hdistinct (Edge.order_injective heq)

/-! ## The graph of a view -/

/-- The neighbours of an entity, with the moments that link them. -/
def CorpusView.links (v : CorpusView) (asOf : Tick) (entity : EntityId) : List (EntityId × Hash) :=
  ((v.neighbors entity asOf).toOption.getD []).map fun e => (e.other, e.via)

/-- The reads at `asOf` do not fail, the batched read agrees with the single one, and
co-occurrence is symmetric. -/
structure CorpusView.Graph (v : CorpusView) (asOf : Tick) : Prop where
  neighbors : ∀ entity, ∃ edges, v.neighbors entity asOf = .ok edges
  neighborsMany : ∀ entities, ∃ out, v.neighborsMany entities asOf = .ok out ∧
    ∀ entity ∈ entities, ∀ edges, v.neighbors entity asOf = .ok edges →
      ∀ e, e ∈ out.getD entity [] ↔ e ∈ edges
  symmetric : Search.Symmetric (v.links asOf)

section Levels
variable {v : CorpusView} {asOf : Tick}

theorem step_iff {x y : EntityId} {via : Hash} {edges : List Edge}
    (h : v.neighbors x asOf = .ok edges) : Search.Step (v.links asOf) x via y ↔
    ⟨y, via⟩ ∈ edges := by
  rw [Search.Step, CorpusView.links, h, List.mem_map]
  constructor
  · rintro ⟨e, he, heq⟩
    obtain ⟨rfl, rfl⟩ := Prod.mk.inj heq
    exact he
  · exact fun he => ⟨_, he, rfl⟩

/-- The labels are the distances up to `d`, and the frontier is the last level. -/
structure Labels.Levels (v : CorpusView) (asOf : Tick) (start : EntityId) (d : Nat)
    (labels : Labels) : Prop where
  dist : ∀ (x : EntityId) (n : Nat),
    labels.dist[x]? = some n ↔ n ≤ d ∧ Search.At (v.links asOf) start n x
  frontier : ∀ x, x ∈ labels.frontier ↔ Search.At (v.links asOf) start d x

namespace Labels
variable {start : EntityId} {d : Nat} {labels : Labels}

theorem levels_start (start : EntityId) : Levels v asOf start 0 (.start start) := by
  refine ⟨fun x n => ?_, fun x => ?_⟩
  · rw [Labels.start, Maps.getElem?_insert, Std.ExtTreeMap.getElem?_empty]
    constructor
    · intro h
      split at h
      · next heq =>
        obtain rfl := Option.some.inj h
        exact ⟨le_rfl, Search.within_zero.mpr heq.symm, fun k hk => absurd hk k.not_lt_zero⟩
      · nomatch h
    · rintro ⟨hn, hat⟩
      obtain rfl := Nat.le_zero.mp hn
      rw [if_pos (Search.within_zero.mp hat.1).symm]
  · rw [Labels.start, Maps.mem_singleton]
    constructor
    · rintro rfl
      exact ⟨Search.within_zero.mpr rfl, fun k hk => absurd hk k.not_lt_zero⟩
    · exact fun hat => Search.within_zero.mp hat.1

theorem Levels.mem (h : Levels v asOf start d labels) {x : EntityId} :
    x ∈ labels.dist ↔ Search.Within (v.links asOf) start d x := by
  rw [Maps.mem_iff]
  constructor
  · rintro ⟨n, hn⟩
    obtain ⟨hle, hat⟩ := (h.dist x n).mp hn
    exact hat.1.mono hle
  · intro hx
    obtain ⟨n, hn, hat⟩ := hx.at
    exact ⟨n, (h.dist x n).mpr ⟨hn, hat⟩⟩

/-- Labelling: the others that the edges lead to get the depth, unless they have a label. -/
theorem foldl_label (depth : Nat) (dist : EntityMap Nat) (edges : List Edge) :
    let found := edges.foldl (label depth) ⟨dist, ∅⟩
    (∀ (x : EntityId) (n : Nat), found.dist[x]? = some n ↔
      dist[x]? = some n ∨ n = depth ∧ x ∉ dist ∧ ∃ e ∈ edges, e.other = x) ∧
    ∀ x, x ∈ found.frontier ↔ x ∉ dist ∧ ∃ e ∈ edges, e.other = x := by
  induction edges using List.reverseRecOn with
  | nil => simp
  | append_singleton edges e ih =>
    rw [List.foldl_concat]
    generalize edges.foldl (label depth) ⟨dist, ∅⟩ = found at ih
    obtain ⟨hdist, hfrontier⟩ := ih
    have hfound : e.other ∈ found.dist ↔ e.other ∈ dist ∨ ∃ e' ∈ edges, e'.other = e.other := by
      simp only [Maps.mem_iff (t := found.dist), hdist, exists_or, exists_eq_left, ← Maps.mem_iff]
      tauto
    have hlast : ∀ x, (∃ e' ∈ edges ++ [e], e'.other = x) ↔
        (∃ e' ∈ edges, e'.other = x) ∨ e.other = x := by
      intro x
      simp [or_and_right, exists_or]
    simp only [label, hlast]
    by_cases hold : e.other ∈ found.dist
    · -- The vertex has a label: it was there, or an edge before led to it.
      have hsame : ∀ x, x ∉ dist → ((∃ e' ∈ edges, e'.other = x) ∨ e.other = x ↔
          ∃ e' ∈ edges, e'.other = x) := by
        intro x hx
        refine or_iff_left_of_imp ?_
        rintro rfl
        exact (hfound.mp hold).resolve_left hx
      rw [if_pos (Maps.contains_iff.mpr hold)]
      refine ⟨fun x n => ?_, fun x => ?_⟩
      · rw [hdist, and_congr_right (hsame x)]
      · rw [hfrontier, and_congr_right (hsame x)]
    · have hnew : e.other ∉ dist ∧ ¬ ∃ e' ∈ edges, e'.other = e.other :=
        not_or.mp (mt hfound.mpr hold)
      rw [if_neg (mt Maps.contains_iff.mp hold)]
      refine ⟨fun x n => ?_, fun x => ?_⟩
      · rw [Maps.getElem?_insert]
        by_cases hx : e.other = x
        · subst hx
          simp [hnew.1, eq_comm]
        · rw [if_neg hx, hdist, or_iff_left hx]
      · rw [Maps.mem_insert, hfrontier]
        by_cases hx : e.other = x
        · subst hx
          simp [hnew.1]
        · simp [hx, Ne.symm hx]

theorem Levels.none_of_empty (h : Levels v asOf start d labels)
    (hempty : labels.frontier.isEmpty = true) (x : EntityId) :
    ¬ Search.At (v.links asOf) start d x := by
  intro hat
  have hsome := Maps.isEmpty_eq_false.mpr ⟨x, (h.frontier x).mpr hat⟩
  rw [hempty] at hsome
  nomatch hsome

/-- A level more. -/
theorem Levels.expand (hview : v.Graph asOf) (h : Levels v asOf start d labels) :
    ∃ found, V0.expand v labels (d + 1) asOf = .ok found ∧ Levels v asOf start (d + 1) found := by
  obtain ⟨out, hout, hsame⟩ := hview.neighborsMany labels.frontier.toList
  have hlevel : ∀ x, x ∈ labels.frontier.toList ↔ Search.At (v.links asOf) start d x := by
    intro x
    rw [Std.ExtTreeSet.mem_toList, h.frontier]
  refine ⟨_, by rw [V0.expand, hout]; rfl, ?_⟩
  rw [← List.foldl_flatMap]
  obtain ⟨hdist, hfrontier⟩ := foldl_label (d + 1) labels.dist
    (labels.frontier.toList.flatMap fun e => canonicalEdges (out.getD e []))
  -- The edges of the last level lead to the vertices one step further.
  have hedges : ∀ x, (∃ e ∈ labels.frontier.toList.flatMap fun e => canonicalEdges (out.getD e []),
      e.other = x) ↔ ∃ y via, Search.At (v.links asOf) start d y ∧
        Search.Step (v.links asOf) y via x := by
    intro x
    constructor
    · rintro ⟨e, he, rfl⟩
      obtain ⟨y, hy, he⟩ := List.mem_flatMap.mp he
      obtain ⟨edges, hread⟩ := hview.neighbors y
      have he := (hsame y hy edges hread e).mp (mem_canonicalEdges.mp he)
      exact ⟨y, e.via, (hlevel y).mp hy, (step_iff hread).mpr he⟩
    · rintro ⟨y, via, hat, hstep⟩
      have hy := (hlevel y).mpr hat
      obtain ⟨edges, hread⟩ := hview.neighbors y
      have he := (hsame y hy edges hread ⟨x, via⟩).mpr ((step_iff hread).mp hstep)
      exact ⟨⟨x, via⟩, List.mem_flatMap.mpr ⟨y, hy, mem_canonicalEdges.mpr he⟩, rfl⟩
  have hnext : ∀ x, (x ∉ labels.dist ∧ ∃ e ∈ labels.frontier.toList.flatMap fun e =>
      canonicalEdges (out.getD e []), e.other = x) ↔ Search.At (v.links asOf) start (d + 1) x := by
    intro x
    rw [h.mem, hedges]
    constructor
    · rintro ⟨hfar, y, via, hat, hstep⟩
      refine ⟨Search.within_succ.mpr (.inr ⟨y, via, hat.1, hstep⟩), fun k hk hx => ?_⟩
      exact hfar (hx.mono (Nat.le_of_lt_succ hk))
    · intro hat
      obtain ⟨y, via, hy, hstep⟩ := hat.pred
      exact ⟨hat.2 d d.lt_succ_self, y, via, hy, hstep⟩
  refine ⟨fun x n => ?_, fun x => ?_⟩
  · rw [hdist, hnext, h.dist]
    constructor
    · rintro (⟨hn, hat⟩ | ⟨rfl, hat⟩)
      · exact ⟨Nat.le_succ_of_le hn, hat⟩
      · exact ⟨le_rfl, hat⟩
    · rintro ⟨hn, hat⟩
      rcases Nat.le_succ_iff.mp hn with hn | rfl
      · exact .inl ⟨hn, hat⟩
      · exact .inr ⟨rfl, hat⟩
  · rw [hfrontier, hnext]

end Labels

end Levels

/-! ## The two sides -/

namespace Search

/-- A round that takes the side it is told. -/
def expandOn (v : CorpusView) (s : Search) (asOf : Tick) (onward : Bool) :
    Except ViewError Search := do
  if onward then
    let forward ← V0.expand v s.forward (s.depthF + 1) asOf
    return { s with forward, depthF := s.depthF + 1 }
  else
    let backward ← V0.expand v s.backward (s.depthB + 1) asOf
    return { s with backward, depthB := s.depthB + 1 }

/-- The loop of `shortest_distance` under any rule for which side goes on. -/
def runOn (choose : Search → Bool) (v : CorpusView) (kHops : Nat) (asOf : Tick) :
    Nat → Search → Except ViewError (Option Nat)
  | 0, _ => .ok none
  | rounds + 1, s =>
    if s.forward.frontier.isEmpty || s.backward.frontier.isEmpty then .ok none
    else do
      let s ← s.expandOn v asOf (choose s)
      match s.met with
      | some d => return if d ≤ kHops then some d else none
      | none => runOn choose v kHops asOf rounds s

/-- The rule of the source. -/
def smallerFrontier (s : Search) : Bool := s.forward.frontier.size ≤ s.backward.frontier.size

theorem run_eq (v : CorpusView) (kHops : Nat) (asOf : Tick) (rounds : Nat) (s : Search) :
    run v kHops asOf rounds s = runOn smallerFrontier v kHops asOf rounds s := by
  induction rounds generalizing s with
  | zero => rfl
  | succ rounds ih =>
    have hexpand : s.expand v asOf = s.expandOn v asOf s.smallerFrontier := by
      by_cases hsize : s.forward.frontier.size ≤ s.backward.frontier.size <;>
        simp [Search.expand, expandOn, smallerFrontier, hsize]
    simp only [run, hexpand, ih]
    rfl

/-- Both sides have whole levels. -/
structure Levels (v : CorpusView) (asOf : Tick) (source target : EntityId) (s : Search) :
    Prop where
  forward : s.forward.Levels v asOf source s.depthF
  backward : s.backward.Levels v asOf target s.depthB

section
variable {v : CorpusView} {asOf : Tick} {source target : EntityId} {s : Search}

theorem levels_start (source target : EntityId) :
    Levels v asOf source target (.start source target) :=
  ⟨Labels.levels_start source, Labels.levels_start target⟩

theorem Levels.expandOn (hview : v.Graph asOf) (h : Levels v asOf source target s)
    (onward : Bool) : ∃ found, s.expandOn v asOf onward = .ok found ∧
      Levels v asOf source target found ∧
      found.depthF + found.depthB = s.depthF + s.depthB + 1 := by
  cases onward with
  | true =>
    obtain ⟨forward, hexpand, hforward⟩ := h.forward.expand hview
    refine ⟨{ s with forward, depthF := s.depthF + 1 }, ?_, ⟨hforward, h.backward⟩, ?_⟩
    · rw [Search.expandOn, hexpand]
      rfl
    · exact Nat.add_right_comm s.depthF 1 s.depthB
  | false =>
    obtain ⟨backward, hexpand, hbackward⟩ := h.backward.expand hview
    refine ⟨{ s with backward, depthB := s.depthB + 1 }, ?_, ⟨h.forward, hbackward⟩, rfl⟩
    rw [Search.expandOn, hexpand]
    rfl

/-- What both sides have labelled is on a walk between the ends. -/
theorem Levels.mem_met (h : Levels v asOf source target s) {d : Nat} :
    d ∈ s.forward.dist.toList.filterMap (fun p => s.backward.dist[p.1]?.map (p.2 + ·)) ↔
      ∃ x n m, n ≤ s.depthF ∧ m ≤ s.depthB ∧ Search.At (v.links asOf) source n x ∧
        Search.At (v.links asOf) target m x ∧ n + m = d := by
  rw [List.mem_filterMap]
  constructor
  · rintro ⟨p, hp, hd⟩
    rw [Std.ExtTreeMap.mem_toList_iff_getElem?_eq_some] at hp
    obtain ⟨m, hm, rfl⟩ := Option.map_eq_some_iff.mp hd
    obtain ⟨hn, hforward⟩ := (h.forward.dist _ _).mp hp
    obtain ⟨hm, hbackward⟩ := (h.backward.dist _ _).mp hm
    exact ⟨p.1, p.2, m, hn, hm, hforward, hbackward, rfl⟩
  · rintro ⟨x, n, m, hn, hm, hforward, hbackward, rfl⟩
    refine ⟨(x, n), ?_, ?_⟩
    · exact Std.ExtTreeMap.mem_toList_iff_getElem?_eq_some.mpr
        ((h.forward.dist x n).mpr ⟨hn, hforward⟩)
    · rw [(h.backward.dist x m).mpr ⟨hm, hbackward⟩]
      rfl

/-- The sides meet once the ends are within their depths, at the distance of the ends. -/
theorem Levels.met_some (hview : v.Graph asOf) (h : Levels v asOf source target s) {d : Nat}
    (hat : Search.At (v.links asOf) source d target) (hd : d ≤ s.depthF + s.depthB) :
    s.met = some d := by
  refine List.min?_eq_some_iff.mpr ⟨h.mem_met.mpr ?_, fun b hb => ?_⟩
  · exact hat.meet hview.symmetric hd
  · obtain ⟨x, n, m, -, -, hn, hm, rfl⟩ := h.mem_met.mp hb
    exact hat.le (hn.1.append (hm.1.symm hview.symmetric))

theorem Levels.met_none (hview : v.Graph asOf) (h : Levels v asOf source target s)
    (hfar : ¬ Search.Within (v.links asOf) source (s.depthF + s.depthB) target) : s.met = none := by
  refine List.min?_eq_none_iff.mpr (List.eq_nil_iff_forall_not_mem.mpr fun b hb => hfar ?_)
  obtain ⟨x, n, m, hn, hm, hforward, hbackward, -⟩ := h.mem_met.mp hb
  exact (hforward.1.append (hbackward.1.symm hview.symmetric)).mono (Nat.add_le_add hn hm)

/-- Whichever side goes on, the search finds the distance of the ends within its bound. -/
theorem runOn_spec (choose : Search → Bool) (hview : v.Graph asOf) {kHops rounds : Nat}
    (h : Levels v asOf source target s) (hrounds : s.depthF + s.depthB + rounds = kHops)
    (hfar : ¬ Search.Within (v.links asOf) source (s.depthF + s.depthB) target) :
    ∃ r, runOn choose v kHops asOf rounds s = .ok r ∧
      (r = none → ¬ Search.Within (v.links asOf) source kHops target) ∧
      ∀ d, r = some d → d ≤ kHops ∧ Search.At (v.links asOf) source d target := by
  induction rounds generalizing s with
  | zero =>
    refine ⟨none, rfl, fun _ => ?_, nofun⟩
    rwa [← hrounds]
  | succ rounds ih =>
    rw [runOn]
    split
    · next hempty =>
      -- An end has no level further out, so whatever it reaches is near.
      refine ⟨none, rfl, fun _ hwithin => hfar ?_, nofun⟩
      rcases Bool.or_eq_true_iff.mp hempty with hempty | hempty
      · obtain ⟨j, hj, hnear⟩ := Search.none_beyond (h.forward.none_of_empty hempty) hwithin
        exact hnear.mono (by omega)
      · have hback := hwithin.symm hview.symmetric
        obtain ⟨j, hj, hnear⟩ := Search.none_beyond (h.backward.none_of_empty hempty) hback
        exact (hnear.symm hview.symmetric).mono (by omega)
    · obtain ⟨found, hexpand, hlevels, hdepth⟩ := h.expandOn hview (choose s)
      rw [hexpand]
      by_cases hmeets : Search.Within (v.links asOf) source (found.depthF + found.depthB) target
      · obtain ⟨d, hd, hat⟩ := hmeets.at
        have hmet := hlevels.met_some hview hat hd
        have hbound : d ≤ kHops := by omega
        refine ⟨some d, ?_, nofun, ?_⟩
        · simp [bind, Except.bind, hmet, hbound, pure, Except.pure]
        · intro d' hd'
          obtain rfl := Option.some.inj hd'
          exact ⟨hbound, hat⟩
      · have hmet := hlevels.met_none hview hmeets
        obtain ⟨r, hrun, hnone, hsome⟩ := ih hlevels (by omega) hmeets
        refine ⟨r, ?_, hnone, hsome⟩
        simp [bind, Except.bind, hmet, hrun]

end

end Search

/-! ## The walk -/

section Walk
variable {v : CorpusView} {asOf : Tick} {source target : EntityId}

/-- The labels from the target are the distances as far as they are needed. -/
theorem backwardLabels_spec (hview : v.Graph asOf) (rounds : Nat) {level : Nat} {labels : Labels}
    (h : labels.Levels v asOf target level) : ∃ back,
    backwardLabels v asOf rounds (level + 1) labels = .ok back ∧ ∀ (x : EntityId) (n : Nat),
      back.dist[x]? = some n ↔ n ≤ level + rounds ∧ Search.At (v.links asOf) target n x := by
  induction rounds generalizing level labels with
  | zero => exact ⟨labels, rfl, h.dist⟩
  | succ rounds ih =>
    rw [backwardLabels]
    split
    · next hempty =>
      refine ⟨labels, rfl, fun x n => ?_⟩
      rw [h.dist]
      refine and_congr_left fun hat => ⟨fun hn => by omega, fun _ => ?_⟩
      obtain ⟨j, hj, hnear⟩ := Search.none_beyond (h.none_of_empty hempty) hat.1
      exact (hat.le hnear).trans hj.le
    · obtain ⟨found, hexpand, hfound⟩ := h.expand hview
      obtain ⟨back, hback, hdist⟩ := ih hfound
      refine ⟨back, ?_, fun x n => ?_⟩
      · rw [hexpand]
        exact hback
      · rw [hdist, Nat.add_right_comm level 1 rounds]
        rfl

/-- In a sorted list the search finds the first that fits. -/
theorem find?_least {α : Type} {r : α → α → Prop} {p : α → Bool} {l : List α} {a b : α}
    (hsorted : l.Pairwise r) (hfind : l.find? p = some a) (hb : b ∈ l) (hp : p b = true) :
    b = a ∨ r a b := by
  obtain ⟨-, before, after, rfl, hbefore⟩ := List.find?_eq_some_iff_append.mp hfind
  rcases List.mem_append.mp hb with hb | hb
  · exact absurd hp (by simpa using hbefore b hb)
  · rcases List.mem_cons.mp hb with rfl | hb
    · exact .inl rfl
    · exact .inr ((List.pairwise_cons.mp (List.pairwise_append.mp hsorted).2.1).1 b hb)

def WalkStep.pair (step : WalkStep) : EntityId × Hash := (step.entity, step.via)

/-- The order of neighbours: the entity, then the moment. -/
def before (a b : EntityId × Hash) : Prop := Edge.order ⟨a.1, a.2⟩ < Edge.order ⟨b.1, b.2⟩

/-- The greedy walk takes the least shortest trail. -/
theorem greedyWalk_spec (hview : v.Graph asOf) {back : EntityMap Nat} {d : Nat}
    (hback : ∀ (x : EntityId) (n : Nat),
      back[x]? = some n ↔ n ≤ d ∧ Search.At (v.links asOf) target n x)
    {remaining : Nat} (hremaining : remaining ≤ d) {cur : EntityId}
    (hat : Search.At (v.links asOf) cur remaining target) : ∃ steps,
    greedyWalk v back asOf remaining cur = .ok steps ∧ steps.length = remaining ∧
      Search.LeastTrail (v.links asOf) before cur (steps.map WalkStep.pair) target := by
  induction remaining generalizing cur with
  | zero =>
    obtain rfl := Search.within_zero.mp hat.1
    exact ⟨[], rfl, rfl, .nil target⟩
  | succ remaining ih =>
    obtain ⟨edges, hread⟩ := hview.neighbors cur
    have hfits : ∀ y via, Search.Step (v.links asOf) cur via y →
        Search.At (v.links asOf) y remaining target →
        ⟨y, via⟩ ∈ canonicalEdges edges ∧ back[y]? = some remaining := by
      intro y via hstep hy
      refine ⟨mem_canonicalEdges.mpr ((step_iff hread).mp hstep), (hback y remaining).mpr ?_⟩
      exact ⟨Nat.le_of_succ_le hremaining, hy.symm hview.symmetric⟩
    rw [greedyWalk, hread]
    simp only [bind, Except.bind]
    cases hfind : (canonicalEdges edges).find? fun e => back[e.other]? = some remaining with
    | none =>
      -- Some neighbour is one step nearer.
      obtain ⟨z, via, hz, hstep⟩ := (hat.symm hview.symmetric).pred
      obtain ⟨hmem, hlabel⟩ := hfits z via (hview.symmetric hstep) (hz.symm hview.symmetric)
      have hno := List.find?_eq_none.mp hfind _ hmem
      exact absurd (decide_eq_true hlabel) hno
    | some e =>
      have hlabel : back[e.other]? = some remaining := by
        simpa using List.find?_some hfind
      have hstep : Search.Step (v.links asOf) cur e.via e.other :=
        (step_iff hread).mpr (mem_canonicalEdges.mp (List.mem_of_find?_eq_some hfind))
      have hnear := ((hback _ _).mp hlabel).2.symm hview.symmetric
      obtain ⟨steps, hwalk, hlen, hleast⟩ := ih (Nat.le_of_succ_le hremaining) hnear
      have hmaplen : (steps.map WalkStep.pair).length = remaining := by rw [List.length_map, hlen]
      refine ⟨⟨e.other, e.via⟩ :: steps, by simp only [hwalk]; rfl,
        by rw [List.length_cons, hlen], ?_⟩
      refine .cons (by rwa [hmaplen]) hstep (fun y via hstep' hy => ?_) hleast
      rw [hmaplen] at hy
      obtain ⟨hmem, hlabel'⟩ := hfits y via hstep' hy
      rcases find?_least (canonicalEdges_sorted edges) hfind hmem (decide_eq_true hlabel')
        with heq | hlt
      · exact .inl (by rw [← heq])
      · exact .inr hlt

end Walk

/-! ## The answer -/

/-- `known_k` under any rule for which side goes on. -/
def knownKOn (choose : Search → Bool) (v : CorpusView) (source target : EntityId) (k : Nat)
    (asOf : Tick) : Except ViewError Reachability := do
  if source = target then return .within .reflexive
  let unreachable := Reachability.none (.noEvidencedWalk source target k)
  if k = 0 then return unreachable
  match ← Search.runOn choose v k asOf k (.start source target) with
  | none => return unreachable
  | some d =>
    let back ← backwardLabels v asOf d 1 (.start target)
    let witness ← greedyWalk v back.dist asOf d source
    return .within ⟨d, witness⟩

theorem knownK_eq (v : CorpusView) (source target : EntityId) (k : Nat) (asOf : Tick) :
    knownK v source target k asOf =
      knownKOn Search.smallerFrontier v source target k asOf := by
  simp only [knownK, shortestDistance, Search.run_eq]
  rfl

/-- The support is a shortest evidenced walk, the least one. -/
structure Canonical (v : CorpusView) (asOf : Tick) (source target : EntityId) (k : Nat)
    (support : PhiSupport) : Prop where
  bound : support.hops ≤ k
  distance : Search.At (v.links asOf) source support.hops target
  hops : support.witness.length = support.hops
  least : Search.LeastTrail (v.links asOf) before source (support.witness.map WalkStep.pair) target

section Answer
variable {v : CorpusView} {asOf : Tick} (h : v.Graph asOf)
include h

/-- The distance found does not depend on the rule. -/
theorem runOn_start (choose : Search → Bool) {source target : EntityId} {k : Nat}
    (hne : source ≠ target) : ∃ r,
      Search.runOn choose v k asOf k (.start source target) = .ok r ∧
      (r = none → ¬ Search.Within (v.links asOf) source k target) ∧
      ∀ d, r = some d → d ≤ k ∧ Search.At (v.links asOf) source d target :=
  Search.runOn_spec choose h (Search.levels_start source target) (Nat.zero_add k)
    fun hzero => hne (Search.within_zero.mp hzero).symm

theorem knownKOn_eq (choose choose' : Search → Bool) (source target : EntityId) (k : Nat) :
    knownKOn choose v source target k asOf = knownKOn choose' v source target k asOf := by
  by_cases heq : source = target
  · rw [knownKOn, knownKOn, if_pos heq, if_pos heq]
  · obtain ⟨r, hrun, hnone, hsome⟩ := runOn_start h choose heq
    obtain ⟨r', hrun', hnone', hsome'⟩ := runOn_start h choose' heq
    have hsame : r = r' := by
      cases r with
      | none =>
        cases r' with
        | none => rfl
        | some d' =>
          obtain ⟨hd', hat'⟩ := hsome' d' rfl
          exact absurd (hat'.1.mono hd') (hnone rfl)
      | some d =>
        obtain ⟨hd, hat⟩ := hsome d rfl
        cases r' with
        | none => exact absurd (hat.1.mono hd) (hnone' rfl)
        | some d' => rw [hat.unique (hsome' d' rfl).2]
    rw [knownKOn, knownKOn, hrun, hrun', hsame]

theorem knownKOn_spec (choose : Search → Bool) (source target : EntityId) (k : Nat) :
    knownKOn choose v source target k asOf = .ok (.none (.noEvidencedWalk source target k)) ∧
      ¬ Search.Within (v.links asOf) source k target ∨
    ∃ support, knownKOn choose v source target k asOf = .ok (.within support) ∧
      Canonical v asOf source target k support := by
  by_cases heq : source = target
  · subst heq
    refine .inr ⟨.reflexive, by rw [knownKOn, if_pos rfl]; rfl, k.zero_le, ?_, rfl, .nil source⟩
    exact ⟨Search.within_zero.mpr rfl, fun n hn => absurd hn n.not_lt_zero⟩
  · obtain ⟨r, hrun, hnone, hsome⟩ := runOn_start h choose heq
    rw [knownKOn, if_neg heq]
    by_cases hk : k = 0
    · subst hk
      refine .inl ⟨rfl, fun hzero => heq (Search.within_zero.mp hzero).symm⟩
    · rw [if_neg hk, hrun]
      simp only [bind, Except.bind]
      cases r with
      | none => exact .inl ⟨rfl, hnone rfl⟩
      | some d =>
        obtain ⟨hd, hat⟩ := hsome d rfl
        obtain ⟨back, hback, hdist⟩ := backwardLabels_spec h d (Labels.levels_start target)
        rw [Nat.zero_add] at hback hdist
        obtain ⟨witness, hwalk, hlen, hleast⟩ := greedyWalk_spec h hdist le_rfl hat
        refine .inr ⟨⟨d, witness⟩, ?_, hd, hat, hlen, hleast⟩
        simp only [hback, hwalk]
        rfl

theorem knownK_exact (source target : EntityId) (k : Nat) :
    ((∃ support, knownK v source target k asOf = .ok (.within support)) ↔
      ∃ steps, Search.Trail (v.links asOf) source steps target ∧ steps.length ≤ k) ∧
    (∀ support, knownK v source target k asOf = .ok (.within support) →
      Canonical v asOf source target k support) ∧
    (∃ r, knownK v source target k asOf = .ok r) ∧
    ∀ choose, knownKOn choose v source target k asOf = knownK v source target k asOf := by
  rw [knownK_eq, ← Search.within_iff_trail]
  refine ⟨?_, ?_, ?_, fun choose => knownKOn_eq h choose _ source target k⟩
  all_goals rcases knownKOn_spec h Search.smallerFrontier source target k with
    ⟨hrun, hfar⟩ | ⟨support, hrun, hcanonical⟩
  all_goals rw [hrun]
  · exact iff_of_false (by rintro ⟨support, hsupport⟩; nomatch hsupport) hfar
  · exact iff_of_true ⟨support, rfl⟩ (hcanonical.distance.1.mono hcanonical.bound)
  · exact nofun
  · rintro _ heq
    obtain rfl := Reachability.within.inj (Except.ok.inj heq)
    exact hcanonical
  · exact ⟨_, rfl⟩
  · exact ⟨_, rfl⟩

end Answer

/-- `neighbors_many` of a view that does not override it. -/
def neighborsEach (neighbors : EntityId → Tick → Except ViewError (List Edge))
    (entities : List EntityId) (asOf : Tick) : Except ViewError (EntityMap (List Edge)) :=
  entities.foldlM (fun out entity => (neighbors entity asOf).map (out.insert entity)) ∅

theorem neighborsEach_ok {neighbors : EntityId → Tick → Except ViewError (List Edge)} {asOf : Tick}
    (h : ∀ entity, ∃ edges, neighbors entity asOf = .ok edges) (entities : List EntityId) :
    ∃ out, neighborsEach neighbors entities asOf = .ok out ∧ ∀ entity,
      if entity ∈ entities then neighbors entity asOf = .ok (out.getD entity [])
      else out[entity]? = none := by
  induction entities using List.reverseRecOn with
  | nil => exact ⟨∅, rfl, by simp⟩
  | append_singleton entities last ih =>
    obtain ⟨out, hout, heach⟩ := ih
    obtain ⟨edges, hedges⟩ := h last
    refine ⟨out.insert last edges, ?_, fun entity => ?_⟩
    · rw [neighborsEach] at hout ⊢
      simp only [List.foldlM_append, hout, List.foldlM_cons, hedges]
      rfl
    · have hold := heach entity
      simp only [List.mem_append, List.mem_singleton, Std.ExtTreeMap.getD_eq_getD_getElem?,
        Maps.getElem?_insert] at hold ⊢
      by_cases hlast : last = entity
      · subst hlast
        simp [hedges]
      · simpa [hlast, Ne.symm hlast] using hold

theorem graph_of_each {v : CorpusView} {asOf : Tick}
    (hreads : ∀ entity, ∃ edges, v.neighbors entity asOf = .ok edges)
    (heach : v.neighborsMany = neighborsEach v.neighbors)
    (hsymm : ∀ {x y : EntityId} {via : Hash} {edges edges' : List Edge},
      v.neighbors x asOf = .ok edges → v.neighbors y asOf = .ok edges' →
      ⟨y, via⟩ ∈ edges → ⟨x, via⟩ ∈ edges') : v.Graph asOf where
  neighbors := hreads
  neighborsMany := by
    intro entities
    obtain ⟨out, hout, hmem⟩ := neighborsEach_ok hreads entities
    rw [heach]
    refine ⟨out, hout, fun entity hentity edges hedges e => ?_⟩
    have hread := hmem entity
    rw [if_pos hentity, hedges] at hread
    rw [Except.ok.inj hread]
  symmetric := by
    intro x via y hstep
    obtain ⟨edges, hedges⟩ := hreads x
    obtain ⟨edges', hedges'⟩ := hreads y
    exact (step_iff hedges').mpr (hsymm hedges hedges' ((step_iff hedges).mp hstep))

namespace ReachSample

/-- Entities 1, 2 and 3 in a row. -/
def row (entity : EntityId) (_ : Tick) : Except ViewError (List Edge) :=
  .ok (if entity = 1 then [⟨2, 7⟩] else if entity = 2 then [⟨1, 7⟩, ⟨3, 8⟩]
    else if entity = 3 then [⟨2, 8⟩] else [])

def view : CorpusView where
  neighbors := row
  neighborsMany := neighborsEach row
  window _ _ := .ok .unrecorded
  admissibility _ _ := .ok .unrecorded
  corpusDigest := 0

theorem view_graph (asOf : Tick) : view.Graph asOf := by
  refine graph_of_each (fun _ => ⟨_, rfl⟩) rfl ?_
  intro x y via edges edges' hx hy hmem
  obtain rfl := Except.ok.inj hx
  obtain rfl := Except.ok.inj hy
  split_ifs at hmem with h1 h2 h3
  all_goals simp only [List.mem_cons, List.not_mem_nil, or_false, Edge.mk.injEq] at hmem
  · obtain ⟨rfl, rfl⟩ := hmem
    simp [h1]
  · rcases hmem with ⟨rfl, rfl⟩ | ⟨rfl, rfl⟩ <;> simp [h2]
  · obtain ⟨rfl, rfl⟩ := hmem
    simp [h3]

/-- From one end to the other in two hops. -/
theorem ends_exact :
    ((∃ support, knownK view 1 3 2 sentinel = .ok (.within support)) ↔
      ∃ steps, Search.Trail (view.links sentinel) 1 steps 3 ∧ steps.length ≤ 2) ∧
    (∀ support, knownK view 1 3 2 sentinel = .ok (.within support) →
      Canonical view sentinel 1 3 2 support) ∧
    (∃ r, knownK view 1 3 2 sentinel = .ok r) ∧
    ∀ choose, knownKOn choose view 1 3 2 sentinel = knownK view 1 3 2 sentinel :=
  knownK_exact (view_graph sentinel) 1 3 2

end ReachSample

end Clockchain.V0
