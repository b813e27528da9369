import Clockchain.Maps

/-!
# Breadth-first search

A labelled graph is given by the labelled successors of each vertex. `search` finds level
by level the vertices within a number of hops and keeps for each the edge that found it,
so `trace` walks back along a shortest path.
-/

namespace Search
open Std Maps
set_option autoImplicit false

universe u v
variable {α : Type u} {ε : Type v}

/-- A walk along labelled steps, with its labels. -/
inductive Walk (step : α → ε → α → Prop) : α → List ε → α → Prop where
  | nil (x : α) : Walk step x [] x
  | snoc {x y z : α} {path : List ε} {e : ε} : Walk step x path y → step y e z →
      Walk step x (path ++ [e]) z

namespace Walk
variable {step step' : α → ε → α → Prop} {x y z : α} {path path' : List ε} {e : ε}

theorem single (h : step x e y) : Walk step x [e] y := .snoc (.nil x) h

theorem append (h : Walk step x path y) (h' : Walk step y path' z) :
    Walk step x (path ++ path') z := by
  induction h' with
  | nil => simpa using h
  | snoc _ hstep ih => simpa using ih.snoc hstep

theorem reverse (symm : ∀ {x e y}, step x e y → step y e x) (h : Walk step x path y) :
    Walk step y path.reverse x := by
  induction h with
  | nil => exact .nil _
  | snoc _ hstep ih => simpa using (single (symm hstep)).append ih

theorem mono (sub : ∀ {x e y}, step x e y → step' x e y) (h : Walk step x path y) :
    Walk step' x path y := by
  induction h with
  | nil => exact .nil _
  | snoc _ hstep ih => exact ih.snoc (sub hstep)

end Walk

/-! ## The search -/

section
variable [DecidableEq α] {cmp : α → α → Ordering} [TransCmp cmp] [LawfulEqCmp cmp]

/-- For each vertex found, the vertex and the edge it was found from. -/
abbrev Previous (α : Type u) (ε : Type v) (cmp : α → α → Ordering) :=
  ExtTreeMap α (Option (α × ε)) cmp

def visit (x : α) (state : Previous α ε cmp × List α) (n : α × ε) : Previous α ε cmp × List α :=
  if state.1.contains n.1 then state
  else (state.1.insert n.1 (some (x, n.2)), state.2 ++ [n.1])

/-- One level: the neighbors of its vertices that have not been found before. -/
def expand (next : α → List (α × ε)) (previous : Previous α ε cmp) (level : List α) :
    Previous α ε cmp × List α :=
  level.foldl (fun state x => (next x).foldl (visit x) state) (previous, [])

/-- At most `hops` levels, until the target is found. -/
def search (next : α → List (α × ε)) (target : α) :
    Nat → Previous α ε cmp → List α → Option (Previous α ε cmp)
  | 0, _, _ => none
  | hops + 1, previous, level =>
    if level.isEmpty then none
    else
      let (previous, level) := expand next previous level
      if previous.contains target then some previous else search next target hops previous level

/-- The edges from a vertex back to the start, after those of `path`. -/
def trace (previous : Previous α ε cmp) : Nat → α → List ε → Option (List ε)
  | fuel, x, path =>
    match previous[x]? with
    | some (some (prior, e)) =>
      match fuel with
      | 0 => none
      | fuel + 1 => trace previous fuel prior (path ++ [e])
    | _ => some path

/-! ## Levels -/

variable {next : α → List (α × ε)} {start : α}

def Step (next : α → List (α × ε)) (x : α) (e : ε) (y : α) : Prop := (y, e) ∈ next x

def Within (next : α → List (α × ε)) (start : α) (d : Nat) (x : α) : Prop :=
  ∃ path, Walk (Step next) start path x ∧ path.length ≤ d

/-- The distance of `x` from the start is `d`. -/
def At (next : α → List (α × ε)) (start : α) (d : Nat) (x : α) : Prop :=
  Within next start d x ∧ ∀ k < d, ¬ Within next start k x

omit [DecidableEq α] in
theorem Within.mono {d k : Nat} {x : α} (h : Within next start d x) (hk : d ≤ k) :
    Within next start k x := by
  obtain ⟨path, hwalk, hlen⟩ := h
  exact ⟨path, hwalk, hlen.trans hk⟩

omit [DecidableEq α] in
theorem within_zero {x : α} : Within next start 0 x ↔ x = start := by
  constructor
  · rintro ⟨path, hwalk, hlen⟩
    cases hwalk with
    | nil => rfl
    | snoc _ _ => simp at hlen
  · rintro rfl
    exact ⟨[], .nil x, le_rfl⟩

omit [DecidableEq α] in
theorem within_succ {d : Nat} {x : α} : Within next start (d + 1) x ↔
    Within next start d x ∨ ∃ y e, Within next start d y ∧ Step next y e x := by
  constructor
  · rintro ⟨path, hwalk, hlen⟩
    cases hwalk with
    | nil => exact Or.inl ⟨[], .nil _, Nat.zero_le d⟩
    | @snoc y _ path e hwalk hstep =>
      rw [List.length_append, List.length_singleton] at hlen
      exact Or.inr ⟨y, e, ⟨path, hwalk, by omega⟩, hstep⟩
  · rintro (h | ⟨y, e, ⟨path, hwalk, hlen⟩, hstep⟩)
    · exact h.mono d.le_succ
    · exact ⟨path ++ [e], hwalk.snoc hstep, by simpa using hlen⟩

omit [DecidableEq α] in
/-- A vertex within reach has a distance. -/
theorem Within.at {d : Nat} {x : α} (h : Within next start d x) : ∃ k ≤ d, At next start k x := by
  classical
  have hex : ∃ k, Within next start k x := ⟨d, h⟩
  exact ⟨Nat.find hex, Nat.find_min' hex h, Nat.find_spec hex, fun _ hk => Nat.find_min hex hk⟩

omit [DecidableEq α] in
/-- When no vertex is at distance `d`, none is further away. -/
theorem none_beyond {d k : Nat} {x : α} (hnone : ∀ x, ¬ At next start d x)
    (h : Within next start k x) : ∃ j < d, Within next start j x := by
  have hnear : ∀ {k : Nat} {x : α}, Within next start k x → k ≤ d →
      ∃ j < d, Within next start j x := by
    intro k x hx hk
    obtain ⟨j, hj, hat⟩ := hx.at
    refine ⟨j, Nat.lt_of_le_of_ne (hj.trans hk) ?_, hat.1⟩
    rintro rfl
    exact hnone x hat
  induction k generalizing x with
  | zero => exact hnear h d.zero_le
  | succ k ih =>
    rcases within_succ.mp h with hx | ⟨y, e, hy, hstep⟩
    · exact ih hx
    · obtain ⟨j, hj, hyj⟩ := ih hy
      exact hnear (within_succ.mpr (Or.inr ⟨y, e, hyj, hstep⟩)) hj

/-- What has been found when the levels up to `d` are complete. -/
structure Levels (next : α → List (α × ε)) (start : α) (d : Nat) (previous : Previous α ε cmp)
    (level : List α) : Prop where
  found : ∀ x, x ∈ previous ↔ Within next start d x
  level : ∀ x, x ∈ level ↔ At next start d x
  origin : ∀ {x : α}, previous[x]? = some none ↔ x = start
  prior : ∀ {x y : α} {e : ε}, previous[x]? = some (some (y, e)) →
    Step next y e x ∧ ∃ k, At next start k y ∧ At next start (k + 1) x

theorem levels_zero : @Levels α ε cmp _ next start 0
    ((∅ : Previous α ε cmp).insert start none) [start] := by
  have hget : ∀ x, ((∅ : Previous α ε cmp).insert start none)[x]? =
      if start = x then some none else none := by
    intro x
    rw [getElem?_insert, ExtTreeMap.getElem?_empty]
  refine ⟨fun x => ?_, fun x => ?_, fun {x} => ?_, fun {x y e} h => ?_⟩
  · rw [mem_map_insert, within_zero, or_iff_left ExtTreeMap.not_mem_empty]
  · rw [List.mem_singleton, At, within_zero]
    simp
  · rw [hget]
    by_cases h : start = x <;> simp [h, eq_comm]
  · rw [hget] at h
    split_ifs at h
    simp at h

/-- The vertices that the steps `done` lead to are the new ones. -/
structure Expanded (next : α → List (α × ε)) (previous : Previous α ε cmp)
    (done : α → ε → α → Prop) (state : Previous α ε cmp × List α) : Prop where
  mem : ∀ x, x ∈ state.1 ↔ x ∈ previous ∨ ∃ y e, done y e x
  fresh : ∀ x, x ∈ state.2 ↔ x ∈ state.1 ∧ x ∉ previous
  same : ∀ {x : α}, x ∈ previous → state.1[x]? = previous[x]?
  prior : ∀ {x : α}, x ∈ state.1 → x ∉ previous →
    ∃ y e, state.1[x]? = some (some (y, e)) ∧ done y e x

omit [DecidableEq α] [LawfulEqCmp cmp] in
theorem Expanded.congr {previous : Previous α ε cmp} {done done' : α → ε → α → Prop}
    {state : Previous α ε cmp × List α} (h : Expanded next previous done state)
    (same : ∀ y e x, done y e x ↔ done' y e x) : Expanded next previous done' state := by
  obtain rfl : done = done' := by
    funext y e x
    exact propext (same y e x)
  exact h

theorem visit_spec {previous : Previous α ε cmp} {done : α → ε → α → Prop}
    {state : Previous α ε cmp × List α} (h : Expanded next previous done state) (x : α)
    (n : α × ε) : Expanded next previous (fun y e z => done y e z ∨ y = x ∧ (z, e) = n)
      (visit x state n) := by
  obtain ⟨z, e⟩ := n
  unfold visit
  by_cases hz : z ∈ state.1
  · rw [if_pos (contains_iff.mpr hz)]
    refine ⟨fun y => ?_, h.fresh, h.same, fun hy hnew => ?_⟩
    · rw [h.mem]
      constructor
      · rintro (hy | ⟨w, e', hw⟩)
        · exact Or.inl hy
        · exact Or.inr ⟨w, e', Or.inl hw⟩
      · rintro (hy | ⟨w, e', hw | ⟨rfl, heq⟩⟩)
        · exact Or.inl hy
        · exact Or.inr ⟨w, e', hw⟩
        · rw [← h.mem]
          obtain ⟨rfl, rfl⟩ := Prod.mk.inj heq
          exact hz
    · obtain ⟨w, e', hget, hw⟩ := h.prior hy hnew
      exact ⟨w, e', hget, Or.inl hw⟩
  · rw [if_neg (by simpa using hz)]
    have hnew : z ∉ previous := fun hmem => hz ((h.mem z).mpr (Or.inl hmem))
    refine ⟨fun y => ?_, fun y => ?_, fun {y} hy => ?_, fun {y} hy hfresh => ?_⟩
    · rw [mem_map_insert, h.mem]
      constructor
      · rintro (rfl | hy | ⟨w, e', hw⟩)
        · exact Or.inr ⟨x, e, Or.inr ⟨rfl, rfl⟩⟩
        · exact Or.inl hy
        · exact Or.inr ⟨w, e', Or.inl hw⟩
      · rintro (hy | ⟨w, e', hw | ⟨_, heq⟩⟩)
        · exact Or.inr (Or.inl hy)
        · exact Or.inr (Or.inr ⟨w, e', hw⟩)
        · exact Or.inl (Prod.mk.inj heq).1
    · rw [List.mem_append, List.mem_singleton, mem_map_insert, h.fresh]
      constructor
      · rintro (⟨hy, hnot⟩ | rfl)
        · exact ⟨Or.inr hy, hnot⟩
        · exact ⟨Or.inl rfl, hnew⟩
      · rintro ⟨rfl | hy, hnot⟩
        · exact Or.inr rfl
        · exact Or.inl ⟨hy, hnot⟩
    · rw [getElem?_insert, if_neg, h.same hy]
      rintro rfl
      exact hnew hy
    · rw [getElem?_insert]
      by_cases hzy : z = y
      · subst hzy
        exact ⟨x, e, if_pos rfl, Or.inr ⟨rfl, rfl⟩⟩
      · rw [if_neg hzy]
        obtain ⟨w, e', hget, hw⟩ :=
          h.prior ((mem_map_insert.mp hy).resolve_left (Ne.symm hzy)) hfresh
        exact ⟨w, e', hget, Or.inl hw⟩

theorem visits_spec {previous : Previous α ε cmp} {done : α → ε → α → Prop} (x : α)
    (ns : List (α × ε)) {state : Previous α ε cmp × List α}
    (h : Expanded next previous done state) :
    Expanded next previous (fun y e z => done y e z ∨ y = x ∧ (z, e) ∈ ns)
      (ns.foldl (visit x) state) := by
  induction ns generalizing done state with
  | nil => exact h.congr fun y e z => by simp
  | cons n ns ih =>
    refine (ih (visit_spec h x n)).congr fun y e z => ?_
    rw [List.mem_cons, or_assoc, ← and_or_left]

theorem expand_spec {previous : Previous α ε cmp} (level : List α) :
    Expanded next previous (fun y e z => y ∈ level ∧ Step next y e z)
      (expand next previous level) := by
  have go : ∀ (level : List α) (done : α → ε → α → Prop) (state : Previous α ε cmp × List α),
      Expanded next previous done state →
      Expanded next previous (fun y e z => done y e z ∨ y ∈ level ∧ Step next y e z)
        (level.foldl (fun state x => (next x).foldl (visit x) state) state) := by
    intro level
    induction level with
    | nil => exact fun done state h => h.congr fun y e z => by simp
    | cons x level ih =>
      intro done state h
      refine (ih _ _ (visits_spec x (next x) h)).congr fun y e z => ?_
      rw [List.mem_cons, or_and_right, or_assoc]
      refine or_congr_right (or_congr_left ?_)
      constructor
      · rintro ⟨rfl, hstep⟩
        exact ⟨rfl, hstep⟩
      · rintro ⟨rfl, hstep⟩
        exact ⟨rfl, hstep⟩
  refine (go level (fun _ _ _ => False) (previous, []) ⟨?_, ?_, ?_, ?_⟩).congr fun y e z => ?_
  · exact fun x => ⟨Or.inl, fun h => h.resolve_right (by simp)⟩
  · intro x
    simp
  · exact fun _ => rfl
  · exact fun hx hnot => absurd hx hnot
  · exact or_iff_right id

theorem levels_succ {d : Nat} {previous : Previous α ε cmp} {level : List α}
    (h : Levels next start d previous level) :
    Levels next start (d + 1) (expand next previous level).1 (expand next previous level).2 := by
  have spec : Expanded next previous (fun y e z => y ∈ level ∧ Step next y e z)
    (expand next previous level) := expand_spec level
  -- A step from a nearer vertex leads to one that has been found.
  have hfound : ∀ x, x ∈ (expand next previous level).1 ↔ Within next start (d + 1) x := by
    intro x
    rw [spec.mem, h.found, within_succ]
    constructor
    · rintro (hx | ⟨y, e, hy, hstep⟩)
      · exact Or.inl hx
      · exact Or.inr ⟨y, e, ((h.level y).mp hy).1, hstep⟩
    · rintro (hx | ⟨y, e, hy, hstep⟩)
      · exact Or.inl hx
      · obtain ⟨k, hk, hat⟩ := hy.at
        by_cases hkd : k = d
        · subst hkd
          exact Or.inr ⟨y, e, (h.level y).mpr hat, hstep⟩
        · refine Or.inl (Within.mono (within_succ.mpr (Or.inr ⟨y, e, hat.1, hstep⟩)) ?_)
          omega
  have hlevel : ∀ x, x ∈ (expand next previous level).2 ↔ At next start (d + 1) x := by
    intro x
    rw [spec.fresh, hfound, h.found]
    refine and_congr_right fun _ => ⟨fun hnot k hk hx => hnot (hx.mono (by omega)), ?_⟩
    exact fun hmin => hmin d d.lt_succ_self
  refine ⟨hfound, hlevel, fun {x} => ?_, fun {x y e} hget => ?_⟩
  · by_cases hx : x ∈ previous
    · rw [spec.same hx, h.origin]
    · have hne : x ≠ start := by
        rintro rfl
        exact hx ((h.found x).mpr (Within.mono (within_zero.mpr rfl) d.zero_le))
      refine iff_of_false (fun hget => ?_) hne
      obtain ⟨y, e, hprior, _⟩ := spec.prior (mem_of_getElem? hget) hx
      simp [hget] at hprior
  · by_cases hx : x ∈ previous
    · rw [spec.same hx] at hget
      exact h.prior hget
    · obtain ⟨y', e', hprior, hlevel', hstep⟩ := spec.prior (mem_of_getElem? hget) hx
      rw [hget] at hprior
      obtain ⟨rfl, rfl⟩ := Prod.mk.inj (Option.some.inj (Option.some.inj hprior))
      refine ⟨hstep, d, (h.level y).mp hlevel', (hlevel x).mp ?_⟩
      exact (spec.fresh x).mpr ⟨mem_of_getElem? hget, hx⟩

omit [DecidableEq α] [LawfulEqCmp cmp] in
/-- The walk back from a vertex at distance `d` shows a path of length `d`. -/
theorem trace_spec {d k fuel : Nat} {previous : Previous α ε cmp} {level : List α}
    (h : Levels next start d previous level) {x : α} (hx : x ∈ previous) (hat : At next start k x)
    (hfuel : k ≤ fuel) (path : List ε) :
    ∃ back, trace previous fuel x path = some (path ++ back) ∧ back.length = k ∧
      Walk (Step next) start back.reverse x := by
  induction k generalizing x fuel path with
  | zero =>
    obtain rfl := within_zero.mp hat.1
    have hget := h.origin.mpr rfl
    refine ⟨[], ?_, rfl, .nil x⟩
    unfold trace
    simp [hget]
  | succ k ih =>
    obtain ⟨entry, hget⟩ := mem_iff.mp hx
    cases entry with
    | none =>
      obtain rfl := h.origin.mp hget
      exact absurd (within_zero.mpr rfl) (hat.2 0 k.succ_pos)
    | some edge =>
      obtain ⟨y, e⟩ := edge
      obtain ⟨hstep, j, hy, hx'⟩ := h.prior hget
      have hjk : j = k := by
        have h1 : ¬ j + 1 < k + 1 := fun hlt => hat.2 _ hlt hx'.1
        have h2 : ¬ k + 1 < j + 1 := fun hlt => hx'.2 _ hlt hat.1
        omega
      subst hjk
      obtain ⟨fuel, rfl⟩ : ∃ n, fuel = n + 1 := ⟨fuel - 1, by omega⟩
      have hym : y ∈ previous := by
        rw [h.found]
        obtain ⟨m, hm, hm'⟩ := ((h.found x).mp hx).at
        have hjm : m = j + 1 := by
          have h1 : ¬ m < j + 1 := fun hlt => hat.2 _ hlt hm'.1
          have h2 : ¬ j + 1 < m := fun hlt => hm'.2 _ hlt hat.1
          omega
        exact hy.1.mono (show j ≤ d by omega)
      obtain ⟨back, hrun, hlen, hwalk⟩ :=
        ih hym hy (Nat.le_of_succ_le_succ hfuel) (path ++ [e])
      refine ⟨e :: back, ?_, by simp [hlen], ?_⟩
      · unfold trace
        simpa [hget] using hrun
      · simpa using hwalk.snoc hstep

/-- The search fails exactly when the target is out of reach, and otherwise finds it at
its distance. -/
theorem search_spec {target : α} (hops : Nat) {d : Nat} {previous : Previous α ε cmp}
    {level : List α} (h : Levels next start d previous level)
    (hnot : ¬ Within next start d target) :
    match search next target hops previous level with
    | none => ¬ Within next start (d + hops) target
    | some found => ∃ k level', k ≤ d + hops ∧ At next start k target ∧ target ∈ found ∧
        Levels next start k found level' := by
  induction hops generalizing d previous level with
  | zero => exact hnot
  | succ hops ih =>
    unfold search
    by_cases hempty : level = []
    · have hnone : ∀ x, ¬ At next start d x := fun x hx => by
        simpa [hempty] using (h.level x).mpr hx
      simp only [hempty, List.isEmpty_nil, if_true]
      intro htarget
      obtain ⟨j, hj, hx⟩ := none_beyond hnone htarget
      exact hnot (hx.mono hj.le)
    · have hsucc := levels_succ h
      rw [if_neg (by simpa using hempty)]
      by_cases hfound : target ∈ (expand next previous level).1
      · simp only [contains_iff.mpr hfound, if_true]
        refine ⟨d + 1, _, by omega, ⟨(hsucc.found target).mp hfound, ?_⟩, hfound, hsucc⟩
        exact fun k hk hx => hnot (hx.mono (by omega))
      · have hmiss := fun hx => hfound ((hsucc.found target).mpr hx)
        have hrest := ih hsucc hmiss
        rw [show d + 1 + hops = d + (hops + 1) by omega] at hrest
        simpa [hfound] using hrest

/-- A search from the start shows a shortest walk, or there is none within its hops. -/
theorem shortest_spec {target : α} (hops : Nat) (hne : target ≠ start) :
    match search next target hops ((∅ : Previous α ε cmp).insert start none) [start] with
    | none => ¬ Within next start hops target
    | some found => ∃ back, trace found hops target [] = some back ∧
        Walk (Step next) start back.reverse target ∧ back.length ≤ hops ∧
        ∀ path, Walk (Step next) start path target → back.length ≤ path.length := by
  have h := search_spec hops (levels_zero : Levels next start 0
    ((∅ : Previous α ε cmp).insert start none) [start]) (mt within_zero.mp hne)
  rw [Nat.zero_add] at h
  cases hrun : search next target hops ((∅ : Previous α ε cmp).insert start none) [start] with
  | none => simpa [hrun] using h
  | some found =>
    simp only [hrun] at h ⊢
    obtain ⟨k, level, hk, hat, hfound, levels⟩ := h
    obtain ⟨back, htrace, hlen, hwalk⟩ := trace_spec levels hfound hat hk []
    refine ⟨back, by simpa using htrace, hwalk, by omega, fun path hpath => ?_⟩
    by_contra hlt
    exact hat.2 path.length (by omega) ⟨path, hpath, le_rfl⟩

end

end Search
