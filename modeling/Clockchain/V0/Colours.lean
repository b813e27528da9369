import Clockchain.Colouring
import Clockchain.Frames
import Clockchain.Programs
import Clockchain.V0.Filter
import Mathlib.Logic.Equiv.Defs

/-!
# Colours of the evidence graph

`ball` and `refine` of `cc-filter/src/wl.rs` over a view. In a ball of radius at least the number
of rounds the seeds get the colours of the whole graph, and isomorphic graphs give the same.
-/

namespace Clockchain.V0
open Codec Programs
open V1 (Hash Crypto)
set_option autoImplicit false

/-! ## The source -/

abbrev Color := Hash

/-- `Color::SEED`. -/
def Color.seed : Color := 0

/-- `DST_WL`. -/
def dstWl : String := "cc.filter.wl.v0"

/-- Only what is new to the scope goes to the next frontier. -/
def discover (found : EntitySet × EntitySet) (edge : Edge) : EntitySet × EntitySet :=
  if found.1.contains edge.other then found
  else (found.1.insert edge.other, found.2.insert edge.other)

/-- A round of `ball`. -/
def widen (v : CorpusView) (asOf : Tick) (scope frontier : EntitySet) :
    Except ViewError (EntitySet × EntitySet) :=
  frontier.toList.foldlM (fun found e => do
    let edges ← v.neighbors e asOf
    return edges.foldl discover found) (scope, ∅)

/-- The loop of `ball`. -/
def grow (v : CorpusView) (asOf : Tick) : Nat → EntitySet → EntitySet → Except ViewError EntitySet
  | 0, scope, _ => .ok scope
  | rounds + 1, scope, frontier => do
    let (scope, next) ← widen v asOf scope frontier
    if next.isEmpty then return scope
    grow v asOf rounds scope next

def ball (v : CorpusView) (seeds : List EntityId) (asOf : Tick) (radius : BitVec 8) :
    Except ViewError EntitySet :=
  let scope := (∅ : EntitySet).insertMany seeds
  grow v asOf radius.toNat scope scope

/-- The hash of a round; the colours are sorted. -/
def Color.mix (cr : Crypto) (own : Color) (neighborColors : List Color) : Color :=
  let sorted := neighborColors.mergeSort fun a b => a.toNat ≤ b.toNat
  let colors := (own :: sorted).map fun c => beBytes 32 c.toNat
  cr.sha256 ((dstWl.toUTF8.toList :: colors).flatMap frame)

/-- The new colour of one entity of the scope. -/
def recolour (cr : Crypto) (v : CorpusView) (asOf : Tick) (colors next : EntityMap Color)
    (e : EntityId) : Except ViewError (EntityMap Color) := do
  let edges ← v.neighbors e asOf
  let neighborColors := edges.filterMap fun edge => colors[edge.other]?
  return next.insert e (.mix cr (colors.getD e .seed) neighborColors)

/-- The loop of `refine`. -/
def refineRounds (cr : Crypto) (v : CorpusView) (scope : EntitySet) (asOf : Tick) :
    Nat → EntityMap Color → Except ViewError (EntityMap Color)
  | 0, colors => .ok colors
  | rounds + 1, colors => do
    let next ← scope.toList.foldlM (recolour cr v asOf colors) ∅
    refineRounds cr v scope asOf rounds next

/-- `rounds` is a `WlRounds`. -/
def refine (cr : Crypto) (v : CorpusView) (scope : EntitySet) (asOf : Tick) (rounds : BitVec 8) :
    Except ViewError (EntityMap Color) :=
  refineRounds cr v scope asOf rounds.toNat
    (scope.toList.foldl (fun colors e => colors.insert e .seed) ∅)

/-! ## The graph -/

/-- The neighbours of an entity, once for each edge. -/
def CorpusView.others (v : CorpusView) (asOf : Tick) (e : EntityId) : List EntityId :=
  ((v.neighbors e asOf).toOption.getD []).map Edge.other

/-- The colour in the whole graph. -/
def CorpusView.colour (cr : Crypto) (v : CorpusView) (asOf : Tick) (rounds : Nat) (e : EntityId) :
    Color :=
  Colouring.colour (.mix cr) .seed (v.others asOf) rounds e

/-- `π` takes the neighbours of every entity to those of its image, in whatever order. -/
def Isomorphic (v : CorpusView) (asOf : Tick) (v' : CorpusView) (asOf' : Tick)
    (π : EntityId ≃ EntityId) : Prop :=
  ∀ e, (v'.others asOf' (π e)).Perm ((v.others asOf e).map π)

theorem mix_perm {cr : Crypto} {own : Color} {colors colors' : List Color}
    (h : colors.Perm colors') : Color.mix cr own colors = Color.mix cr own colors' := by
  have hsorted (colors : List Color) : (colors.mergeSort fun a b => a.toNat ≤ b.toNat).Pairwise
      fun a b => a.toNat ≤ b.toNat := by
    have hpairwise : (colors.mergeSort fun a b => a.toNat ≤ b.toNat).Pairwise
        fun a b => decide (a.toNat ≤ b.toNat) := by
      refine List.pairwise_mergeSort (fun a b c hab hbc => ?_) (fun a b => ?_) colors
      · simp only [decide_eq_true_eq] at hab hbc ⊢
        exact hab.trans hbc
      · simpa using le_total a.toNat b.toNat
    exact hpairwise.imp of_decide_eq_true
  have heq : (colors.mergeSort fun a b => a.toNat ≤ b.toNat) =
      colors'.mergeSort fun a b => a.toNat ≤ b.toNat := by
    refine List.Perm.eq_of_pairwise (fun a b _ _ hab hba => ?_) (hsorted colors)
      (hsorted colors') ?_
    · exact BitVec.eq_of_toNat_eq (le_antisymm hab hba)
    · exact (List.mergeSort_perm _ _).trans (h.trans (List.mergeSort_perm _ _).symm)
  unfold Color.mix
  rw [heq]

section
variable {cr : Crypto} {v : CorpusView} {asOf : Tick} {scope frontier : EntitySet}

theorem others_eq {e : EntityId} {edges : List Edge} (h : v.neighbors e asOf = .ok edges) :
    v.others asOf e = edges.map Edge.other := by
  rw [CorpusView.others, h]
  rfl

/-! ## The ball -/

theorem discover_fst {found : EntitySet × EntitySet} {edge : Edge} {x : EntityId} :
    x ∈ (discover found edge).1 ↔ x ∈ found.1 ∨ x = edge.other := by
  unfold discover
  split
  · next hold =>
    refine ⟨.inl, ?_⟩
    rintro (hx | rfl)
    · exact hx
    · exact Std.ExtTreeSet.contains_iff_mem.1 hold
  · rw [Maps.mem_insert, or_comm]

/-- What is new to the scope is in the frontier. -/
theorem discover_new {found : EntitySet × EntitySet} {edge : Edge}
    (h : ∀ x, x ∈ found.1 → x ∈ scope ∨ x ∈ found.2) (x : EntityId)
    (hx : x ∈ (discover found edge).1) : x ∈ scope ∨ x ∈ (discover found edge).2 := by
  unfold discover at hx ⊢
  split
  · next hold =>
    rw [if_pos hold] at hx
    exact h x hx
  · next hnew =>
    rw [if_neg hnew] at hx
    rw [Maps.mem_insert]
    rcases Maps.mem_insert.1 hx with rfl | hx
    · exact .inr (.inl rfl)
    · exact (h x hx).imp_right .inr

/-- After a round. -/
structure Widened (v : CorpusView) (asOf : Tick) (scope : EntitySet) (read : List EntityId)
    (found : EntitySet × EntitySet) : Prop where
  old : ∀ x, x ∈ scope → x ∈ found.1
  new : ∀ x, x ∈ found.1 → x ∈ scope ∨ x ∈ found.2
  read : ∀ e ∈ read, ∀ b ∈ v.others asOf e, b ∈ found.1

theorem Widened.edges {read : List EntityId} {found : EntitySet × EntitySet}
    (h : Widened v asOf scope read found) {e : EntityId} {edges : List Edge}
    (hedges : v.neighbors e asOf = .ok edges) :
    Widened v asOf scope (read ++ [e]) (edges.foldl discover found) := by
  have hfold : ∀ (edges : List Edge) (found : EntitySet × EntitySet),
      (∀ x, x ∈ scope → x ∈ found.1) → (∀ x, x ∈ found.1 → x ∈ scope ∨ x ∈ found.2) →
      let found' := edges.foldl discover found
      (∀ x, x ∈ scope → x ∈ found'.1) ∧ (∀ x, x ∈ found'.1 → x ∈ scope ∨ x ∈ found'.2) ∧
        (∀ x, x ∈ found.1 → x ∈ found'.1) ∧ ∀ edge ∈ edges, edge.other ∈ found'.1 := by
    intro edges
    induction edges with
    | nil => exact fun found hold hnew => ⟨hold, hnew, fun x hx => hx, List.forall_mem_nil _⟩
    | cons edge edges ih =>
      intro found hold hnew
      obtain ⟨hold', hnew', hmono, hall⟩ := ih (discover found edge)
        (fun x hx => discover_fst.2 (.inl (hold x hx))) (discover_new hnew)
      refine ⟨hold', hnew', fun x hx => hmono x (discover_fst.2 (.inl hx)), ?_⟩
      exact List.forall_mem_cons.2 ⟨hmono _ (discover_fst.2 (.inr rfl)), hall⟩
  obtain ⟨hold, hnew, hmono, hall⟩ := hfold edges found h.old h.new
  refine ⟨hold, hnew, fun d hd b hb => ?_⟩
  rcases List.mem_append.1 hd with hd | hd
  · exact hmono b (h.read d hd b hb)
  · obtain rfl := List.mem_singleton.1 hd
    rw [others_eq hedges] at hb
    obtain ⟨edge, hedge, rfl⟩ := List.mem_map.1 hb
    exact hall edge hedge

theorem widen_ok {found : EntitySet × EntitySet} (h : widen v asOf scope frontier = .ok found) :
    Widened v asOf scope frontier.toList found := by
  refine foldlM_inv (Widened v asOf scope) h ⟨fun x hx => hx, fun x hx => .inl hx, ?_⟩ ?_
  · exact List.forall_mem_nil _
  · intro read e found found' _ hread hstep
    obtain ⟨edges, hedges, hfound⟩ := bind_ok.1 hstep
    obtain rfl := Except.ok.inj hfound
    exact hread.edges hedges

/-- From a scope that holds the neighbours of all but its frontier, so many rounds reach as many
steps from all of it. -/
theorem grow_deep {rounds : Nat} {out : EntitySet}
    (hbehind : ∀ x, x ∈ scope → x ∉ frontier → ∀ b ∈ v.others asOf x, b ∈ scope)
    (h : grow v asOf rounds scope frontier = .ok out) {x : EntityId} (hx : x ∈ scope) :
    Colouring.Deep (v.others asOf) (fun e => out.contains e) rounds x := by
  induction rounds generalizing scope frontier x with
  | zero =>
    obtain rfl := Except.ok.inj h
    exact Std.ExtTreeSet.contains_iff_mem.2 hx
  | succ rounds ih =>
    obtain ⟨⟨wide, next⟩, hwiden, hrest⟩ := bind_ok.1 h
    obtain ⟨hold, hnew, hread⟩ := widen_ok hwiden
    dsimp only at hold hnew hread
    have hstep : ∀ x, x ∈ scope → ∀ b ∈ v.others asOf x, b ∈ wide := by
      intro x hx b hb
      by_cases hfrontier : x ∈ frontier
      · exact hread x (Std.ExtTreeSet.mem_toList.2 hfrontier) b hb
      · exact hold b (hbehind x hx hfrontier b hb)
    dsimp only at hrest
    split at hrest
    · next hempty =>
      -- Nothing new was found, and the scope is closed.
      obtain rfl := Except.ok.inj hrest
      have hsame : ∀ x, x ∈ wide → x ∈ scope := by
        intro x hx
        refine (hnew x hx).resolve_right fun hmem => ?_
        rw [Maps.isEmpty_eq_false.2 ⟨x, hmem⟩] at hempty
        nomatch hempty
      refine .of_closed (fun a ha b hb => ?_) (Std.ExtTreeSet.contains_iff_mem.2 (hold x hx))
      rw [Std.ExtTreeSet.contains_iff_mem] at ha ⊢
      exact hstep a (hsame a ha) b hb
    · have hdeep : ∀ b, b ∈ wide →
          Colouring.Deep (v.others asOf) (fun e => out.contains e) rounds b := fun b hb =>
        ih (fun a ha hnext => hstep a ((hnew a ha).resolve_right hnext)) hrest hb
      exact ⟨(hdeep x (hold x hx)).self, fun b hb => hdeep b (hstep x hx b hb)⟩

theorem ball_deep {seeds : List EntityId} {radius : BitVec 8}
    (h : ball v seeds asOf radius = .ok scope) {e : EntityId} (he : e ∈ seeds) :
    Colouring.Deep (v.others asOf) (fun e => scope.contains e) radius.toNat e := by
  refine grow_deep (fun x hx hnot => absurd hx hnot) h ?_
  rw [Maps.mem_insertMany]
  exact .inr he

/-! ## The colours -/

/-- The map holds these colours for the entities of the scope. -/
structure Holds (colors : EntityMap Color) (entities : List EntityId) (f : EntityId → Color) :
    Prop where
  listed : ∀ e ∈ entities, colors[e]? = some (f e)
  unlisted : ∀ e, e ∉ entities → colors[e]? = none

theorem holds_empty (f : EntityId → Color) : Holds ∅ [] f where
  listed _ he := nomatch he
  unlisted _ _ := Std.ExtTreeMap.getElem?_empty

theorem Holds.insert {colors : EntityMap Color} {entities : List EntityId} {f : EntityId → Color}
    (h : Holds colors entities f) (e : EntityId) :
    Holds (colors.insert e (f e)) (entities ++ [e]) f where
  listed x hx := by
    rw [Maps.getElem?_insert]
    by_cases heq : e = x
    · rw [if_pos heq, heq]
    · rw [if_neg heq]
      rw [List.mem_append, List.mem_singleton, or_iff_left (Ne.symm heq)] at hx
      exact h.listed x hx
  unlisted x hx := by
    rw [List.mem_append, List.mem_singleton, not_or] at hx
    rw [Maps.getElem?_insert, if_neg (Ne.symm hx.2)]
    exact h.unlisted x hx.1

theorem holds_seed (entities : List EntityId) :
    Holds (entities.foldl (fun colors e => colors.insert e .seed) ∅) entities fun _ => .seed := by
  induction entities using List.reverseRecOn with
  | nil => exact holds_empty _
  | append_singleton entities e ih =>
    rw [List.foldl_append]
    exact ih.insert e

/-- The neighbours that a refinement over `scope` sees. -/
def CorpusView.within (v : CorpusView) (asOf : Tick) (scope : EntitySet) :
    EntityId → List EntityId :=
  Colouring.induced (v.others asOf) fun e => scope.contains e

theorem recolour_eq {colors next : EntityMap Color} {f : EntityId → Color} {e : EntityId}
    {edges : List Edge} (hcolors : Holds colors scope.toList f) (he : e ∈ scope.toList)
    (hedges : v.neighbors e asOf = .ok edges) : recolour cr v asOf colors next e =
      .ok (next.insert e (.mix cr (f e) ((v.within asOf scope e).map f))) := by
  have hown : colors.getD e .seed = f e := by
    rw [Std.ExtTreeMap.getD_eq_getD_getElem?, hcolors.listed e he, Option.getD_some]
  have hcontains (x : EntityId) : x ∈ scope.toList ↔ scope.contains x = true := by
    rw [Std.ExtTreeSet.mem_toList, Std.ExtTreeSet.contains_iff_mem]
  have hseen : (edges.filterMap fun edge => colors[edge.other]?) =
      (v.within asOf scope e).map f := by
    rw [CorpusView.within, Colouring.induced, others_eq hedges]
    clear hedges
    let look (edge : Edge) : Option Color := colors[edge.other]?
    change edges.filterMap look = _
    induction edges with
    | nil => rfl
    | cons edge edges ih =>
      rw [List.map_cons, List.filter_cons]
      by_cases hin : scope.contains edge.other = true
      · have hedge : look edge = some (f edge.other) := hcolors.listed _ ((hcontains _).2 hin)
        rw [List.filterMap_cons_some hedge, ih, if_pos hin, List.map_cons]
      · have hedge : look edge = none := hcolors.unlisted _ (mt (hcontains _).1 hin)
        rw [List.filterMap_cons_none hedge, ih, if_neg hin]
  unfold recolour
  rw [hedges, ← hseen, ← hown]
  rfl

theorem refineRounds_ok {rounds done : Nat} {colors out : EntityMap Color}
    (hcolors : Holds colors scope.toList
      (Colouring.colour (.mix cr) .seed (v.within asOf scope) done))
    (h : refineRounds cr v scope asOf rounds colors = .ok out) :
    Holds out scope.toList
      (Colouring.colour (.mix cr) .seed (v.within asOf scope) (done + rounds)) := by
  induction rounds generalizing done colors with
  | zero =>
    obtain rfl := Except.ok.inj h
    exact hcolors
  | succ rounds ih =>
    obtain ⟨next, hnext, hrest⟩ := bind_ok.1 h
    have hround : Holds next scope.toList
        (Colouring.colour (.mix cr) .seed (v.within asOf scope) (done + 1)) := by
      refine foldlM_inv (fun entities next => Holds next entities
        (Colouring.colour (.mix cr) .seed (v.within asOf scope) (done + 1))) hnext ?_ ?_
      · exact holds_empty _
      · intro entities e next next' he hholds hstep
        obtain ⟨edges, hedges, -⟩ := bind_ok.1 hstep
        rw [recolour_eq hcolors he hedges] at hstep
        rw [← Except.ok.inj hstep]
        exact hholds.insert e
    have hrun := ih hround hrest
    rw [Nat.add_assoc, Nat.add_comm 1] at hrun
    exact hrun

/-- Where no walk of as many steps as rounds leaves the scope. -/
theorem refine_deep {rounds : BitVec 8} {colors : EntityMap Color}
    (h : refine cr v scope asOf rounds = .ok colors) {e : EntityId}
    (hdeep : Colouring.Deep (v.others asOf) (fun e => scope.contains e) rounds.toNat e) :
    colors[e]? = some (v.colour cr asOf rounds.toNat e) := by
  have hholds := @refineRounds_ok cr v asOf scope _ 0 _ _ (holds_seed scope.toList) h
  have hmem : e ∈ scope.toList :=
    Std.ExtTreeSet.mem_toList.2 (Std.ExtTreeSet.contains_iff_mem.1 hdeep.self)
  have hcolour := hholds.listed e hmem
  rw [Nat.zero_add, CorpusView.within, hdeep.colour_eq] at hcolour
  exact hcolour

/-! ## Views that answer -/

theorem grow_total (hreads : ∀ e, ∃ edges, v.neighbors e asOf = .ok edges) (rounds : Nat) :
    ∃ out, grow v asOf rounds scope frontier = .ok out := by
  induction rounds generalizing scope frontier with
  | zero => exact ⟨scope, rfl⟩
  | succ rounds ih =>
    obtain ⟨⟨wide, next⟩, hwiden⟩ : ∃ found, widen v asOf scope frontier = .ok found := by
      refine foldlM_total (fun found e _ => ?_) (scope, ∅)
      obtain ⟨edges, hedges⟩ := hreads e
      exact ⟨_, by rw [hedges]; rfl⟩
    obtain ⟨out, hout⟩ := @ih wide next
    by_cases hempty : next.isEmpty = true
    · exact ⟨wide, bind_ok.2 ⟨_, hwiden, if_pos hempty⟩⟩
    · exact ⟨out, bind_ok.2 ⟨_, hwiden, (if_neg hempty).trans hout⟩⟩

theorem refineRounds_total (hreads : ∀ e, ∃ edges, v.neighbors e asOf = .ok edges) (rounds : Nat)
    (colors : EntityMap Color) : ∃ out, refineRounds cr v scope asOf rounds colors = .ok out := by
  induction rounds generalizing colors with
  | zero => exact ⟨colors, rfl⟩
  | succ rounds ih =>
    have hstep : ∀ next, ∀ e ∈ scope.toList, ∃ out, recolour cr v asOf colors next e = .ok out := by
      intro next e _
      obtain ⟨edges, hedges⟩ := hreads e
      exact ⟨_, by rw [recolour, hedges]; rfl⟩
    obtain ⟨next, hnext⟩ := foldlM_total hstep ∅
    obtain ⟨out, hout⟩ := ih next
    exact ⟨out, bind_ok.2 ⟨next, hnext, hout⟩⟩

end

theorem colour_isomorphic {cr : Crypto} {v v' : CorpusView} {asOf asOf' : Tick}
    {π : EntityId ≃ EntityId} (h : Isomorphic v asOf v' asOf' π) (rounds : Nat) (e : EntityId) :
    v'.colour cr asOf' rounds (π e) = v.colour cr asOf rounds e :=
  Colouring.colour_map (fun _ _ _ => mix_perm) h

/-- The colour of a seed in its ball is the one it has in the whole graph, and in every isomorphic
graph. -/
theorem colours_exact (cr : Crypto) (v : CorpusView) (asOf : Tick) {seeds : List EntityId}
    {radius rounds : BitVec 8} (hle : rounds.toNat ≤ radius.toNat) {e : EntityId} (he : e ∈ seeds) :
    ((∀ a, ∃ edges, v.neighbors a asOf = .ok edges) → ∃ scope colors,
      ball v seeds asOf radius = .ok scope ∧ refine cr v scope asOf rounds = .ok colors) ∧
    ∀ scope colors, ball v seeds asOf radius = .ok scope →
      refine cr v scope asOf rounds = .ok colors →
      colors[e]? = some (v.colour cr asOf rounds.toNat e) ∧
      (∀ all full, e ∈ all → (∀ a, a ∈ all → ∀ b ∈ v.others asOf a, b ∈ all) →
        refine cr v all asOf rounds = .ok full → full[e]? = colors[e]?) ∧
      ∀ (v' : CorpusView) (asOf' : Tick) (π : EntityId ≃ EntityId) (seeds' : List EntityId)
        (radius' : BitVec 8) (scope' : EntitySet) (colors' : EntityMap Color),
        Isomorphic v asOf v' asOf' π → rounds.toNat ≤ radius'.toNat → π e ∈ seeds' →
        ball v' seeds' asOf' radius' = .ok scope' →
        refine cr v' scope' asOf' rounds = .ok colors' → colors'[π e]? = colors[e]? := by
  refine ⟨fun hreads => ?_, fun scope colors hball hrefine => ?_⟩
  · obtain ⟨scope, hball⟩ := grow_total hreads radius.toNat
    obtain ⟨colors, hrefine⟩ := refineRounds_total hreads rounds.toNat _
    exact ⟨scope, colors, hball, hrefine⟩
  have hlocal := refine_deep hrefine ((ball_deep hball he).of_le hle)
  refine ⟨hlocal, fun all full hmem hclosed hfull => ?_, ?_⟩
  · rw [hlocal]
    refine refine_deep hfull (.of_closed (fun a ha b hb => ?_) ?_)
    · rw [Std.ExtTreeSet.contains_iff_mem] at ha ⊢
      exact hclosed a ha b hb
    · exact Std.ExtTreeSet.contains_iff_mem.2 hmem
  · intro v' asOf' π seeds' radius' scope' colors' hiso hle' he' hball' hrefine'
    have hlocal' := refine_deep hrefine' ((ball_deep hball' he').of_le hle')
    rw [hlocal', hlocal, colour_isomorphic hiso]

namespace Colours

/-- The path from 0 over 1 to 2. -/
def path : CorpusView where
  neighbors e _ := .ok <|
    if e = 0 then [⟨1, 0⟩] else if e = 1 then [⟨0, 0⟩, ⟨2, 1⟩] else if e = 2 then [⟨1, 1⟩] else []
  neighborsMany _ _ := .ok ∅
  window _ _ := .ok .unrecorded
  admissibility _ _ := .ok .unrecorded
  corpusDigest := 0

def crypto : Crypto := ⟨fun bs => BitVec.ofNat 256 (beNat bs), fun _ => true⟩

end Colours

open Colours

/-- One round in the ball of radius 1 around the end of the path. -/
theorem colours_exact_path : ∃ scope colors, ball path [0] 0 1 = .ok scope ∧
    refine crypto path scope 0 1 = .ok colors ∧ colors[(0 : EntityId)]? =
      some (path.colour crypto 0 1 0) := by
  obtain ⟨htotal, hexact⟩ := @colours_exact crypto path 0 [0] 1 1 le_rfl 0 List.mem_cons_self
  obtain ⟨scope, colors, hball, hrefine⟩ := htotal fun a => ⟨_, rfl⟩
  exact ⟨scope, colors, hball, hrefine, (hexact scope colors hball hrefine).1⟩

end Clockchain.V0
