import Mathlib.Data.List.Count
import Mathlib.Data.List.Nodup
import Mathlib.Data.List.Perm.Subperm
import Mathlib.Logic.Function.Basic
import Mathlib.Order.WellFounded

/-!
# Layers of an acyclic graph

A node is as deep as its longest chain of links. The depths are found by taking the nodes whose
links all lead to nodes already taken, one after the other, and a node's place in its layer is how
many were placed there before it.
-/

namespace Layers
set_option autoImplicit false

universe u
variable {α : Type u}

/-- A chain of `n` links. -/
inductive Chain (links : List (α × α)) : Nat → α → Prop where
  | here (a : α) : Chain links 0 a
  | link {n : Nat} {a b : α} : (a, b) ∈ links → Chain links n b → Chain links (n + 1) a

/-- The length of the longest chain. -/
structure Deepest (links : List (α × α)) (d : Nat) (a : α) : Prop where
  chain : Chain links d a
  longest : ∀ n, Chain links n a → n ≤ d

section
variable {links links' : List (α × α)} {d e : Nat} {a b : α}

theorem Deepest.unique (h : Deepest links d a) (h' : Deepest links e a) : d = e :=
  Nat.le_antisymm (h'.longest d h.chain) (h.longest e h'.chain)

theorem Chain.mono (hsub : ∀ l ∈ links, l ∈ links') (h : Chain links d a) : Chain links' d a := by
  induction h with
  | here a => exact .here a
  | link hlink _ ih => exact .link (hsub _ hlink) ih

theorem Deepest.congr (hsame : ∀ l, l ∈ links ↔ l ∈ links') (h : Deepest links d a) :
    Deepest links' d a :=
  ⟨h.chain.mono fun l => (hsame l).1, fun n hn => h.longest n (hn.mono fun l => (hsame l).2)⟩

/-- A link leads to a smaller depth. -/
theorem Deepest.lt (h : Deepest links d a) (h' : Deepest links e b) (hlink : (a, b) ∈ links) :
    e < d :=
  h.longest (e + 1) (.link hlink h'.chain)

end

/-! ## Taking the nodes one by one -/

section
variable [DecidableEq α]

/-- Where the links of `a` lead. -/
def out (links : List (α × α)) (a : α) : List α :=
  (links.filter fun l => l.1 = a).map Prod.snd

/-- Where the links to `a` come from. -/
def into (links : List (α × α)) (a : α) : List α :=
  (links.filter fun l => l.2 = a).map Prod.fst

/-- `ready` has its top first; `pending` counts the links that lead to nodes not yet taken. -/
structure State (α : Type u) where
  ready : List α
  pending : α → Int
  depth : List (α × Nat)

/-- One more than the deepest of `ps`, if it is more than `d`; `none` if one has no depth. -/
def above (depth : List (α × Nat)) : List α → Nat → Option Nat
  | [], d => some d
  | p :: ps, d =>
    match depth.lookup p with
    | none => none
    | some e => above depth ps (max d (e + 1))

def release (s : List α × (α → Int)) (child : α) : List α × (α → Int) :=
  let pending := Function.update s.2 child (s.2 child - 1)
  (if pending child = 0 then child :: s.1 else s.1, pending)

/-- Takes `a`, the top. -/
def take (links : List (α × α)) (s : State α) (a : α) (rest : List α) : Option (State α) :=
  (above s.depth (out links a) 0).map fun d =>
    let released := (into links a).foldl release (rest, s.pending)
    ⟨released.1, released.2, (a, d) :: s.depth.filter fun p => p.1 ≠ a⟩

/-- `none` is a run that has not ended after `fuel` steps. -/
def run (links : List (α × α)) : Nat → State α → Option (State α)
  | 0, _ => none
  | fuel + 1, s =>
    match s.ready with
    | [] => some s
    | a :: rest => (take links s a rest).bind (run links fuel)

def start (nodes : List α) (links : List (α × α)) : State α where
  ready := (nodes.filter fun a => (out links a).length = 0).reverse
  pending a := (out links a).length
  depth := []

variable {links : List (α × α)} {nodes : List α} {s : State α} {a b : α}

theorem mem_out : b ∈ out links a ↔ (a, b) ∈ links := by
  simp only [out, List.mem_map, List.mem_filter, decide_eq_true_eq]
  constructor
  · rintro ⟨⟨x, y⟩, ⟨hl, rfl⟩, rfl⟩
    exact hl
  · exact fun hl => ⟨(a, b), ⟨hl, rfl⟩, rfl⟩

theorem mem_into : b ∈ into links a ↔ (b, a) ∈ links := by
  simp only [into, List.mem_map, List.mem_filter, decide_eq_true_eq]
  constructor
  · rintro ⟨⟨x, y⟩, ⟨hl, rfl⟩, rfl⟩
    exact hl
  · exact fun hl => ⟨(b, a), ⟨hl, rfl⟩, rfl⟩

theorem count_out : (out links a).count b = links.count (a, b) := by
  induction links with
  | nil => rfl
  | cons l links ih =>
    obtain ⟨x, y⟩ := l
    have hcons : out ((x, y) :: links) a = if x = a then y :: out links a else out links a := by
      by_cases hx : x = a <;> simp [out, hx]
    rw [hcons, List.count_cons, ← ih]
    by_cases hx : x = a
    · simp [hx, List.count_cons]
    · simp [hx]

theorem count_into : (into links b).count a = links.count (a, b) := by
  induction links with
  | nil => rfl
  | cons l links ih =>
    obtain ⟨x, y⟩ := l
    have hcons : into ((x, y) :: links) b = if y = b then x :: into links b else into links b := by
      by_cases hy : y = b <;> simp [into, hy]
    rw [hcons, List.count_cons, ← ih]
    by_cases hy : y = b
    · simp [hy, List.count_cons]
    · simp [hy]

/-- Every node's count goes down by its links, and those that come to zero are ready. -/
theorem release_spec {children : List α} {s : List α × (α → Int)}
    (hcount : ∀ a ∈ children, (children.count a : Int) ≤ s.2 a) :
    let t := children.foldl release s
    (∀ a, t.2 a = s.2 a - children.count a) ∧
    (∀ a, a ∈ t.1 ↔ a ∈ s.1 ∨ a ∈ children ∧ s.2 a = children.count a) ∧
    (s.1.Nodup → (∀ a ∈ s.1, a ∉ children) → t.1.Nodup) := by
  induction children generalizing s with
  | nil => simp
  | cons c children ih =>
    have hc := hcount c List.mem_cons_self
    rw [List.count_cons_self] at hc
    have hother : ∀ a, a ≠ c → (c :: children).count a = children.count a := fun a ha =>
      List.count_cons_of_ne (Ne.symm ha)
    have hpending : ∀ a, (release s c).2 a = if a = c then s.2 c - 1 else s.2 a := fun a =>
      Function.update_apply s.2 c (s.2 c - 1) a
    have hready : ∀ a, a ∈ (release s c).1 ↔ a ∈ s.1 ∨ a = c ∧ s.2 c = 1 := by
      intro a
      have hzero : (release s c).2 c = 0 ↔ s.2 c = 1 := by
        rw [hpending, if_pos rfl]
        omega
      change a ∈ (if (release s c).2 c = 0 then c :: s.1 else s.1) ↔ _
      by_cases hone : s.2 c = 1
      · rw [if_pos (hzero.2 hone), List.mem_cons, and_iff_left hone, or_comm]
      · rw [if_neg (mt hzero.1 hone), or_iff_left fun h => hone h.2]
    have hcount' : ∀ a ∈ children, (children.count a : Int) ≤ (release s c).2 a := by
      intro a ha
      rw [hpending]
      split
      · next heq =>
        subst heq
        omega
      · next hne =>
        have hle := hcount a (List.mem_cons_of_mem c ha)
        rwa [hother a hne] at hle
    obtain ⟨hout, hmem, hnodup⟩ := ih hcount'
    have hpos : c ∈ children ↔ 0 < children.count c := List.count_pos_iff.symm
    refine ⟨fun a => ?_, fun a => ?_, fun hs hapart => hnodup ?_ ?_⟩
    · rw [List.foldl_cons, hout, hpending]
      split
      · next heq =>
        rw [heq, List.count_cons_self]
        omega
      · next hne => rw [hother a hne]
    · rw [List.foldl_cons, hmem, hready, hpending]
      by_cases heq : a = c
      · subst heq
        rw [if_pos rfl, List.count_cons_self, hpos]
        constructor
        · rintro ((ha | ⟨-, hone⟩) | ⟨-, hlast⟩)
          · exact .inl ha
          · exact .inr ⟨List.mem_cons_self, by omega⟩
          · exact .inr ⟨List.mem_cons_self, by omega⟩
        · rintro (ha | ⟨-, hlast⟩)
          · exact .inl (.inl ha)
          · by_cases hzero : children.count a = 0
            · exact .inl (.inr ⟨rfl, by omega⟩)
            · exact .inr ⟨by omega, by omega⟩
      · rw [if_neg heq, hother a heq, List.mem_cons, or_iff_right heq]
        refine or_congr_left ⟨fun h => h.resolve_right fun h => heq h.1, .inl⟩
    · change (if (release s c).2 c = 0 then c :: s.1 else s.1).Nodup
      split
      · exact List.nodup_cons.2 ⟨fun hmem => hapart c hmem List.mem_cons_self, hs⟩
      · exact hs
    · intro a ha
      rcases (hready a).1 ha with ha | ⟨rfl, hone⟩
      · exact fun hin => hapart a ha (List.mem_cons_of_mem c hin)
      · rw [hpos]
        omega

theorem above_spec {depth : List (α × Nat)} {ps : List α}
    (hps : ∀ p ∈ ps, ∃ e, depth.lookup p = some e) (m : Nat) :
    ∃ d, above depth ps m = some d ∧ m ≤ d ∧ (∀ p ∈ ps, ∀ e, depth.lookup p = some e → e + 1 ≤ d) ∧
      (d = m ∨ ∃ p ∈ ps, ∃ e, depth.lookup p = some e ∧ d = e + 1) := by
  induction ps generalizing m with
  | nil => exact ⟨m, rfl, le_rfl, List.forall_mem_nil _, .inl rfl⟩
  | cons p ps ih =>
    obtain ⟨e, he⟩ := hps p List.mem_cons_self
    obtain ⟨d, hd, hle, hall, hsome⟩ :=
      ih (fun q hq => hps q (List.mem_cons_of_mem p hq)) (max m (e + 1))
    refine ⟨d, by rw [above, he]; exact hd, by omega, ?_, ?_⟩
    · intro q hq e' he'
      rcases List.mem_cons.1 hq with rfl | hq
      · obtain rfl := Option.some.inj (he.symm.trans he')
        omega
      · exact hall q hq e' he'
    · rcases hsome with rfl | ⟨q, hq, e', he', rfl⟩
      · by_cases hmax : m < e + 1
        · exact .inr ⟨p, List.mem_cons_self, e, he, by omega⟩
        · exact .inl (by omega)
      · exact .inr ⟨q, List.mem_cons_of_mem p hq, e', he', rfl⟩

/-- The nodes taken. -/
def State.taken (s : State α) : List α := s.depth.map Prod.fst

structure Inv (nodes : List α) (links : List (α × α)) (s : State α) : Prop where
  nodup : s.taken.Nodup
  deepest : ∀ p ∈ s.depth, p.1 ∈ nodes ∧ Deepest links p.2 p.1
  closed : ∀ a ∈ s.taken, ∀ b, (a, b) ∈ links → b ∈ s.taken
  pending : ∀ a ∈ nodes, s.pending a = (out links a).countP fun b => b ∉ s.taken
  ready_nodup : s.ready.Nodup
  ready : ∀ a, a ∈ s.ready ↔ a ∈ nodes ∧ a ∉ s.taken ∧ ∀ b, (a, b) ∈ links → b ∈ s.taken

theorem mem_of_lookup {depth : List (α × Nat)} {d : Nat} (h : depth.lookup a = some d) :
    (a, d) ∈ depth := by
  induction depth with
  | nil => nomatch h
  | cons p depth ih =>
    obtain ⟨x, e⟩ := p
    rw [List.lookup_cons] at h
    split at h
    · next heq =>
      obtain rfl := Option.some.inj h
      rw [beq_iff_eq.1 heq]
      exact List.mem_cons_self
    · exact List.mem_cons_of_mem _ (ih h)

theorem lookup_of_mem {depth : List (α × Nat)} (h : a ∈ depth.map Prod.fst) :
    ∃ d, depth.lookup a = some d := by
  induction depth with
  | nil => nomatch h
  | cons p depth ih =>
    obtain ⟨x, e⟩ := p
    rw [List.lookup_cons]
    split
    · exact ⟨e, rfl⟩
    · next hne =>
      rcases List.mem_cons.1 h with rfl | h
      · simp at hne
      · exact ih h

theorem start_inv (links : List (α × α)) (hnodes : nodes.Nodup) :
    Inv nodes links (start nodes links) where
  nodup := .nil
  deepest := List.forall_mem_nil _
  closed := List.forall_mem_nil _
  pending a _ := by
    have hall : (out links a).countP (fun b => decide (b ∉ (start nodes links).taken)) =
        (out links a).length :=
      List.countP_eq_length.2 fun b _ => decide_eq_true List.not_mem_nil
    rw [hall]
    rfl
  ready_nodup := List.nodup_reverse.2 (hnodes.filter _)
  ready a := by
    have hnil : (out links a).length = 0 ↔ ∀ b, (a, b) ∉ links := by
      rw [List.length_eq_zero_iff, List.eq_nil_iff_forall_not_mem]
      exact forall_congr' fun b => not_congr mem_out
    simp only [start, State.taken, List.map_nil, List.mem_reverse, List.mem_filter,
      decide_eq_true_eq, List.not_mem_nil, not_false_eq_true, true_and, hnil]

/-- A ready node is as deep as the walk over its links finds. -/
theorem Inv.above (inv : Inv nodes links s) (ha : a ∈ s.ready) :
    ∃ d, above s.depth (out links a) 0 = some d ∧ Deepest links d a := by
  obtain ⟨-, -, hclosed⟩ := (inv.ready a).1 ha
  have htaken : ∀ b ∈ out links a, ∃ e, s.depth.lookup b = some e := fun b hb =>
    lookup_of_mem (hclosed b (mem_out.1 hb))
  have hdeep : ∀ {b e}, s.depth.lookup b = some e → Deepest links e b := fun h =>
    (inv.deepest _ (mem_of_lookup h)).2
  obtain ⟨d, hd, -, hall, hsome⟩ := above_spec htaken 0
  refine ⟨d, hd, ?_, fun n hn => ?_⟩
  · rcases hsome with rfl | ⟨b, hb, e, he, rfl⟩
    · exact .here a
    · exact .link (mem_out.1 hb) (hdeep he).chain
  · cases hn with
    | here => exact Nat.zero_le d
    | @link n _ b hlink hb =>
      obtain ⟨e, he⟩ := htaken b (mem_out.2 hlink)
      have hle := hall b (mem_out.2 hlink) e he
      have hlongest := (hdeep he).longest n hb
      omega

/-- Of the links of `x` to nodes not taken, those to `a` are no more once it is. -/
theorem countP_take {x : α} (ha : a ∉ s.taken) :
    (out links x).countP (fun b => b ∉ s.taken) =
      (out links x).countP (fun b => b ∉ a :: s.taken) + links.count (x, a) := by
  rw [← count_out]
  induction out links x with
  | nil => rfl
  | cons b bs ih =>
    rw [List.countP_cons, List.countP_cons, List.count_cons, ih]
    by_cases heq : b = a
    · subst heq
      simp [ha]
      omega
    · by_cases hb : b ∈ s.taken
      · simp [heq, hb]
      · simp [heq, hb]
        omega

theorem take_inv (hends : ∀ l ∈ links, l.1 ∈ nodes ∧ l.2 ∈ nodes) (inv : Inv nodes links s)
    {rest : List α} (hready : s.ready = a :: rest) :
    ∃ t, take links s a rest = some t ∧ t.depth.length = s.depth.length + 1 ∧
      Inv nodes links t := by
  have htop : a ∈ s.ready := by
    rw [hready]
    exact List.mem_cons_self
  obtain ⟨hnode, hnew, hclosed⟩ := (inv.ready a).1 htop
  obtain ⟨d, hd, hdeepest⟩ := inv.above htop
  have hloop : (a, a) ∉ links := fun h => hnew (hclosed a h)
  have hapart := List.nodup_cons.1 (hready ▸ inv.ready_nodup)
  have hrest : ∀ x, x ∈ rest ↔ x ∈ s.ready ∧ x ≠ a := by
    intro x
    rw [hready, List.mem_cons]
    constructor
    · exact fun hx => ⟨.inr hx, fun heq => hapart.1 (heq ▸ hx)⟩
    · exact fun ⟨hx, hne⟩ => hx.resolve_left hne
  have hkeep : s.depth.filter (fun p => p.1 ≠ a) = s.depth := by
    refine List.filter_eq_self.2 fun p hp => decide_eq_true fun heq => hnew ?_
    exact List.mem_map.2 ⟨p, hp, heq⟩
  have hpending : ∀ x ∈ nodes, s.pending x =
      (out links x).countP (fun b => b ∉ a :: s.taken) + links.count (x, a) := by
    intro x hx
    rw [inv.pending x hx, countP_take hnew]
    push_cast
    rfl
  have hcount : ∀ x ∈ into links a, ((into links a).count x : Int) ≤ s.pending x := by
    intro x hx
    rw [hpending x (hends _ (mem_into.1 hx)).1, count_into]
    omega
  obtain ⟨hcounts, hmem, hnodup⟩ := @release_spec _ _ (into links a) (rest, s.pending) hcount
  dsimp only at hcounts hmem hnodup
  have htake : take links s a rest =
      some ⟨((into links a).foldl release (rest, s.pending)).1,
        ((into links a).foldl release (rest, s.pending)).2, (a, d) :: s.depth⟩ := by
    rw [take, hd, hkeep]
    rfl
  refine ⟨_, htake, List.length_cons, ?_⟩
  have hzero : ∀ {x}, (out links x).countP (fun b => b ∉ a :: s.taken) = 0 ↔
      ∀ b, (x, b) ∈ links → b ∈ a :: s.taken := by
    intro x
    rw [List.countP_eq_zero]
    simp only [mem_out, decide_eq_true_eq, not_not]
  constructor
  · exact List.nodup_cons.2 ⟨hnew, inv.nodup⟩
  · exact List.forall_mem_cons.2 ⟨⟨hnode, hdeepest⟩, inv.deepest⟩
  · intro x hx b hlink
    rcases List.mem_cons.1 hx with rfl | hx
    · exact List.mem_cons_of_mem _ (hclosed b hlink)
    · exact List.mem_cons_of_mem _ (inv.closed x hx b hlink)
  · intro x hx
    have hleft := hcounts x
    rw [hpending x hx, count_into, Int.add_sub_cancel] at hleft
    exact hleft
  · exact hnodup hapart.2 fun x hx hin =>
      hnew (((inv.ready x).1 ((hrest x).1 hx).1).2.2 a (mem_into.1 hin))
  · intro x
    change x ∈ _ ↔ x ∈ nodes ∧ x ∉ a :: s.taken ∧ ∀ b, (x, b) ∈ links → b ∈ a :: s.taken
    rw [hmem, ← hzero, List.mem_cons, not_or]
    constructor
    · rintro (hx | ⟨hx, hlast⟩)
      · obtain ⟨hx, hne⟩ := (hrest x).1 hx
        obtain ⟨hxnode, hxnew, hxclosed⟩ := (inv.ready x).1 hx
        exact ⟨hxnode, ⟨hne, hxnew⟩, hzero.2 fun b hb => List.mem_cons_of_mem _ (hxclosed b hb)⟩
      · have hlink := mem_into.1 hx
        have hxnode := (hends _ hlink).1
        rw [hpending x hxnode, count_into] at hlast
        refine ⟨hxnode, ⟨?_, fun hxtaken => hnew (inv.closed x hxtaken a hlink)⟩, by omega⟩
        rintro rfl
        exact hloop hlink
    · rintro ⟨hxnode, ⟨hne, hxnew⟩, hnone⟩
      by_cases hlink : (x, a) ∈ links
      · refine .inr ⟨mem_into.2 hlink, ?_⟩
        rw [hpending x hxnode, count_into, hnone]
        exact Int.zero_add _
      · refine .inl ((hrest x).2 ⟨(inv.ready x).2 ⟨hxnode, hxnew, fun b hb => ?_⟩, hne⟩)
        rcases List.mem_cons.1 (hzero.1 hnone b hb) with rfl | hb
        · exact absurd hb hlink
        · exact hb

theorem Inv.length_le (inv : Inv nodes links s) : s.depth.length ≤ nodes.length := by
  have hsub : s.taken ⊆ nodes := by
    intro x hx
    obtain ⟨p, hp, rfl⟩ := List.mem_map.1 hx
    exact (inv.deepest p hp).1
  have hle := (inv.nodup.subperm hsub).length_le
  rwa [State.taken, List.length_map] at hle

theorem run_inv (hends : ∀ l ∈ links, l.1 ∈ nodes ∧ l.2 ∈ nodes) {fuel : Nat}
    (inv : Inv nodes links s) (hfuel : nodes.length < fuel + s.depth.length) :
    ∃ t, run links fuel s = some t ∧ Inv nodes links t ∧ t.ready = [] := by
  induction fuel generalizing s with
  | zero =>
    have hle := inv.length_le
    omega
  | succ fuel ih =>
    rw [run]
    cases hready : s.ready with
    | nil => exact ⟨s, rfl, inv, hready⟩
    | cons a rest =>
      obtain ⟨t, ht, hlength, hinv⟩ := take_inv hends inv hready
      dsimp only
      rw [ht]
      exact ih hinv (by omega)

/-- Without a cycle every node is taken, at its depth. -/
theorem run_spec (hnodes : nodes.Nodup) (hends : ∀ l ∈ links, l.1 ∈ nodes ∧ l.2 ∈ nodes)
    (hacyclic : WellFounded fun b a => (a, b) ∈ links) :
    ∃ t, run links (nodes.length + 1) (start nodes links) = some t ∧
      t.depth.length = nodes.length ∧
      ∀ a ∈ nodes, ∃ d, t.depth.lookup a = some d ∧ Deepest links d a := by
  obtain ⟨t, ht, inv, hready⟩ := run_inv hends (start_inv links hnodes) (Nat.lt_succ_self _)
  have hall : ∀ a, a ∈ nodes → a ∈ t.taken := by
    intro a
    induction a using hacyclic.induction with
    | h a ih =>
      intro ha
      by_contra hnew
      have hin := (inv.ready a).2 ⟨ha, hnew, fun b hb => ih b hb (hends _ hb).2⟩
      rw [hready] at hin
      exact List.not_mem_nil hin
  refine ⟨t, ht, ?_, fun a ha => ?_⟩
  · have hle := (hnodes.subperm hall).length_le
    rw [State.taken, List.length_map] at hle
    exact Nat.le_antisymm inv.length_le hle
  · obtain ⟨d, hd⟩ := lookup_of_mem (hall a ha)
    exact ⟨d, hd, (inv.deepest _ (mem_of_lookup hd)).2⟩

end

/-! ## Places in a layer -/

/-- Every item gets the next place of its column. -/
def place (column : α → Nat) : (Nat → Nat) → List α → List (α × Nat)
  | _, [] => []
  | lanes, a :: rest =>
    (a, lanes (column a)) ::
      place column (Function.update lanes (column a) (lanes (column a) + 1)) rest

section
variable {column : α → Nat} {items : List α} {lanes : Nat → Nat}

theorem place_fst : (place column lanes items).map Prod.fst = items := by
  induction items generalizing lanes with
  | nil => rfl
  | cons a items ih => rw [place, List.map_cons, ih]

theorem place_congr {column' : α → Nat} (h : ∀ a ∈ items, column a = column' a) :
    place column lanes items = place column' lanes items := by
  induction items generalizing lanes with
  | nil => rfl
  | cons a items ih =>
    rw [place, place, h a List.mem_cons_self, ih fun b hb => h b (List.mem_cons_of_mem a hb)]

theorem lanes_le : ∀ p ∈ place column lanes items, lanes (column p.1) ≤ p.2 := by
  induction items generalizing lanes with
  | nil => exact List.forall_mem_nil _
  | cons a items ih =>
    refine List.forall_mem_cons.2 ⟨le_rfl, fun p hp => ?_⟩
    have hle := ih p hp
    rw [Function.update_apply] at hle
    split at hle
    · next heq =>
      rw [heq]
      omega
    · exact hle

/-- No two items have one column and one place. -/
theorem place_pairwise : (place column lanes items).Pairwise fun p q =>
    (column p.1, p.2) ≠ (column q.1, q.2) := by
  induction items generalizing lanes with
  | nil => exact .nil
  | cons a items ih =>
    refine .cons (fun q hq heq => ?_) ih
    obtain ⟨hcolumn, hplace⟩ := Prod.mk.inj heq
    have hle := lanes_le q hq
    rw [← hcolumn, Function.update_self] at hle
    dsimp only at hplace hle
    omega

end

end Layers
