import Clockchain.Recursion
import Clockchain.V0.Folded

/-!
# Held moments

`WALK` of `ops/held-moments.py`: the recursive query that climbs from every moment event along
`supersedes`, at most 1024 times, and the state it files the event under. `chain_root` climbs the
same links and gives up one link earlier.
-/

namespace Clockchain.Operator.Held
open V0 Lineages
open V1 (Hash)
set_option autoImplicit false

/-! ## The query -/

/-- A row of `m`. -/
structure MomentRef where
  eventId : Hash
  supersedes : Option Hash
  deriving Repr, DecidableEq

/-- A row of `up`. -/
structure UpRow where
  startId : Hash
  cur : Hash
  parent : Option Hash
  depth : Nat
  deriving Repr, DecidableEq

inductive State where
  | exceedsBound | rooted | illFormed | held
  deriving Repr, DecidableEq

/-- `m`: the events of kind 2. -/
def moments (events : Events) : List MomentRef :=
  (events.toList.filter fun row => row.2.kind = .moment).map fun row => ⟨row.1, row.2.supersedes⟩

/-- The first term of `up`. -/
def start (p : MomentRef) : UpRow := ⟨p.eventId, p.eventId, p.supersedes, 0⟩

/-- The recursive term of `up`. -/
def ascend (m : List MomentRef) (u : UpRow) : List UpRow :=
  if u.depth < 1024 then
    (m.filter fun p => u.parent = some p.eventId).map fun p =>
      ⟨u.startId, p.eventId, p.supersedes, u.depth + 1⟩
  else []

/-- `up`; 1026 rounds are more than it takes. -/
def climbs (events : Events) : Option (List UpRow) :=
  Recursion.rows (ascend (moments events)) 1026 ((moments events).map start)

/-- `ORDER BY start_id, depth DESC`. -/
def rowOrder (a b : UpRow) : Bool :=
  a.startId < b.startId ∨ a.startId = b.startId ∧ b.depth ≤ a.depth

/-- `term`. -/
def term (rows : List UpRow) : List UpRow :=
  Recursion.distinctOn UpRow.startId (rows.mergeSort rowOrder)

/-- The `CASE` of `cls`. -/
def stateOf (events : Events) (t : UpRow) : State :=
  if 1024 ≤ t.depth ∧ ∃ p ∈ moments events, t.parent = some p.eventId then .exceedsBound
  else match t.parent with
    | none => .rooted
    | some p => if p ∈ events then .illFormed else .held

/-- `cls`. -/
def cls (events : Events) : Option (List (UpRow × State)) :=
  (climbs events).map fun rows => (term rows).map fun t => (t, stateOf events t)

/-! ## The rows of the query -/

variable {events : Events}

theorem mem_moments {p : MomentRef} : p ∈ moments events ↔
    ∃ row, events[p.eventId]? = some row ∧ row.kind = .moment ∧ p.supersedes = row.supersedes := by
  simp only [moments, List.mem_map, List.mem_filter, decide_eq_true_eq,
    Std.ExtTreeMap.mem_toList_iff_getElem?_eq_some, Prod.exists]
  constructor
  · rintro ⟨id, row, ⟨hrow, hkind⟩, rfl⟩
    exact ⟨row, hrow, hkind, rfl⟩
  · rintro ⟨row, hrow, hkind, hsup⟩
    exact ⟨p.eventId, row, ⟨hrow, hkind⟩, by rw [← hsup]⟩

/-- A row of round `n`: so many links lead from the first event to the current one. -/
structure Climbed (events : Events) (n : Nat) (u : UpRow) : Prop where
  depth : u.depth = n
  moment : ∃ row, events[u.startId]? = some row ∧ row.kind = .moment
  cur : ∃ row, events[u.cur]? = some row ∧ row.kind = .moment ∧ u.parent = row.supersedes
  links : Ascends (up events) n u.startId u.cur

namespace Climbed
variable {n : Nat} {u u' : UpRow}

theorem up_above (h : Climbed events n u) {p : Hash} :
    up events u.cur = .above p ↔ ∃ r ∈ moments events, r.eventId = p ∧ u.parent = some p := by
  obtain ⟨row, hrow, hkind, hparent⟩ := h.cur
  rw [hparent]
  constructor
  · intro habove
    simp only [up, hrow, hkind, ne_eq, not_true, if_false] at habove
    split at habove
    · cases habove
    · next q hsup =>
      split at habove
      · cases habove
      · next parent hq =>
        split at habove
        · cases habove
        · next hpkind =>
          obtain rfl := Link.above.inj habove
          have hmem := mem_moments (p := ⟨q, parent.supersedes⟩).2
            ⟨parent, hq, not_not.1 hpkind, rfl⟩
          exact ⟨_, hmem, rfl, hsup⟩
  · rintro ⟨r, hr, rfl, hsup⟩
    obtain ⟨parent, hr, hpkind, -⟩ := mem_moments.1 hr
    exact V0.up_above hrow hkind hsup hr hpkind

/-- The row is known by where it starts and how deep it is. -/
theorem unique (h : Climbed events n u) (h' : Climbed events n u')
    (hstart : u.startId = u'.startId) : u = u' := by
  have hlinks := h.links
  rw [hstart] at hlinks
  have hcur := hlinks.unique h'.links
  obtain ⟨row, hrow, -, hparent⟩ := h.cur
  obtain ⟨row', hrow', -, hparent'⟩ := h'.cur
  rw [hcur, hrow'] at hrow
  obtain rfl := Option.some.inj hrow
  have hdepth := h.depth.trans h'.depth.symm
  cases u
  cases u'
  exact UpRow.mk.injEq .. |>.mpr ⟨hstart, hcur, hparent.trans hparent'.symm, hdepth⟩

end Climbed

theorem up_above_moment {x p : Hash} (h : up events x = .above p) :
    ∃ row, events[p]? = some row ∧ row.kind = .moment := by
  have hheld : up events x ≠ .held := by
    rw [h]
    exact nofun
  obtain ⟨row, hrow, hkind⟩ := up_of_not_held hheld
  have hx : Climbed events 0 ⟨x, x, row.supersedes, 0⟩ :=
    ⟨rfl, ⟨row, hrow, hkind⟩, ⟨row, hrow, hkind, rfl⟩, .here x⟩
  obtain ⟨r, hr, rfl, -⟩ := hx.up_above.1 h
  obtain ⟨parent, hparent, hpkind, -⟩ := mem_moments.1 hr
  exact ⟨parent, hparent, hpkind⟩

theorem mem_round {n : Nat} {u : UpRow} :
    u ∈ Recursion.round (ascend (moments events)) n ((moments events).map start) ↔
      n ≤ 1024 ∧ Climbed events n u := by
  induction n generalizing u with
  | zero =>
    rw [Recursion.round, List.mem_map]
    constructor
    · rintro ⟨p, hp, rfl⟩
      obtain ⟨row, hrow, hkind, hsup⟩ := mem_moments.1 hp
      exact ⟨Nat.zero_le _, rfl, ⟨row, hrow, hkind⟩, ⟨row, hrow, hkind, hsup⟩, .here _⟩
    · rintro ⟨-, hdepth, -, ⟨row, hrow, hkind, hsup⟩, hlinks⟩
      refine ⟨⟨u.cur, u.parent⟩, mem_moments.2 ⟨row, hrow, hkind, hsup⟩, ?_⟩
      obtain ⟨s, c, p, d⟩ := u
      cases hlinks
      obtain rfl : d = 0 := hdepth
      rfl
  | succ n ih =>
    rw [Recursion.mem_round_succ]
    constructor
    · rintro ⟨b, hb, hu⟩
      obtain ⟨-, hclimbed⟩ := ih.1 hb
      unfold ascend at hu
      split at hu
      · next hlt =>
        obtain ⟨p, hp, rfl⟩ := List.mem_map.1 hu
        obtain ⟨hp, hparent⟩ := List.mem_filter.1 hp
        have habove := hclimbed.up_above.2 ⟨p, hp, rfl, of_decide_eq_true hparent⟩
        obtain ⟨row, hrow, hkind, hsup⟩ := mem_moments.1 hp
        rw [hclimbed.depth] at hlt ⊢
        exact ⟨hlt, rfl, hclimbed.moment, ⟨row, hrow, hkind, hsup⟩, hclimbed.links.snoc habove⟩
      · exact absurd hu List.not_mem_nil
    · rintro ⟨hle, hclimbed⟩
      obtain ⟨y, hlinks, habove⟩ := hclimbed.links.last
      have hy : up events y ≠ .held := by
        rw [habove]
        exact nofun
      obtain ⟨row, hrow, hkind⟩ := up_of_not_held hy
      have hprev : Climbed events n ⟨u.startId, y, row.supersedes, n⟩ :=
        ⟨rfl, hclimbed.moment, ⟨row, hrow, hkind, rfl⟩, hlinks⟩
      refine ⟨_, ih.2 ⟨by omega, hprev⟩, ?_⟩
      obtain ⟨p, hp, hid, hparent⟩ := hprev.up_above.1 habove
      obtain ⟨row', hrow', -, hsup⟩ := hclimbed.cur
      obtain ⟨row'', hrow'', -, hsup'⟩ := mem_moments.1 hp
      rw [hid, hrow'] at hrow''
      obtain rfl := Option.some.inj hrow''
      rw [ascend, if_pos (show n < 1024 by omega)]
      refine List.mem_map.2 ⟨p, List.mem_filter.2 ⟨hp, ?_⟩, ?_⟩
      · rw [hid]
        exact decide_eq_true hparent
      · have hdepth := hclimbed.depth
        obtain ⟨s, c, q, d⟩ := u
        dsimp only at hdepth hid hsup
        rw [hid, hsup', ← hsup, hdepth]

theorem climbs_spec (events : Events) : ∃ rows, climbs events = some rows ∧
    ∀ u, u ∈ rows ↔ ∃ n ≤ 1024, Climbed events n u := by
  have hdry : Recursion.round (ascend (moments events)) 1025 ((moments events).map start) = [] := by
    refine List.eq_nil_iff_forall_not_mem.2 fun u hu => ?_
    exact absurd (mem_round.1 hu).1 (by decide)
  obtain ⟨rows, hrows, hmem⟩ := Recursion.rows_spec hdry
  refine ⟨rows, hrows, fun u => ?_⟩
  rw [hmem]
  exact exists_congr fun n => mem_round

/-! ## The deepest row -/

theorem rowOrder_iff {a b : UpRow} : rowOrder a b = true ↔
    a.startId < b.startId ∨ a.startId = b.startId ∧ b.depth ≤ a.depth := decide_eq_true_iff

theorem rowOrder_trans (a b c : UpRow) (hab : rowOrder a b = true) (hbc : rowOrder b c = true) :
    rowOrder a c = true := by
  rw [rowOrder_iff] at *
  rcases hab with hab | ⟨hab, hdepth⟩
  · rcases hbc with hbc | ⟨hbc, -⟩
    · exact .inl (BitVec.lt_trans hab hbc)
    · exact .inl (hbc ▸ hab)
  · rw [hab]
    exact hbc.imp_right fun ⟨hbc, hle⟩ => ⟨hbc, hle.trans hdepth⟩

theorem rowOrder_total (a b : UpRow) : (rowOrder a b || rowOrder b a) = true := by
  rw [Bool.or_eq_true, rowOrder_iff, rowOrder_iff]
  rcases Nat.lt_trichotomy a.startId.toNat b.startId.toNat with hlt | heq | hlt
  · exact .inl (.inl hlt)
  · rcases Nat.le_total b.depth a.depth with hle | hle
    · exact .inl (.inr ⟨BitVec.eq_of_toNat_eq heq, hle⟩)
    · exact .inr (.inr ⟨BitVec.eq_of_toNat_eq heq.symm, hle⟩)
  · exact .inr (.inl hlt)

theorem mem_term {rows : List UpRow} (hrows : ∀ u ∈ rows, ∃ n, Climbed events n u) {t : UpRow} :
    t ∈ term rows ↔ t ∈ rows ∧ ∀ u ∈ rows, u.startId = t.startId → u.depth ≤ t.depth := by
  have hsorted : (rows.mergeSort rowOrder).Pairwise fun a b =>
      a.startId = b.startId → b.depth ≤ a.depth := by
    refine (List.pairwise_mergeSort rowOrder_trans rowOrder_total rows).imp fun h heq => ?_
    rcases rowOrder_iff.1 h with hlt | ⟨-, hle⟩
    · exact absurd (heq ▸ hlt) (BitVec.lt_irrefl _)
    · exact hle
  rw [term, Recursion.mem_distinctOn hsorted ?_]
  · simp only [List.mem_mergeSort]
  · intro a ha b hb hkey hdepth
    obtain ⟨n, hclimbed⟩ := hrows a (List.mem_mergeSort.1 ha)
    obtain ⟨m, hclimbed'⟩ := hrows b (List.mem_mergeSort.1 hb)
    rw [hclimbed.depth, hclimbed'.depth] at hdepth
    exact hclimbed.unique (hdepth ▸ hclimbed') hkey

/-- A path that is no longer than the bound and cannot be made longer under it. -/
theorem exists_longest (events : Events) (id : Hash) : ∃ n ≤ V0.maxChain, ∃ y,
    Ascends (up events) n id y ∧ ∀ m ≤ V0.maxChain, ∀ z, Ascends (up events) m id z → m ≤ n := by
  classical
  let P (n : Nat) : Prop := ∃ y, Ascends (up events) n id y
  obtain ⟨y, hy⟩ : P (Nat.findGreatest P V0.maxChain) :=
    Nat.findGreatest_spec (Nat.zero_le V0.maxChain) ⟨id, .here id⟩
  exact ⟨_, Nat.findGreatest_le V0.maxChain, y, hy, fun m hm z hz =>
    Nat.le_findGreatest hm ⟨z, hz⟩⟩

/-! ## The state of a row -/

namespace Climbed
variable {n : Nat} {u : UpRow}

theorem up_eq (h : Climbed events n u) : up events u.cur = match u.parent with
    | none => .top
    | some p =>
      match events[p]? with
      | none => .held
      | some parent => if parent.kind ≠ .moment then .top else .above p := by
  obtain ⟨row, hrow, hkind, hparent⟩ := h.cur
  cases hsup : row.supersedes with
  | none => simp only [up, hrow, hkind, hparent, hsup, ne_eq, not_true, if_false]
  | some p =>
    cases hp : events[p]? with
    | none => simp only [up, hrow, hkind, hparent, hsup, hp, ne_eq, not_true, if_false]
    | some parent => simp only [up, hrow, hkind, hparent, hsup, hp, ne_eq, not_true, if_false]

/-- The first arm of the `CASE` is a row at the bound that could go on. -/
theorem exceeds_iff (h : Climbed events n u) : stateOf events u = .exceedsBound ↔
    1024 ≤ n ∧ ∃ p, up events u.cur = .above p := by
  have hmoment : (∃ p ∈ moments events, u.parent = some p.eventId) ↔
      ∃ p, up events u.cur = .above p := by
    simp only [h.up_above]
    constructor
    · rintro ⟨r, hr, hparent⟩
      exact ⟨r.eventId, r, hr, rfl, hparent⟩
    · rintro ⟨p, r, hr, rfl, hparent⟩
      exact ⟨r, hr, hparent⟩
  unfold stateOf
  split
  · next hbound =>
    rw [h.depth, hmoment] at hbound
    exact iff_of_true rfl hbound
  · next hbound =>
    rw [h.depth, hmoment] at hbound
    refine iff_of_false (fun heq => ?_) hbound
    split at heq
    · nomatch heq
    · split at heq <;> nomatch heq

theorem held_iff (h : Climbed events n u) : stateOf events u = .held ↔ up events u.cur = .held := by
  by_cases hexceeds : stateOf events u = .exceedsBound
  · obtain ⟨-, p, habove⟩ := h.exceeds_iff.1 hexceeds
    rw [hexceeds, habove]
    exact iff_of_false nofun nofun
  · rw [h.up_eq]
    unfold stateOf at hexceeds ⊢
    split
    · next hbound => exact absurd (if_pos hbound) hexceeds
    · cases u.parent with
      | none => exact iff_of_false nofun nofun
      | some p =>
        dsimp only
        cases hp : events[p]? with
        | none =>
          refine iff_of_true (if_neg fun hmem => ?_) rfl
          obtain ⟨parent, hparent⟩ := Maps.mem_iff.1 hmem
          exact nomatch hp.symm.trans hparent
        | some parent =>
          rw [if_pos (Maps.mem_of_getElem? hp)]
          refine iff_of_false nofun ?_
          dsimp only
          split <;> exact nofun

end Climbed

/-! ## Agreement -/

/-- The row of an event and what `chain_root` says of it. -/
structure Agree (events : Events) (id : Hash) (row : EventRow) (p : UpRow × State) : Prop where
  held : p.2 = .held ↔ chainRoot events V0.maxChain id row.supersedes = .ok none
  rooted : ∀ r, (p.2 = .rooted ∨ p.2 = .illFormed) ∧ p.1.cur = r ↔
    chainRoot events V0.maxChain id row.supersedes = .ok (some r)
  exceeds : p.2 = .exceedsBound ↔
    chainRoot events V0.maxChain id row.supersedes = .error chainTooLong

/-- The bound is reached at the very end of a chain. -/
def EndsAtBound (events : Events) (id : Hash) : Prop :=
  ∃ last, Ascends (up events) V0.maxChain id last ∧ ∀ parent, up events last ≠ .above parent

theorem Agree.of_error {id : Hash} {row : EventRow} {p : UpRow × State}
    (hroot : chainRoot events V0.maxChain id row.supersedes = .error chainTooLong) :
    Agree events id row p ↔ p.2 = .exceedsBound := by
  refine ⟨fun h => h.exceeds.2 hroot, fun hstate => ⟨?_, fun r => ?_, ?_⟩⟩
  · exact iff_of_false (hstate ▸ nofun) (hroot ▸ nofun)
  · exact iff_of_false (hstate ▸ nofun) (hroot ▸ nofun)
  · exact iff_of_true hstate hroot

section
variable {row : EventRow} {n : Nat} {u : UpRow}

theorem chainRoot_error {id : Hash} (hrow : events[id]? = some row) (hkind : row.kind = .moment) :
    chainRoot events V0.maxChain id row.supersedes = .error chainTooLong ↔
      ∃ y, Ascends (up events) V0.maxChain id y := by
  rw [chainRoot_eq hrow hkind, ← climb_eq_none]
  cases climb (up events) V0.maxChain id with
  | none => exact iff_of_true rfl rfl
  | some root => exact iff_of_false nofun nofun

/-- Under the bound both walks come to the same event. -/
theorem Climbed.agree (h : Climbed events n u) (hrow : events[u.startId]? = some row)
    (hkind : row.kind = .moment) (hn : n < V0.maxChain)
    (hlast : ∀ p, up events u.cur ≠ .above p) :
    Agree events u.startId row (u, stateOf events u) := by
  obtain ⟨k, hk⟩ : ∃ k, V0.maxChain = k + 1 + n := ⟨V0.maxChain - n - 1, by omega⟩
  have hclimb := h.links.climb (k + 1)
  rw [← hk] at hclimb
  have hexceeds : stateOf events u ≠ .exceedsBound := by
    intro heq
    obtain ⟨p, habove⟩ := (h.exceeds_iff.1 heq).2
    exact hlast p habove
  have hheld := h.held_iff
  cases hup : up events u.cur with
  | above p => exact absurd hup (hlast p)
  | held =>
    have hroot : chainRoot events V0.maxChain u.startId row.supersedes = .ok none := by
      simp only [chainRoot_eq hrow hkind, hclimb, climb, hup]
    have hstate := hheld.2 hup
    refine ⟨iff_of_true hstate hroot, fun r => iff_of_false (fun hr => ?_) (fun hr => ?_),
      iff_of_false hexceeds fun hno => ?_⟩
    · rw [hstate] at hr
      obtain ⟨heq | heq, -⟩ := hr
      · cases heq
      · cases heq
    · rw [hroot] at hr
      cases hr
    · rw [hroot] at hno
      cases hno
  | top =>
    have hroot : chainRoot events V0.maxChain u.startId row.supersedes = .ok (some u.cur) := by
      simp only [chainRoot_eq hrow hkind, hclimb, climb, hup]
    have hne : stateOf events u ≠ .held := by
      intro heq
      rw [hheld.1 heq] at hup
      cases hup
    refine ⟨iff_of_false hne fun hno => ?_, fun r => ?_, iff_of_false hexceeds fun hno => ?_⟩
    · rw [hroot] at hno
      cases hno
    · have hstate : stateOf events u = .rooted ∨ stateOf events u = .illFormed := by
        cases hs : stateOf events u with
        | rooted => exact .inl rfl
        | illFormed => exact .inr rfl
        | held => exact absurd hs hne
        | exceedsBound => exact absurd hs hexceeds
      rw [hroot, Except.ok.injEq, Option.some.injEq, and_iff_right hstate]
    · rw [hroot] at hno
      cases hno

/-- At the bound the walks agree while there is one more link to climb. -/
theorem Climbed.agree_iff (h : Climbed events n u) (hrow : events[u.startId]? = some row)
    (hkind : row.kind = .moment) (hn : n ≤ V0.maxChain)
    (hlongest : ∀ m ≤ V0.maxChain, ∀ z, Ascends (up events) m u.startId z → m ≤ n) :
    Agree events u.startId row (u, stateOf events u) ↔ ¬ EndsAtBound events u.startId := by
  by_cases hbound : n = V0.maxChain
  · subst hbound
    rw [Agree.of_error ((chainRoot_error hrow hkind).2 ⟨_, h.links⟩), h.exceeds_iff,
      and_iff_right (show 1024 ≤ V0.maxChain from le_rfl)]
    constructor
    · rintro ⟨p, habove⟩ ⟨last, hlinks, hlast⟩
      rw [hlinks.unique h.links] at hlast
      exact hlast p habove
    · intro hno
      by_contra hlast
      exact hno ⟨u.cur, h.links, fun p habove => hlast ⟨p, habove⟩⟩
  · have hlt : n < V0.maxChain := by omega
    have hno : ¬ EndsAtBound events u.startId := fun ⟨last, hlinks, _⟩ => by
      have hle := hlongest V0.maxChain le_rfl last hlinks
      omega
    refine iff_of_true (h.agree hrow hkind hlt fun p habove => ?_) hno
    have hle := hlongest (n + 1) hlt p (h.links.snoc habove)
    omega

end

/-- Every moment event has one row. -/
theorem cls_spec {id : Hash} {row : EventRow} (hrow : events[id]? = some row)
    (hkind : row.kind = .moment) : ∃ classes, cls events = some classes ∧
      (classes.map fun p => p.1.startId).Nodup ∧ ∃ n ≤ V0.maxChain, ∃ u,
        (u, stateOf events u) ∈ classes ∧ u.startId = id ∧ Climbed events n u ∧
        ∀ m ≤ V0.maxChain, ∀ z, Ascends (up events) m id z → m ≤ n := by
  obtain ⟨rows, hrows, hmem⟩ := climbs_spec events
  obtain ⟨n, hn, y, hlinks, hlongest⟩ := exists_longest events id
  have hclimbed : ∀ u ∈ rows, ∃ n, Climbed events n u := fun u hu =>
    let ⟨n, _, hclimbed⟩ := (hmem u).1 hu
    ⟨n, hclimbed⟩
  refine ⟨_, by rw [cls, hrows]; rfl, ?_, n, hn, ?_⟩
  · rw [List.map_map]
    exact List.pairwise_map.2 (Recursion.distinctOn_pairwise _ _)
  have hcur : ∃ r, events[y]? = some r ∧ r.kind = .moment := by
    cases n with
    | zero =>
      cases hlinks
      exact ⟨row, hrow, hkind⟩
    | succ n =>
      obtain ⟨x, -, habove⟩ := hlinks.last
      exact up_above_moment habove
  obtain ⟨r, hr, hrkind⟩ := hcur
  have hu : Climbed events n ⟨id, y, r.supersedes, n⟩ :=
    ⟨rfl, ⟨row, hrow, hkind⟩, ⟨r, hr, hrkind, rfl⟩, hlinks⟩
  refine ⟨_, List.mem_map.2 ⟨_, (mem_term hclimbed).2 ⟨(hmem _).2 ⟨n, hn, hu⟩, ?_⟩, rfl⟩, rfl, hu,
    hlongest⟩
  intro v hv (hstart : v.startId = id)
  obtain ⟨m, hm, hv⟩ := (hmem v).1 hv
  have hle := hlongest m hm v.cur (hstart ▸ hv.links)
  rw [hv.depth]
  exact hle

/-- Every moment event has one row, and it says what `chain_root` says unless the event's chain
ends at the bound. -/
theorem walks_agree_iff {id : Hash} {row : EventRow} (hrow : events[id]? = some row)
    (hkind : row.kind = .moment) : ∃ classes, cls events = some classes ∧
      (classes.map fun p => p.1.startId).Nodup ∧ ∃ p ∈ classes, p.1.startId = id ∧
        (Agree events id row p ↔ ¬ EndsAtBound events id) := by
  obtain ⟨classes, hclasses, hnodup, n, hn, u, hu, rfl, hclimbed, hlongest⟩ := cls_spec hrow hkind
  exact ⟨classes, hclasses, hnodup, _, hu, rfl, hclimbed.agree_iff hrow hkind hn hlongest⟩

/-! ## A chain of any length -/

namespace Sample

/-- A moment that corrects the one before it. -/
def correction (id : Hash) : EventRow where
  kind := .moment
  authorKey := 0
  signature := []
  eventTime := 0
  recordTime := 0
  payload := []
  supersedes := if id = 0 then none else some (id - 1)

/-- `n` links, from the event `n` to the event `0`. -/
def chain : Nat → Events
  | 0 => (∅ : Events).insert 0 (correction 0)
  | n + 1 => (chain n).insert (BitVec.ofNat 256 (n + 1)) (correction (BitVec.ofNat 256 (n + 1)))

theorem chain_get {n : Nat} {id : Hash} (hn : n < 2 ^ 256) :
    (chain n)[id]? = if id.toNat ≤ n then some (correction id) else none := by
  have hid {k : Nat} (hk : k < 2 ^ 256) : BitVec.ofNat 256 k = id ↔ k = id.toNat := by
    rw [← BitVec.toNat_inj, BitVec.toNat_ofNat, Nat.mod_eq_of_lt hk]
  induction n with
  | zero =>
    rw [chain, Maps.getElem?_insert, Std.ExtTreeMap.getElem?_empty]
    have hzero := hid hn
    split
    · next heq =>
      rw [if_pos (hzero.1 heq).ge, heq]
    · next hne =>
      rw [if_neg fun hle => hne (hzero.2 (by omega))]
  | succ n ih =>
    rw [chain, Maps.getElem?_insert, ih (by omega)]
    have hsucc := hid hn
    split
    · next heq =>
      rw [if_pos (hsucc.1 heq).ge, heq]
    · next hne =>
      have hne : n + 1 ≠ id.toNat := fun heq => hne (hsucc.2 heq)
      simp only [show id.toNat ≤ n + 1 ↔ id.toNat ≤ n by omega]

/-- No moment of the chain comes before the one it corrects. -/
theorem chain_acyclic {n : Nat} (hn : n < 2 ^ 256) {id p : Hash} {row : EventRow}
    (hrow : (chain n)[id]? = some row) (hsup : row.supersedes = some p) :
    p.toNat < id.toNat := by
  rw [chain_get hn] at hrow
  split at hrow
  · obtain rfl := Option.some.inj hrow
    unfold correction at hsup
    split at hsup
    · nomatch hsup
    · next hne =>
      obtain rfl := Option.some.inj hsup
      bv_omega
  · nomatch hrow

theorem up_chain {n k : Nat} (hn : n < 2 ^ 256) (hk : k + 1 ≤ n) :
    up (chain n) (BitVec.ofNat 256 (k + 1)) = .above (BitVec.ofNat 256 k) := by
  have hsucc : (BitVec.ofNat 256 (k + 1)).toNat = k + 1 := Nat.mod_eq_of_lt (by omega)
  have hpred : (BitVec.ofNat 256 k).toNat = k := Nat.mod_eq_of_lt (by omega)
  refine @up_above _ _ _ (correction (BitVec.ofNat 256 (k + 1)))
    (correction (BitVec.ofNat 256 k)) ?_ rfl ?_ ?_ rfl
  · rw [chain_get hn, if_pos (by omega)]
  · unfold correction
    dsimp only
    rw [if_neg]
    · congr 1
      apply BitVec.eq_of_toNat_eq
      bv_omega
    · intro hzero
      rw [hzero] at hsucc
      exact absurd hsucc (Nat.succ_ne_zero k).symm
  · rw [chain_get hn, if_pos (by omega)]

theorem ascends_chain {n k : Nat} (hn : n < 2 ^ 256) (hk : k ≤ n) :
    Ascends (up (chain n)) k (BitVec.ofNat 256 k) 0 := by
  induction k with
  | zero => exact .here 0
  | succ k ih => exact .above (up_chain hn hk) (ih (by omega))

theorem chain_last {n : Nat} (hn : n < 2 ^ 256) :
    (chain n)[BitVec.ofNat 256 n]? = some (correction (BitVec.ofNat 256 n)) := by
  have hlast : (BitVec.ofNat 256 n).toNat = n := Nat.mod_eq_of_lt hn
  rw [chain_get hn, if_pos hlast.le]

theorem maxChain_lt : V0.maxChain < 2 ^ 256 := by decide

/-- 1024 links that end in a root: the query files the last moment under its root, and
`chain_root` gives up. -/
theorem root_at_bound :
    (∀ (id p : Hash) (row : EventRow), (chain V0.maxChain)[id]? = some row →
      row.supersedes = some p → p.toNat < id.toNat) ∧
    (∃ classes u, cls (chain V0.maxChain) = some classes ∧ (u, .rooted) ∈ classes ∧
      u.startId = BitVec.ofNat 256 V0.maxChain ∧ u.cur = 0) ∧
    chainRoot (chain V0.maxChain) V0.maxChain (BitVec.ofNat 256 V0.maxChain)
      (correction (BitVec.ofNat 256 V0.maxChain)).supersedes = .error chainTooLong := by
  have hlinks := ascends_chain maxChain_lt le_rfl
  have hrow := chain_last maxChain_lt
  refine ⟨fun _ _ _ => chain_acyclic maxChain_lt, ?_, (chainRoot_error hrow rfl).2 ⟨0, hlinks⟩⟩
  obtain ⟨classes, hclasses, -, n, hn, u, hu, hstart, hclimbed, hlongest⟩ := cls_spec hrow rfl
  obtain rfl := Nat.le_antisymm hn (hlongest _ le_rfl 0 hlinks)
  have hcur : u.cur = 0 := (hstart ▸ hclimbed.links).unique hlinks
  obtain ⟨row, hroot, -, hparent⟩ := hclimbed.cur
  rw [hcur, chain_get maxChain_lt, if_pos (show BitVec.toNat 0 ≤ _ from Nat.zero_le _)] at hroot
  obtain rfl := Option.some.inj hroot
  have hnone : u.parent = none := hparent
  have hstate : stateOf (chain V0.maxChain) u = .rooted := by
    unfold stateOf
    simp only [hnone, reduceCtorEq, and_false, exists_false, if_false]
  exact ⟨classes, u, hclasses, hstate ▸ hu, hstart, hcur⟩

/-- The two walks at the upper end of one link. -/
theorem walks_agree_iff_link : ∃ classes, cls (chain 1) = some classes ∧
    (classes.map fun p => p.1.startId).Nodup ∧ ∃ p ∈ classes, p.1.startId = BitVec.ofNat 256 1 ∧
      (Agree (chain 1) (BitVec.ofNat 256 1) (correction (BitVec.ofNat 256 1)) p ↔
        ¬ EndsAtBound (chain 1) (BitVec.ofNat 256 1)) :=
  walks_agree_iff (chain_last (by decide)) rfl

end Sample

end Clockchain.Operator.Held
