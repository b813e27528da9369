import Clockchain.V0.Projection
import Clockchain.V0.Canon
import Clockchain.Lineages

/-!
# The projection as a function of the log

What the tables hold once a set of events has been applied: the survivors of the births
and declarations, the edges as their endpoints resolve, the attestations, and one row for
every complete chain. The tables are determined by the events alone.
-/

namespace Clockchain.V0
open Codec Lineages Survivors
open V1 (Hash BTreeMap Crypto Verify)
set_option autoImplicit false

/-! ## Stored events -/

theorem foldOrder_inj {a b c d : Hash} : foldOrder a b = foldOrder c d ↔ a = c ∧ b = d := by
  simp only [foldOrder, EmbeddingLike.apply_eq_iff_eq, Prod.mk.injEq, BitVec.toNat_inj]

section Log
variable {cr : Crypto} {verify : Verify} {events : Events} {s s' : Signed cr verify}

/-- A gated event and the row it left. -/
def Stored (events : Events) (s : Signed cr verify) : Prop := events[s.id]? = some s.row

/-- Every row came through the gate. -/
def Gated (cr : Crypto) (verify : Verify) (events : Events) : Prop :=
  ∀ (id : Hash) (row : EventRow), events[id]? = some row →
    ∃ s : Signed cr verify, s.id = id ∧ s.row = row

theorem Signed.row_injective (h : s.row = s'.row) : s = s' := by
  have hcanon : s.canon = s'.canon := congrArg EventRow.payload h
  have hbody : s.content.body = s'.content.body :=
    (canonEvent_injective cr s.author s'.author s.written (hcanon ▸ s'.written)).body
  have hcontent : s.content = s'.content := by
    refine EventContent.mk.injEq .. |>.mpr ⟨?_, ?_, ?_, ?_, hbody⟩
    · exact Tick.toCanon_injective (congrArg EventRow.eventTime h)
    · exact Tick.toCanon_injective (congrArg EventRow.recordTime h)
    · exact congrArg EventRow.authorKey h
    · exact congrArg EventRow.supersedes h
  have hsignature : s.signature = s'.signature := congrArg EventRow.signature h
  obtain ⟨⟩ := s
  obtain ⟨⟩ := s'
  simp only at hcanon hcontent hsignature
  subst hcanon hcontent hsignature
  rfl

theorem Stored.unique (h : Stored events s) (h' : Stored events s') (hid : s.id = s'.id) :
    s = s' := by
  refine Signed.row_injective (Option.some.inj (h.symm.trans ?_))
  rw [hid]
  exact h'

theorem Gated.stored (h : Gated cr verify events) {id : Hash} {row : EventRow}
    (hrow : events[id]? = some row) :
    ∃ s : Signed cr verify, s.id = id ∧ s.row = row ∧ Stored events s := by
  obtain ⟨s, rfl, rfl⟩ := h id row hrow
  exact ⟨s, rfl, rfl, hrow⟩

theorem stored_insert (hnew : s.id ∉ events) :
    Stored (events.insert s.id s.row) s' ↔ s' = s ∨ Stored events s' := by
  unfold Stored
  rw [Maps.getElem?_insert]
  split
  · next hid =>
    constructor
    · intro h
      exact Or.inl (Signed.row_injective (Option.some.inj h)).symm
    · rintro (rfl | h)
      · rfl
      · rw [hid] at hnew
        exact absurd (Maps.mem_of_getElem? h) hnew
  · next hid =>
    constructor
    · exact Or.inr
    · rintro (rfl | h)
      · exact absurd rfl hid
      · exact h

theorem Gated.insert (h : Gated cr verify events) : Gated cr verify (events.insert s.id s.row) := by
  intro id row hrow
  rw [Maps.getElem?_insert] at hrow
  split at hrow
  · next hid => exact ⟨s, hid, Option.some.inj hrow⟩
  · exact h id row hrow

/-- What `parse_event` gives back for a stored event. -/
def Signed.reread (s : Signed cr verify) : EventContent :=
  s.content.readBack s.content.eventTime s.content.recordTime s.content.author

theorem parseRow_row : parseRow cr s.row = .ok s.reread := by
  have hkey : cr.authorKey s.row.authorKey = true := s.author
  simp only [parseRow, hkey, Bool.not_true, Bool.false_eq_true, if_false]
  simp only [Signed.row, parseEvent_canon cr s.author s.written, Tick.ofCanon_toCanon]
  rfl

theorem reread_of_ne (h : ∀ a, s.content.body ≠ .attestation a) : s.reread = s.content := by
  unfold Signed.reread EventContent.readBack
  split
  · next a ha => exact absurd ha (h a)
  · rfl

theorem canonEvent_reread : canonEvent s.reread = .ok s.canon := by
  have hwritten := s.written
  cases hbody : s.content.body with
  | attestation a =>
    have hreread : s.reread = { s.content with supersedes := none } := by
      simp only [Signed.reread, EventContent.readBack, hbody]
    rw [← hwritten, hreread]
    simp only [canonEvent, canonFields, hbody]
  | _ => rw [reread_of_ne (by simp [hbody]), hwritten]

theorem checkId_reread : checkId cr s.reread s.id = .ok () := by
  simp only [checkId, canonEvent_reread, Signed.id, ne_eq, not_true, if_false]

/-! ## Lineages of the log -/

/-- What a stored moment says about the one it corrects. -/
def up (events : Events) (x : Hash) : Link Hash :=
  match events[x]? with
  | none => .held
  | some row =>
    if row.kind ≠ .moment then .held
    else match row.supersedes with
      | none => .top
      | some p =>
        match events[p]? with
        | none => .held
        | some parent => if parent.kind ≠ .moment then .top else .above p

/-- The moments that correct `x`. -/
def children (events : Events) (x : Hash) : Set (Hash × EventRow) :=
  {p | events[p.1]? = some p.2 ∧ p.2.supersedes = some x ∧ p.2.kind = .moment}

def EventRow.order (p : Hash × EventRow) : Nat ×ₗ Nat := foldOrder p.2.eventTime p.1

theorem injOn_children {x : Hash} : Set.InjOn EventRow.order (children events x) := by
  rintro ⟨id, row⟩ ⟨h, _⟩ ⟨id', row'⟩ ⟨h', _⟩ heq
  obtain ⟨_, rfl⟩ := foldOrder_inj.mp heq
  obtain rfl : row = row' := Option.some.inj (h.symm.trans h')
  rfl

theorem nextLink_iff {x y : Hash} : nextLink events x = some y ↔
    ∃ row, Survivor EventRow.order (children events x) (y, row) := by
  have hset : {p | p ∈ events.toList.filter fun row =>
      row.2.supersedes = some x ∧ row.2.kind = .moment} = children events x := by
    ext ⟨id, row⟩
    simp only [Set.mem_ofPred_eq, List.mem_filter, children, decide_eq_true_eq,
      Std.ExtTreeMap.mem_toList_iff_getElem?_eq_some]
  have hmin (r : Hash × EventRow) := argmin_eq_some (r := r) (hset ▸ injOn_children (x := x))
  rw [hset] at hmin
  simp only [nextLink, Option.map_eq_some_iff, Prod.exists, exists_and_right, exists_eq_right]
  exact exists_congr fun row => hmin (y, row)

theorem up_of_not_held {x : Hash} (h : up events x ≠ .held) :
    ∃ row, events[x]? = some row ∧ row.kind = .moment := by
  unfold up at h
  split at h
  · exact absurd rfl h
  · next row hrow =>
    split at h
    · exact absurd rfl h
    · next hkind => exact ⟨row, hrow, not_not.mp hkind⟩

theorem up_above {x p : Hash} {row parent : EventRow} (hrow : events[x]? = some row)
    (hkind : row.kind = .moment) (hsup : row.supersedes = some p)
    (hparent : events[p]? = some parent) (hpkind : parent.kind = .moment) :
    up events x = .above p := by
  simp only [up, hrow, hkind, ne_eq, not_true, if_false, hsup, hparent, hpkind]

theorem nextLink_up {x y : Hash} (hx : up events x ≠ .held) (h : nextLink events x = some y) :
    up events y = .above x := by
  obtain ⟨parent, hparent, hpkind⟩ := up_of_not_held hx
  obtain ⟨row, ⟨hrow, hsup, hkind⟩, _⟩ := nextLink_iff.mp h
  exact up_above hrow hkind hsup hparent hpkind

theorem chainRoot_eq {fuel : Nat} {x : Hash} {row : EventRow} (hrow : events[x]? = some row)
    (hkind : row.kind = .moment) : chainRoot events fuel x row.supersedes =
      match climb (up events) fuel x with
      | none => .error chainTooLong
      | some root => .ok root := by
  induction fuel generalizing x row with
  | zero => rfl
  | succ fuel ih =>
    have hup : up events x = match row.supersedes with
        | none => .top
        | some p =>
          match events[p]? with
          | none => .held
          | some parent => if parent.kind ≠ .moment then .top else .above p := by
      simp only [up, hrow, hkind, ne_eq, not_true, if_false]
    rw [climb, hup]
    cases hsup : row.supersedes with
    | none => rfl
    | some p =>
      simp only [chainRoot]
      cases hp : events[p]? with
      | none => rfl
      | some parent =>
        by_cases hpkind : parent.kind = .moment
        · simp only [hpkind, ne_eq, not_true, if_false]
          exact ih hp hpkind
        · simp only [ne_eq, hpkind, not_false_eq_true, if_true]

theorem chainHead_eq {fuel : Nat} {x : Hash} : chainHead events fuel x =
    match descend (nextLink events) fuel x with
    | none => .error chainTooLong
    | some head => .ok head := by
  induction fuel generalizing x with
  | zero => rfl
  | succ fuel ih =>
    simp only [chainHead, descend]
    cases nextLink events x with
    | none => rfl
    | some y => exact ih

/-- No supersession chain is as long as the walks' bound. -/
def ShortChains (events : Events) : Prop :=
  ∀ n x y, Ascends (up events) n x y → n < maxChain

/-- The row a chain shows. -/
def Shows (cr : Crypto) (verify : Verify) (events : Events) (root : Hash) (row : MomentRow) :
    Prop :=
  ∃ (s : Signed cr verify) (m : MomentBody), Headed (nextLink events) root s.id ∧
    Stored events s ∧ s.content.body = .moment m ∧ row = momentRow s.id s.content m

theorem Shows.unique {root : Hash} {row row' : MomentRow} (h : Shows cr verify events root row)
    (h' : Shows cr verify events root row') : row = row' := by
  obtain ⟨s, m, hhead, hs, hm, rfl⟩ := h
  obtain ⟨s', m', hhead', hs', hm', rfl⟩ := h'
  obtain rfl := hs.unique hs' (hhead.unique hhead')
  obtain rfl := EventBody.moment.inj (hm.symm.trans hm')
  rfl

/-- The columns of a stored head, in hand or read back. -/
theorem momentColumns_eq {m : MomentBody} (hs : Stored events s) (hs' : Stored events s')
    (hm : s'.content.body = .moment m) :
    momentColumns cr events s'.id s.id s.content = .ok (momentRow s'.id s'.content m) := by
  unfold momentColumns
  split
  · next hid =>
    obtain rfl := hs'.unique hs hid
    simp only [hm]
  · have hrow : events[s'.id]? = some s'.row := hs'
    have hreread : s'.reread = s'.content := reread_of_ne (by simp [hm])
    have hcheck : checkId cr s'.content s'.id = .ok () := hreread ▸ checkId_reread
    have hparse : parseRow cr s'.row = .ok s'.content := hreread ▸ parseRow_row
    simp only [hrow, hparse, bind, Except.bind, hcheck, hm]
    simp only [Signed.row, Tick.ofCanon_toCanon]
    rfl

end Log

end Clockchain.V0
