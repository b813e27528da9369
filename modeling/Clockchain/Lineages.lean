import Mathlib.Data.Set.Finite.Basic

/-!
# Lineages that fill in

Nodes name the one above them. The named node may be missing, and then the lineage is
held until it arrives. A lineage that is complete has a root; from a root the preferred
descendants lead to a head. Both are functions of the stored nodes, and storing one more
node moves only the lineage it joins.
-/

namespace Lineages
set_option autoImplicit false

universe u
variable {α : Type u}

/-- What a node says about the one above it. -/
inductive Link (α : Type u) where
  | top
  | held
  | above (p : α)

inductive Rooted (up : α → Link α) : α → α → Prop where
  | top {x : α} : up x = .top → Rooted up x x
  | above {x p r : α} : up x = .above p → Rooted up p r → Rooted up x r

inductive Headed (down : α → Option α) : α → α → Prop where
  | last {x : α} : down x = none → Headed down x x
  | next {x y h : α} : down x = some y → Headed down y h → Headed down x h

/-- A path of `n` links upwards. -/
inductive Ascends (up : α → Link α) : Nat → α → α → Prop where
  | here (x : α) : Ascends up 0 x x
  | above {n : Nat} {x p r : α} : up x = .above p → Ascends up n p r → Ascends up (n + 1) x r

variable {up up' : α → Link α} {down down' : α → Option α}

theorem Rooted.unique {x r r' : α} (h : Rooted up x r) (h' : Rooted up x r') : r = r' := by
  induction h with
  | top htop =>
    cases h' with
    | top => rfl
    | above habove => simp [htop] at habove
  | above habove _ ih =>
    cases h' with
    | top htop => simp [habove] at htop
    | above habove' h' =>
      obtain rfl := Link.above.inj (habove.symm.trans habove')
      exact ih h'

theorem Rooted.top_of {x r : α} (h : Rooted up x r) : up r = .top := by
  induction h with
  | top h => exact h
  | above _ _ ih => exact ih

theorem Rooted.not_held {x r : α} (h : Rooted up x r) : up x ≠ .held := by
  cases h with
  | top h => simp [h]
  | above h => simp [h]

theorem Rooted.not_loop {x r : α} (h : Rooted up x r) : up x ≠ .above x := by
  induction h with
  | top h => simp [h]
  | above h _ ih =>
    intro heq
    obtain rfl := Link.above.inj (heq.symm.trans h)
    exact ih heq

theorem Headed.unique {x h h' : α} (hx : Headed down x h) (hx' : Headed down x h') : h = h' := by
  induction hx with
  | last hlast =>
    cases hx' with
    | last => rfl
    | next hnext => simp [hlast] at hnext
  | next hnext _ ih =>
    cases hx' with
    | last hlast => simp [hnext] at hlast
    | next hnext' hx' =>
      obtain rfl := Option.some.inj (hnext.symm.trans hnext')
      exact ih hx'

theorem Headed.down_eq {x h : α} (hx : Headed down x h) : down h = none := by
  induction hx with
  | last h => exact h
  | next _ _ ih => exact ih

theorem Ascends.snoc {n : Nat} {x y r : α} (h : Ascends up n x y) (habove : up y = .above r) :
    Ascends up (n + 1) x r := by
  induction h with
  | here => exact .above habove (.here r)
  | above h _ ih => exact .above h (ih habove)

theorem Ascends.unique {n : Nat} {x r r' : α} (h : Ascends up n x r) (h' : Ascends up n x r') :
    r = r' := by
  induction h with
  | here =>
    cases h'
    rfl
  | above habove _ ih =>
    cases h' with
    | above habove' h' =>
      obtain rfl := Link.above.inj (habove.symm.trans habove')
      exact ih h'

/-- The last link of a path. -/
theorem Ascends.last {n : Nat} {x r : α} (h : Ascends up (n + 1) x r) :
    ∃ y, Ascends up n x y ∧ up y = .above r := by
  induction n generalizing x with
  | zero =>
    cases h with
    | above habove h =>
      cases h
      exact ⟨x, .here x, habove⟩
  | succ n ih =>
    cases h with
    | above habove h =>
      obtain ⟨y, hy, hlast⟩ := ih h
      exact ⟨y, .above habove hy, hlast⟩

/-! ## Bounded walks -/

/-- The walk up, stopped after `fuel` rounds; `some none` is a held lineage. -/
def climb (up : α → Link α) : Nat → α → Option (Option α)
  | 0, _ => none
  | fuel + 1, x =>
    match up x with
    | .top => some (some x)
    | .held => some none
    | .above p => climb up fuel p

def descend (down : α → Option α) : Nat → α → Option α
  | 0, _ => none
  | fuel + 1, x =>
    match down x with
    | none => some x
    | some y => descend down fuel y

theorem rooted_of_climb {fuel : Nat} {x r : α} (h : climb up fuel x = some (some r)) :
    Rooted up x r := by
  induction fuel generalizing x with
  | zero => simp [climb] at h
  | succ fuel ih =>
    simp only [climb] at h
    split at h
    · next htop =>
      obtain rfl := Option.some.inj (Option.some.inj h)
      exact .top htop
    · simp at h
    · next habove => exact .above habove (ih h)

theorem not_rooted_of_climb {fuel : Nat} {x r : α} (h : climb up fuel x = some none) :
    ¬ Rooted up x r := by
  induction fuel generalizing x with
  | zero => simp [climb] at h
  | succ fuel ih =>
    intro hroot
    simp only [climb] at h
    cases hroot with
    | top htop => simp [htop] at h
    | above habove hroot =>
      simp only [habove] at h
      exact ih h hroot

theorem headed_of_descend {fuel : Nat} {x h : α} (hx : descend down fuel x = some h) :
    Headed down x h := by
  induction fuel generalizing x with
  | zero => simp [descend] at hx
  | succ fuel ih =>
    simp only [descend] at hx
    split at hx
    · next hlast =>
      obtain rfl := Option.some.inj hx
      exact .last hlast
    · next hnext => exact .next hnext (ih hx)

/-- A walk up that has climbed a path goes on from its end. -/
theorem Ascends.climb {n : Nat} {x y : α} (h : Ascends up n x y) (fuel : Nat) :
    Lineages.climb up (fuel + n) x = Lineages.climb up fuel y := by
  induction h with
  | here => rfl
  | above habove _ ih =>
    rw [← Nat.add_assoc, Lineages.climb, habove]
    exact ih

/-- The walk up runs out exactly when there are as many links as rounds. -/
theorem climb_eq_none {fuel : Nat} {x : α} :
    climb up fuel x = none ↔ ∃ r, Ascends up fuel x r := by
  induction fuel generalizing x with
  | zero => exact ⟨fun _ => ⟨x, .here x⟩, fun _ => rfl⟩
  | succ fuel ih =>
    simp only [climb]
    constructor
    · intro h
      split at h
      · simp at h
      · simp at h
      · next habove =>
        obtain ⟨r, hr⟩ := ih.mp h
        exact ⟨r, .above habove hr⟩
    · rintro ⟨r, hr⟩
      cases hr with
      | above habove hr =>
        simp only [habove]
        exact ih.mpr ⟨r, hr⟩

/-- A walk down that runs out has climbed down as many links as it had rounds. -/
theorem ascends_of_descend
    (hdown : ∀ {x y}, up x ≠ .held → down x = some y → up y = .above x) {fuel : Nat} {x : α}
    (hx : up x ≠ .held) (h : descend down fuel x = none) : ∃ y, Ascends up fuel y x := by
  induction fuel generalizing x with
  | zero => exact ⟨x, .here x⟩
  | succ fuel ih =>
    simp only [descend] at h
    split at h
    · simp at h
    · next hnext =>
      have habove := hdown hx hnext
      obtain ⟨z, hz⟩ := ih (by simp [habove]) h
      exact ⟨z, hz.snoc habove⟩

/-- Paths from one node to the same top have one length. -/
theorem Ascends.depth {m n : Nat} {x r : α} (h : Ascends up m x r) (h' : Ascends up n x r)
    (htop : up r = .top) : m = n := by
  induction h generalizing n with
  | here r =>
    cases h' with
    | here => rfl
    | above habove _ => simp [htop] at habove
  | above habove _ ih =>
    cases h' with
    | here => simp [htop] at habove
    | above habove' h' =>
      obtain rfl := Link.above.inj (habove.symm.trans habove')
      rw [ih h' htop]

/-- Of finitely many nodes, the descendants of a top one come to a last. -/
theorem exists_headed (hdown : ∀ {x y}, up x ≠ .held → down x = some y → up y = .above x)
    (hfinite : {x | up x ≠ .held}.Finite) {x : α} (htop : up x = .top) :
    ∃ h, Headed down x h := by
  by_contra hnone
  -- then there is a node at every depth below `x`
  have hdeep : ∀ n, ∃ y, Ascends up n y x := by
    intro n
    refine ascends_of_descend hdown (by simp [htop]) ?_
    cases h : descend down n x with
    | none => rfl
    | some head => exact absurd ⟨head, headed_of_descend h⟩ hnone
  choose node hnode using hdeep
  have hinjective : Function.Injective node := by
    intro m n heq
    have hm := hnode m
    rw [heq] at hm
    exact hm.depth (hnode n) htop
  refine Set.infinite_of_injective_forall_mem hinjective (fun n => ?_) hfinite
  cases hnode n with
  | here => simp [htop]
  | above habove _ => simp [habove]

/-- The head of a lineage belongs to it. -/
theorem Headed.rooted (hdown : ∀ {x y}, up x ≠ .held → down x = some y → up y = .above x)
    {x r h : α} (hx : Rooted up x r) (hhead : Headed down x h) : Rooted up h r := by
  induction hhead with
  | last => exact hx
  | next hnext _ ih => exact ih (.above (hdown hx.not_held hnext) hx)

theorem Ascends.shorter {m n : Nat} {x y : α} (h : Ascends up n x y) (hle : m ≤ n) :
    ∃ z, Ascends up m x z := by
  induction h generalizing m with
  | here x =>
    obtain rfl := Nat.le_zero.mp hle
    exact ⟨x, .here x⟩
  | @above n x p r habove _ ih =>
    cases m with
    | zero => exact ⟨x, .here x⟩
    | succ m =>
      obtain ⟨z, hz⟩ := ih (Nat.le_of_succ_le_succ hle)
      exact ⟨z, .above habove hz⟩

/-- A lineage that never meets a node is what it was without it. -/
theorem Ascends.avoid {e : α} (heq : ∀ x, x ≠ e → up' x = up x) (hno : ∀ x, up' x ≠ .above e)
    {n : Nat} {x y : α} (h : Ascends up' n x y) (hx : x ≠ e) : Ascends up n x y := by
  induction h with
  | here x => exact .here x
  | @above n x p r habove _ ih =>
    have hp : p ≠ e := fun hp => hno x (hp ▸ habove)
    exact .above ((heq x hx).symm.trans habove) (ih hp)

/-- A head that gets a child without children passes its place on. -/
theorem Headed.extend {e : α} {x h : α} (hx : Headed down x h)
    (hsame : ∀ x, x ≠ h → x ≠ e → down' x = down x) (hfresh : ∀ x, down x ≠ some e) (hxe : x ≠ e)
    (hchild : down' h = some e) (hlast : down' e = none) : Headed down' x e := by
  induction hx with
  | last => exact .next hchild (.last hlast)
  | @next x y h hnext hy ih =>
    have hxh : x ≠ h := fun heq => by
      rw [heq, hy.down_eq] at hnext
      cases hnext
    have hye : y ≠ e := fun heq => hfresh x (heq ▸ hnext)
    exact .next ((hsame x hxh hxe).trans hnext) (ih hsame hye hchild)

/-! ## Storing one more node -/

/-- `e` was missing and is there now: only nodes that waited for it see a difference. -/
structure Arrives (up up' : α → Link α) (down down' : α → Option α) (e : α) : Prop where
  missing : up e = .held
  up_eq : ∀ x, x ≠ e → up' x = up x ∨ up x = .held ∧ up' x = .above e
  down_eq : ∀ x, up' x ≠ .held → up' e ≠ .above x → down' x = down x
  down_up : ∀ {x y}, up' x ≠ .held → down' x = some y → up' y = .above x

variable {e : α}

theorem Arrives.rooted (h : Arrives up up' down down' e) {x r : α} (hx : Rooted up x r) :
    Rooted up' x r := by
  induction hx with
  | @top x htop =>
    have hne : x ≠ e := fun heq => by
      subst heq
      simp [h.missing] at htop
    rcases h.up_eq x hne with heq | ⟨hheld, _⟩
    · exact .top (heq.trans htop)
    · simp [hheld] at htop
  | @above x p r habove _ ih =>
    have hne : x ≠ e := fun heq => by
      subst heq
      simp [h.missing] at habove
    rcases h.up_eq x hne with heq | ⟨hheld, _⟩
    · exact .above (heq.trans habove) ih
    · simp [hheld] at habove

/-- A lineage that does not end where the new node's does was complete before. -/
theorem Arrives.rooted_iff (h : Arrives up up' down down' e) {x r : α}
    (hother : ¬ Rooted up' e r) : Rooted up' x r ↔ Rooted up x r := by
  refine ⟨fun hx => ?_, h.rooted⟩
  induction hx with
  | @top x htop =>
    have hne : x ≠ e := fun heq => hother (heq ▸ .top htop)
    rcases h.up_eq x hne with heq | ⟨_, hnew⟩
    · exact .top (heq.symm.trans htop)
    · simp [hnew] at htop
  | @above x p r habove hp ih =>
    have hne : x ≠ e := fun heq => hother (heq ▸ .above habove hp)
    rcases h.up_eq x hne with heq | ⟨_, hnew⟩
    · exact .above (heq.symm.trans habove) (ih hother)
    · obtain rfl := Link.above.inj (hnew.symm.trans habove)
      exact absurd hp hother

theorem Arrives.headed_iff (h : Arrives up up' down down' e) {x r y : α}
    (hx : Rooted up' x r) (hother : ¬ Rooted up' e r) : Headed down' x y ↔ Headed down x y := by
  have hstep : ∀ {x : α}, Rooted up' x r → down' x = down x := fun hx =>
    h.down_eq _ hx.not_held fun habove => hother (.above habove hx)
  constructor
  · intro hhead
    induction hhead with
    | last hlast => exact .last ((hstep hx).symm.trans hlast)
    | next hnext _ ih =>
      exact .next ((hstep hx).symm.trans hnext) (ih (.above (h.down_up hx.not_held hnext) hx))
  · intro hhead
    induction hhead with
    | last hlast => exact .last ((hstep hx).trans hlast)
    | next hnext _ ih =>
      have hnext' := (hstep hx).trans hnext
      exact .next hnext' (ih (.above (h.down_up hx.not_held hnext') hx))

end Lineages
