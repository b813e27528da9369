import Clockchain.Json
import Mathlib.Data.Nat.Log

/-!
# Numbers of JSON documents

The numbers a document holds, the double nearest to a number, and what a reader makes of a document
that reads its numbers in another way. A form writes small numbers if its parts do.
-/

namespace Json
set_option autoImplicit false

variable {α β : Type}

/-! ## Doubles -/

/-- The nearest number with 53 significant bits, of two the one with an even significand. A number
below `2 ^ 1024` is read as this double. -/
def double (n : Nat) : Nat :=
  let unit := 2 ^ (Nat.log 2 n - 52)
  let significand := n / unit
  let rest := n % unit
  if unit < 2 * rest ∨ unit = 2 * rest ∧ significand % 2 = 1 then (significand + 1) * unit
  else significand * unit

theorem double_eq {n : Nat} (h : n < 2 ^ 53) : double n = n := by
  have hlog : Nat.log 2 n - 52 = 0 := by
    have hlt := Nat.log_lt_of_lt_pow' (by decide) h
    omega
  have hrest : ¬ (1 < 2 * (n % 1) ∨ 1 = 2 * (n % 1) ∧ n / 1 % 2 = 1) := by omega
  unfold double
  dsimp only
  rw [hlog, Nat.pow_zero, if_neg hrest, Nat.div_one, Nat.mul_one]

theorem le_double {n : Nat} (h : 2 ^ 53 ≤ n) : 2 ^ 53 ≤ double n := by
  have hlog : 53 ≤ Nat.log 2 n := Nat.le_log_of_pow_le (by decide) h
  have hpow : 2 ^ Nat.log 2 n ≤ n := Nat.pow_log_le_self 2 (by omega)
  obtain ⟨k, hk⟩ : ∃ k, Nat.log 2 n = 52 + (k + 1) := ⟨Nat.log 2 n - 53, by omega⟩
  have hunit : 0 < 2 ^ (k + 1) := Nat.two_pow_pos _
  have hsignificand : 2 ^ 52 ≤ n / 2 ^ (k + 1) := by
    rw [Nat.le_div_iff_mul_le hunit, ← Nat.pow_add, ← hk]
    exact hpow
  have hproduct : 2 ^ 53 ≤ n / 2 ^ (k + 1) * 2 ^ (k + 1) := by
    calc 2 ^ 53 = 2 ^ 52 * 2 ^ 1 := rfl
      _ ≤ n / 2 ^ (k + 1) * 2 ^ (k + 1) :=
        Nat.mul_le_mul hsignificand (Nat.pow_le_pow_right (by decide) (by omega))
  have hexp : Nat.log 2 n - 52 = k + 1 := by omega
  unfold double
  dsimp only
  rw [hexp]
  split
  · exact hproduct.trans (Nat.mul_le_mul_right _ (Nat.le_succ _))
  · exact hproduct

/-! ## Numbers of a document -/

mutual

def numbers : Value → List Nat
  | .num n => [n]
  | .arr items => itemNumbers items
  | .obj members => memberNumbers members
  | .null | .bool _ | .str _ => []

def itemNumbers : List Value → List Nat
  | [] => []
  | v :: vs => numbers v ++ itemNumbers vs

def memberNumbers : List (String × Value) → List Nat
  | [] => []
  | (_, v) :: members => numbers v ++ memberNumbers members

end

mutual

/-- The document to a reader that reads the number `n` as `f n`. -/
def reread (f : Nat → Nat) : Value → Value
  | .num n => .num (f n)
  | .arr items => .arr (rereadItems f items)
  | .obj members => .obj (rereadMembers f members)
  | .null => .null
  | .bool b => .bool b
  | .str s => .str s

def rereadItems (f : Nat → Nat) : List Value → List Value
  | [] => []
  | v :: vs => reread f v :: rereadItems f vs

def rereadMembers (f : Nat → Nat) : List (String × Value) → List (String × Value)
  | [] => []
  | (name, v) :: members => (name, reread f v) :: rereadMembers f members

end

theorem itemNumbers_eq (items : List Value) : itemNumbers items = items.flatMap numbers := by
  induction items with
  | nil => rfl
  | cons v vs ih => rw [itemNumbers, ih, List.flatMap_cons]

theorem memberNumbers_eq (members : List (String × Value)) :
    memberNumbers members = members.flatMap fun m => numbers m.2 := by
  induction members with
  | nil => rfl
  | cons m members ih => rw [memberNumbers, ih, List.flatMap_cons]

theorem mem_numbers_arr {items : List Value} {n : Nat} :
    n ∈ numbers (.arr items) ↔ ∃ v ∈ items, n ∈ numbers v := by
  rw [numbers, itemNumbers_eq, List.mem_flatMap]

theorem mem_numbers_obj {members : List (String × Value)} {n : Nat} :
    n ∈ numbers (.obj members) ↔ ∃ m ∈ members, n ∈ numbers m.2 := by
  rw [numbers, memberNumbers_eq, List.mem_flatMap]

theorem rereadMembers_eq (f : Nat → Nat) (members : List (String × Value)) :
    rereadMembers f members = members.map fun m => (m.1, reread f m.2) := by
  induction members with
  | nil => rfl
  | cons m members ih => rw [rereadMembers, ih, List.map_cons]

theorem rereadItems_eq (f : Nat → Nat) (items : List Value) :
    rereadItems f items = items.map (reread f) := by
  induction items with
  | nil => rfl
  | cons v vs ih => rw [rereadItems, ih, List.map_cons]

section
variable {f : Nat → Nat}

mutual

/-- A document whose numbers are read as they are is read as it is. -/
theorem reread_eq : ∀ v : Value, (∀ n ∈ numbers v, f n = n) → reread f v = v
  | .num n, h => by rw [reread, h n (by rw [numbers]; exact List.mem_cons_self)]
  | .arr items, h => by rw [reread, rereadItems_self items h]
  | .obj members, h => by rw [reread, rereadMembers_self members h]
  | .null, _ => rfl
  | .bool _, _ => rfl
  | .str _, _ => rfl

theorem rereadItems_self : ∀ items : List Value, (∀ n ∈ numbers (.arr items), f n = n) →
    rereadItems f items = items
  | [], _ => rfl
  | v :: vs, h => by
    have hv : reread f v = v :=
      reread_eq v fun n hn => h n (mem_numbers_arr.2 ⟨v, List.mem_cons_self, hn⟩)
    have hvs : rereadItems f vs = vs := rereadItems_self vs fun n hn => by
      obtain ⟨w, hw, hn⟩ := mem_numbers_arr.1 hn
      exact h n (mem_numbers_arr.2 ⟨w, List.mem_cons_of_mem v hw, hn⟩)
    rw [rereadItems, hv, hvs]

theorem rereadMembers_self : ∀ members : List (String × Value),
    (∀ n ∈ numbers (.obj members), f n = n) → rereadMembers f members = members
  | [], _ => rfl
  | (name, v) :: members, h => by
    have hv : reread f v = v :=
      reread_eq v fun n hn => h n (mem_numbers_obj.2 ⟨_, List.mem_cons_self, hn⟩)
    have hrest : rereadMembers f members = members := rereadMembers_self members fun n hn => by
      obtain ⟨w, hw, hn⟩ := mem_numbers_obj.1 hn
      exact h n (mem_numbers_obj.2 ⟨w, List.mem_cons_of_mem _ hw, hn⟩)
    rw [rereadMembers, hv, hrest]

end

end

/-! ## Small numbers -/

/-- Every number of the document is below the bound. -/
def Small (bound : Nat) (v : Value) : Prop := ∀ n ∈ numbers v, n < bound

section
variable {bound : Nat}

theorem Small.null : Small bound .null := fun _ h => nomatch h

theorem Small.bool (b : Bool) : Small bound (.bool b) := fun _ h => nomatch h

theorem Small.str (s : String) : Small bound (.str s) := fun _ h => nomatch h

theorem Small.num {n : Nat} (h : n < bound) : Small bound (.num n) := by
  intro m hm
  rw [numbers, List.mem_singleton] at hm
  rwa [hm]

theorem Small.arr {items : List Value} (h : ∀ v ∈ items, Small bound v) :
    Small bound (.arr items) := by
  intro n hn
  obtain ⟨v, hv, hn⟩ := mem_numbers_arr.1 hn
  exact h v hv n hn

theorem Small.obj {members : List (String × Value)} (h : ∀ m ∈ members, Small bound m.2) :
    Small bound (.obj members) := by
  intro n hn
  obtain ⟨m, hm, hn⟩ := mem_numbers_obj.1 hn
  exact h m hm n hn

theorem Small.empty : Small bound (.obj []) := .obj fun _ h => nomatch h

theorem Small.member {name : String} {v : Value} {members : List (String × Value)}
    (hv : Small bound v) (h : Small bound (.obj members)) :
    Small bound (.obj ((name, v) :: members)) :=
  .obj fun m hm => by
    rcases List.mem_cons.1 hm with rfl | hm
    · exact hv
    · exact fun n hn => h n (mem_numbers_obj.2 ⟨m, hm, hn⟩)

/-- The form writes small numbers only. -/
def Form.Small (bound : Nat) (f : Form α) : Prop := ∀ a, Json.Small bound (f.put a)

def Members.Small (bound : Nat) (f : Members α) : Prop :=
  ∀ a, ∀ m ∈ f.put a, Json.Small bound m.2

namespace Form

theorem text_small : text.Small bound := Json.Small.str

theorem flag_small : flag.Small bound := Json.Small.bool

theorem Small.option {f : Form α} (h : f.Small bound) : f.option.Small bound
  | none => .null
  | some a => h a

theorem Small.list {f : Form α} (h : f.Small bound) : f.list.Small bound := by
  intro xs
  refine .arr fun v hv => ?_
  obtain ⟨x, -, rfl⟩ := List.mem_map.1 hv
  exact h x

theorem tags_small [DecidableEq α] {table : List (String × α)} : (tags table).Small bound := by
  intro a
  unfold tags
  dsimp only
  split
  · exact .str _
  · exact .null

end Form

namespace Members

theorem field_small {name : String} {f : Form α} (h : f.Small bound) :
    (field name f).Small bound := by
  intro a m hm
  obtain rfl := List.mem_singleton.1 hm
  exact h a

theorem optional_small {name : String} {f : Form α} (h : f.Small bound) :
    (optional name f).Small bound := by
  intro a m hm
  obtain rfl := List.mem_singleton.1 hm
  exact h.option a

theorem Small.pair {f : Members α} {g : Members β} (hf : f.Small bound) (hg : g.Small bound) :
    (f.pair g).Small bound := fun x m hm =>
  (List.mem_append.1 hm).elim (hf x.1 m) (hg x.2 m)

theorem Small.record {f : Members α} (h : f.Small bound) (make : α → β) (parts : β → α) :
    (f.record make parts).Small bound := fun b => h (parts b)

theorem Small.lenient {f : Members α} (h : f.Small bound) : f.lenient.Small bound :=
  fun a => .obj (h a)

end Members

end

end Json
