import Clockchain.Json

/-!
# Documents as maps

Objects whose members have no order: sorted by their names, and of a repeated name the last member
stays. Two documents are the same if they are equal in this form.
-/

namespace Json
set_option autoImplicit false

/-! ## Sorted members -/

/-- A member in its place, unless its name is taken. -/
def insertMember (name : String) (v : Value) : List (String × Value) → List (String × Value)
  | [] => [(name, v)]
  | (other, w) :: members =>
    if name = other then (other, w) :: members
    else if name < other then (name, v) :: (other, w) :: members
    else (other, w) :: insertMember name v members

mutual

def tidy : Value → Value
  | .arr items => .arr (tidyItems items)
  | .obj members => .obj (tidyMembers members)
  | .null => .null
  | .bool b => .bool b
  | .num n => .num n
  | .str s => .str s

def tidyItems : List Value → List Value
  | [] => []
  | v :: vs => tidy v :: tidyItems vs

def tidyMembers : List (String × Value) → List (String × Value)
  | [] => []
  | (name, v) :: members => insertMember name (tidy v) (tidyMembers members)

end

/-! ## Equality -/

mutual

def same : Value → Value → Bool
  | .null, .null => true
  | .bool a, .bool b => a == b
  | .num m, .num n => m == n
  | .str s, .str t => s == t
  | .arr vs, .arr ws => sameItems vs ws
  | .obj vs, .obj ws => sameMembers vs ws
  | _, _ => false

def sameItems : List Value → List Value → Bool
  | [], [] => true
  | v :: vs, w :: ws => same v w && sameItems vs ws
  | _, _ => false

def sameMembers : List (String × Value) → List (String × Value) → Bool
  | [], [] => true
  | (m, v) :: vs, (n, w) :: ws => m == n && same v w && sameMembers vs ws
  | _, _ => false

end

mutual

theorem same_refl : ∀ v : Value, same v v = true
  | .null => rfl
  | .bool _ | .num _ | .str _ => beq_self_eq_true _
  | .arr vs => sameItems_refl vs
  | .obj vs => sameMembers_refl vs

theorem sameItems_refl : ∀ vs : List Value, sameItems vs vs = true
  | [] => rfl
  | v :: vs => by rw [sameItems, same_refl v, sameItems_refl vs]; rfl

theorem sameMembers_refl : ∀ vs : List (String × Value), sameMembers vs vs = true
  | [] => rfl
  | (m, v) :: vs => by rw [sameMembers, same_refl v, sameMembers_refl vs, beq_self_eq_true]; rfl

end

mutual

theorem eq_of_same : ∀ v w : Value, same v w = true → v = w
  | .null, .null, _ => rfl
  | .bool _, .bool _, h => congrArg _ (eq_of_beq h)
  | .num _, .num _, h => congrArg _ (eq_of_beq h)
  | .str _, .str _, h => congrArg _ (eq_of_beq h)
  | .arr vs, .arr ws, h => congrArg _ (eq_of_sameItems vs ws h)
  | .obj vs, .obj ws, h => congrArg _ (eq_of_sameMembers vs ws h)

theorem eq_of_sameItems : ∀ vs ws : List Value, sameItems vs ws = true → vs = ws
  | [], [], _ => rfl
  | v :: vs, w :: ws, h => by
    rw [sameItems, Bool.and_eq_true] at h
    rw [eq_of_same v w h.1, eq_of_sameItems vs ws h.2]

theorem eq_of_sameMembers : ∀ vs ws : List (String × Value), sameMembers vs ws = true → vs = ws
  | [], [], _ => rfl
  | (m, v) :: vs, (n, w) :: ws, h => by
    rw [sameMembers, Bool.and_eq_true, Bool.and_eq_true, beq_iff_eq] at h
    rw [h.1.1, eq_of_same v w h.1.2, eq_of_sameMembers vs ws h.2]

end

/-- Equal up to the order of members, of a repeated name by the last one. -/
def agrees (v w : Value) : Bool := same (tidy v) (tidy w)

theorem agrees_iff {v w : Value} : agrees v w = true ↔ tidy v = tidy w := by
  constructor
  · intro h
    exact eq_of_same _ _ h
  · intro h
    rw [agrees, h]
    exact same_refl _

end Json
