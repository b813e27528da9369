import Clockchain.Json
import Mathlib.Algebra.Group.Int.Defs

/-!
# Documents of the publisher

`serde_json::Value` as the publisher reads it. A text column is the list of its characters,
so that what is hashed of it is a function of that list.
-/

namespace Clockchain.V0.Publisher
open Codec
set_option autoImplicit false

/-- A number is an integer or the text of any other number; an object lists the members of
its map in their order. -/
inductive Value where
  | null
  | bool (b : Bool)
  | int (n : Int)
  | float (text : List Char)
  | str (s : String)
  | arr (items : List Value)
  | obj (members : List (String × Value))

abbrev Text := List Char

def Text.bytes (t : Text) : Bytes := t.flatMap String.utf8EncodeChar

def decimal (n : Int) : Text := if n < 0 then '-' :: Nat.toDigits 10 n.natAbs else
  Nat.toDigits 10 n.natAbs

def hexDigits (bytes : Bytes) : Text :=
  bytes.flatMap fun b => [Nat.digitChar (b.toNat / 16), Nat.digitChar (b.toNat % 16)]

def hexValue (c : Char) : Option Nat :=
  if c.isDigit then some (c.toNat - 48)
  else if 'a' ≤ c ∧ c ≤ 'f' then some (c.toNat - 87)
  else if 'A' ≤ c ∧ c ≤ 'F' then some (c.toNat - 55)
  else none

/-- `hex::decode`. -/
def hexDecode : Text → Option Bytes
  | [] => some []
  | [_] => none
  | a :: b :: rest => do
    return UInt8.ofNat (16 * (← hexValue a) + (← hexValue b)) :: (← hexDecode rest)

theorem hexDecode_hexDigits (bs : Bytes) : hexDecode (hexDigits bs) = some bs := by
  have hdigit : ∀ n < 16, hexValue (Nat.digitChar n) = some n := by decide
  induction bs with
  | nil => rfl
  | cons b bs ih =>
    have hb := b.toNat_lt
    have hbyte : UInt8.ofNat (16 * (b.toNat / 16) + b.toNat % 16) = b := by
      rw [Nat.div_add_mod]
      exact UInt8.ofNat_toNat
    have hcons : hexDigits (b :: bs) =
        Nat.digitChar (b.toNat / 16) :: Nat.digitChar (b.toNat % 16) :: hexDigits bs := rfl
    rw [hcons, hexDecode, hdigit _ (by omega), hdigit _ (by omega), ih]
    simp only [Option.bind_eq_bind, Option.bind_some, hbyte, Option.pure_def]

theorem hexDigits_length (bs : Bytes) : (hexDigits bs).length = 2 * bs.length := by
  induction bs with
  | nil => rfl
  | cons b bs ih =>
    have hcons : hexDigits (b :: bs) =
        Nat.digitChar (b.toNat / 16) :: Nat.digitChar (b.toNat % 16) :: hexDigits bs := rfl
    rw [hcons, List.length_cons, List.length_cons, List.length_cons, ih]
    omega

/-- Hex digits are written in lower case. -/
theorem mem_hexDigits {c : Char} {bs : Bytes} (h : c ∈ hexDigits bs) :
    c.isDigit = true ∨ 'a' ≤ c ∧ c ≤ 'f' := by
  have hdigit : ∀ n < 16, (Nat.digitChar n).isDigit = true ∨
      'a' ≤ Nat.digitChar n ∧ Nat.digitChar n ≤ 'f' := by decide
  obtain ⟨b, -, hc⟩ := List.mem_flatMap.mp h
  have hb := b.toNat_lt
  rcases List.mem_pair.mp hc with rfl | rfl
  · exact hdigit _ (by omega)
  · exact hdigit _ (by omega)

namespace Value

/-- `Value::get` of a name. -/
def get? : Value → String → Option Value
  | .obj members, key => (members.find? fun m => m.1 == key).map Prod.snd
  | _, _ => none

/-- `value[key]`. -/
def get (v : Value) (key : String) : Value := (v.get? key).getD .null

def asStr : Value → Option String
  | .str s => some s
  | _ => none

def asI64 : Value → Option Int
  | .int n => if -2 ^ 63 ≤ n ∧ n < 2 ^ 63 then some n else none
  | _ => none

def asU64 : Value → Option Nat
  | .int n => if 0 ≤ n ∧ n < 2 ^ 64 then some n.toNat else none
  | _ => none

def asArray : Value → Option (List Value)
  | .arr items => some items
  | _ => none

def asObject : Value → Option (List (String × Value))
  | .obj members => some members
  | _ => none

mutual

/-- `to_string`. -/
def write : Value → Text
  | .null => ['n', 'u', 'l', 'l']
  | .bool true => ['t', 'r', 'u', 'e']
  | .bool false => ['f', 'a', 'l', 's', 'e']
  | .int n => decimal n
  | .float text => text
  | .str s => Json.quote s
  | .arr [] => ['[', ']']
  | .arr (v :: vs) => '[' :: (write v ++ writeItems vs)
  | .obj [] => ['{', '}']
  | .obj ((name, v) :: members) =>
    '{' :: (Json.quote name ++ ':' :: (write v ++ writeMembers members))

/-- What follows the first item of an array. -/
def writeItems : List Value → Text
  | [] => [']']
  | v :: vs => ',' :: (write v ++ writeItems vs)

/-- What follows the first member of an object. -/
def writeMembers : List (String × Value) → Text
  | [] => ['}']
  | (name, v) :: members =>
    ',' :: (Json.quote name ++ ':' :: (write v ++ writeMembers members))

end

end Value

end Clockchain.V0.Publisher
