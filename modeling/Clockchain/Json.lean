import Clockchain.Codec

/-!
# JSON documents

Values with natural numbers only, an object being the list of its members, and their compact
text: no spaces, members in their order, and in a string only what must be escaped is.
-/

namespace Json
set_option autoImplicit false

variable {α β : Type}

inductive Value where
  | null
  | bool (b : Bool)
  | num (n : Nat)
  | str (s : String)
  | arr (items : List Value)
  | obj (members : List (String × Value))
  deriving Repr

/-! ## Text -/

def hexDigit (n : Nat) : Char := Nat.digitChar n

/-- A character of a string, escaped where it must be. -/
def escape (c : Char) : List Char :=
  if c = '"' then ['\\', '"']
  else if c = '\\' then ['\\', '\\']
  else if c.toNat = 8 then ['\\', 'b']
  else if c.toNat = 9 then ['\\', 't']
  else if c.toNat = 10 then ['\\', 'n']
  else if c.toNat = 12 then ['\\', 'f']
  else if c.toNat = 13 then ['\\', 'r']
  else if c.toNat < 32 then
    ['\\', 'u', '0', '0', hexDigit (c.toNat / 16), hexDigit (c.toNat % 16)]
  else [c]

def quote (s : String) : List Char := '"' :: (s.toList.flatMap escape ++ ['"'])

mutual

def write : Value → List Char
  | .null => ['n', 'u', 'l', 'l']
  | .bool true => ['t', 'r', 'u', 'e']
  | .bool false => ['f', 'a', 'l', 's', 'e']
  | .num n => Nat.toDigits 10 n
  | .str s => quote s
  | .arr [] => ['[', ']']
  | .arr (v :: vs) => '[' :: (write v ++ writeItems vs)
  | .obj [] => ['{', '}']
  | .obj ((name, v) :: members) => '{' :: (quote name ++ ':' :: (write v ++ writeMembers members))

/-- What follows the first item of an array. -/
def writeItems : List Value → List Char
  | [] => [']']
  | v :: vs => ',' :: (write v ++ writeItems vs)

/-- What follows the first member of an object. -/
def writeMembers : List (String × Value) → List Char
  | [] => ['}']
  | (name, v) :: members => ',' :: (quote name ++ ':' :: (write v ++ writeMembers members))

end

/-- The UTF-8 bytes of the text. -/
def bytes (v : Value) : Codec.Bytes := (String.ofList (write v)).toUTF8.data.toList

/-! ## Forms

How a type is written as a value, and how it is read: the members of an object in any order,
none of them twice, or the fields of a record by their place in an array.
-/

structure Form (α : Type) where
  put : α → Value
  get : Value → Option α

/-- The fields of a record under their names. -/
structure Members (α : Type) where
  names : List String
  put : α → List (String × Value)
  get : List (String × Value) → Option α
  /-- The fields in their places, and what is left of the array. -/
  seq : List Value → Option (α × List Value)

namespace Form

def text : Form String where
  put := .str
  get
    | .str s => some s
    | _ => none

def flag : Form Bool where
  put := .bool
  get
    | .bool b => some b
    | _ => none

/-- A number of so many bits. -/
def number (width : Nat) : Form (BitVec width) where
  put n := .num n.toNat
  get
    | .num n => if n < 2 ^ width then some (BitVec.ofNat width n) else none
    | _ => none

def option (f : Form α) : Form (Option α) where
  put
    | none => .null
    | some a => f.put a
  get
    | .null => some none
    | v => some <$> f.get v

def list (f : Form α) : Form (List α) where
  put xs := .arr (xs.map f.put)
  get
    | .arr items => items.mapM f.get
    | _ => none

def pair (f : Form α) (g : Form β) : Form (α × β) where
  put x := .arr [f.put x.1, g.put x.2]
  get
    | .arr [v, w] => do return (← f.get v, ← g.get w)
    | _ => none

/-- An enumeration under its names. -/
def tags [DecidableEq α] (table : List (String × α)) : Form α where
  put a := match table.find? fun entry => entry.2 = a with
    | some (name, _) => .str name
    | none => .null
  get
    | .str name => table.lookup name
    | .obj [(name, .null)] => table.lookup name
    | _ => none

/-- The reader of an enumeration: a name alone, or a name with what its variant carries. -/
def variant (units : List (String × α)) (carrying : List (String × (Value → Option α))) :
    Value → Option α
  | .str name => units.lookup name
  | .obj [(name, .null)] => (units.lookup name).or (do (← carrying.lookup name) .null)
  | .obj [(name, v)] => do (← carrying.lookup name) v
  | _ => none

end Form

namespace Members

def field (name : String) (f : Form α) : Members α where
  names := [name]
  put a := [(name, f.put a)]
  get members := do f.get (← members.lookup name)
  seq
    | [] => none
    | v :: vs => do return (← f.get v, vs)

/-- A field that may be left out of an object. -/
def optional (name : String) (f : Form α) : Members (Option α) where
  names := [name]
  put a := [(name, f.option.put a)]
  get members := match members.lookup name with
    | none => some none
    | some v => f.option.get v
  seq
    | [] => none
    | v :: vs => do return (← f.option.get v, vs)

def pair (f : Members α) (g : Members β) : Members (α × β) where
  names := f.names ++ g.names
  put x := f.put x.1 ++ g.put x.2
  get members := do return (← f.get members, ← g.get members)
  seq items := do
    let (a, items) ← f.seq items
    let (b, items) ← g.seq items
    return ((a, b), items)

def record (f : Members α) (make : α → β) (parts : β → α) : Members β where
  names := f.names
  put x := f.put (parts x)
  get members := make <$> f.get members
  seq items := do
    let (a, items) ← f.seq items
    return (make a, items)

/-- The known names are never repeated. -/
def once (f : Members α) (members : List (String × Value)) : Bool :=
  f.names.all fun name => (members.map Prod.fst).count name ≤ 1

def whole (f : Members α) (items : List Value) : Option α := do
  match ← f.seq items with
  | (a, []) => return a
  | _ => none

/-- Other names are ignored. -/
def lenient (f : Members α) : Form α where
  put a := .obj (f.put a)
  get
    | .obj members => if f.once members then f.get members else none
    | .arr items => f.whole items
    | _ => none

/-- Other names are refused. -/
def strict (f : Members α) : Form α where
  put a := .obj (f.put a)
  get
    | .obj members =>
      if f.once members && (members.map Prod.fst).all fun name => f.names.contains name then
        f.get members
      else none
    | .arr items => f.whole items
    | _ => none

end Members

end Json
