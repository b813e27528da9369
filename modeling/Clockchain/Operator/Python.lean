import Clockchain.V1.Linearization

/-!
# Python values

What the scripts under `ops` compute with: documents as `json.loads` gives them, strings as
code points, and the library functions that turn them into bytes.
-/

namespace Clockchain.Operator
open Codec Programs
open V1 (Hash hashBytes hashBytes_length)
set_option autoImplicit false

/-- A `str`, as its code points. -/
abbrev Text := List Nat

def text (s : String) : Text := s.toList.map Char.toNat

/-- A document. The order of a `dict` is never looked at, so its items stand in the order of
their keys. -/
inductive Py where
  | null
  | bool (b : Bool)
  | int (n : Int)
  | float (bits : BitVec 64)
  | str (s : Text)
  | list (items : List Py)
  | dict (items : List (Text × Py))

/-- What `seal_v1.py` and the library functions it calls raise. -/
inductive OpsError where
  | sealInvalid (message : String)
  | nodeKeyMismatch (message : String)
  | identityDrift (message : String)
  | regression (kind : String) (message : String)
  | logBroken (message : String)
  | config (message : String)
  | key | type | unicodeEncode | struct | value | os
  deriving Repr, DecidableEq

/-! ## Documents -/

/-- `isinstance(d, dict) and set(d) == keys`, the keys in their order. -/
def Py.hasKeys (keys : List String) : Py → Bool
  | .dict items => items.map Prod.fst = keys.map text
  | _ => false

/-- `d[name]`. -/
def Py.item (name : String) : Py → Except OpsError Py
  | .dict items =>
    match items.find? fun entry => entry.1 = text name with
    | some (_, value) => .ok value
    | none => .error .key
  | _ => .error .type

/-! ## Bytes -/

/-- One code point in UTF-8; a surrogate has no encoding. -/
def encodePoint (c : Nat) : Except OpsError Bytes :=
  if c < 0x80 then .ok [UInt8.ofNat c]
  else if c < 0x800 then .ok [UInt8.ofNat (0xc0 + c / 64), UInt8.ofNat (0x80 + c % 64)]
  else if 0xd800 ≤ c ∧ c ≤ 0xdfff then .error .unicodeEncode
  else if c < 0x10000 then
    .ok [UInt8.ofNat (0xe0 + c / 4096), UInt8.ofNat (0x80 + c / 64 % 64),
      UInt8.ofNat (0x80 + c % 64)]
  else
    .ok [UInt8.ofNat (0xf0 + c / 262144), UInt8.ofNat (0x80 + c / 4096 % 64),
      UInt8.ofNat (0x80 + c / 64 % 64), UInt8.ofNat (0x80 + c % 64)]

/-- `s.encode()`. -/
def encode : Text → Except OpsError Bytes
  | [] => .ok []
  | c :: s => do return (← encodePoint c) ++ (← encode s)

/-- `struct.pack` of an unsigned number of `width` bytes. -/
def pack (width n : Nat) : Except OpsError Bytes :=
  if n < 256 ^ width then .ok (beBytes width n) else .error .struct

def u16 (n : Nat) : Except OpsError Bytes := pack 2 n
def u32 (n : Nat) : Except OpsError Bytes := pack 4 n
def u64 (n : Nat) : Except OpsError Bytes := pack 8 n

def frame (domain : String) : Except OpsError Bytes := do
  let name ← encode (text domain)
  fields [u32 name.length, .ok name]

def hexDigit (n : Nat) : Nat := if n < 10 then 48 + n else 87 + n

/-- `bs.hex()`. -/
def hexText (bs : Bytes) : Text :=
  bs.flatMap fun b => [hexDigit (b.toNat / 16), hexDigit (b.toNat % 16)]

def isHexDigit (c : Nat) : Bool := (48 ≤ c && c ≤ 57) || (97 ≤ c && c ≤ 102)

/-- `HEX64.fullmatch(s)`. -/
def hex64 (s : Text) : Bool := s.length = 64 && s.all isHexDigit

def hexValue (c : Nat) : Option Nat :=
  if 48 ≤ c ∧ c ≤ 57 then some (c - 48)
  else if 97 ≤ c ∧ c ≤ 102 then some (c - 87)
  else if 65 ≤ c ∧ c ≤ 70 then some (c - 55)
  else none

def isSpace (c : Nat) : Bool := (9 ≤ c && c ≤ 13) || c = 32

/-- `bytes.fromhex(s)`: two digits a byte, and white space between them. -/
def fromhex : Text → Except OpsError Bytes
  | [] => .ok []
  | [a] => if isSpace a then .ok [] else .error .value
  | a :: b :: s =>
    if isSpace a then fromhex (b :: s)
    else
      match hexValue a, hexValue b with
      | some x, some y => do return UInt8.ofNat (16 * x + y) :: (← fromhex s)
      | _, _ => .error .value

theorem ok_bind {ε α β : Type} (a : α) (k : α → Except ε β) : (Except.ok a >>= k) = k a := rfl

/-! ## Strings -/

theorem text_inj {s t : String} : text s = text t ↔ s = t := by
  constructor
  · intro h
    apply String.toList_inj.mp
    exact List.map_injective_iff.mpr (fun _ _ h => Char.toNat_inj.mp h) h
  · exact congrArg text

/-- A character is encoded as the node encodes it. -/
theorem encodePoint_char (c : Char) : encodePoint c.toNat = .ok (String.utf8EncodeChar c) := by
  have hlt : c.toNat < 0x110000 := by
    have := c.valid
    simp only [UInt32.isValidChar, Nat.isValidChar] at this
    change c.toNat < 0xd800 ∨ 0xdfff < c.toNat ∧ c.toNat < 0x110000 at this
    omega
  have hsurrogate : ¬ (0xd800 ≤ c.toNat ∧ c.toNat ≤ 0xdfff) := by
    have := c.valid
    simp only [UInt32.isValidChar, Nat.isValidChar] at this
    change c.toNat < 0xd800 ∨ 0xdfff < c.toNat ∧ c.toNat < 0x110000 at this
    omega
  have hval : c.val.toNat = c.toNat := rfl
  rw [encodePoint, String.utf8EncodeChar, hval]
  by_cases h1 : c.toNat < 0x80
  · rw [if_pos h1, if_pos (show c.toNat ≤ 127 by omega)]
  rw [if_neg h1, if_neg (show ¬ c.toNat ≤ 127 by omega)]
  by_cases h2 : c.toNat < 0x800
  · rw [if_pos h2, if_pos (show c.toNat ≤ 2047 by omega),
      Nat.mod_eq_of_lt (show c.toNat / 64 < 0x20 by omega), Nat.add_comm 0xc0, Nat.add_comm 0x80]
  rw [if_neg h2, if_neg (show ¬ c.toNat ≤ 2047 by omega), if_neg hsurrogate]
  by_cases h3 : c.toNat < 0x10000
  · rw [if_pos h3, if_pos (show c.toNat ≤ 65535 by omega),
      Nat.mod_eq_of_lt (show c.toNat / 4096 < 0x10 by omega),
      Nat.add_comm 0xe0, Nat.add_comm 0x80, Nat.add_comm 0x80]
  · rw [if_neg h3, if_neg (show ¬ c.toNat ≤ 65535 by omega),
      Nat.mod_eq_of_lt (show c.toNat / 262144 < 0x08 by omega),
      Nat.add_comm 0xf0, Nat.add_comm 0x80, Nat.add_comm 0x80, Nat.add_comm 0x80]

theorem encode_chars (cs : List Char) :
    encode (cs.map Char.toNat) = .ok (cs.flatMap String.utf8EncodeChar) := by
  induction cs with
  | nil => rfl
  | cons c cs ih =>
    rw [List.map_cons, encode, encodePoint_char, ih]
    rfl

theorem toUTF8_eq (s : String) : s.toUTF8.data.toList = s.toList.flatMap String.utf8EncodeChar := by
  have h : s.toUTF8 = s.toList.utf8Encode := String.utf8Encode_toList.symm
  rw [h, List.utf8Encode]
  simp

theorem encode_text (s : String) : encode (text s) = .ok s.toUTF8.data.toList := by
  rw [text, encode_chars, toUTF8_eq]

theorem length_toUTF8 (s : String) : s.toUTF8.data.toList.length = s.utf8ByteSize := rfl

/-- A byte below 0x80 is a character of its own. -/
theorem encodePoint_graphic {c : Nat} {bs : Bytes} (h : encodePoint c = .ok bs) :
    (∀ b ∈ bs, 0x21 ≤ b ∧ b ≤ 0x7e) ↔ 33 ≤ c ∧ c ≤ 126 := by
  by_cases h1 : c < 0x80
  · rw [encodePoint, if_pos h1] at h
    obtain rfl := Except.ok.inj h
    rw [List.forall_mem_singleton, UInt8.le_iff_toNat_le, UInt8.le_iff_toNat_le,
      UInt8.toNat_ofNat', Nat.mod_eq_of_lt (by omega)]
    rfl
  refine iff_of_false (fun hall => ?_) (by omega)
  have hhigh : ∀ n, 0x80 ≤ n → n < 0x100 → UInt8.ofNat n ∉ bs := by
    intro n hn hlt hmem
    have hle := UInt8.le_iff_toNat_le.mp (hall _ hmem).2
    rw [UInt8.toNat_ofNat', Nat.mod_eq_of_lt (by omega)] at hle
    change n ≤ 126 at hle
    omega
  have hlast : UInt8.ofNat (0x80 + c % 64) ∈ bs := by
    rw [encodePoint, if_neg h1] at h
    split at h
    · obtain rfl := Except.ok.inj h
      simp
    split at h
    · cases h
    split at h
    all_goals
      obtain rfl := Except.ok.inj h
      simp
  exact hhigh _ (by omega) (by omega) hlast

theorem encode_graphic {s : Text} {bs : Bytes} (h : encode s = .ok bs) :
    (∀ b ∈ bs, 0x21 ≤ b ∧ b ≤ 0x7e) ↔ ∀ c ∈ s, 33 ≤ c ∧ c ≤ 126 := by
  induction s generalizing bs with
  | nil =>
    obtain rfl := Except.ok.inj h
    simp
  | cons c s ih =>
    obtain ⟨b, hb, h⟩ := bind_ok.mp h
    obtain ⟨cs, hcs, h⟩ := bind_ok.mp h
    obtain rfl := Except.ok.inj h
    rw [List.forall_mem_append, encodePoint_graphic hb, ih hcs, List.forall_mem_cons]

/-- A graphic text is a string of the node. -/
theorem exists_string {s : Text} (h : ∀ c ∈ s, 33 ≤ c ∧ c ≤ 126) : ∃ t : String, text t = s := by
  refine ⟨String.ofList (s.map Char.ofNat), ?_⟩
  rw [text, String.toList_ofList, List.map_map]
  refine (List.map_congr_left fun c hc => ?_).trans (List.map_id s)
  have hvalid : c.isValidChar := Or.inl (by have := h c hc; omega)
  rw [Function.comp_apply, Char.ofNat, dif_pos hvalid]
  rfl

/-! ## Hashes -/

theorem hexValue_digit {n : Nat} (h : n < 16) : hexValue (hexDigit n) = some n := by
  rw [hexDigit]
  split
  · rw [hexValue, if_pos (by omega)]
    simp
  · rw [hexValue, if_neg (by omega), if_pos (by omega)]
    simp

theorem hexDigit_isHex {n : Nat} (h : n < 16) : isHexDigit (hexDigit n) = true := by
  rw [hexDigit, isHexDigit, Bool.or_eq_true, Bool.and_eq_true, Bool.and_eq_true,
    decide_eq_true_iff, decide_eq_true_iff, decide_eq_true_iff, decide_eq_true_iff]
  split <;> omega

theorem isHexDigit_value {c : Nat} (h : isHexDigit c = true) :
    isSpace c = false ∧ ∃ n < 16, c = hexDigit n := by
  rw [isHexDigit, Bool.or_eq_true, Bool.and_eq_true, Bool.and_eq_true,
    decide_eq_true_iff, decide_eq_true_iff, decide_eq_true_iff, decide_eq_true_iff] at h
  constructor
  · rw [isSpace, Bool.or_eq_false_iff, Bool.and_eq_false_iff, decide_eq_false_iff_not,
      decide_eq_false_iff_not, decide_eq_false_iff_not]
    omega
  · rcases h with h | h
    · exact ⟨c - 48, by omega, by rw [hexDigit, if_pos (by omega)]; omega⟩
    · exact ⟨c - 87, by omega, by rw [hexDigit, if_neg (by omega)]; omega⟩

theorem fromhex_hexText (bs : Bytes) : fromhex (hexText bs) = .ok bs := by
  induction bs with
  | nil => rfl
  | cons b bs ih =>
    have hb : b.toNat < 256 := b.toNat_lt
    have hhigh : b.toNat / 16 < 16 := by omega
    have hlow : b.toNat % 16 < 16 := by omega
    have hspace := (isHexDigit_value (hexDigit_isHex hhigh)).1
    change fromhex (hexDigit (b.toNat / 16) :: hexDigit (b.toNat % 16) :: hexText bs) = _
    rw [fromhex, if_neg (by rw [hspace]; decide), hexValue_digit hhigh, hexValue_digit hlow, ih]
    have hbyte : UInt8.ofNat (16 * (b.toNat / 16) + b.toNat % 16) = b := by
      rw [Nat.div_add_mod, UInt8.ofNat_toNat]
    change Except.ok (_ :: bs) = _
    rw [hbyte]

theorem length_hexText (bs : Bytes) : (hexText bs).length = 2 * bs.length := by
  induction bs with
  | nil => rfl
  | cons b bs ih =>
    change (_ :: _ :: hexText bs).length = _
    rw [List.length_cons, List.length_cons, List.length_cons, ih]
    omega

theorem hexText_isHex (bs : Bytes) : (hexText bs).all isHexDigit = true := by
  induction bs with
  | nil => rfl
  | cons b bs ih =>
    have hb : b.toNat < 256 := b.toNat_lt
    change (_ :: _ :: hexText bs).all isHexDigit = true
    rw [List.all_cons, List.all_cons, ih, hexDigit_isHex (by omega), hexDigit_isHex (by omega)]
    rfl

/-- Digits in pairs are the digits of some bytes. -/
theorem exists_bytes {s : Text} {n : Nat} (hlen : s.length = 2 * n)
    (h : s.all isHexDigit = true) : ∃ bs : Bytes, bs.length = n ∧ s = hexText bs := by
  induction n generalizing s with
  | zero => exact ⟨[], rfl, List.eq_nil_of_length_eq_zero hlen⟩
  | succ n ih =>
    obtain ⟨a, s, rfl⟩ := List.exists_cons_of_length_pos (l := s) (by omega)
    obtain ⟨b, s, rfl⟩ := List.exists_cons_of_length_pos (l := s) (by
      rw [List.length_cons] at hlen
      omega)
    rw [List.all_cons, List.all_cons, Bool.and_eq_true, Bool.and_eq_true] at h
    obtain ⟨-, x, hx, rfl⟩ := isHexDigit_value h.1
    obtain ⟨-, y, hy, rfl⟩ := isHexDigit_value h.2.1
    obtain ⟨bs, hbs, rfl⟩ := ih (by simp only [List.length_cons] at hlen; omega) h.2.2
    refine ⟨UInt8.ofNat (16 * x + y) :: bs, by rw [List.length_cons, hbs], ?_⟩
    have hbyte : (UInt8.ofNat (16 * x + y)).toNat = 16 * x + y := by
      rw [UInt8.toNat_ofNat', Nat.mod_eq_of_lt (by omega)]
    change _ = hexDigit (_ / 16) :: hexDigit (_ % 16) :: hexText bs
    rw [hbyte, show (16 * x + y) / 16 = x by omega, show (16 * x + y) % 16 = y by omega]

theorem hexText_injective : Function.Injective hexText := by
  intro a b h
  exact Except.ok.inj ((fromhex_hexText a).symm.trans ((congrArg fromhex h).trans
    (fromhex_hexText b)))

/-- `hex::encode` of a hash. -/
def hashText (h : Hash) : Text := hexText (hashBytes h)

theorem hashText_injective : Function.Injective hashText :=
  hexText_injective.comp V1.hashBytes_injective

theorem exists_hash {bs : Bytes} (h : bs.length = 32) : ∃ id : Hash, hashBytes id = bs := by
  refine ⟨BitVec.ofNat 256 (beNat bs), ?_⟩
  rw [hashBytes, BitVec.toNat_ofNat, Nat.mod_eq_of_lt, ← h, beBytes_beNat]
  have := beNat_lt bs
  rw [h] at this
  exact this

/-- The regular expression accepts the hashes the node writes. -/
theorem hex64_iff {s : Text} : hex64 s = true ↔ ∃ h : Hash, s = hashText h := by
  rw [hex64, Bool.and_eq_true, decide_eq_true_iff]
  constructor
  · rintro ⟨hlen, hall⟩
    obtain ⟨bs, hbs, rfl⟩ := exists_bytes (n := 32) hlen hall
    obtain ⟨h, rfl⟩ := exists_hash hbs
    exact ⟨h, rfl⟩
  · rintro ⟨h, rfl⟩
    exact ⟨by rw [hashText, length_hexText, hashBytes_length], hexText_isHex _⟩

theorem fromhex_hashText (h : Hash) : fromhex (hashText h) = .ok (hashBytes h) :=
  fromhex_hexText _

/-! ## Items -/

/-- A document with these keys is the list of their values. -/
theorem hasKeys_iff {keys : List String} {d : Py} : d.hasKeys keys = true ↔
    ∃ values, values.length = keys.length ∧ d = .dict ((keys.map text).zip values) := by
  cases d with
  | dict items =>
    rw [Py.hasKeys, decide_eq_true_iff]
    constructor
    · intro h
      refine ⟨items.map Prod.snd, ?_, ?_⟩
      · rw [List.length_map, ← List.length_map (f := Prod.fst), h, List.length_map]
      · rw [← h]
        exact congrArg Py.dict (List.zip_of_prod rfl rfl)
    · rintro ⟨values, hlen, h⟩
      obtain rfl := Py.dict.inj h
      exact List.map_fst_zip (by rw [List.length_map, hlen])
  | _ => exact iff_of_false Bool.false_ne_true (by rintro ⟨values, -, h⟩; cases h)

theorem item_here {name : String} {value : Py} {items : List (Text × Py)} :
    (Py.dict ((text name, value) :: items)).item name = .ok value := by
  rw [Py.item, List.find?_cons_of_pos (by simp)]

theorem item_there {name other : String} {value : Py} {items : List (Text × Py)}
    (h : other ≠ name) :
    (Py.dict ((text other, value) :: items)).item name = (Py.dict items).item name := by
  rw [Py.item, List.find?_cons_of_neg (by simp only [text_inj, decide_eq_true_iff]; exact h),
    Py.item]

end Clockchain.Operator
