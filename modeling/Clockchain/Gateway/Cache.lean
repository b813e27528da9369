import Clockchain.Json
import Mathlib.Data.List.Basic
import Std.Data.ExtTreeMap

/-!
# The response cache

`cc-gateway/src/cache.rs`: entries of one corpus digest, the most recently observed one, with
the least recently used entries evicted first.
-/

namespace Clockchain.Gateway
open Json (Value)
set_option autoImplicit false

/-! ## Bodies -/

/-- How many bytes a string takes between quotes. -/
def quotedSize (s : String) : Nat :=
  2 + (s.toUTF8.data.toList.map fun b =>
    if b = 0x22 ∨ b = 0x5c then 2
    else if b = 0x08 ∨ b = 0x09 ∨ b = 0x0a ∨ b = 0x0c ∨ b = 0x0d then 2
    else if b < 0x20 then 6
    else 1).sum

mutual

/-- How many bytes the compact text of a value takes. -/
def size : Value → Nat
  | .null => 4
  | .bool true => 4
  | .bool false => 5
  | .num n => (Nat.toDigits 10 n).length
  | .str s => quotedSize s
  | .arr [] => 2
  | .arr (v :: vs) => 1 + size v + sizeItems vs
  | .obj [] => 2
  | .obj ((name, v) :: members) => 2 + quotedSize name + size v + sizeMembers members

/-- What follows the first item of an array. -/
def sizeItems : List Value → Nat
  | [] => 1
  | v :: vs => 1 + size v + sizeItems vs

/-- What follows the first member of an object. -/
def sizeMembers : List (String × Value) → Nat
  | [] => 1
  | (name, v) :: members => 2 + quotedSize name + size v + sizeMembers members

end

/-! ## The cache -/

/-- Bodies that take a number of bytes. -/
class Sized (β : Type) where
  size : β → Nat

instance sizedValue : Sized Value := ⟨size⟩

/-- One cached answer: the status the node gave and the stripped body. -/
structure Entry (β : Type) where
  status : Nat
  body : β

/-- `generation` is the digest the entries belong to, and when it was requested, in nanoseconds of
the gateway's clock; `order` has the keys of the entries under the ticks of their last uses. -/
structure Cache (β : Type) where
  freshness : Nat
  maxBytes : Nat
  generation : Option (String × Nat)
  entries : Std.ExtTreeMap String (Entry β × Nat)
  order : Std.ExtTreeMap Nat String
  tick : Nat
  bytes : Nat

namespace Cache
variable {β : Type}

def new (freshness : Nat) (maxBytes : Nat) : Cache β :=
  ⟨freshness, maxBytes, none, ∅, ∅, 0, 0⟩

def clear (c : Cache β) : Cache β := { c with entries := ∅, order := ∅, bytes := 0 }

def touch (c : Cache β) (key : String) : Cache β :=
  let tick := c.tick + 1
  match c.entries[key]? with
  | some (e, used) => { c with
      tick
      entries := c.entries.insert key (e, tick)
      order := (c.order.erase used).insert tick key }
  | none => { c with tick, order := c.order.insert tick key }

/-- The current digest, if it was observed within the freshness window. -/
def freshDigest (c : Cache β) (now : Nat) : Option String :=
  match c.generation with
  | some (d, since) => if now - since < c.freshness then some d else none
  | none => none

/-- A node read requested at `requested` answered `digest`. -/
def observe (c : Cache β) (digest : String) (requested : Nat) : Cache β :=
  match c.generation with
  | some (d, since) =>
    if requested < since then c
    else if d = digest then { c with generation := some (d, requested) }
    else { c with generation := some (digest, requested) }.clear
  | none => { c with generation := some (digest, requested) }.clear

def current (c : Cache β) (digest : String) : Bool :=
  match c.generation with
  | some (d, _) => d = digest
  | none => false

def get (c : Cache β) (digest key : String) : Option (Entry β) × Cache β :=
  if c.current digest then
    match c.entries[key]? with
    | some (e, _) => (some e, c.touch key)
    | none => (none, c)
  else (none, c)

/-- The least recently used entries go until `length` bytes fit. -/
def evict [Sized β] (length : Nat) : List (Nat × String) → Cache β → Cache β
  | [], c => c
  | (used, old) :: rest, c =>
    if c.maxBytes < c.bytes + length then
      let c := { c with order := c.order.erase used }
      evict length rest <| match c.entries[old]? with
        | some (e, _) => { c with
            entries := c.entries.erase old
            bytes := c.bytes - (old.utf8ByteSize + Sized.size e.body) }
        | none => c
    else c

def put [Sized β] (c : Cache β) (digest key : String) (e : Entry β) : Cache β :=
  let length := key.utf8ByteSize + Sized.size e.body
  if c.current digest = false then c
  else if c.entries.contains key ∨ c.maxBytes < length then c
  else
    let c := evict length c.order.toList c
    { c with
      bytes := c.bytes + length
      entries := c.entries.insert key (e, 0) }.touch key

/-! ## What the operations keep -/

/-- The cache holds the answer under the key. -/
def Has (c : Cache β) (key : String) (e : Entry β) : Prop :=
  ∃ used, c.entries[key]? = some (e, used)

variable {c : Cache β} {key key' digest : String} {e e' : Entry β}

@[simp] theorem touch_generation : (c.touch key).generation = c.generation := by
  unfold touch
  split <;> rfl

@[simp] theorem touch_freshness : (c.touch key).freshness = c.freshness := by
  unfold touch
  split <;> rfl

theorem touch_has : (c.touch key).Has key' e ↔ c.Has key' e := by
  unfold touch Has
  split
  · rename_i old used hold
    simp only [Std.ExtTreeMap.getElem?_insert, Std.LawfulEqCmp.compare_eq_iff_eq]
    by_cases hkey : key = key'
    · subst hkey
      simp [hold, eq_comm]
    · simp [hkey]
  · rfl

theorem clear_has : ¬ c.clear.Has key e := by
  rintro ⟨used, h⟩
  simp [clear] at h

theorem freshDigest_some {now : Nat} {d : String} (h : c.freshDigest now = some d) :
    ∃ since, c.generation = some (d, since) ∧ now < since + c.freshness := by
  unfold freshDigest at h
  split at h
  · rename_i d' since hgeneration
    split at h
    · obtain rfl := Option.some.inj h
      exact ⟨since, hgeneration, by omega⟩
    · nomatch h
  · nomatch h

theorem current_iff : c.current digest = true ↔ ∃ since, c.generation = some (digest, since) := by
  unfold current
  split
  · rename_i d since hgeneration
    simp [hgeneration, eq_comm]
  · rename_i hnone
    simp [hnone]

theorem get_some {found : Cache β} (h : c.get digest key = (some e, found)) :
    (∃ since, c.generation = some (digest, since)) ∧ c.Has key e ∧ found = c.touch key := by
  unfold get at h
  split at h
  · rename_i hcurrent
    split at h
    · rename_i e' used hentry
      obtain ⟨he, rfl⟩ := Prod.mk.inj h
      obtain rfl := Option.some.inj he
      exact ⟨current_iff.mp hcurrent, ⟨used, hentry⟩, rfl⟩
    · nomatch h
  · nomatch h

theorem get_none {found : Cache β} (h : c.get digest key = (none, found)) : found = c := by
  unfold get at h
  split at h
  · split at h
    · nomatch h
    · exact (Prod.mk.inj h).2.symm
  · exact (Prod.mk.inj h).2.symm

/-- A cache that holds no more than another, for the same digest. -/
structure Less (c' c : Cache β) : Prop where
  generation : c'.generation = c.generation
  freshness : c'.freshness = c.freshness
  has : ∀ key e, c'.Has key e → c.Has key e

theorem Less.refl (c : Cache β) : Less c c := ⟨rfl, rfl, fun _ _ h => h⟩

theorem Less.trans {c₁ c₂ c₃ : Cache β} (h : Less c₁ c₂) (h' : Less c₂ c₃) : Less c₁ c₃ :=
  ⟨h.generation.trans h'.generation, h.freshness.trans h'.freshness,
    fun key e he => h'.has key e (h.has key e he)⟩

theorem touch_less : Less (c.touch key) c :=
  ⟨touch_generation, touch_freshness, fun _ _ => touch_has.mp⟩

theorem evict_less [Sized β] (length : Nat) (oldest : List (Nat × String)) (c : Cache β) :
    Less (evict length oldest c) c := by
  induction oldest generalizing c with
  | nil => exact .refl c
  | cons head rest ih =>
    obtain ⟨used, old⟩ := head
    rw [evict]
    split
    · refine (ih _).trans ?_
      dsimp only
      split
      · refine ⟨rfl, rfl, ?_⟩
        rintro key e ⟨used', h⟩
        by_cases hkey : old = key
        · simp [hkey] at h
        · simp only [Std.ExtTreeMap.getElem?_erase, Std.LawfulEqCmp.compare_eq_iff_eq, hkey,
            if_false] at h
          exact ⟨used', h⟩
      · exact ⟨rfl, rfl, fun _ _ h => h⟩
    · exact .refl c

/-- What is put is there for the current digest only, beside what was. -/
theorem put_cases [Sized β] (c : Cache β) (digest key : String) (e : Entry β) :
    (c.put digest key e).generation = c.generation ∧
    (c.put digest key e).freshness = c.freshness ∧
    ∀ key' e', (c.put digest key e).Has key' e' →
      c.Has key' e' ∨ key' = key ∧ e' = e ∧ ∃ since, c.generation = some (digest, since) := by
  have hsame : c.generation = c.generation ∧ c.freshness = c.freshness ∧ ∀ key' e', c.Has key' e' →
      c.Has key' e' ∨ key' = key ∧ e' = e ∧ ∃ since, c.generation = some (digest, since) :=
    ⟨rfl, rfl, fun _ _ h => .inl h⟩
  unfold put
  dsimp only
  split
  · exact hsame
  · rename_i hcurrent
    rw [Bool.not_eq_false] at hcurrent
    split
    · exact hsame
    · have hless := evict_less (key.utf8ByteSize + Sized.size e.body) c.order.toList c
      refine ⟨?_, ?_, fun key' e' h => ?_⟩
      · rw [touch_generation]
        exact hless.generation
      · rw [touch_freshness]
        exact hless.freshness
      · obtain ⟨used, h⟩ := touch_has.mp h
        simp only [Std.ExtTreeMap.getElem?_insert, Std.LawfulEqCmp.compare_eq_iff_eq] at h
        split at h
        · rename_i hkey
          obtain ⟨he, -⟩ := Prod.mk.inj (Option.some.inj h)
          exact .inr ⟨hkey.symm, he.symm, current_iff.mp hcurrent⟩
        · exact .inl (hless.has key' e' ⟨used, h⟩)

/-- What an observation does to the cache. -/
theorem observe_cases (c : Cache β) (digest : String) (requested : Nat) :
    c.observe digest requested = c ∨
    (∃ since, c.generation = some (digest, since) ∧ since ≤ requested ∧
      c.observe digest requested = { c with generation := some (digest, requested) }) ∨
    (∀ d since, c.generation = some (d, since) → since ≤ requested) ∧
      c.observe digest requested = { c with generation := some (digest, requested) }.clear := by
  unfold observe
  split
  · rename_i d since hgeneration
    split
    · exact .inl rfl
    · rename_i hle
      split
      · rename_i hd
        subst hd
        exact .inr (.inl ⟨since, hgeneration, Nat.not_lt.mp hle, rfl⟩)
      · refine .inr (.inr ⟨fun d' since' h => ?_, rfl⟩)
        obtain ⟨-, rfl⟩ := Prod.mk.inj (Option.some.inj (hgeneration.symm.trans h))
        exact Nat.not_lt.mp hle
  · rename_i hnone
    refine .inr (.inr ⟨fun d since h => ?_, rfl⟩)
    rw [hnone] at h
    nomatch h

end Cache

end Clockchain.Gateway
