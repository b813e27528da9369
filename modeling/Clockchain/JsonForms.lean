import Clockchain.Json
import Mathlib.Data.List.Nodup

/-!
# Forms that read back what they write

A form is faithful if it reads from what it writes what it has written. The members of a record are
found by their names wherever they stand, so other members may stand among them.
-/

namespace Json
set_option autoImplicit false

variable {α β : Type}

/-- What the form writes it reads. -/
def Form.Faithful (f : Form α) : Prop := ∀ a, f.get (f.put a) = some a

/-- The form writes something for everything. -/
def Form.Solid (f : Form α) : Prop := ∀ a, f.put a ≠ .null

theorem Form.Faithful.injective {f : Form α} (h : f.Faithful) : Function.Injective f.put := by
  intro a b hab
  apply Option.some.inj
  rw [← h a, ← h b, hab]

/-- The members read what they write from every object that has them. -/
structure Members.Faithful (f : Members α) : Prop where
  named : ∀ a, (f.put a).map Prod.fst = f.names
  found : ∀ (a : α) (members : List (String × Value)),
    (∀ entry ∈ f.put a, members.lookup entry.1 = some entry.2) → f.get members = some a

/-! ## Values -/

namespace Form

theorem text_faithful : text.Faithful := fun _ => rfl

theorem text_solid : text.Solid := by
  rintro a ⟨⟩

theorem flag_faithful : flag.Faithful := fun _ => rfl

theorem number_faithful (width : Nat) : (number width).Faithful := by
  intro n
  have hlt : n.toNat < 2 ^ width := n.isLt
  simp only [number, hlt, if_true]
  rw [BitVec.ofNat_toNat, BitVec.setWidth_eq]

theorem list_solid (f : Form α) : f.list.Solid := by
  rintro xs ⟨⟩

theorem mapM_put {f : Form α} (h : f.Faithful) (xs : List α) :
    (xs.map f.put).mapM f.get = some xs := by
  induction xs with
  | nil => rfl
  | cons x xs ih => rw [List.map_cons, List.mapM_cons, h x, ih]; rfl

theorem Faithful.list {f : Form α} (h : f.Faithful) : f.list.Faithful := mapM_put h

/-- A missing value is told from a written one. -/
theorem Faithful.option {f : Form α} (h : f.Faithful) (solid : f.Solid) : f.option.Faithful := by
  intro a
  cases a with
  | none => rfl
  | some a =>
    have hget : f.option.get (f.put a) = some <$> f.get (f.put a) := by
      have hnull := solid a
      simp only [Form.option]
    change f.option.get (f.put a) = _
    rw [hget, h a]
    rfl

theorem Faithful.pair {f : Form α} {g : Form β} (hf : f.Faithful) (hg : g.Faithful) :
    (f.pair g).Faithful := by
  rintro ⟨a, b⟩
  simp only [Form.pair, hf a, hg b]
  rfl

end Form

/-! ## Members -/

namespace Members

theorem field_faithful {f : Form α} (name : String) (h : f.Faithful) :
    (field name f).Faithful where
  named _ := rfl
  found a members hmembers := by
    have hlookup := hmembers (name, f.put a) (List.mem_singleton.mpr rfl)
    change (members.lookup name).bind f.get = some a
    rw [hlookup]
    exact h a

theorem optional_faithful {f : Form α} (name : String) (h : f.option.Faithful) :
    (optional name f).Faithful where
  named _ := rfl
  found a members hmembers := by
    have hlookup := hmembers (name, f.option.put a) (List.mem_singleton.mpr rfl)
    simp only [optional, hlookup]
    exact h a

theorem Faithful.pair {f : Members α} {g : Members β} (hf : f.Faithful) (hg : g.Faithful) :
    (f.pair g).Faithful where
  named x := by
    change (f.put x.1 ++ g.put x.2).map Prod.fst = f.names ++ g.names
    rw [List.map_append, hf.named, hg.named]
  found x members hmembers := by
    have hfirst := hf.found x.1 members fun entry he => hmembers entry (List.mem_append_left _ he)
    have hsecond := hg.found x.2 members fun entry he => hmembers entry (List.mem_append_right _ he)
    simp only [Members.pair, hfirst, hsecond]
    rfl

theorem Faithful.record {f : Members α} (hf : f.Faithful) {make : α → β} {parts : β → α}
    (hmake : ∀ b, make (parts b) = b) : (f.record make parts).Faithful where
  named b := hf.named (parts b)
  found b members hmembers := by
    change make <$> f.get members = some b
    rw [hf.found (parts b) members hmembers]
    exact congrArg some (hmake b)

/-- Each member is found under its name. -/
theorem lookup_of_mem {members : List (String × Value)} (h : (members.map Prod.fst).Nodup)
    {entry : String × Value} (he : entry ∈ members) : members.lookup entry.1 = some entry.2 := by
  induction members with
  | nil => nomatch he
  | cons first members ih =>
    rw [List.map_cons, List.nodup_cons] at h
    rcases List.mem_cons.mp he with rfl | he
    · exact List.lookup_cons_self
    · have hne : entry.1 ≠ first.1 := by
        intro heq
        exact h.1 (heq ▸ List.mem_map_of_mem he)
      rw [List.lookup_cons, beq_false_of_ne hne]
      exact ih h.2 he

theorem once_of_nodup (f : Members α) {members : List (String × Value)}
    (h : (members.map Prod.fst).Nodup) : f.once members = true := by
  refine List.all_eq_true.mpr fun name _ => ?_
  exact decide_eq_true (List.nodup_iff_count_le_one.mp h name)

theorem Faithful.nodup {f : Members α} (hf : f.Faithful) (hnames : f.names.Nodup) (a : α) :
    ((f.put a).map Prod.fst).Nodup := by
  rw [hf.named]
  exact hnames

theorem Faithful.get_put {f : Members α} (hf : f.Faithful) (hnames : f.names.Nodup) (a : α) :
    f.get (f.put a) = some a :=
  hf.found a _ fun _ he => lookup_of_mem (hf.nodup hnames a) he

theorem Faithful.lenient {f : Members α} (hf : f.Faithful) (hnames : f.names.Nodup) :
    f.lenient.Faithful := by
  intro a
  change (if f.once (f.put a) then f.get (f.put a) else none) = some a
  rw [if_pos (once_of_nodup f (hf.nodup hnames a)), hf.get_put hnames]

theorem Faithful.strict {f : Members α} (hf : f.Faithful) (hnames : f.names.Nodup) :
    f.strict.Faithful := by
  intro a
  have hknown : (((f.put a).map Prod.fst).all fun name => f.names.contains name) = true := by
    rw [hf.named]
    exact List.all_eq_true.mpr fun name hname => List.contains_iff_mem.mpr hname
  change (if f.once (f.put a) && ((f.put a).map Prod.fst).all (fun name => f.names.contains name)
    then f.get (f.put a) else none) = some a
  rw [once_of_nodup f (hf.nodup hnames a), hknown]
  exact hf.get_put hnames a

/-- What the lenient form reads it reads among other members. -/
theorem Faithful.among {f : Members α} (hf : f.Faithful) {members : List (String × Value)}
    (hnodup : (members.map Prod.fst).Nodup) {a : α} (h : f.put a ⊆ members) :
    f.lenient.get (.obj members) = some a := by
  change (if f.once members then f.get members else none) = some a
  rw [if_pos (once_of_nodup f hnodup)]
  exact hf.found a members fun entry he => lookup_of_mem hnodup (h he)

theorem lenient_solid (f : Members α) : f.lenient.Solid := by
  rintro a ⟨⟩

theorem strict_solid (f : Members α) : f.strict.Solid := by
  rintro a ⟨⟩

end Members

/-! ## What has been read -/

namespace Members

theorem pair_get {f : Members α} {g : Members β} {members : List (String × Value)} {x : α × β} :
    (f.pair g).get members = some x ↔ f.get members = some x.1 ∧ g.get members = some x.2 := by
  obtain ⟨a, b⟩ := x
  simp only [pair, Option.bind_eq_bind, Option.bind_eq_some_iff, Option.pure_def, Option.some.injEq,
    Prod.mk.injEq]
  constructor
  · rintro ⟨a', ha, b', hb, rfl, rfl⟩
    exact ⟨ha, hb⟩
  · rintro ⟨ha, hb⟩
    exact ⟨a, ha, b, hb, rfl, rfl⟩

theorem record_get {f : Members α} {make : α → β} {parts : β → α}
    {members : List (String × Value)} {x : β} :
    (f.record make parts).get members = some x ↔ ∃ a, f.get members = some a ∧ make a = x :=
  Option.map_eq_some_iff

theorem field_get {f : Form α} {name : String} {members : List (String × Value)} {a : α} :
    (field name f).get members = some a ↔ ∃ v, members.lookup name = some v ∧ f.get v = some a :=
  Option.bind_eq_some_iff

theorem strict_lenient {f : Members α} {v : Value} {a : α} (h : f.strict.get v = some a) :
    f.lenient.get v = some a := by
  cases v with
  | obj members =>
    simp only [strict] at h
    split at h
    · next hknown =>
      rw [Bool.and_eq_true] at hknown
      simp only [lenient, hknown.1, if_true]
      exact h
    · cases h
  | arr items => exact h
  | null | bool b | num n | str s => cases h

/-- A record in an object is read from its members, none of which is repeated. -/
theorem lenient_get {f : Members α} {members : List (String × Value)} {a : α}
    (h : f.lenient.get (.obj members) = some a) : f.get members = some a ∧
      ∀ name ∈ f.names, (members.map Prod.fst).count name ≤ 1 := by
  simp only [lenient] at h
  split at h
  · next honce => exact ⟨h, fun name hname => of_decide_eq_true (List.all_eq_true.mp honce _ hname)⟩
  · cases h

end Members

theorem Form.option_get {f : Form α} {v : Value} {a : Option α} (h : f.option.get v = some a) :
    v = .null ∧ a = none ∨ ∃ b, a = some b ∧ f.get v = some b := by
  cases v with
  | null => exact .inl ⟨rfl, (Option.some.inj h).symm⟩
  | bool b | num n | str s | arr items | obj members =>
    obtain ⟨b, hb, rfl⟩ := Option.map_eq_some_iff.mp h
    exact .inr ⟨b, rfl, hb⟩

theorem Form.text_get {v : Value} {s : String} (h : text.get v = some s) : v = .str s := by
  cases v with
  | str t => exact congrArg Value.str (Option.some.inj h)
  | null | bool b | num n | arr items | obj members => cases h

theorem Form.number_get {width : Nat} {v : Value} {n : BitVec width}
    (h : (number width).get v = some n) : v = (number width).put n := by
  cases v with
  | num k =>
    simp only [number] at h ⊢
    split at h
    · next hlt =>
      obtain rfl := Option.some.inj h
      rw [BitVec.toNat_ofNat, Nat.mod_eq_of_lt hlt]
    · cases h
  | null | bool b | str s | arr items | obj members => cases h

/-- What is read of items that are each written is what is written. -/
theorem Form.mapM_get {f : Form α} (h : ∀ v a, f.get v = some a → v = f.put a) {items : List Value}
    {xs : List α} (hitems : items.mapM f.get = some xs) : items = xs.map f.put := by
  induction items generalizing xs with
  | nil =>
    rw [List.mapM_nil] at hitems
    obtain rfl := Option.some.inj hitems
    rfl
  | cons v items ih =>
    rw [List.mapM_cons, Option.bind_eq_bind, Option.bind_eq_some_iff] at hitems
    obtain ⟨x, hx, hmore⟩ := hitems
    obtain ⟨rest, hrest, hcons⟩ := Option.bind_eq_some_iff.mp hmore
    obtain rfl := Option.some.inj hcons
    rw [List.map_cons, ← h v x hx, ← ih hrest]

/-- A member that may be left out is missing, null, or read. -/
theorem Members.optional_get {f : Form α} {name : String} {members : List (String × Value)}
    {a : Option α} (h : (optional name f).get members = some a) :
    a = none ∧ (members.lookup name = none ∨ members.lookup name = some .null) ∨
      ∃ v b, members.lookup name = some v ∧ a = some b ∧ f.get v = some b := by
  simp only [optional] at h
  cases hv : members.lookup name with
  | none =>
    rw [hv] at h
    exact .inl ⟨(Option.some.inj h).symm, .inl rfl⟩
  | some v =>
    rw [hv] at h
    rcases Form.option_get h with ⟨rfl, rfl⟩ | ⟨b, rfl, hb⟩
    · exact .inl ⟨rfl, .inr rfl⟩
    · exact .inr ⟨v, b, rfl, rfl, hb⟩

end Json
