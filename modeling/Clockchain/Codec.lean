import Mathlib.Algebra.GroupWithZero.Nat
import Mathlib.Data.List.Basic
import Mathlib.Data.List.Induction

/-!
# Wire formats

A format writes a value as bytes, or refuses it, and reads a value off the front of its
input. It is faithful when what it has written is read back as the same value, whatever
bytes follow; records, options and repetitions of faithful formats are faithful.
-/

namespace Codec
set_option autoImplicit false

abbrev Bytes := List UInt8

/-- The last `width` bytes of `n`, the most significant first. -/
def beBytes (width : Nat) (n : Nat) : Bytes :=
  (List.range width).map fun i => UInt8.ofNat (n / 256 ^ (width - 1 - i))

def beNat (bs : Bytes) : Nat := bs.foldl (fun n b => 256 * n + b.toNat) 0

/-- A field behind its length. -/
def frame (x : Bytes) : Bytes := beBytes 4 x.length ++ x

def utf8 (s : String) : Bytes := s.toUTF8.data.toList

theorem beBytes_length (width n : Nat) : (beBytes width n).length = width := by
  simp [beBytes]

theorem beBytes_succ (width n : Nat) :
    beBytes (width + 1) n = beBytes width (n / 256) ++ [UInt8.ofNat n] := by
  simp only [beBytes, List.range_succ, List.map_append, List.map_cons, List.map_nil]
  congr 1
  · refine List.map_congr_left fun i hi => ?_
    rw [List.mem_range] at hi
    rw [Nat.div_div_eq_div_mul, ← Nat.pow_succ']
    congr 3
    omega
  · simp

theorem beNat_beBytes {width n : Nat} (h : n < 256 ^ width) : beNat (beBytes width n) = n := by
  induction width generalizing n with
  | zero =>
    have hn : n = 0 := by simpa using h
    simp [hn, beBytes, beNat]
  | succ width ih =>
    have hdiv : n / 256 < 256 ^ width := by
      rw [Nat.div_lt_iff_lt_mul (by decide), ← Nat.pow_succ]
      exact h
    have hlast := ih hdiv
    rw [beNat] at hlast
    rw [beBytes_succ, beNat, List.foldl_append, hlast]
    simp only [List.foldl_cons, List.foldl_nil, UInt8.toNat_ofNat']
    omega

theorem beBytes_inj {width m n : Nat} (hm : m < 256 ^ width) (hn : n < 256 ^ width)
    (h : beBytes width m = beBytes width n) : m = n :=
  (beNat_beBytes hm).symm.trans ((congrArg beNat h).trans (beNat_beBytes hn))

theorem beNat_concat (bs : Bytes) (b : UInt8) : beNat (bs ++ [b]) = 256 * beNat bs + b.toNat := by
  rw [beNat, beNat, List.foldl_append]
  rfl

theorem beNat_lt (bs : Bytes) : beNat bs < 256 ^ bs.length := by
  induction bs using List.reverseRecOn with
  | nil => decide
  | append_singleton bs b ih =>
    have hb : b.toNat < 256 := b.toNat_lt
    rw [beNat_concat, List.length_append, List.length_singleton, Nat.pow_succ]
    omega

theorem beBytes_beNat (bs : Bytes) : beBytes bs.length (beNat bs) = bs := by
  induction bs using List.reverseRecOn with
  | nil => rfl
  | append_singleton bs b ih =>
    have hb : b.toNat < 256 := b.toNat_lt
    have hdiv : (256 * beNat bs + b.toNat) / 256 = beNat bs := by omega
    have hlast : UInt8.ofNat (256 * beNat bs + b.toNat) = b := by
      rw [← UInt8.toNat_inj, UInt8.toNat_ofNat']
      omega
    rw [List.length_append, List.length_singleton, beBytes_succ, beNat_concat, hdiv, ih, hlast]

variable {ε α β : Type}

/-- Blocks of one length, one after the other, can be told apart. -/
theorem flatMap_injective {f : α → Bytes} {n : Nat} (hn : 0 < n) (hlen : ∀ a, (f a).length = n)
    (hf : ∀ a b, f a = f b → a = b) : Function.Injective fun xs : List α => xs.flatMap f := by
  have hcons : ∀ (a : α) (xs : List α), (a :: xs).flatMap f ≠ [] := by
    intro a xs h
    have hnil := List.append_eq_nil_iff.mp (List.flatMap_cons ▸ h)
    have hzero := hlen a
    rw [hnil.1, List.length_nil] at hzero
    omega
  intro xs
  induction xs with
  | nil =>
    intro ys h
    cases ys with
    | nil => rfl
    | cons b ys => exact absurd h.symm (hcons b ys)
  | cons a xs ih =>
    intro ys h
    cases ys with
    | nil => exact absurd h (hcons a xs)
    | cons b ys =>
      change f a ++ xs.flatMap f = f b ++ ys.flatMap f at h
      obtain ⟨hab, hrest⟩ := List.append_inj h ((hlen a).trans (hlen b).symm)
      rw [hf a b hab, ih hrest]

/-! ## Readers -/

/-- A reader takes a value off the front of its input. -/
abbrev Reader (ε : Type) := StateT Bytes (Except ε)

/-- The reader takes exactly `bs`, and it is `a`. -/
def Reads (g : Reader ε α) (bs : Bytes) (a : α) : Prop :=
  ∀ rest, g.run (bs ++ rest) = .ok (a, rest)

theorem Reads.pure (a : α) : Reads (Pure.pure a : Reader ε α) [] a := fun _ => rfl

theorem Reads.bind {g : Reader ε α} {k : α → Reader ε β} {bs cs : Bytes} {a : α} {b : β}
    (hg : Reads g bs a) (hk : Reads (k a) cs b) : Reads (g >>= k) (bs ++ cs) b := by
  intro rest
  rw [StateT.run_bind, List.append_assoc, hg (cs ++ rest)]
  exact hk rest

theorem Reads.map {g : Reader ε α} {bs : Bytes} {a : α} (h : Reads g bs a) (f : α → β) :
    Reads (f <$> g) bs (f a) := by
  intro rest
  rw [StateT.run_map, h rest]
  rfl

theorem Reads.unique {g : Reader ε α} {bs : Bytes} {a b : α} (ha : Reads g bs a)
    (hb : Reads g bs b) : a = b :=
  (Prod.mk.inj (Except.ok.inj ((ha []).symm.trans (hb [])))).1

/-- A check that does not fire reads nothing. -/
theorem Reads.past {c : Prop} [Decidable c] {g k : Reader ε α} {bs : Bytes} {a : α} (hc : ¬ c)
    (hk : Reads k bs a) : Reads (if c then g else k) bs a := by
  rwa [if_neg hc]

/-- `n` bytes, or the error for an input that is too short. -/
def take (short : ε) (n : Nat) : Reader ε Bytes := fun bs =>
  if bs.length < n then .error short else .ok (bs.take n, bs.drop n)

theorem take_reads (short : ε) (bs : Bytes) : Reads (take short bs.length) bs bs := by
  intro rest
  have hlen : ¬ (bs ++ rest).length < bs.length := by simp
  simp only [StateT.run, take, if_neg hlen, List.take_left, List.drop_left]

/-! ## Formats -/

/-- What is written for a value, if it can be, and how it is read. -/
structure Format (ε α : Type) where
  put : α → Except ε Bytes
  get : Reader ε α

/-- What is written is read back. -/
def Format.Faithful (f : Format ε α) : Prop :=
  ∀ (a : α) (bs : Bytes), f.put a = .ok bs → Reads f.get bs a

/-- One writer after the other. -/
def fields : List (Except ε Bytes) → Except ε Bytes
  | [] => .ok []
  | w :: ws => do return (← w) ++ (← fields ws)

@[simp] theorem fields_nil {bs : Bytes} :
    fields ([] : List (Except ε Bytes)) = .ok bs ↔ bs = [] := by
  rw [fields, Except.ok.injEq, eq_comm]

@[simp] theorem fields_cons {w : Except ε Bytes} {ws : List (Except ε Bytes)} {bs : Bytes} :
    fields (w :: ws) = .ok bs ↔ ∃ b c, w = .ok b ∧ fields ws = .ok c ∧ bs = b ++ c := by
  rw [fields]
  cases w with
  | error e => simp [bind, Except.bind]
  | ok b =>
    cases fields ws with
    | error e => simp [bind, Except.bind]
    | ok c => simp [bind, Except.bind, pure, Except.pure, eq_comm]

/-- A reader reads one field after the other, as they were written. -/
theorem Reads.field {w : Except ε Bytes} {ws : List (Except ε Bytes)} {g : Reader ε α}
    {k : α → Reader ε β} {bs : Bytes} {a : α} {b : β} (hg : ∀ cs, w = .ok cs → Reads g cs a)
    (h : fields (w :: ws) = .ok bs) (hk : ∀ cs, fields ws = .ok cs → Reads (k a) cs b) :
    Reads (g >>= k) bs b := by
  obtain ⟨cs, ds, hcs, hds, rfl⟩ := fields_cons.1 h
  exact (hg cs hcs).bind (hk ds hds)

theorem Reads.last (a : α) (bs : Bytes) (h : fields ([] : List (Except ε Bytes)) = .ok bs) :
    Reads (Pure.pure a : Reader ε α) bs a := by
  obtain rfl := fields_nil.1 h
  exact .pure a

/-- A big-endian number of `width` bytes. -/
def number (short : ε) (width : Nat) : Format ε (BitVec (8 * width)) where
  put n := .ok (beBytes width n.toNat)
  get := do return BitVec.ofNat (8 * width) (beNat (← take short width))

theorem number_faithful (short : ε) (width : Nat) : (number short width).Faithful := by
  intro n bs h
  obtain rfl := Except.ok.inj h
  have hlt : n.toNat < 256 ^ width := by
    have hpow : (256 : Nat) ^ width = 2 ^ (8 * width) := by rw [Nat.pow_mul]
    rw [hpow]
    exact n.isLt
  have htake := take_reads short (beBytes width n.toNat)
  rw [beBytes_length] at htake
  have hread := htake.map fun bs => BitVec.ofNat (8 * width) (beNat bs)
  rw [beNat_beBytes hlt, BitVec.ofNat_toNat, BitVec.setWidth_eq] at hread
  exact hread

/-- Two formats in sequence. -/
def Format.pair (f : Format ε α) (g : Format ε β) : Format ε (α × β) where
  put x := fields [f.put x.1, g.put x.2]
  get := do return (← f.get, ← g.get)

theorem Format.Faithful.pair {f : Format ε α} {g : Format ε β} (hf : f.Faithful)
    (hg : g.Faithful) : (f.pair g).Faithful := by
  rintro ⟨a, b⟩ bs h
  exact Reads.field (hf a) h fun _ h => Reads.field (hg b) h (Reads.last (a, b))

/-- A record, as the sequence of its fields. -/
def Format.record (f : Format ε α) (make : α → β) (parts : β → α) : Format ε β where
  put x := f.put (parts x)
  get := make <$> f.get

theorem Format.Faithful.record {f : Format ε α} (hf : f.Faithful) {make : α → β} {parts : β → α}
    (h : ∀ x, make (parts x) = x) : (f.record make parts).Faithful := by
  intro x bs hput
  have hread := (hf _ _ hput).map make
  rwa [h x] at hread

/-- A flag, and the value if the flag is set. -/
def Format.optional (flag : Format ε Bool) (f : Format ε α) : Format ε (Option α) where
  put
    | none => flag.put false
    | some a => fields [flag.put true, f.put a]
  get := do
    if ← flag.get then return some (← f.get) else return none

theorem Format.Faithful.optional {flag : Format ε Bool} {f : Format ε α} (hflag : flag.Faithful)
    (hf : f.Faithful) : (Format.optional flag f).Faithful := by
  intro x bs h
  cases x with
  | none =>
    have hread := (hflag _ _ h).bind (k := fun b => if b then some <$> f.get else Pure.pure none)
      (.pure (none : Option α))
    simpa [Format.optional] using hread
  | some a => exact Reads.field (hflag true) h fun _ h => Reads.field (hf a) h (Reads.last (some a))

/-- `n` values in sequence. -/
def Format.times (f : Format ε α) : Nat → Reader ε (List α)
  | 0 => return []
  | n + 1 => do return (← f.get) :: (← f.times n)

theorem Format.Faithful.times {f : Format ε α} (hf : f.Faithful) {xs : List α} {bs : Bytes}
    (h : fields (xs.map f.put) = .ok bs) : Reads (f.times xs.length) bs xs := by
  induction xs generalizing bs with
  | nil =>
    obtain rfl := fields_nil.1 h
    exact .pure []
  | cons x xs ih =>
    refine Reads.field (hf x) h fun cs h => ?_
    rw [← List.append_nil cs]
    exact (ih h).bind (.pure (x :: xs))

/-! ## What can be written -/

/-- The writer does not refuse. -/
def Writes (w : Except ε Bytes) : Prop := ∃ bs, w = .ok bs

theorem writes_nil : Writes (fields ([] : List (Except ε Bytes))) := ⟨[], rfl⟩

theorem writes_cons {w : Except ε Bytes} {ws : List (Except ε Bytes)} :
    Writes (fields (w :: ws)) ↔ Writes w ∧ Writes (fields ws) := by
  constructor
  · rintro ⟨bs, h⟩
    obtain ⟨b, c, hb, hc, -⟩ := fields_cons.1 h
    exact ⟨⟨b, hb⟩, ⟨c, hc⟩⟩
  · rintro ⟨⟨b, hb⟩, ⟨c, hc⟩⟩
    exact ⟨b ++ c, fields_cons.2 ⟨b, c, hb, hc, rfl⟩⟩

theorem writes_pair {f : Format ε α} {g : Format ε β} {x : α × β} :
    Writes ((f.pair g).put x) ↔ Writes (f.put x.1) ∧ Writes (g.put x.2) := by
  refine writes_cons.trans (and_congr_right fun _ => writes_cons.trans ?_)
  exact and_iff_left writes_nil

theorem writes_record {f : Format ε α} {make : α → β} {parts : β → α} {x : β} :
    Writes ((f.record make parts).put x) ↔ Writes (f.put (parts x)) := Iff.rfl

/-! ## How much is written -/

/-- The writer writes `n` bytes. -/
def Takes (w : Except ε Bytes) (n : Nat) : Prop := ∃ bs, w = .ok bs ∧ bs.length = n

theorem takes_nil : Takes (fields ([] : List (Except ε Bytes))) 0 := ⟨[], rfl, rfl⟩

theorem Takes.cons {w : Except ε Bytes} {ws : List (Except ε Bytes)} {m n : Nat} (hw : Takes w m)
    (hws : Takes (fields ws) n) : Takes (fields (w :: ws)) (m + n) := by
  obtain ⟨b, hb, rfl⟩ := hw
  obtain ⟨c, hc, rfl⟩ := hws
  exact ⟨b ++ c, fields_cons.2 ⟨b, c, hb, hc, rfl⟩, List.length_append⟩

theorem takes_number (short : ε) (width : Nat) (n : BitVec (8 * width)) :
    Takes ((number short width).put n) width := ⟨_, rfl, beBytes_length _ _⟩

theorem Takes.pair {f : Format ε α} {g : Format ε β} {x : α × β} {m n : Nat}
    (hf : Takes (f.put x.1) m) (hg : Takes (g.put x.2) n) : Takes ((f.pair g).put x) (m + n) :=
  hf.cons (hg.cons takes_nil)

theorem Takes.items {f : Format ε α} {n : Nat} (hf : ∀ a, Takes (f.put a) n) (xs : List α) :
    Takes (fields (xs.map f.put)) (xs.length * n) := by
  induction xs with
  | nil => rw [List.length_nil, Nat.zero_mul]; exact takes_nil
  | cons x xs ih =>
    rw [List.length_cons, Nat.succ_mul, Nat.add_comm]
    exact (hf x).cons ih

end Codec
