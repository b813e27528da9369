import Clockchain.Codec

/-!
# Formats that read only what is written

A format is exact when its reader takes off the front of its input exactly what its writer
writes for the value read. Numbers, records and options of exact formats are exact.
-/

namespace Codec
set_option autoImplicit false

variable {ε α β : Type}

/-- The input begins with what the writer writes. -/
def Begins (w : Except ε Bytes) (input rest : Bytes) : Prop := ∃ bs, w = .ok bs ∧ input = bs ++ rest

theorem Begins.nil (input : Bytes) : Begins (fields ([] : List (Except ε Bytes))) input input :=
  ⟨[], rfl, rfl⟩

theorem Begins.cons {w : Except ε Bytes} {ws : List (Except ε Bytes)} {input mid rest : Bytes}
    (h : Begins w input mid) (h' : Begins (fields ws) mid rest) :
    Begins (fields (w :: ws)) input rest := by
  obtain ⟨bs, hbs, rfl⟩ := h
  obtain ⟨cs, hcs, rfl⟩ := h'
  exact ⟨bs ++ cs, fields_cons.mpr ⟨bs, cs, hbs, hcs, rfl⟩, (List.append_assoc bs cs rest).symm⟩

/-- Only what is written is read. -/
def Format.Exact (f : Format ε α) : Prop :=
  ∀ ⦃input rest : Bytes⦄ ⦃a : α⦄, f.get.run input = .ok (a, rest) → Begins (f.put a) input rest

/-! ## Readers -/

theorem run_bind_iff {g : Reader ε α} {k : α → Reader ε β} {input rest : Bytes} {b : β} :
    (g >>= k).run input = .ok (b, rest) ↔
      ∃ a mid, g.run input = .ok (a, mid) ∧ (k a).run mid = .ok (b, rest) := by
  rw [StateT.run_bind]
  cases hg : g.run input with
  | error e => simp [bind, Except.bind]
  | ok p =>
    obtain ⟨a, mid⟩ := p
    simp [bind, Except.bind]

theorem run_map_iff {g : Reader ε α} {f : α → β} {input rest : Bytes} {b : β} :
    (f <$> g).run input = .ok (b, rest) ↔ ∃ a, g.run input = .ok (a, rest) ∧ f a = b := by
  rw [StateT.run_map]
  cases hg : g.run input with
  | error e => simp [Functor.map, Except.map]
  | ok p =>
    obtain ⟨a, mid⟩ := p
    simp [Functor.map, Except.map]
    grind

theorem run_pure_iff {input rest : Bytes} {a b : α} :
    (pure a : Reader ε α).run input = .ok (b, rest) ↔ a = b ∧ input = rest := by
  rw [StateT.run_pure]
  simp [pure, Except.pure]

theorem run_throw_iff {input rest : Bytes} {e : ε} {b : β} :
    ¬ (throw e : Reader ε β).run input = .ok (b, rest) := by
  rintro h
  nomatch h

theorem take_exact {short : ε} {n : Nat} {input rest bs : Bytes}
    (h : (take short n).run input = .ok (bs, rest)) : bs.length = n ∧ input = bs ++ rest := by
  simp only [StateT.run, take] at h
  split at h
  · cases h
  · next hlen =>
    obtain ⟨rfl, rfl⟩ := Prod.mk.inj (Except.ok.inj h)
    refine ⟨?_, (List.take_append_drop n input).symm⟩
    rw [List.length_take]
    omega

/-! ## Formats -/

theorem number_exact (short : ε) (width : Nat) : (number short width).Exact := by
  intro input rest a h
  obtain ⟨bs, mid, htake, hpure⟩ := run_bind_iff.mp h
  obtain ⟨rfl, rfl⟩ := run_pure_iff.mp hpure
  obtain ⟨hlen, rfl⟩ := take_exact htake
  refine ⟨bs, ?_, rfl⟩
  have hlt := beNat_lt bs
  have hpow : (256 : Nat) ^ width = 2 ^ (8 * width) := by rw [Nat.pow_mul]
  rw [hlen, hpow] at hlt
  have hnat : (BitVec.ofNat (8 * width) (beNat bs)).toNat = beNat bs := Nat.mod_eq_of_lt hlt
  have hbytes := beBytes_beNat bs
  rw [hlen] at hbytes
  change Except.ok (beBytes width (BitVec.ofNat (8 * width) (beNat bs)).toNat) = _
  rw [hnat, hbytes]

theorem Format.Exact.pair {f : Format ε α} {g : Format ε β} (hf : f.Exact) (hg : g.Exact) :
    (f.pair g).Exact := by
  intro input rest x h
  obtain ⟨a, mid, ha, h⟩ := run_bind_iff.mp h
  obtain ⟨b, mid', hb, h⟩ := run_bind_iff.mp h
  obtain ⟨rfl, rfl⟩ := run_pure_iff.mp h
  exact (hf ha).cons ((hg hb).cons (.nil mid'))

theorem Format.Exact.record {f : Format ε α} (hf : f.Exact) {make : α → β} {parts : β → α}
    (h : ∀ a, parts (make a) = a) : (f.record make parts).Exact := by
  intro input rest b hb
  obtain ⟨a, ha, rfl⟩ := run_map_iff.mp hb
  have hwritten := hf ha
  rwa [← h a] at hwritten

theorem Format.Exact.optional {flag : Format ε Bool} {f : Format ε α} (hflag : flag.Exact)
    (hf : f.Exact) : (Format.optional flag f).Exact := by
  intro input rest x h
  obtain ⟨b, mid, hb, h⟩ := run_bind_iff.mp h
  cases b with
  | false =>
    obtain ⟨rfl, rfl⟩ := run_pure_iff.mp h
    exact hflag hb
  | true =>
    obtain ⟨a, mid', ha, h⟩ := run_bind_iff.mp h
    obtain ⟨rfl, rfl⟩ := run_pure_iff.mp h
    exact (hflag hb).cons ((hf ha).cons (.nil mid'))

end Codec
