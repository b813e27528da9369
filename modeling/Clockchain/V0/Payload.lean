import Clockchain.Exact
import Clockchain.V0.Canon
import Clockchain.V0.Ledger

/-!
# Payloads

What `canon_event` writes for an event comes back from `parse_event` as the same event. The
converse fails: `parse_event` reads the two version words, and the stored coordinates behind the
tags of an unknown start and of an end that is not closed, without looking at them.
-/

namespace Clockchain.V0
open Codec Programs
open V1 (Hash BTreeMap Crypto Verify)
set_option autoImplicit false

/-! ## Written and read back -/

/-- The strings of a body fit their frames. -/
def EventBody.Framed : EventBody → Prop
  | .entityCreate e => e.resolutionKey.utf8ByteSize < 2 ^ 32 ∧ e.canonicalName.utf8ByteSize < 2 ^ 32
  | .vocabularyDeclare v => v.label.utf8ByteSize < 2 ^ 32
  | _ => True

theorem writes_framed {x : Bytes} (h : x.length < 2 ^ 32) : Writes (framed.put x) := by
  simp only [framed, if_neg (Nat.not_le.mpr h)]
  exact writes_cons.mpr ⟨⟨_, rfl⟩, writes_cons.mpr ⟨⟨x, rfl⟩, writes_nil⟩⟩

theorem writes_text {s : String} (h : s.utf8ByteSize < 2 ^ 32) : Writes (text.put s) :=
  writes_framed h

theorem writes_tag {α : Type} [DecidableEq α] (table : List α) (a : α) :
    Writes ((tag table).put a) :=
  ⟨_, rfl⟩

theorem writes_window (w : ExistenceWindow) : Writes (window.put w) := by
  refine writes_record.mpr (writes_pair.mpr ⟨writes_tag _ _, ?_⟩)
  refine writes_pair.mpr ⟨writes_tag _ _, writes_pair.mpr ⟨?_, ?_⟩⟩
  · exact ⟨_, rfl⟩
  · exact ⟨_, rfl⟩

theorem writes_supersedes (p : Option Hash) : Writes (supersedesFlag.put p) := by
  cases p with
  | none => exact writes_tag _ _
  | some id =>
    exact writes_cons.mpr ⟨writes_tag _ _, writes_cons.mpr ⟨⟨_, rfl⟩, writes_nil⟩⟩

theorem writes_body {body : EventBody} (h : body.Framed) : Writes (putBody body) := by
  cases body with
  | entityCreate e =>
    exact writes_cons.mpr ⟨⟨_, rfl⟩, writes_cons.mpr ⟨writes_text h.1,
      writes_cons.mpr ⟨writes_text h.2, writes_cons.mpr ⟨writes_window _, writes_nil⟩⟩⟩⟩
  | moment m =>
    exact writes_cons.mpr ⟨⟨_, rfl⟩, writes_cons.mpr ⟨⟨_, rfl⟩, writes_nil⟩⟩
  | edge ed =>
    exact writes_cons.mpr ⟨⟨_, rfl⟩, writes_cons.mpr ⟨⟨_, rfl⟩,
      writes_cons.mpr ⟨writes_tag _ _, writes_cons.mpr ⟨writes_tag _ _, writes_nil⟩⟩⟩⟩
  | vocabularyDeclare v =>
    exact writes_cons.mpr ⟨⟨_, rfl⟩, writes_cons.mpr ⟨writes_text h,
      writes_cons.mpr ⟨writes_window _, writes_nil⟩⟩⟩
  | attestation a => exact ⟨[], rfl⟩

theorem writes_canonFields {c : EventContent} (h : c.body.Framed) : Writes (canonFields c) := by
  cases hbody : c.body with
  | attestation a =>
    simp only [canonFields, hbody]
    exact writes_cons.mpr ⟨⟨_, rfl⟩, writes_cons.mpr ⟨⟨_, rfl⟩,
      writes_cons.mpr ⟨⟨_, rfl⟩, writes_nil⟩⟩⟩
  | _ =>
    rw [hbody] at h
    simp only [canonFields, hbody]
    exact writes_cons.mpr ⟨⟨_, rfl⟩, writes_cons.mpr ⟨writes_supersedes _,
      writes_cons.mpr ⟨writes_body h, writes_nil⟩⟩⟩

theorem writes_canonEvent {c : EventContent} (h : c.body.Framed) : Writes (canonEvent c) := by
  have hdst : c.body.dst.toUTF8.data.toList.length < 2 ^ 32 := by
    cases c.body <;> simp only [EventBody.dst] <;> decide
  exact writes_cons.mpr ⟨writes_framed hdst, writes_cons.mpr ⟨⟨_, rfl⟩,
    writes_cons.mpr ⟨⟨_, rfl⟩, writes_cons.mpr ⟨writes_canonFields h, writes_nil⟩⟩⟩⟩

/-- The envelope of an event gives back what its payload leaves out. -/
theorem readBack_own {c : EventContent} (h : ∀ a, c.body = .attestation a → c.supersedes = none) :
    c.readBack c.eventTime c.recordTime c.author = c := by
  unfold EventContent.readBack
  split
  · next a ha =>
    obtain ⟨eventTime, recordTime, author, supersedes, body⟩ := c
    obtain rfl : supersedes = none := h a ha
    rw [← ha]
  · rfl

/-- The keys play no part in the bytes. -/
theorem sameIdentity_of_canon (cr : Crypto) {c d : EventContent} {canon : Bytes}
    (hc : canonEvent c = .ok canon) (hd : canonEvent d = .ok canon) : c.SameIdentity d :=
  canonEvent_injective { cr with authorKey := fun _ => true } rfl rfl hc hd

/-- The preimage of an event is read back as the event, and what shares it shares the kind and
the fields that identify it. -/
theorem canon_decodable (cr : Crypto) :
    (∀ c : EventContent, cr.authorKey c.author = true → c.body.Framed →
      (∀ a, c.body = .attestation a → c.supersedes = none) →
      ∃ canon, canonEvent c = .ok canon ∧
        parseEvent cr canon c.eventTime c.recordTime c.author = .ok c) ∧
    (∀ (c d : EventContent) (canon : Bytes), canonEvent c = .ok canon → canonEvent d = .ok canon →
      c.body.kind = d.body.kind ∧ c.body = d.body ∧
      (c.body.kind ≠ .attestation → c.eventTime = d.eventTime ∧ c.supersedes = d.supersedes) ∧
      (c.body.kind = .attestation → c.author = d.author ∧ c.recordTime = d.recordTime)) ∧
    ∀ (c d : EventContent) (canon canon' : Bytes), canonEvent c = .ok canon →
      canonEvent d = .ok canon' → Set.InjOn cr.sha256 {canon, canon'} →
      h0 cr canon = h0 cr canon' → c.body.kind = d.body.kind ∧ c.body = d.body := by
  refine ⟨fun c hkey hframed hsuper => ?_, fun c d canon hc hd => ?_,
    fun c d canon canon' hc hd hinj hid => ?_⟩
  · obtain ⟨canon, hcanon⟩ := writes_canonEvent hframed
    refine ⟨canon, hcanon, ?_⟩
    rw [parseEvent_canon cr hkey hcanon, readBack_own hsuper]
  · have hsame := sameIdentity_of_canon cr hc hd
    refine ⟨congrArg EventBody.kind hsame.body, hsame.body, fun hkind => ?_, fun hkind => ?_⟩
    · refine hsame.lineage fun a ha => hkind ?_
      rw [ha]
      rfl
    · cases hbody : c.body with
      | attestation a => exact hsame.attester hbody
      | _ =>
        rw [hbody] at hkind
        nomatch hkind
  · obtain rfl : canon = canon' := hinj (by simp) (by simp) hid
    have hsame := sameIdentity_of_canon cr hc hd
    exact ⟨congrArg EventBody.kind hsame.body, hsame.body⟩

namespace PayloadSample

def crypto : Crypto where
  sha256 bs := BitVec.ofNat 256 bs.length
  authorKey key := key = 7

def moment : EventContent := ⟨5, 9, 7, some 3, .moment ⟨42, 11⟩⟩

theorem moment_decodable : ∃ canon, canonEvent moment = .ok canon ∧
    parseEvent crypto canon 5 9 7 = .ok moment :=
  (canon_decodable crypto).1 moment rfl trivial (by simp [moment])

end PayloadSample

/-! ## What is read and not kept -/

theorem framed_exact : framed.Exact := by
  intro input rest x h
  obtain ⟨n, mid, hn, htake⟩ := run_bind_iff.mp h
  obtain ⟨hlen, rfl⟩ := take_exact htake
  have hlt : x.length < 2 ^ 32 := hlen ▸ n.isLt
  have hn' : BitVec.ofNat 32 x.length = n := by
    rw [hlen, BitVec.ofNat_toNat, BitVec.setWidth_eq]
  have hnum := number_exact CoreError.malformedPayload 4 hn
  simp only [framed, if_neg (Nat.not_le.mpr hlt), hn']
  exact hnum.cons (Begins.cons ⟨x, rfl, rfl⟩ (.nil rest))

theorem text_exact : text.Exact := by
  intro input rest s h
  obtain ⟨x, mid, hx, h⟩ := run_bind_iff.mp h
  have hs : String.fromUTF8? ⟨x.toArray⟩ = some s ∧ mid = rest := by
    split at h
    · next s' hs' =>
      obtain ⟨rfl, rfl⟩ := run_pure_iff.mp h
      exact ⟨hs', rfl⟩
    · exact absurd h run_throw_iff
  obtain ⟨hs, rfl⟩ := hs
  have hbytes : s.toUTF8.data.toList = x := by
    unfold String.fromUTF8? at hs
    split at hs
    · obtain rfl := Option.some.inj hs
      rfl
    · nomatch hs
  have hwritten := framed_exact hx
  rwa [← hbytes] at hwritten

theorem tag_exact {α : Type} [DecidableEq α] {table : List α} (hnodup : table.Nodup) :
    (tag table).Exact := by
  intro input rest a h
  obtain ⟨n, mid, hn, h⟩ := run_bind_iff.mp h
  have ha : table[n.toNat]? = some a ∧ mid = rest := by
    split at h
    · next a' ha' =>
      obtain ⟨rfl, rfl⟩ := run_pure_iff.mp h
      exact ⟨ha', rfl⟩
    · exact absurd h run_throw_iff
  obtain ⟨ha, rfl⟩ := ha
  have hidx : BitVec.ofNat 8 (table.idxOf a) = n := by
    obtain ⟨hlt, rfl⟩ := List.getElem?_eq_some_iff.mp ha
    rw [hnodup.idxOf_getElem, BitVec.ofNat_toNat, BitVec.setWidth_eq]
  have hwritten := number_exact CoreError.malformedPayload 1 hn
  rwa [← hidx] at hwritten

theorem tick_exact : tick.Exact :=
  (number_exact CoreError.malformedPayload 32).record fun n => by
    rw [Tick.toCanon, Tick.ofCanon, BitVec.xor_assoc, BitVec.xor_self, BitVec.xor_zero]

theorem supersedesFlag_exact : supersedesFlag.Exact := by
  have hflag : (tag [false, true]).Exact := tag_exact (by decide)
  exact hflag.optional (number_exact CoreError.malformedPayload 32)

/-- The version words of a payload, behind its framed domain tag. -/
def versionWords (payload : Bytes) : Bytes :=
  (payload.drop (4 + beNat (payload.take 4))).take 4

def domainTag (payload : Bytes) : Bytes := (payload.drop 4).take (beNat (payload.take 4))

/-- The stored window a birth or a declaration ends with: closure tag, start tag, start, end. -/
def windowBytes (payload : Bytes) : Bytes := payload.drop (payload.length - 66)

def sentinelBytes : Bytes := List.replicate 32 0xff

/-- The coordinates that the tags say nothing about are the sentinel. -/
def SilentEnds (w : Bytes) : Prop :=
  (w[1]? = some 1 → (w.drop 2).take 32 = sentinelBytes) ∧
    (w[0]? ≠ some 1 → w.drop 34 = sentinelBytes)

/-- The payload is of the current version, and its window has no coordinate to overlook. -/
def Plain (payload : Bytes) : Prop :=
  versionWords payload = [0, 0, 0, 0] ∧
    (domainTag payload = dstEntity.toUTF8.data.toList ∨
      domainTag payload = dstVocab.toUTF8.data.toList → SilentEnds (windowBytes payload))

instance (w : Bytes) : Decidable (SilentEnds w) := by unfold SilentEnds; infer_instance

instance (payload : Bytes) : Decidable (Plain payload) := by unfold Plain; infer_instance

/-! ### One field after the other -/

/-- What is left of the fields is what is left of the input. -/
theorem peel {α : Type} {f : CanonFormat α} (hf : f.Exact) {input mid : Bytes} {a : α}
    (h : f.get.run input = .ok (a, mid)) (ws : List (Except CoreError Bytes)) :
    fields (f.put a :: ws) = .ok input ↔ fields ws = .ok mid := by
  obtain ⟨bs, hbs, rfl⟩ := hf h
  rw [fields_cons]
  constructor
  · rintro ⟨bs', cs, hbs', hcs, heq⟩
    obtain rfl := Except.ok.inj (hbs.symm.trans hbs')
    rw [List.append_cancel_left heq, hcs]
  · intro hcs
    exact ⟨bs, mid, hbs, hcs, rfl⟩

theorem suffix_of_exact {α : Type} {f : CanonFormat α} (hf : f.Exact) {input mid : Bytes} {a : α}
    (h : f.get.run input = .ok (a, mid)) : mid <:+ input := by
  obtain ⟨bs, -, rfl⟩ := hf h
  exact List.suffix_append bs mid

theorem fields_singleton {w : Except CoreError Bytes} {input : Bytes} :
    fields [w] = .ok input ↔ w = .ok input := by
  rw [fields_cons]
  constructor
  · rintro ⟨bs, cs, hbs, hcs, rfl⟩
    obtain rfl := fields_nil.mp hcs
    rw [hbs, List.append_nil]
  · intro h
    exact ⟨input, [], h, rfl, (List.append_nil input).symm⟩

/-! ### Windows -/

/-- The window as it is stored. -/
def storedWindow : CanonFormat (ClosureState × StartState × Tick × Tick) :=
  closureState.pair (startState.pair (tick.pair tick))

theorem storedWindow_exact : storedWindow.Exact := by
  have hclosure : closureState.Exact := tag_exact (by decide)
  have hstart : startState.Exact := tag_exact (by decide)
  exact hclosure.pair (hstart.pair (tick_exact.pair tick_exact))

def ClosureState.byte : ClosureState → UInt8
  | .knownOpen => 0
  | .knownClosed => 1
  | .unknownClosure => 2

def StartState.byte : StartState → UInt8
  | .known => 0
  | .unknown => 1

theorem storedWindow_put (closure : ClosureState) (start : StartState) (s e : Tick) :
    storedWindow.put (closure, start, s, e) =
      .ok
      (closure.byte :: start.byte ::
      (beBytes 32 s.toCanon.toNat ++ beBytes 32 e.toCanon.toNat)) := by
  have hclosure : closureState.put closure = .ok [closure.byte] := by cases closure <;> rfl
  have hstart : startState.put start = .ok [start.byte] := by cases start <;> rfl
  have htick : ∀ t : Tick, tick.put t = .ok (beBytes 32 t.toCanon.toNat) := fun _ => rfl
  refine fields_cons.mpr ⟨_, _, hclosure, fields_singleton.mpr ?_, rfl⟩
  refine fields_cons.mpr ⟨_, _, hstart, fields_singleton.mpr ?_, rfl⟩
  exact fields_cons.mpr ⟨_, _, htick s, fields_singleton.mpr (htick e), rfl⟩

theorem beBytes_sentinel {t : Tick} :
    beBytes 32 t.toCanon.toNat = sentinelBytes ↔ t = sentinel := by
  have hsentinel : beBytes 32 sentinel.toCanon.toNat = sentinelBytes := by decide
  rw [← hsentinel]
  constructor
  · intro h
    have hnat := beBytes_inj t.toCanon.isLt sentinel.toCanon.isLt h
    exact Tick.toCanon_injective (BitVec.toNat_inj.mp hnat)
  · rintro rfl
    rfl

/-- A stored window is written back when its tags leave no coordinate out. -/
theorem window_plain {input : Bytes} {w : ExistenceWindow}
    (h : window.get.run input = .ok (w, [])) :
    input.length = 66 ∧ (window.put w = .ok input ↔ SilentEnds input) := by
  obtain ⟨⟨closure, start, s, e⟩, hq, rfl⟩ := run_map_iff.mp h
  obtain ⟨bs, hbs, rfl⟩ := storedWindow_exact hq
  rw [storedWindow_put] at hbs
  obtain rfl := Except.ok.inj hbs
  have hlen : ∀ n, (beBytes 32 n).length = 32 := beBytes_length 32
  have hput :
      ∀ s' e', storedWindow.put (closure, start, s', e') = .ok (closure.byte :: start.byte ::
      (beBytes 32 s.toCanon.toNat ++ beBytes 32 e.toCanon.toNat) ++ []) ↔ s' = s ∧ e' = e := by
    intro s' e'
    rw [storedWindow_put, Except.ok.injEq, List.append_nil]
    constructor
    · intro h
      obtain ⟨hs, he⟩ := List.append_inj (List.cons.inj (List.cons.inj h).2).2 (by rw [hlen, hlen])
      have hs' := beBytes_inj s'.toCanon.isLt s.toCanon.isLt hs
      have he' := beBytes_inj e'.toCanon.isLt e.toCanon.isLt he
      exact ⟨Tick.toCanon_injective (BitVec.toNat_inj.mp hs'),
        Tick.toCanon_injective (BitVec.toNat_inj.mp he')⟩
    · rintro ⟨rfl, rfl⟩
      rfl
  refine ⟨by simp [hlen], ?_⟩
  have hsilent : SilentEnds (closure.byte :: start.byte ::
      (beBytes 32 s.toCanon.toNat ++ beBytes 32 e.toCanon.toNat) ++ []) ↔
      (start = .unknown → s = sentinel) ∧ (closure ≠ .knownClosed → e = sentinel) := by
    have hdrop : ∀ a b : UInt8, (a :: b :: (beBytes 32 s.toCanon.toNat ++
        beBytes 32 e.toCanon.toNat)).drop 34 = beBytes 32 e.toCanon.toNat := by
      intro a b
      rw [List.drop_succ_cons, List.drop_succ_cons]
      exact List.drop_left' (hlen _)
    rw [SilentEnds, List.append_nil, hdrop, beBytes_sentinel]
    simp only [List.drop_succ_cons, List.drop_zero, List.take_left' (hlen _), beBytes_sentinel]
    cases start <;> cases closure <;> simp [StartState.byte, ClosureState.byte]
  have hback : window.put (.fromStored start s closure e) = storedWindow.put (closure, start,
      if start = .unknown then sentinel else s,
        if closure = .knownClosed then e else sentinel) := by
    cases start <;> cases closure <;> rfl
  rw [hsilent, hback, hput]
  cases start <;> cases closure <;> simp [eq_comm]

/-! ### Bodies and events -/

theorem windowBytes_suffix {input payload : Bytes} (h : input <:+ payload)
    (hlen : 66 ≤ input.length) : windowBytes payload = windowBytes input := by
  obtain ⟨front, rfl⟩ := h
  have hle : front.length ≤ (front ++ input).length - 66 := by
    rw [List.length_append]
    omega
  rw [windowBytes, windowBytes, List.drop_append, List.drop_eq_nil_of_le hle, List.nil_append,
    List.length_append]
  congr 1
  omega

theorem windowBytes_self {input : Bytes} (h : input.length = 66) : windowBytes input = input := by
  rw [windowBytes, h]
  rfl

/-- The last field of a birth and of a declaration. -/
theorem window_last {input mid : Bytes} {w : ExistenceWindow} (hsuffix : mid <:+ input)
    (h : window.get.run mid = .ok (w, [])) :
    66 ≤ input.length ∧ (fields [window.put w] = .ok mid ↔ SilentEnds (windowBytes input)) := by
  obtain ⟨hlen, hplain⟩ := window_plain h
  refine ⟨hlen ▸ hsuffix.length_le, ?_⟩
  rw [fields_singleton, hplain, windowBytes_suffix hsuffix (by omega), windowBytes_self hlen]

def EndsInWindow (dst : Bytes) : Prop :=
  dst = dstEntity.toUTF8.data.toList ∨ dst = dstVocab.toUTF8.data.toList

theorem body_plain {dst input : Bytes} {body : EventBody}
    (h : (getBody dst).run input = .ok (body, [])) :
    dst = body.dst.toUTF8.data.toList ∧ (EndsInWindow dst → 66 ≤ input.length) ∧
      (putBody body = .ok input ↔ (EndsInWindow dst → SilentEnds (windowBytes input))) := by
  have hid : i64.Exact := number_exact CoreError.malformedPayload 8
  have hhash : arr32.Exact := number_exact CoreError.malformedPayload 32
  unfold getBody at h
  split at h
  · next hdst =>
    obtain ⟨entityId, m₁, h₁, h⟩ := run_bind_iff.mp h
    obtain ⟨key, m₂, h₂, h⟩ := run_bind_iff.mp h
    obtain ⟨name, m₃, h₃, h⟩ := run_bind_iff.mp h
    obtain ⟨w, m₄, h₄, h⟩ := run_bind_iff.mp h
    obtain ⟨rfl, rfl⟩ := run_pure_iff.mp h
    have hsuffix : m₃ <:+ input := (suffix_of_exact text_exact h₃).trans
      ((suffix_of_exact text_exact h₂).trans (suffix_of_exact hid h₁))
    obtain ⟨hlen, hplain⟩ := window_last hsuffix h₄
    refine ⟨hdst, fun _ => hlen, ?_⟩
    rw [putBody, peel hid h₁, peel text_exact h₂, peel text_exact h₃, hplain]
    exact (imp_iff_right (.inl hdst)).symm
  split at h
  · next hne hdst =>
    obtain ⟨subject, m₁, h₁, h⟩ := run_bind_iff.mp h
    obtain ⟨bodyHash, m₂, h₂, h⟩ := run_bind_iff.mp h
    obtain ⟨rfl, rfl⟩ := run_pure_iff.mp h
    have hno : ¬ EndsInWindow dst := by
      rw [hdst, EndsInWindow]
      decide
    refine ⟨hdst, fun hw => absurd hw hno, ?_⟩
    rw [putBody, peel hid h₁, peel hhash h₂]
    exact iff_of_true rfl fun hw => absurd hw hno
  split at h
  · next hdst =>
    obtain ⟨src, m₁, h₁, h⟩ := run_bind_iff.mp h
    obtain ⟨dstEntity, m₂, h₂, h⟩ := run_bind_iff.mp h
    obtain ⟨relation, m₃, h₃, h⟩ := run_bind_iff.mp h
    obtain ⟨evidence, m₄, h₄, h⟩ := run_bind_iff.mp h
    obtain ⟨rfl, rfl⟩ := run_pure_iff.mp h
    have hno : ¬ EndsInWindow dst := by
      rw [hdst, EndsInWindow]
      decide
    have hrelation : edgeRelation.Exact := tag_exact (by decide)
    have hclass : evidenceClass.Exact := tag_exact (by decide)
    refine ⟨hdst, fun hw => absurd hw hno, ?_⟩
    rw [putBody, peel hid h₁, peel hid h₂, peel hrelation h₃, peel hclass h₄]
    exact iff_of_true rfl fun hw => absurd hw hno
  split at h
  · next hdst =>
    obtain ⟨claimType, m₁, h₁, h⟩ := run_bind_iff.mp h
    obtain ⟨label, m₂, h₂, h⟩ := run_bind_iff.mp h
    obtain ⟨band, m₃, h₃, h⟩ := run_bind_iff.mp h
    obtain ⟨rfl, rfl⟩ := run_pure_iff.mp h
    have hcode : u32.Exact := number_exact CoreError.malformedPayload 4
    have hsuffix : m₂ <:+ input :=
      (suffix_of_exact text_exact h₂).trans (suffix_of_exact hcode h₁)
    obtain ⟨hlen, hplain⟩ := window_last hsuffix h₃
    refine ⟨hdst, fun _ => hlen, ?_⟩
    rw [putBody, peel hcode h₁, peel text_exact h₂, hplain]
    exact (imp_iff_right (.inr hdst)).symm
  · exact absurd h run_throw_iff

theorem header_read {payload mid dst : Bytes} (h : framed.get.run payload = .ok (dst, mid)) :
    domainTag payload = dst ∧ payload.drop (4 + beNat (payload.take 4)) = mid := by
  obtain ⟨bs, hbs, rfl⟩ := framed_exact h
  simp only [framed] at hbs
  split at hbs
  · cases hbs
  · next hlt =>
    obtain ⟨len, cs, hlen, hcs, rfl⟩ := fields_cons.mp hbs
    obtain rfl := Except.ok.inj (fields_singleton.mp hcs)
    obtain rfl := Except.ok.inj hlen
    have hnat : (BitVec.ofNat 32 dst.length).toNat = dst.length :=
      Nat.mod_eq_of_lt (Nat.not_le.mp hlt)
    have hfour : (beBytes 4 dst.length).length = 4 := beBytes_length 4 _
    have hread : beNat (beBytes 4 dst.length) = dst.length :=
      beNat_beBytes (Nat.not_le.mp hlt)
    rw [domainTag, hnat, List.append_assoc, List.take_left' hfour, List.drop_left' hfour, hread,
      List.take_left]
    refine ⟨rfl, ?_⟩
    rw [← List.drop_drop, List.drop_left' hfour, List.drop_left]

/-- The version words are written back only if they are those of this version. -/
theorem versions_plain {m₁ m₂ m₃ : Bytes} {v v' : BitVec 16} (h : u16.get.run m₁ = .ok (v, m₂))
    (h' : u16.get.run m₂ = .ok (v', m₃)) (w : Except CoreError Bytes) :
    fields [u16.put legacyCanonVersion, u16.put constantsVersion, w] = .ok m₁ ↔
      m₁.take 4 = [0, 0, 0, 0] ∧ w = .ok m₃ := by
  have hu16 : u16.Exact := number_exact CoreError.malformedPayload 2
  obtain ⟨bs, hbs, rfl⟩ := hu16 h
  obtain ⟨cs, hcs, rfl⟩ := hu16 h'
  obtain rfl := Except.ok.inj hbs
  obtain rfl := Except.ok.inj hcs
  have hlen : (beBytes 2 v.toNat ++ beBytes 2 v'.toNat).length = 4 := by
    rw [List.length_append, beBytes_length, beBytes_length]
  rw [← List.append_assoc, List.take_left' hlen]
  have hzero : u16.put legacyCanonVersion = .ok [0, 0] := rfl
  have hzero' : u16.put constantsVersion = .ok [0, 0] := rfl
  rw [hzero, hzero']
  constructor
  · intro h
    obtain ⟨b, c, hb, hc, heq⟩ := fields_cons.mp h
    obtain ⟨b', c', hb', hc', rfl⟩ := fields_cons.mp hc
    obtain rfl := Except.ok.inj hb
    obtain rfl := Except.ok.inj hb'
    rw [← List.append_assoc] at heq
    obtain ⟨hwords, rfl⟩ := List.append_inj heq hlen
    exact ⟨hwords, fields_singleton.mp hc'⟩
  · rintro ⟨hwords, hw⟩
    rw [hwords]
    exact fields_cons.mpr
      ⟨_, _, rfl, fields_cons.mpr ⟨_, _, rfl, fields_singleton.mpr hw, rfl⟩, rfl⟩

theorem content_plain {cr : Crypto} {payload : Bytes} {eventTime recordTime : Tick} {author : Hash}
    {c : EventContent}
    (h : (getContent cr eventTime recordTime author).run payload = .ok (c, [])) :
    canonEvent c = .ok payload ↔ Plain payload := by
  have hhash : arr32.Exact := number_exact CoreError.malformedPayload 32
  have hu16 : u16.Exact := number_exact CoreError.malformedPayload 2
  obtain ⟨dst, m₁, hdst, h⟩ := run_bind_iff.mp h
  obtain ⟨v, m₂, hv, h⟩ := run_bind_iff.mp h
  obtain ⟨v', m₃, hv', h⟩ := run_bind_iff.mp h
  obtain ⟨htag, hrest⟩ := header_read hdst
  have hsuffix : m₃ <:+ payload := (suffix_of_exact hu16 hv').trans
    ((suffix_of_exact hu16 hv).trans (suffix_of_exact framed_exact hdst))
  -- Behind the header it is the kind that decides.
  have hfields : dst = c.body.dst.toUTF8.data.toList ∧
      (canonFields c = .ok m₃ ↔ (EndsInWindow dst → SilentEnds (windowBytes payload))) := by
    split at h
    · next hattest =>
      obtain ⟨target, m₄, h₄, h⟩ := run_bind_iff.mp h
      obtain ⟨attester, m₅, h₅, h⟩ := run_bind_iff.mp h
      split at h
      · exact absurd h run_throw_iff
      obtain ⟨time, m₆, h₆, h⟩ := run_bind_iff.mp h
      obtain ⟨rfl, rfl⟩ := run_pure_iff.mp h
      have hno : ¬ EndsInWindow dst := by
        rw [hattest, EndsInWindow]
        decide
      refine ⟨hattest, ?_⟩
      rw [canonFields]
      dsimp only
      rw [peel hhash h₄, peel hhash h₅, peel tick_exact h₆]
      exact iff_of_true rfl fun hw => absurd hw hno
    · next hattest =>
      obtain ⟨time, m₄, h₄, h⟩ := run_bind_iff.mp h
      obtain ⟨parent, m₅, h₅, h⟩ := run_bind_iff.mp h
      obtain ⟨body, m₆, hbody, h⟩ := run_bind_iff.mp h
      obtain ⟨rfl, rfl⟩ := run_pure_iff.mp h
      obtain ⟨hdst', hlen, hplain⟩ := body_plain hbody
      have hsuffix' : m₅ <:+ payload := (suffix_of_exact supersedesFlag_exact h₅).trans
        ((suffix_of_exact tick_exact h₄).trans hsuffix)
      have hwindow : (EndsInWindow dst → SilentEnds (windowBytes m₅)) ↔
          (EndsInWindow dst → SilentEnds (windowBytes payload)) := by
        refine forall_congr' fun hw => ?_
        rw [windowBytes_suffix hsuffix' (hlen hw)]
      refine ⟨hdst', ?_⟩
      rw [← hwindow, ← hplain]
      cases body with
      | attestation a => exact absurd hdst' hattest
      | _ =>
        simp only [canonFields]
        rw [peel tick_exact h₄, peel supersedesFlag_exact h₅, fields_singleton]
  rw [canonEvent, ← hfields.1, peel framed_exact hdst, versions_plain hv hv', hfields.2, Plain,
    versionWords, htag, hrest]
  rfl

theorem parse_plain {cr : Crypto} {payload : Bytes} {eventTime recordTime : Tick} {author : Hash}
    {c : EventContent} (h : parseEvent cr payload eventTime recordTime author = .ok c) :
    canonEvent c = .ok payload ↔ Plain payload := by
  obtain ⟨⟨content, rest⟩, hread, h⟩ := bind_ok.mp h
  dsimp only at h
  split at h
  · nomatch h
  · next hrest =>
    obtain rfl : content = c := Except.ok.inj h
    obtain rfl : rest = [] := by simpa using hrest
    exact content_plain hread

/-- `submit_event` up to the ledger: the payload is parsed and the event sealed. -/
def submitted (cr : Crypto) (verify : Verify) (payload : Bytes) (eventTime recordTime : Tick)
    (author : Hash) (signature : Bytes) : Option (Signed cr verify) :=
  if !cr.authorKey author then none
  else
    match parseEvent cr payload eventTime recordTime author with
    | .error _ => none
    | .ok content =>
      match h : canonEvent content with
      | .error _ => none
      | .ok canon =>
        if hs : cr.authorKey content.author = true ∧
            verify content.author (asBytes (h0 cr canon)) signature = true then
          some ⟨content, signature, canon, h, hs.1, hs.2⟩
        else none

theorem submitted_some {cr : Crypto} {verify : Verify} {payload signature : Bytes}
    {eventTime recordTime : Tick} {author : Hash} {s : Signed cr verify}
    (h : submitted cr verify payload eventTime recordTime author signature = some s) :
    parseEvent cr payload eventTime recordTime author = .ok s.content := by
  unfold submitted at h
  split at h
  · nomatch h
  split at h
  · nomatch h
  · next content hparse =>
    split at h
    · nomatch h
    · split at h
      · obtain rfl := Option.some.inj h
        exact hparse
      · nomatch h

/-- A payload is the preimage of the event it is parsed to exactly when it is plain, so no two
plain payloads are one event, and the ledger stores a plain payload as it came; whatever came,
what it stores is what the id is computed from. -/
theorem payload_canonical_iff (cr : Crypto) (verify : Verify) :
    (∀ payload eventTime recordTime author c,
      parseEvent cr payload eventTime recordTime author = .ok c →
      (canonEvent c = .ok payload ↔ Plain payload)) ∧
    (∀ payload payload' eventTime eventTime' recordTime recordTime' author author' c,
      parseEvent cr payload eventTime recordTime author = .ok c →
      parseEvent cr payload' eventTime' recordTime' author' = .ok c →
      Plain payload → Plain payload' → payload = payload') ∧
    ∀ payload eventTime recordTime author signature (s : Signed cr verify),
      submitted cr verify payload eventTime recordTime author signature = some s →
      s.id = h0 cr s.row.payload ∧ (s.row.payload = payload ↔ Plain payload) := by
  refine ⟨fun payload eventTime recordTime author c h => parse_plain h,
    fun payload payload' _ _ _ _ _ _ c h h' hplain hplain' => ?_,
    fun payload eventTime recordTime author signature s h => ⟨rfl, ?_⟩⟩
  · have hcanon := (parse_plain h).mpr hplain
    have hcanon' := (parse_plain h').mpr hplain'
    exact Except.ok.inj (hcanon.symm.trans hcanon')
  · rw [← parse_plain (submitted_some h), s.written, Except.ok.injEq]
    rfl

namespace PayloadSample

/-- A moment's payload under a version word. -/
def momentPayload (version : UInt8) : Bytes :=
  [0, 0, 0, 12] ++ dstMoment.toUTF8.data.toList ++ [0, version, 0, 0] ++
    (0x80 :: List.replicate 31 0) ++ [0] ++ List.replicate 8 0 ++ List.replicate 32 0

def silentMoment : EventContent := ⟨0, 0, 7, none, .moment ⟨0, 0⟩⟩

/-- A payload of another version is accepted as the event of this one. -/
theorem payload_not_canonical :
    momentPayload 0 ≠ momentPayload 1 ∧
    parseEvent crypto (momentPayload 0) 0 0 7 = .ok silentMoment ∧
    parseEvent crypto (momentPayload 1) 0 0 7 = .ok silentMoment ∧
    canonEvent silentMoment ≠ .ok (momentPayload 1) := by
  decide

theorem moment_canonical : canonEvent silentMoment = .ok (momentPayload 0) :=
  ((payload_canonical_iff crypto fun _ _ _ => true).1 (momentPayload 0) 0 0 7 silentMoment
    (by decide)).mpr (by decide)

end PayloadSample

end Clockchain.V0
