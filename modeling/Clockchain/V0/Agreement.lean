import Clockchain.V0.Rebuild

/-!
# Runs of commits agree with the rebuild

Over every run of commits onto an empty ledger: the tables are those the rebuild computes
in every state reached, exactly when no commit stores an event of another kind while a
stored moment names it as the one it supersedes.
-/

namespace Clockchain.V0
open Codec Lineages Survivors Programs
open V1 (Hash BTreeMap Crypto Verify)
set_option autoImplicit false

section Runs
variable {cr : Crypto} {verify : Verify} {events : Events} {s s' : Signed cr verify}
  {ledger ledger' : Ledger} {xs before after : List (Signed cr verify)}

/-! ## Chains of a list of events -/

def Signed.Corrects (s s' : Signed cr verify) : Prop :=
  s.kind = .moment ∧ s'.kind = .moment ∧ s.content.supersedes = some s'.id

/-- Every supersession chain has fewer than `maxChain` links. -/
def ShortSupersession (xs : List (Signed cr verify)) : Prop :=
  ∀ chain : List (Signed cr verify), (∀ s ∈ chain, s ∈ xs) → chain.IsChain Signed.Corrects →
    chain.length ≤ maxChain

theorem above_stored (hg : Gated cr verify events) (hs : Stored events s) {p : Hash}
    (habove : up events s.id = .above p) :
    ∃ s' : Signed cr verify, s'.id = p ∧ Stored events s' ∧ s.Corrects s' := by
  simp only [up, show events[s.id]? = some s.row from hs] at habove
  split at habove
  · cases habove
  · next hkind =>
    split at habove
    · cases habove
    · next q hsup =>
      split at habove
      · cases habove
      · next parent hparent =>
        split at habove
        · cases habove
        · next hpkind =>
          obtain rfl := Link.above.inj habove
          obtain ⟨s', rfl, rfl, hs'⟩ := hg.stored hparent
          exact ⟨s', rfl, hs', not_not.mp hkind, not_not.mp hpkind, hsup⟩

theorem chain_of_ascends (hg : Gated cr verify events) {n : Nat} {x y : Hash}
    (h : Ascends (up events) n x y) (hs : Stored events s) (hid : s.id = x) :
    ∃ chain : List (Signed cr verify), (s :: chain).IsChain Signed.Corrects ∧
      (∀ s' ∈ s :: chain, Stored events s') ∧ chain.length = n := by
  induction h generalizing s with
  | here x => exact ⟨[], List.isChain_singleton s, by simpa using hs, rfl⟩
  | above habove _ ih =>
    subst hid
    obtain ⟨s', hid', hs', hcorrects⟩ := above_stored hg hs habove
    obtain ⟨chain, hchain, hstored, hlen⟩ := ih hs' hid'
    refine ⟨s' :: chain, List.isChain_cons_cons.mpr ⟨hcorrects, hchain⟩, ?_, ?_⟩
    · exact List.forall_mem_cons.mpr ⟨hs, hstored⟩
    · rw [List.length_cons, hlen]

theorem ShortSupersession.log (h : ShortSupersession xs) (hg : Gated cr verify events)
    (hsub : ∀ s : Signed cr verify, Stored events s → s ∈ xs) : ShortChains events := by
  intro n x y hxy
  by_cases hx : up events x = .held
  · cases hxy with
    | here => decide
    | above habove => simp [hx] at habove
  · obtain ⟨s, _, hid, hs, _⟩ := hg.moment hx
    obtain ⟨chain, hchain, hstored, hlen⟩ := chain_of_ascends hg hxy hs hid
    have hle := h (s :: chain) (fun s' hs' => hsub s' (hstored s' hs')) hchain
    rw [List.length_cons, hlen] at hle
    exact hle

/-! ## Runs -/

theorem sound_empty : Ledger.empty.Sound cr verify := by
  have hnone : stored cr verify Ledger.empty.events = ∅ := by
    ext s
    simp [stored, Stored, Ledger.empty]
  refine ⟨fun id row h => ?_, fun s h => ?_, ?_⟩
  · simp [Ledger.empty] at h
  · simp [Stored, Ledger.empty] at h
  · rw [hnone]
    exact folded_empty

theorem inChains_empty : Ledger.empty.InChains cr verify := by
  intro root row
  simp [Ledger.empty, Tables.empty, stored, Stored]

theorem submit_cases (ledger : Ledger) (s : Signed cr verify) : ledger.submit s = ledger ∨
    ∃ outcome, ledger.commit s = .ok (outcome, ledger.submit s) := by
  unfold Ledger.submit
  split
  · next outcome committed h => exact Or.inr ⟨outcome, h⟩
  · exact Or.inl rfl

theorem Ledger.Sound.submit (h : ledger.Sound cr verify) :
    (ledger.submit s).Sound cr verify := by
  rcases submit_cases ledger s with heq | ⟨_, hok⟩
  · rw [heq]
    exact h
  · exact h.commit hok

theorem submit_stored (hs : Stored (ledger.submit s).events s') :
    Stored ledger.events s' ∨ s' = s := by
  rcases submit_cases ledger s with heq | ⟨_, hok⟩
  · rw [heq] at hs
    exact Or.inl hs
  · rcases commit_ok hok with ⟨_, heq⟩ | ⟨hnew, hevents, _⟩
    · rw [heq] at hs
      exact Or.inl hs
    · rw [hevents, stored_insert hnew] at hs
      exact hs.symm

/-- An invariant of every state a run reaches. -/
theorem run_induction {inv : Ledger → Prop} (start : inv .empty)
    (step : ∀ ledger (s : Signed cr verify), inv ledger → inv (ledger.submit s)) :
    inv (Ledger.empty.submitAll xs) := by
  have go : ∀ (xs : List (Signed cr verify)) ledger, inv ledger → inv (ledger.submitAll xs) := by
    intro xs
    induction xs with
    | nil => exact fun _ h => h
    | cons s xs ih => exact fun ledger h => ih _ (step ledger s h)
  exact go xs _ start

theorem run_sound : (Ledger.empty.submitAll xs).Sound cr verify :=
  run_induction sound_empty fun _ _ h => h.submit

theorem submitAll_concat :
    ledger.submitAll (before ++ [s]) = (ledger.submitAll before).submit s := by
  simp only [Ledger.submitAll, List.foldl_append, List.foldl_cons, List.foldl_nil]

theorem run_stored (hs : Stored (Ledger.empty.submitAll xs).events s) : s ∈ xs := by
  induction xs using List.reverseRecOn with
  | nil => simp [Stored, Ledger.submitAll, Ledger.empty] at hs
  | append_singleton before s' ih =>
    rw [submitAll_concat] at hs
    rcases submit_stored hs with hs | rfl
    · exact List.mem_append_left _ (ih hs)
    · exact List.mem_append_right _ (List.mem_singleton_self _)

theorem ShortSupersession.sub (h : ShortSupersession xs) (hsub : ∀ s ∈ before, s ∈ xs) :
    ShortSupersession before :=
  fun chain hmem => h chain fun s hs => hsub s (hmem s hs)

theorem ShortSupersession.run (h : ShortSupersession xs) :
    ShortChains (Ledger.empty.submitAll xs).events :=
  h.log run_sound.gated fun _ hs => run_stored hs

/-- A new event the projector accepts, of another kind than the moments that wait for it. -/
def Ledger.Late (ledger : Ledger) (s : Signed cr verify) : Prop :=
  s.id ∉ ledger.events ∧ s.Storable ∧ Awaited ledger.events s

/-- The tables are those of the rebuild, and the counters what the tables count. -/
structure Ledger.Agreed (cr : Crypto) (verify : Verify) (ledger : Ledger) : Prop where
  rebuilt : ledger.rebuilt cr verify = .ok ledger.tables
  rebuild : ∀ settled, ledger.rebuild cr verify settled =
    (ledger, .ok (viewRoot cr settled ledger.tables))
  counts : ∀ stats, ledger.tables.stats = some stats → stats = ledger.tables.counts

theorem Ledger.Sound.agreed (h : ledger.Sound cr verify) (hshort : ShortChains ledger.events) :
    ledger.Agreed cr verify ↔ ledger.InChains cr verify := by
  rw [← h.agrees hshort]
  constructor
  · exact fun hagreed => hagreed.rebuilt
  · intro hrebuilt
    refine ⟨hrebuilt, fun settled => ?_, fun stats hstats => ?_⟩
    · simp only [Ledger.rebuild, hrebuilt, ne_eq, not_true, if_false]
    · have htallied := h.folded.tallied
      rwa [hstats] at htallied

theorem Ledger.InChains.submit (h : ledger.InChains cr verify) (hsound : ledger.Sound cr verify)
    (hlate : ¬ ledger.Late s) : (ledger.submit s).InChains cr verify := by
  rcases submit_cases ledger s with heq | ⟨outcome, hok⟩
  · rw [heq]
    exact h
  · refine h.commit hsound hok fun hnew hawaited => hlate ⟨hnew, ?_, hawaited⟩
    rcases commit_ok hok with ⟨hmem, _⟩ | ⟨_, _, happly⟩
    · exact absurd hmem hnew
    · exact apply_storable happly

/-- A late commit leaves a chain that is not shown. -/
theorem Ledger.InChains.not_late (h : (ledger.submit s).InChains cr verify)
    (hsound : ledger.Sound cr verify) (hin : ledger.InChains cr verify)
    (hshort : ShortChains (ledger.submit s).events)
    (hall : s.id ∉ ledger.events → ShortChains (ledger.events.insert s.id s.row)) :
    ¬ ledger.Late s := by
  intro hlate
  obtain ⟨outcome, committed, hok⟩ := commit_total hsound hlate.2.1 (hall hlate.1)
  have hsame : ledger.submit s = committed := by simp only [Ledger.submit, hok]
  rw [hsame] at h hshort
  exact hin.stale hsound hok hshort hlate.1 hlate.2.2 h

theorem run_chains
    (hlate : ∀ before s, before ++ [s] <+: xs → ¬ (Ledger.empty.submitAll before).Late s) :
    (Ledger.empty.submitAll xs).InChains cr verify := by
  induction xs using List.reverseRecOn with
  | nil => exact inChains_empty
  | append_singleton before s ih =>
    rw [submitAll_concat]
    refine (ih fun before' s' hbegins => ?_).submit run_sound (hlate before s List.prefix_rfl)
    exact hlate before' s' (hbegins.trans (List.prefix_append before [s]))

/-- Every state of a run shows all of its chains exactly when no step is late. -/
theorem run_inChains (hshort : ShortSupersession xs) :
    (∀ before, before <+: xs → (Ledger.empty.submitAll before).InChains cr verify) ↔
      ∀ before s, before ++ [s] <+: xs → ¬ (Ledger.empty.submitAll before).Late s := by
  constructor
  · intro h before s hbegins
    have hall : ∀ s' ∈ before ++ [s], s' ∈ xs := fun s' hs' => hbegins.subset hs'
    have hshort' := (hshort.sub hall).run
    have hafter := h _ hbegins
    rw [submitAll_concat] at hshort' hafter
    have hbefore := h before ((List.prefix_append before [s]).trans hbegins)
    refine hafter.not_late run_sound hbefore hshort' fun hnew => ?_
    refine hshort.log (run_sound.gated.insert) fun s' hs' => ?_
    rcases (stored_insert hnew).mp hs' with rfl | hs'
    · exact hall s' (by simp)
    · exact hall s' (List.mem_append_left _ (run_stored hs'))
  · exact fun h before hbegins => run_chains fun before' s hbegins' =>
      h before' s (hbegins'.trans hbegins)

theorem submit_new (hsound : ledger.Sound cr verify) (hstorable : s.Storable)
    (hnew : s.id ∉ ledger.events) (hshort : ShortChains (ledger.events.insert s.id s.row)) :
    (ledger.submit s).events = ledger.events.insert s.id s.row := by
  obtain ⟨outcome, committed, hok⟩ := commit_total hsound hstorable hshort
  rcases commit_ok hok with ⟨hmem, _⟩ | ⟨_, hevents, _⟩
  · exact absurd hmem hnew
  · have hsame : ledger.submit s = committed := by simp only [Ledger.submit, hok]
    rw [hsame, hevents]

theorem shortSupersession_of_none (h : ∀ s ∈ xs, ∀ s' ∈ xs, ¬ s.Corrects s') :
    ShortSupersession xs := by
  intro chain hmem hchain
  rcases chain with _ | ⟨s, _ | ⟨s', chain⟩⟩
  · exact Nat.zero_le _
  · change 1 ≤ 1024
    decide
  · have hcorrects := (List.isChain_cons_cons.mp hchain).1
    exact absurd hcorrects (h s (hmem s (by simp)) s' (hmem s' (by simp)))

/-- The tables agree with the rebuild in every state a run of commits reaches, exactly when no
commit stores an event of another kind while a stored moment supersedes it. -/
theorem projection_agrees_iff (xs : List (Signed cr verify)) (hshort : ShortSupersession xs) :
    (∀ before, before <+: xs → (Ledger.empty.submitAll before).Agreed cr verify) ↔
      ∀ before s, before ++ [s] <+: xs → ¬ (Ledger.empty.submitAll before).Late s := by
  rw [← run_inChains hshort]
  refine forall_congr' fun before => forall_congr' fun hbegins => ?_
  exact run_sound.agreed (hshort.sub fun s hs => hbegins.subset hs).run

end Runs

/-! ## A late event -/

namespace Sample

/-- Ed25519 public keys. -/
def alice : Hash := 0xd75a980182b10ab7d54bfed3c964073a0ee172f3daa62325af021a68f707511a
def bob : Hash := 0x3d4017c3e843895a92b70aa74d1b7ebc9c982ccf2ec4968cc0cd55f12af4660c

def edgeId : Hash := 0x332d58a94c8ada573d7416789bd6ccaeaaa0a2d2087d2a538cf6c8ba73b5ded4
def correctionId : Hash := 0xc8b0b39d3fed0e9bc98813d06c190df3f5901ec636b9c90e03bcfabc837546f6

def edge : EventContent := ⟨10, 0, alice, none, .edge ⟨1, 2, .coOccurrence, .assertion⟩⟩

/-- A moment that names the edge as the event it supersedes. -/
def correction : EventContent := ⟨11, 0, alice, some edgeId, .moment ⟨1, 7⟩⟩

/-- One statement, whoever makes it. -/
def statement (author : Hash) : EventContent := ⟨12, 0, author, none, .moment ⟨1, 7⟩⟩

def statementId : Hash := 0xb889d16bfba8fa89bb16a1e6e3f98b82ba36bb2527714edd9090b9bed6a2cddc

def canonOf (c : EventContent) : Bytes :=
  match canonEvent c with
  | .ok canon => canon
  | .error _ => []

/-- SHA-256 on the three preimages. -/
def crypto : Crypto where
  sha256 bytes :=
    if bytes = canonOf edge then edgeId
    else if bytes = canonOf correction then correctionId
    else if bytes = canonOf (statement alice) then statementId
    else 0
  authorKey key := [alice, bob].contains key

def edgeSignature : Bytes := beBytes 64
  0x4760c08737a936d93bf8f0091afa618b9c500a4a62fddbdc8ba9e32048f53742422cd8726222a2b9bf1e2eb9ad63b7ebf0e797aafd005a31ad817c35386a9202

def correctionSignature : Bytes := beBytes 64
  0x037da3ed966d150d9dbec86beae39ce5d3d4c49c6052da9233632f8737b1f5545076e93083bfbe92b487642d927a8d1463d5e3d761c3f13e5c57e08ee7d1510c

def aliceSignature : Bytes := beBytes 64
  0x24c74ace453aae3f49cf4a9c3064a51fe5d168728d2568c5028324ffe222e9e81d42d71846a40be3d2aff5c6172efceba578530a9df9b9669e8299e6b7a5d40b

def bobSignature : Bytes := beBytes 64
  0x1eba3374f6ff549a6f7b81806e845ecf6cb10f5c0c6520f6e515ea6eb4ffe65cd0156c0c2969d963d8ce888983fecad2c70d795485c16be690f9afa61f37180a

/-- Ed25519 on the four signatures. -/
def verify : Verify := fun key message signature => decide <|
  (key, message, signature) ∈ [(alice, asBytes edgeId, edgeSignature),
    (alice, asBytes correctionId, correctionSignature),
    (alice, asBytes statementId, aliceSignature), (bob, asBytes statementId, bobSignature)]

def signedEdge : Signed crypto verify where
  content := edge
  signature := edgeSignature
  canon := canonOf edge
  written := rfl
  author := by decide
  verified := by decide

def signedCorrection : Signed crypto verify where
  content := correction
  signature := correctionSignature
  canon := canonOf correction
  written := rfl
  author := by decide
  verified := by decide

theorem edge_id : signedEdge.id = edgeId := by decide

theorem correction_id : signedCorrection.id = correctionId := by decide

theorem short : ShortSupersession [signedCorrection, signedEdge] := by
  refine shortSupersession_of_none fun s hs s' hs' hcorrects => ?_
  obtain ⟨hkind, hkind', hsup⟩ := hcorrects
  simp only [List.mem_cons, List.not_mem_nil, or_false] at hs hs'
  rcases hs with rfl | rfl
  · rcases hs' with rfl | rfl
    · rw [correction_id] at hsup
      exact absurd hsup (by decide)
    · exact absurd hkind' (by decide)
  · exact absurd hkind (by decide)

theorem late : (Ledger.empty.submitAll [signedCorrection]).Late signedEdge := by
  have hnew : signedCorrection.id ∉ Ledger.empty.events := by simp [Ledger.empty]
  have hshort :
      ShortChains (Ledger.empty.events.insert signedCorrection.id signedCorrection.row) := by
    refine short.log ((@run_sound _ _ []).gated.insert) fun s hs => ?_
    rcases (stored_insert hnew).mp hs with rfl | hs
    · simp
    · simp [Stored, Ledger.empty] at hs
  have hstorable : signedCorrection.Storable := trivial
  have hevents : (Ledger.empty.submitAll [signedCorrection]).events =
      Ledger.empty.events.insert signedCorrection.id signedCorrection.row :=
    submit_new sound_empty hstorable hnew hshort
  rw [Ledger.Late, hevents]
  refine ⟨?_, ?_, ?_, correctionId, signedCorrection.row, ?_, rfl, ?_⟩
  · rw [Maps.mem_map_insert, edge_id, correction_id]
    simp [Ledger.empty]
    decide
  · change (1 : EntityId) ≠ 2
    decide
  · decide
  · rw [correction_id, Maps.getElem?_insert, if_pos rfl]
  · rw [edge_id]
    rfl

end Sample

/-- The edge comes after the moment that supersedes it: the moment stays held, and the rebuild
shows it. -/
theorem late_edge_diverges : ¬ ∀ xs : List (Signed Sample.crypto Sample.verify),
    ShortSupersession xs → ∀ before, before <+: xs →
      (Ledger.empty.submitAll before).Agreed Sample.crypto Sample.verify := by
  intro h
  have hin : ∀ before, before <+: [Sample.signedCorrection, Sample.signedEdge] →
      (Ledger.empty.submitAll before).InChains Sample.crypto Sample.verify :=
    fun before hbegins => (run_sound.agreed
      (Sample.short.sub fun s hs => hbegins.subset hs).run).mp (h _ Sample.short before hbegins)
  exact (run_inChains Sample.short).mp hin [Sample.signedCorrection] Sample.signedEdge
    List.prefix_rfl Sample.late

theorem projection_agrees_iff_correction :
    (∀ before, before <+: [Sample.signedCorrection, Sample.signedEdge] →
      (Ledger.empty.submitAll before).Agreed Sample.crypto Sample.verify) ↔
      ∀ before s, before ++ [s] <+: [Sample.signedCorrection, Sample.signedEdge] →
        ¬ (Ledger.empty.submitAll before).Late s :=
  projection_agrees_iff _ Sample.short

end Clockchain.V0
