import Clockchain.V1.Connections

/-!
# Totality

`classify`, `analyze`, `project` and `support_graph` return on every candidate set: no
lookup fails, no loop runs out of turns, and every candidate has its row.
-/

namespace Clockchain.V1
open Relation Maps Programs
set_option autoImplicit false

instance (cr : Crypto) (C : Candidates) : Decidable (CollisionFree cr C) :=
  decidable_of_iff (∀ x ∈ C.toList, ∀ y ∈ C.toList,
    (rootGrant cr x.1 = rootGrant cr y.1 → x.1 = y.1) ∧ rootGrant cr x.1 ≠ y.1 ∧
    (revisionId cr (subjectOf x.1 x.2) x.1 = revisionId cr (subjectOf y.1 y.2) y.1 → x.1 = y.1)) (by
  have hget : ∀ {e : Hash} {s : Signed}, (e, s) ∈ C.toList ↔ C[e]? = some s :=
    Std.ExtTreeMap.mem_toList_iff_getElem?_eq_some
  constructor
  · intro h
    refine ⟨fun {a b} ha hb => ?_, fun {a b} ha hb => ?_, fun hs ht => ?_⟩
    · obtain ⟨s, hs⟩ := mem_iff.mp ha
      obtain ⟨t, ht⟩ := mem_iff.mp hb
      exact (h _ (hget.mpr hs) _ (hget.mpr ht)).1
    · obtain ⟨s, hs⟩ := mem_iff.mp ha
      obtain ⟨t, ht⟩ := mem_iff.mp hb
      exact (h _ (hget.mpr hs) _ (hget.mpr ht)).2.1
    · exact (h _ (hget.mpr hs) _ (hget.mpr ht)).2.2
  · rintro free ⟨a, s⟩ hs ⟨b, t⟩ ht
    exact ⟨free.root_inj (mem_of_getElem? (hget.mp hs)) (mem_of_getElem? (hget.mp ht)),
      free.root_fresh (mem_of_getElem? (hget.mp hs)) (mem_of_getElem? (hget.mp ht)),
      free.revision_inj (hget.mp hs) (hget.mp ht)⟩)

/-- The fold returns on every candidate set, with one row for each candidate and a
revision exactly at the valid subject events. -/
theorem projection_total (cr : Crypto) (C : Candidates) (free : CollisionFree cr C) :
    ∃ out analysis p, classify cr C = some out ∧ analyze cr C = some analysis ∧
      analysis.admission = out ∧ project cr C = some p ∧
      (∀ curators, ∃ graph, supportGraph p curators = some graph) ∧
      p.rows.map EventReading.event = C.keys ∧
      ∀ r ∈ p.rows, (r.state = .head ∨ r.state = .superseded ∨ r.state = .branch ∨
        r.state = .pending ∨ r.state = .invalid) ∧
        (r.revision.isSome ↔ ∃ s st, C[r.event]? = some s ∧ isSubject s = true ∧
          out[r.event]? = some st ∧ st.state = .valid) := by
  obtain ⟨out, s, A, p, hout, verdicts, hanalyze, _, hproject, projected⟩ := project_spec free
  refine ⟨out, ⟨out, A⟩, p, hout, hanalyze, rfl, hproject, fun curators => ?_, projected.events,
    fun r hr => ⟨?_, ?_⟩⟩
  · obtain ⟨graph, hgraph, _⟩ := supportGraph_spec projected curators verdicts.branch
    exact ⟨graph, hgraph⟩
  · cases r.state <;> simp
  · rw [(projected.rows r hr).revision, mem_iff]
    simp only [validOf_get]
    constructor
    · rintro ⟨t, ht, hsubject, st, hst⟩
      exact ⟨t, st, ht, hsubject, hst⟩
    · rintro ⟨t, st, ht, hsubject, hst⟩
      exact ⟨t, ht, hsubject, st, hst⟩

/-! ## Concrete events -/

namespace Sample

/-- SHA-256 on the preimages of the derived identifiers of events `1` to `8` of the
subject `1`: an entry is the length of the preimage and its bytes before the last two words
and at the end. -/
def digests : List ((Nat × Nat × Nat) × Hash) :=
  [((52, 49, 1), 0xbc9ba15d058aed7e59d389f886c47fef8430ada0b3755987d59414898126150c),
   ((52, 49, 2), 0xda58a079782dad9a6b4768ea404e658148016a38dd4026d8b5c75d61f16767cb),
   ((52, 49, 3), 0xa23f16c6dad2d5b95b0bed11c65c89f0be86dc4ae3bbd0c833e472325afb1a53),
   ((52, 49, 4), 0x61a793183a3870327d986d7d5d26c8c83fea603933b8208847933653446a6e24),
   ((52, 49, 5), 0xd7fab510e4f4f0a8b086ef18ceb70e2dda351f622965d79f8acbd49ac1cdb67b),
   ((52, 49, 6), 0xba5f98c9520eb64af5cf529f0cf48c456839e515d3e1d3f759be8341dad710dd),
   ((52, 49, 7), 0x1bc2de9fdbc8f4ad4ae9a2e4e57d88fce684a789ab3ecd7e5d680bd4b59ba975),
   ((52, 49, 8), 0x49b3a46c1769edf2964bbe1c1f3ebb048ee025bf6236bcd1f731f9ef34eb8935),
   ((82, 1, 1), 0x63463225521d93e86eb6f8d7a4e1b20a9c71ce30083ca02ed7648404ca933af9),
   ((82, 1, 2), 0x06c2a0691b6d349802907800a28f7f1a1fe2b5c43e293eb7235db6e4d1d307b7),
   ((82, 1, 3), 0x148632d3838328319746a2e6ffb907bbf5cb7ae6562064cb70e885ca837753c2),
   ((82, 1, 4), 0x3a6c8bb47736d1048be4ebfedcfdf7c7e656801a658c1e8873af7997b215504f),
   ((82, 1, 5), 0x8f6b92ec77b92706bb89027caa28068a029a7c15b04bafab41520746d1c46e58),
   ((82, 1, 6), 0x10a923deb79cea6fc2004d60920a59a0c336841df671184f4816489928fac681),
   ((82, 1, 7), 0x01d3a2a1c2f6cd2a6f7fae1d33951bd00b0f0c6b81f51e365da1166901908310),
   ((82, 1, 8), 0xdc06b6e10318cb57b8573339cfc60f50275f6c3199bcc0f81623a2d1d9777b48)]

/-- Ed25519 public keys. -/
def alice : Hash := 0xd75a980182b10ab7d54bfed3c964073a0ee172f3daa62325af021a68f707511a
def bob : Hash := 0x3d4017c3e843895a92b70aa74d1b7ebc9c982ccf2ec4968cc0cd55f12af4660c
def carol : Hash := 0xfc51cd8e6218a1a38da47ed00230f0580816ed13ba3303ac5deb911548908025
def dave : Hash := 0x278117fc144c72340f67d0f2316e8386ceffbf2b2428c9c51fef7c597f1d426e

def crypto : Crypto where
  sha256 bytes := (digests.lookup (bytes.length, (bytes.getD (bytes.length - 33) 0).toNat,
    (bytes.getLastD 0).toNat)).getD 0
  authorKey key := [alice, bob, carol, dave].contains key

def root : Hash := rootGrant crypto 1

def candidates (events : List (Hash × Envelope)) : Candidates :=
  .ofList (events.filterMap fun item =>
    if h : item.2.Canonical then some (item.1, (⟨item.2, h⟩ : Signed)) else none)

def decision (kind : Kind) (parents : List Hash) (old new : Value) : Decision :=
  ⟨kind, "reason", [40], parents, old, new⟩

def genesis (author body : Hash) : Envelope :=
  ⟨0, author, none, some ⟨"kind", "space", "value"⟩, none, [], none, .genesis 0 body [40]⟩

/-- An act on the subject `1`. -/
def act (author grant : Hash) (parents : List Hash) (payload : Payload) : Envelope :=
  ⟨0, author, some 1, some ⟨"kind", "space", "value"⟩, some grant, parents, none, payload⟩

def correction (author grant parent old new : Hash) : Envelope :=
  act author grant [parent]
    (.correction new (decision .correction [parent] (.body old) (.body new)))

def delegate (author grant parent grantee : Hash) : Envelope :=
  act author grant [parent]
    (.delegate grantee grant (decision .delegate [parent] .none (.grant grant grantee)))

def revoke (author grant parent target : Hash) (cascade : Bool) : Envelope :=
  act author grant [parent] (.revoke target cascade
    (decision .revoke [parent] (.activeGrant target) (.revokedGrant target cascade)))

def attest (author target artifact : Hash) : Envelope :=
  ⟨0, author, none, none, none, [], none, .attestation .event target "image" artifact⟩

end Sample

/-- A Genesis, an event whose parent is missing and an attestation of a foreign event. -/
def sparse : Candidates := Sample.candidates
  [(1, Sample.genesis Sample.alice 7), (2, Sample.correction Sample.alice Sample.root 6 7 8),
   (3, Sample.attest Sample.bob 5 9)]

theorem projection_total_sparse : CollisionFree Sample.crypto sparse ∧
    ∃ out analysis p, classify Sample.crypto sparse = some out ∧
      analyze Sample.crypto sparse = some analysis ∧
      analysis.admission = out ∧ project Sample.crypto sparse = some p ∧
      (∀ curators, ∃ graph, supportGraph p curators = some graph) ∧
      p.rows.map EventReading.event = sparse.keys ∧
      ∀ r ∈ p.rows, (r.state = .head ∨ r.state = .superseded ∨ r.state = .branch ∨
        r.state = .pending ∨ r.state = .invalid) ∧
        (r.revision.isSome ↔ ∃ s st, sparse[r.event]? = some s ∧ isSubject s = true ∧
          out[r.event]? = some st ∧ st.state = .valid) :=
  have free : CollisionFree Sample.crypto sparse := by decide +kernel
  ⟨free, projection_total Sample.crypto sparse free⟩

end Clockchain.V1
