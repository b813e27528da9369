import Clockchain.V1.Enactment

/-!
# Checked acts

What the node shows of an act that `check` passes and `classify` finds valid. The grant change it
signs has happened; its event can have lost its effect with its parent, where it silences a revoke
that held back another one.
-/

namespace Clockchain.V1
open Relation Maps Programs
set_option autoImplicit false

namespace Publisher

namespace ActSample
open V1.Sample

/-- Whether an act that passes the checks and is valid is read back. -/
def readsBack (cr : Crypto) (C : Candidates) (ev : AuthorityEvent) (act : Act) : Option Bool := do
  let all := C.insert ev.id ev.signed.toSigned
  let p ← project cr C
  let p' ← project cr all
  let ctx ← ((Snapshot.of p).context cr 0 1).toOption
  let ctx' ← ((Snapshot.of p').context cr 0 1).toOption
  let out ← classify cr all
  if decide (CollisionFree cr all) && !C.contains ev.id &&
      (checkEvent ctx cr (healthOf cr) ev act).2.authority.isEmpty && decide (Admitted out ev.id)
    then return (readback cr id ctx' ev act true).toBool
    else none

theorem checked {cr : Crypto} {C : Candidates} {ev : AuthorityEvent} {act : Act} {b : Bool}
    (hkey : cr.authorKey alice = true) (hinstance : ev.envelope.instanceId = 0)
    (hact : ev.act = some act) (h : readsBack cr C ev act = some b) :
    ∃ p p' ctx ctx' out, Checked cr (healthOf cr) C 0 1 ev act p p' ctx ctx' out ∧
      (readback cr id ctx' ev act true).toBool = b := by
  simp only [readsBack, Option.bind_eq_bind, Option.bind_eq_some_iff] at h
  obtain ⟨p, hp, p', hp', ctx, hctx, ctx', hctx', out, hout, h⟩ := h
  split at h
  · next hpasses =>
    simp only [Bool.and_eq_true, decide_eq_true_eq, Bool.not_eq_true', List.isEmpty_iff] at hpasses
    obtain ⟨⟨⟨free, hfresh⟩, hauthority⟩, hvalid⟩ := hpasses
    exact ⟨p, p', ctx, ctx', out, ⟨free, contains_eq_false.mp hfresh, hact, hp,
      toOption_some hctx,
      failures_none (identity_passes hkey hinstance) hauthority, hp', hout, hvalid,
      toOption_some hctx'⟩, Option.some.inj h⟩
  · cases h

/-- An authority event without a signature. -/
def unsigned (e : Envelope) (h : e.Canonical) (n : Hash) : AuthorityEvent := ⟨⟨⟨e, h⟩, n, []⟩⟩

/-- Alice has revoked the grant that the event `2` will issue. -/
def awaited : Candidates := Sample.candidates
  [(1, Sample.genesis alice 7), (3, Sample.revoke alice root 2 2 false)]

def appointing : AuthorityEvent :=
  unsigned (Sample.delegate alice root 1 bob) (by decide) 2

/-- The digests of two more events. -/
def later : Crypto where
  sha256 bytes := ((digests ++
    [((52, 49, 9), 0x6d7750e40f4c68b663da4ab8a6e67dbae0d92f7f8dd939db110dec30dc56c876),
     ((52, 49, 10), 0x1dedd873b393150a87744a14461168be4909b7bbbdef6b6ec2be31aeee04c6f9),
     ((82, 1, 9), 0xe57649f58b206a25b5101658da6f82d9b18455a16159b42cdef09934be2997d5),
     ((82, 1, 10), 0xa377bd5b14057bc54397afe88cf04b72917b7037591e65e7078162a292c305aa)]).lookup
    (bytes.length, (bytes.getD (bytes.length - 33) 0).toNat, (bytes.getLastD 0).toNat)).getD 0
  authorKey := Sample.crypto.authorKey

/-- Carol's revoke of Dave's grant is silenced by Bob's of hers, which Alice's head leaves out. -/
def heldBack : Candidates := Sample.candidates
  [(1, Sample.genesis alice 7), (2, Sample.delegate alice root 1 bob),
   (3, Sample.delegate bob 2 2 carol), (4, Sample.delegate carol 3 3 dave),
   (5, Sample.correction dave 4 4 7 8), (6, Sample.correction dave 4 4 7 9),
   (7, Sample.revoke alice root 5 4 false), (8, Sample.revoke bob 2 6 3 false),
   (9, Sample.revoke carol 3 4 4 false)]

def dismissing : AuthorityEvent :=
  unsigned (Sample.revoke alice root 7 2 false) (by decide) 10

theorem revoking_kept : readsBack Sample.crypto appointed revoking revokingAct = some true := by
  decide +kernel

theorem awaited_lost : readsBack Sample.crypto awaited appointing ⟨root, 1, .delegate bob root⟩ =
    some false := by decide +kernel

theorem heldBack_lost : readsBack later heldBack dismissing ⟨root, 7, .revoke 2 false⟩ =
    some false := by decide +kernel

end ActSample

end Publisher

end Clockchain.V1
