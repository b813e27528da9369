import Clockchain.Public.Magnitudes
import Clockchain.Public.Summaries

/-!
# Answers to the clients

Every answer that reaches a client is either a refusal that names its error, or a read that the node
has computed, and both clients decode it.
-/

namespace Clockchain.Public
open Gateway (Failure Reply refusal received)
open Json (Small Value double)
open V1 (Hash Crypto Verify FoldRef)
open V1.Publisher (hex)
set_option autoImplicit false

/-! ## Questions -/

/-- The arguments of an accepted call in the terms of the node. -/
inductive Question where
  | health
  | snapshot (requested : Option FoldRef)
  | subject (id : Hash) (asOf : Option Hash)
  | prose (revision : Hash)
  | support (source target : Hash) (asOf : Option Hash)
  | receipt (event : Hash)

def Question.asked : Question → Asked
  | .health => .health
  | .snapshot requested => .snapshot (requested.map fun f => (f.version.toNat : Int))
    (requested.map fun f => hex f.manifest)
  | .subject id asOf => .subject (hex id) (asOf.map hex)
  | .prose revision => .prose (hex revision)
  | .support source target asOf => .support (hex source) (hex target) (asOf.map hex)
  | .receipt event => .receipt (hex event)

def Question.call (d : Dialect) (sha256 : Codec.Bytes → Hash) : Question → Call
  | .health => healthCall d
  | .snapshot requested =>
    snapshotCall d (requested.map fun f => (f.version.toNat, hex f.manifest))
  | .subject id asOf => subjectCall d (hex id) (asOf.map hex)
  | .prose revision => proseCall d (hex revision)
  | .support source target asOf => supportCall d (hex source) (hex target) (asOf.map hex)
  | .receipt event => receiptCall d sha256 (hex event)

theorem hexOrAbsent_iff {s : Option String} :
    hexOrAbsent s = true ↔ ∃ h : Option Hash, s = h.map hex := by
  cases s with
  | none => exact iff_of_true rfl ⟨none, rfl⟩
  | some s =>
    change isHex64 s = true ↔ _
    rw [isHex64_iff]
    constructor
    · rintro ⟨h, rfl⟩
      exact ⟨some h, rfl⟩
    · rintro ⟨_ | h, heq⟩
      · simp at heq
      · exact ⟨h, Option.some.inj heq⟩

section
variable {d : Dialect} {sha256 : Codec.Bytes → Hash}

theorem Question.asked_call (q : Question) : q.asked.call d sha256 = some (q.call d sha256) := by
  have habsent : ∀ h : Option Hash, hexOrAbsent (h.map hex) = true := fun h =>
    hexOrAbsent_iff.2 ⟨h, rfl⟩
  cases q with
  | snapshot requested =>
    cases requested with
    | none => rfl
    | some f =>
      have hversion := f.version.isLt
      have hrange : (0 : Int) ≤ f.version.toNat ∧ (f.version.toNat : Int) ≤ 0xffff ∧
          isHex64 (hex f.manifest) = true := ⟨by omega, by omega, isHex64_hex _⟩
      exact if_pos hrange
  | health => rfl
  | subject id asOf => exact if_pos ⟨isHex64_hex _, habsent asOf⟩
  | prose revision => exact if_pos (isHex64_hex _)
  | support source target asOf => exact if_pos ⟨isHex64_hex _, isHex64_hex _, habsent asOf⟩
  | receipt event => exact if_pos (isHex64_hex _)

theorem snapshot_asked {version : Int} {manifest : String}
    (h : 0 ≤ version ∧ version ≤ 0xffff ∧ isHex64 manifest = true) :
    ∃ q : Question, .snapshot (some version) (some manifest) = q.asked := by
  obtain ⟨m, rfl⟩ := isHex64_iff.1 h.2.2
  refine ⟨.snapshot (some ⟨BitVec.ofNat 16 version.toNat, m⟩), ?_⟩
  have hversion : ((BitVec.ofNat 16 version.toNat).toNat : Int) = version := by
    rw [BitVec.toNat_ofNat]
    omega
  simp only [Question.asked, Option.map_some, hversion]

/-- Calls are made for the questions alone. -/
theorem call_question {asked : Asked} {c : Call} (h : asked.call d sha256 = some c) :
    ∃ q : Question, asked = q.asked ∧ c = q.call d sha256 := by
  have hasked : ∃ q : Question, asked = q.asked := by
    cases asked with
    | health => exact ⟨.health, rfl⟩
    | snapshot version manifest =>
      cases version with
      | none =>
        cases manifest with
        | none => exact ⟨.snapshot none, rfl⟩
        | some manifest => cases h
      | some version =>
        cases manifest with
        | none => cases h
        | some manifest => exact snapshot_asked (Option.ite_none_right_eq_some.1 h).1
    | subject id asOf =>
      obtain ⟨⟨hid, hasOf⟩, -⟩ := Option.ite_none_right_eq_some.1 h
      obtain ⟨id, rfl⟩ := isHex64_iff.1 hid
      obtain ⟨asOf, rfl⟩ := hexOrAbsent_iff.1 hasOf
      exact ⟨.subject id asOf, rfl⟩
    | prose revision =>
      obtain ⟨r, rfl⟩ := isHex64_iff.1 (Option.ite_none_right_eq_some.1 h).1
      exact ⟨.prose r, rfl⟩
    | support source target asOf =>
      obtain ⟨⟨hsource, htarget, hasOf⟩, -⟩ := Option.ite_none_right_eq_some.1 h
      obtain ⟨source, rfl⟩ := isHex64_iff.1 hsource
      obtain ⟨target, rfl⟩ := isHex64_iff.1 htarget
      obtain ⟨asOf, rfl⟩ := hexOrAbsent_iff.1 hasOf
      exact ⟨.support source target asOf, rfl⟩
    | receipt event =>
      obtain ⟨e, rfl⟩ := isHex64_iff.1 (Option.ite_none_right_eq_some.1 h).1
      exact ⟨.receipt e, rfl⟩
  obtain ⟨q, rfl⟩ := hasked
  exact ⟨q, rfl, Option.some.inj (h.symm.trans q.asked_call)⟩

end

/-- Both clients make the same request. -/
theorem Question.request_eq (q : Question) (d d' : Dialect) (sha256 : Codec.Bytes → Hash) :
    (q.call d sha256).request = (q.call d' sha256).request := by
  cases q <;> rfl

/-! ## Refusals -/

/-- A refusal that names its error, under a status without a body to decode. -/
def Refused (ok : List Nat) (reply : Reply) : Prop :=
  ∃ status error, reply = refusal status error ∧ status ∉ ok

theorem parse_refusal {d : Dialect} {f : Nat → Nat} (reads : d.Reads f) {c : Call} {status : Nat}
    {error : String} (h : status ∉ c.ok) :
    parse d c (refusal status error) = .error (.api status error) := by
  have hload : d.load (refusal status error).2 = (refusal status error).2 :=
    reads.load_exact ((Small.str _).member .empty)
  simp only [parse, hload]
  simp [refusal, isObject, h, namedError]

/-! ## The gateway -/

section
variable {cr : Crypto} {verify : Verify} {maxBody : Nat} {n : Node} {ok : List Nat}

theorem respond_cases (hok : ok ⊆ [200, 404]) (maxBody status : Nat)
    (members : List (String × Value)) :
    Refused ok (respond maxBody (.ok (status, .obj members))) ∨
      respond maxBody (.ok (status, .obj members)) =
        (status, .obj (members.filter fun m => m.1 ≠ "instance")) := by
  have h503 : 503 ∉ ok := fun h => absurd (hok h) (by decide)
  have h502 : 502 ∉ ok := fun h => absurd (hok h) (by decide)
  unfold respond received
  by_cases hunavailable : status = 503
  · rw [Except.bind, if_pos hunavailable]
    exact .inl ⟨503, _, rfl, h503⟩
  by_cases hanswers : status ∉ Gateway.answers
  · rw [Except.bind, if_neg hunavailable, if_pos hanswers]
    exact .inl ⟨502, _, rfl, h502⟩
  by_cases hsize : maxBody < Gateway.size (.obj members)
  · rw [Except.bind, if_neg hunavailable, if_neg hanswers, if_pos hsize]
    exact .inl ⟨502, _, rfl, h502⟩
  · rw [Except.bind, if_neg hunavailable, if_neg hanswers, if_neg hsize]
    exact .inr rfl

/-- What holds of each reply of the node that is not a refusal, without its instance, holds of each
answer that is not a refusal. -/
theorem answer_cases {P : Reply → Prop} {request read : Request} (hok : ok ⊆ [200, 404])
    (hforward : forwarded request = some read)
    (h : ∀ reply, n.reply cr verify read = some reply → Refused ok reply ∨
      ∃ status members, reply = (status, .obj members) ∧
        P (status, .obj (members.filter fun m => m.1 ≠ "instance"))) (barred : Option Barred) :
    Refused ok (answer cr verify maxBody n barred request) ∨
      P (answer cr verify maxBody n barred request) := by
  have h503 : 503 ∉ ok := fun h => absurd (hok h) (by decide)
  have h502 : 502 ∉ ok := fun h => absurd (hok h) (by decide)
  have h429 : 429 ∉ ok := fun h => absurd (hok h) (by decide)
  match barred with
  | some .limited => exact .inl ⟨429, _, rfl, h429⟩
  | some (.failed failure) =>
    have hanswer : answer cr verify maxBody n (some (.failed failure)) request =
        failureReply failure := by
      unfold answer
      simp only [hforward]
    rw [hanswer]
    cases failure with
    | unavailable => exact .inl ⟨503, _, rfl, h503⟩
    | badGateway => exact .inl ⟨502, _, rfl, h502⟩
  | none =>
    cases hreply : n.reply cr verify read with
    | none =>
      have hanswer : answer cr verify maxBody n none request =
          respond maxBody (.error .unavailable) := by
        unfold answer
        simp only [hforward, hreply]
      exact .inl ⟨503, _, hanswer, h503⟩
    | some reply =>
      have hanswer : answer cr verify maxBody n none request = respond maxBody (.ok reply) := by
        unfold answer
        simp only [hforward, hreply]
      rw [hanswer]
      rcases h reply hreply with ⟨status, error, rfl, hstatus⟩ | ⟨status, members, rfl, hserved⟩
      · rcases respond_cases hok maxBody status [("error", .str error)] with hrefused | hstripped
        · exact .inl hrefused
        · exact .inl ⟨status, error, hstripped, hstatus⟩
      · rcases respond_cases hok maxBody status members with hrefused | hstripped
        · exact .inl hrefused
        · exact .inr (hstripped ▸ hserved)

end

end Clockchain.Public
