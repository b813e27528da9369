import Clockchain.Operator.Chain
import Clockchain.Operator.Node

/-!
# Runs against one log

Every run of `record` either leaves the log as it is or appends the line of one verified seal. So
from no file on every log is accepted, and its seals succeed one another.
-/

namespace Clockchain.Operator
open Codec Programs
open V1 (Hash hashBytes NodeSealV1 Build Crypto)
set_option autoImplicit false

section
variable {cr : Crypto} {fl : Floats} {ed25519 : Ed25519} {nodeKey : Text} {expected : Expected}

/-! ## The seals of a log -/

/-- The seal of an entry that is accepted after the seal before it, if there is one. -/
structure Accepts (ed25519 : Ed25519) (nodeKey : Text) (expected : Expected)
    (previous : Option SealFields) (doc : Py) (sealed : SealFields) : Prop where
  verified : verifySigned ed25519 nodeKey doc = .ok sealed
  identity : drift expected sealed = []
  succeeds : ∀ head ∈ previous, Succeeds head sealed

theorem verifyEntry_ok {previous : Option SealFields} {entry : Py} {sealed : SealFields} :
    verifyEntry ed25519 nodeKey expected previous entry = .ok sealed ↔
      ∃ doc, entry.item "seal" = .ok doc ∧
        Accepts ed25519 nodeKey expected previous doc sealed := by
  simp only [verifyEntry, bind_ok, requireSealIdentity_ok]
  constructor
  · rintro ⟨doc, hdoc, found, hfound, _, ⟨hidentity, rfl⟩, h⟩
    cases previous with
    | none =>
      obtain rfl := Except.ok.inj h
      exact ⟨doc, hdoc, hfound, hidentity, nofun⟩
    | some head =>
      obtain ⟨hsucceeds, rfl⟩ := requireSuccession_ok.mp h
      refine ⟨doc, hdoc, hfound, hidentity, fun head' hhead' => ?_⟩
      exact Option.some.inj hhead' ▸ hsucceeds
  · rintro ⟨doc, hdoc, hfound, hidentity, hsucceeds⟩
    refine ⟨doc, hdoc, sealed, hfound, sealed, ⟨hidentity, rfl⟩, ?_⟩
    cases previous with
    | none => rfl
    | some head => exact requireSuccession_ok.mpr ⟨hsucceeds head rfl, rfl⟩

theorem getLast?_or_cons {α : Type} (a : α) (l : List α) (b : Option α) :
    (a :: l).getLast?.or b = l.getLast?.or (some a) := by
  cases l with
  | nil => rfl
  | cons a' l =>
    rw [List.getLast?_cons_cons]
    cases h : (a' :: l).getLast? with
    | none => exact absurd (List.getLast?_eq_none_iff.mp h) (List.cons_ne_nil _ _)
    | some last => rfl

theorem verifyEntries_concat {number : Nat} {previous : Option SealFields} {entries : List Py}
    {entry : Py} {out : List SealFields} :
    verifyEntries ed25519 nodeKey expected number previous (entries ++ [entry]) = .ok out ↔
      ∃ seals sealed,
        verifyEntries ed25519 nodeKey expected number previous entries = .ok seals ∧
        verifyEntry ed25519 nodeKey expected (seals.getLast?.or previous) entry = .ok sealed ∧
        out = seals ++ [sealed] := by
  induction entries generalizing number previous out with
  | nil =>
    simp only [List.nil_append, verifyEntries, bind_ok, mapError_ok, pure_ok, Except.ok.injEq]
    constructor
    · rintro ⟨sealed, hsealed, _, rfl, rfl⟩
      exact ⟨[], sealed, rfl, hsealed, rfl⟩
    · rintro ⟨_, sealed, rfl, hsealed, rfl⟩
      exact ⟨sealed, hsealed, [], rfl, rfl⟩
  | cons first entries ih =>
    simp only [List.cons_append, verifyEntries, bind_ok, mapError_ok, pure_ok, ih]
    constructor
    · rintro ⟨head, hhead, _, ⟨seals, sealed, hseals, hsealed, rfl⟩, rfl⟩
      refine ⟨head :: seals, sealed, ⟨head, hhead, seals, hseals, rfl⟩, ?_, rfl⟩
      rw [getLast?_or_cons]
      exact hsealed
    · rintro ⟨_, sealed, ⟨head, hhead, seals, hseals, rfl⟩, hsealed, rfl⟩
      rw [getLast?_or_cons] at hsealed
      exact ⟨head, hhead, _, ⟨seals, sealed, hseals, hsealed, rfl⟩, rfl⟩

/-- The entries of a log that is accepted, and their seals. -/
structure Logged (cr : Crypto) (fl : Floats) (ed25519 : Ed25519) (nodeKey : Text)
    (expected : Expected) (file : File) (entries : List (Bytes × Py))
    (seals : List SealFields) : Prop where
  read : readLog cr fl file = .ok entries
  verified : verifyEntries ed25519 nodeKey expected 1 none (entries.map Prod.snd) = .ok seals

variable {file : File} {entries : List (Bytes × Py)} {seals : List SealFields}

theorem Logged.verifyLog (h : Logged cr fl ed25519 nodeKey expected file entries seals) :
    verifyLog cr fl ed25519 nodeKey expected file = .ok ⟨entries.length,
      entries.getLast?.map fun entry => lineDigest cr entry.1, seals.getLast?⟩ := by
  rw [Operator.verifyLog, h.read, ok_bind, h.verified]
  rfl

theorem logged_none : Logged cr fl ed25519 nodeKey expected none [] [] := ⟨rfl, rfl⟩

/-- The seals of a log succeed one another. -/
theorem verifyEntries_chain {entries : List Py}
    (h : verifyEntries ed25519 nodeKey expected 1 none entries = .ok seals) :
    seals.IsChain Succeeds := by
  induction entries using List.reverseRecOn generalizing seals with
  | nil =>
    obtain rfl := Except.ok.inj h
    exact List.isChain_nil
  | append_singleton entries entry ih =>
    obtain ⟨before, sealed, hbefore, hsealed, rfl⟩ := verifyEntries_concat.mp h
    obtain ⟨doc, -, haccepts⟩ := verifyEntry_ok.mp hsealed
    rw [Option.or_none] at haccepts
    refine List.isChain_append.mpr ⟨ih hbefore, List.isChain_singleton _, ?_⟩
    intro head hhead last hlast
    obtain rfl := Option.some.inj hlast
    exact haccepts.succeeds head hhead

/-- The seal of the last line is the last one. -/
theorem Logged.last (h : Logged cr fl ed25519 nodeKey expected file entries seals)
    {line : Bytes} {entry : Py} (hlast : entries.getLast? = some (line, entry)) :
    ∃ doc sealed, entry.item "seal" = .ok doc ∧
      verifySigned ed25519 nodeKey doc = .ok sealed ∧ seals.getLast? = some sealed := by
  obtain ⟨before, rfl⟩ := List.getLast?_eq_some_iff.mp hlast
  have hverified := h.verified
  rw [List.map_append] at hverified
  obtain ⟨_, sealed, -, hsealed, rfl⟩ := verifyEntries_concat.mp hverified
  obtain ⟨doc, hdoc, haccepts⟩ := verifyEntry_ok.mp hsealed
  exact ⟨doc, sealed, hdoc, haccepts.verified, List.getLast?_concat⟩

theorem Logged.succeed_eq (h : Logged cr fl ed25519 nodeKey expected file entries seals)
    {line : Bytes} {entry : Py} {head : SealFields} (hlast : entries.getLast? = some (line, entry))
    (hhead : seals.getLast? = some head) (sealed : SealFields) :
    succeed cr ed25519 nodeKey sealed entries.getLast? =
      (requireSuccession head sealed >>= fun _ => .ok (lineDigest cr line)) := by
  obtain ⟨doc, found, hdoc, hfound, hseals⟩ := h.last hlast
  obtain rfl := Option.some.inj (hhead.symm.trans hseals)
  rw [hlast, succeed, hdoc, ok_bind, hfound, ok_bind]
  rfl

/-- What the new line names is the digest of the last one. -/
theorem Logged.succeed_ok (h : Logged cr fl ed25519 nodeKey expected file entries seals)
    {sealed : SealFields} {prev : Text}
    (hprev : succeed cr ed25519 nodeKey sealed entries.getLast? = .ok prev) :
    prev = headDigest cr genesisPrev (entries.map Prod.fst) ∧
      ∀ head ∈ seals.getLast?, Succeeds head sealed := by
  rw [headDigest, List.getLast?_map]
  cases hlast : entries.getLast? with
  | none =>
    obtain rfl := List.getLast?_eq_none_iff.mp hlast
    obtain rfl := Except.ok.inj h.verified
    refine ⟨(Except.ok.inj hprev).symm, fun head hhead => ?_⟩
    cases hhead
  | some last =>
    obtain ⟨line, entry⟩ := last
    obtain ⟨_, head, -, -, hseals⟩ := h.last hlast
    rw [h.succeed_eq hlast hseals, bind_ok] at hprev
    obtain ⟨_, hsucceeds, hdigest⟩ := hprev
    refine ⟨(Except.ok.inj hdigest).symm, fun found hfound => ?_⟩
    obtain rfl := Option.some.inj (hseals.symm.trans hfound)
    exact (requireSuccession_ok.mp hsucceeds).1

/-! ## One run -/

theorem printable_headDigest (ls : List Bytes) : Printable (headDigest cr genesisPrev ls) := by
  rw [headDigest_genesis]
  exact printable_hashText _

/-- The line written for a seal that verifies is read back. -/
theorem readLine_entryOf {prev : Text} (hprev : Printable prev) {doc : Py} (hdoc : Plain doc)
    (now : Moment) (number : Nat) :
    readLine fl number prev (dumps fl (entryOf prev doc now)) = .ok (entryOf prev doc now) := by
  refine readLine_ok.mpr ⟨loads_dumps fl (plain_entryOf hprev hdoc now), ?_, ?_,
    ⟨now.isoformat, ?_⟩, rfl⟩
  · exact hasKeys_dict.mpr rfl
  · simp (disch := decide) only [entryOf, item_here, item_there]
  · simp (disch := decide) only [entryOf, item_here]

/-- The log with one more line. -/
structure Extends (cr : Crypto) (fl : Floats) (ed25519 : Ed25519) (nodeKey : Text)
    (expected : Expected) (file : File) (entries : List (Bytes × Py)) (seals : List SealFields)
    (data : Bytes) (sealed : SealFields) (line : Bytes) (entry : Py) : Prop where
  oneLine : 0x0a ∉ line
  appended : data = file.getD [] ++ line ++ [0x0a]
  logged : Logged cr fl ed25519 nodeKey expected (some data) (entries ++ [(line, entry)])
    (seals ++ [sealed])

theorem record_step (h : Logged cr fl ed25519 nodeKey expected file entries seals)
    {attempt : Attempt} {data : Bytes} {sealed : SealFields} {number : Nat} {digest : Text}
    (hrecord : record cr fl ed25519 nodeKey expected file attempt =
      .ok (data, sealed, number, digest)) :
    ∃ line entry, number = entries.length + 1 ∧ digest = lineDigest cr line ∧
      Extends cr fl ed25519 nodeKey expected file entries seals data sealed line entry := by
  simp only [record, bind_ok, requireSealIdentity_ok, h.read, Except.ok.injEq, exists_eq_left',
    unless_ok, Bool.not_eq_true', Bool.not_eq_false, pure_ok, Prod.mk.injEq, encodeEntry,
    appendEntry] at hrecord
  obtain ⟨doc, -, _, hverified, _, ⟨hidentity, rfl⟩, prev, hprev, -, rfl, rfl, rfl, rfl⟩ := hrecord
  obtain ⟨rfl, hsucceeds⟩ := h.succeed_ok hprev
  obtain ⟨s, signature, hbuild, -, -, rfl, -, -⟩ := verifySigned_ok.mp hverified
  have hplain := plain_signedDoc hbuild signature
  have hprintable : Printable (headDigest cr genesisPrev (entries.map Prod.fst)) :=
    printable_headDigest _
  have hnewline : 0x0a ∉ dumps fl (entryOf (headDigest cr genesisPrev (entries.map Prod.fst))
      (signedDoc s signature) attempt.now) := by
    intro hmem
    exact absurd ((plain_entryOf hprintable hplain attempt.now).graphic fl _ hmem) (by decide)
  obtain ⟨hended, hlines⟩ := readLog_ok.mp h.read
  have hfirst := readLines_lines hlines
  refine ⟨_, entryOf (headDigest cr genesisPrev (entries.map Prod.fst)) (signedDoc s signature)
    attempt.now, rfl, rfl, hnewline, rfl, readLog_ok.mpr ⟨ended_append, ?_⟩, ?_⟩
  · rw [Option.getD_some, List.append_assoc, lines_append hended, lines_line hnewline]
    refine readLines_concat.mpr ⟨entries, _, hlines, ?_, rfl⟩
    rw [← hfirst]
    exact readLine_entryOf hprintable hplain attempt.now _
  · rw [List.map_append]
    refine verifyEntries_concat.mpr ⟨seals, _, h.verified, ?_, rfl⟩
    rw [Option.or_none]
    refine verifyEntry_ok.mpr ⟨_, ?_, hverified, hidentity, hsucceeds⟩
    simp (disch := decide) only [entryOf, item_here, item_there]

/-! ## Every sequence of runs -/

theorem fileAfter_error {attempt : Attempt} {e : OpsError}
    (h : record cr fl ed25519 nodeKey expected file attempt = .error e) :
    fileAfter cr fl ed25519 nodeKey expected file attempt = file := by
  rw [fileAfter, h]

theorem fileAfter_ok {attempt : Attempt} {data : Bytes} {rest : SealFields × Nat × Text}
    (h : record cr fl ed25519 nodeKey expected file attempt = .ok (data, rest)) :
    fileAfter cr fl ed25519 nodeKey expected file attempt = some data := by
  rw [fileAfter, h]

theorem logged_fileAfter (h : Logged cr fl ed25519 nodeKey expected file entries seals)
    (attempt : Attempt) : ∃ entries' seals', Logged cr fl ed25519 nodeKey expected
      (fileAfter cr fl ed25519 nodeKey expected file attempt) entries' seals' := by
  cases hrecord : record cr fl ed25519 nodeKey expected file attempt with
  | error e =>
    rw [fileAfter_error hrecord]
    exact ⟨entries, seals, h⟩
  | ok written =>
    obtain ⟨data, sealed, number, digest⟩ := written
    obtain ⟨line, entry, -, -, hextends⟩ := record_step h hrecord
    rw [fileAfter_ok hrecord]
    exact ⟨_, _, hextends.logged⟩

theorem logged_fileAfterAll (h : Logged cr fl ed25519 nodeKey expected file entries seals)
    (attempts : List Attempt) : ∃ entries' seals', Logged cr fl ed25519 nodeKey expected
      (fileAfterAll cr fl ed25519 nodeKey expected file attempts) entries' seals' := by
  induction attempts generalizing file entries seals with
  | nil => exact ⟨entries, seals, h⟩
  | cons attempt attempts ih =>
    obtain ⟨_, _, hnext⟩ := logged_fileAfter h attempt
    exact ih hnext

/-- Files whose last lines have one digest are the same file. -/
theorem readLog_unique {file' : File} {entries' : List (Bytes × Py)} {last last' : Bytes × Py}
    (free : Distinct cr (entries.map Prod.fst ++ entries'.map Prod.fst))
    (h : readLog cr fl file = .ok entries) (h' : readLog cr fl file' = .ok entries')
    (hlast : entries.getLast? = some last) (hlast' : entries'.getLast? = some last')
    (heq : lineDigest cr last.1 = lineDigest cr last'.1) : file = file' := by
  obtain ⟨hended, hlines⟩ := readLog_ok.mp h
  obtain ⟨hended', hlines'⟩ := readLog_ok.mp h'
  have hfirst := readLines_lines hlines
  have hfirst' := readLines_lines hlines'
  rw [hfirst, hfirst'] at free
  have hhead : headDigest cr genesisPrev (lines (file.getD [])) =
      headDigest cr genesisPrev (lines (file'.getD [])) := by
    rw [← hfirst, ← hfirst', headDigest, headDigest, List.getLast?_map, List.getLast?_map,
      hlast, hlast']
    exact heq
  have hsame := congrArg unlines (readLines_unique free hlines hlines' hhead)
  rw [unlines_lines hended, unlines_lines hended'] at hsame
  cases file with
  | none =>
    obtain rfl := Except.ok.inj h
    cases hlast
  | some data =>
    cases file' with
    | none =>
      obtain rfl := Except.ok.inj h'
      cases hlast'
    | some data' => exact congrArg some hsame

end

section
variable (cr : Crypto) (fl : Floats) (ed25519 : Ed25519) (nodeKey : Text) (expected : Expected)

/-- The log is accepted after every sequence of runs, its seals succeed one another, a run adds one
line or nothing, the last line fixes the file, and a node that only grows is not refused. -/
theorem seal_log :
    (∀ attempts : List Attempt, ∃ entries seals,
      Logged cr fl ed25519 nodeKey expected
        (fileAfterAll cr fl ed25519 nodeKey expected none attempts) entries seals ∧
      verifyLog cr fl ed25519 nodeKey expected
        (fileAfterAll cr fl ed25519 nodeKey expected none attempts) = .ok ⟨entries.length,
          entries.getLast?.map fun entry => lineDigest cr entry.1, seals.getLast?⟩ ∧
      seals.IsChain Succeeds ∧
      ∀ attempt : Attempt,
        (∀ e, record cr fl ed25519 nodeKey expected
            (fileAfterAll cr fl ed25519 nodeKey expected none attempts) attempt = .error e →
          fileAfterAll cr fl ed25519 nodeKey expected none (attempts ++ [attempt]) =
            fileAfterAll cr fl ed25519 nodeKey expected none attempts) ∧
        ∀ data sealed number digest, record cr fl ed25519 nodeKey expected
            (fileAfterAll cr fl ed25519 nodeKey expected none attempts) attempt =
              .ok (data, sealed, number, digest) →
          fileAfterAll cr fl ed25519 nodeKey expected none (attempts ++ [attempt]) = some data ∧
          ∃ line entry, number = entries.length + 1 ∧ digest = lineDigest cr line ∧
            Extends cr fl ed25519 nodeKey expected
              (fileAfterAll cr fl ed25519 nodeKey expected none attempts) entries seals data
              sealed line entry) ∧
    (∀ (file file' : File) (entries entries' : List (Bytes × Py)) (last last' : Bytes × Py),
      Distinct cr (entries.map Prod.fst ++ entries'.map Prod.fst) →
      readLog cr fl file = .ok entries → readLog cr fl file' = .ok entries' →
      entries.getLast? = some last → entries'.getLast? = some last' →
      lineDigest cr last.1 = lineDigest cr last'.1 → file = file') ∧
    ∀ (verify : V1.Verify) (store : V1.Store) (t t' : V1.Tables) (s s' : V1.Snapshot)
      (requested requested' : Option V1.FoldRef) (instanceId key : Hash) (build build' : String)
      (now now' : BitVec 64), t.Grows t' → now.toNat < now'.toNat →
      Set.InjOn cr.sha256 (digested cr s ∪ digested cr s') →
      s'.projection.rows.length < 2 ^ 64 →
      store.snapshot cr verify t requested = some (.ok s) →
      store.snapshot cr verify t' requested' = some (.ok s') →
      requireSuccession (sealFields (sealOf instanceId key build s now))
          (sealFields (sealOf instanceId key build' s' now')) =
        .ok (sealFields (sealOf instanceId key build' s' now')) := by
  refine ⟨fun attempts => ?_, ?_, ?_⟩
  · have hnone : Logged cr fl ed25519 nodeKey expected none [] [] := logged_none
    obtain ⟨entries, seals, hlogged⟩ := logged_fileAfterAll hnone attempts
    refine ⟨entries, seals, hlogged, hlogged.verifyLog, verifyEntries_chain hlogged.verified,
      fun attempt => ?_⟩
    have hnext : fileAfterAll cr fl ed25519 nodeKey expected none (attempts ++ [attempt]) =
        fileAfter cr fl ed25519 nodeKey expected
          (fileAfterAll cr fl ed25519 nodeKey expected none attempts) attempt :=
      List.foldl_concat ..
    rw [hnext]
    exact ⟨fun e he => fileAfter_error he,
      fun data sealed number digest hok => ⟨fileAfter_ok hok, record_step hlogged hok⟩⟩
  · intro file file' entries entries' last last' free h h' hlast hlast' heq
    exact readLog_unique free h h' hlast hlast' heq
  · intro verify store t t' s s' requested requested' instanceId key build build' now now' grows
      clock inj usize h h'
    exact requireSuccession_ok.mpr
      ⟨node_succeeds instanceId key build build' grows clock inj usize h h', rfl⟩

end

/-! ## A node that gets its first event -/

namespace LogSample
open V1.Sample (ada adaCommitment adaCrypto adaDigests adaFilter adaId adaStore adaTables adaVerify)

/-- SHA-256 of the list of nothing, of the view of nothing and of two lines. -/
def digests : List ((Nat × UInt8) × Hash) :=
  ((20, 12), 0x9e19b7c98d15edb4232969ede2c5d862e3e762b9a67d48651579dd49a82d8ffb) ::
  ((0x9e, 10), 0x2bb9aa67a902180fc4fb8fda057974ca91f715565ee43ccd941d1dbacf6df21e) ::
  ((933, 101), 0x141243315cfa5707e684955b3f39f3ce5c47905599079c32b25dc5d0455c2a84) ::
  ((934, 101), 0xb25695c1710979e6dfc6caff2838b6f87848d435d87018e54e928ccede67fc4c) :: adaDigests

/-- A view is told by the first byte of its corpus digest, anything else by its length. -/
def digestKey (bytes : Bytes) : Nat × UInt8 :=
  (if bytes.getD 3 0 = 10 then (bytes.getD 82 0).toNat else bytes.length, bytes.getD 3 0)

def crypto : Crypto where
  sha256 bytes := (digests.lookup (digestKey bytes)).getD adaCommitment
  authorKey := adaCrypto.authorKey

def floats : Floats := ⟨fun _ => [], fun _ => 0⟩

def nodeKey : Hash := 0xea4a6c63e29c520abef5507b132ec5f9954776aebebe7b92421eea691446d22c

/-- The seal of the node that holds nothing. -/
def first : NodeSealV1 where
  instanceId := 1
  nodeKey := nodeKey
  foldVersion := ⟨1, 0xfd7b2676d70b628128eb83fbba27b3ebefff6e51823c1d87620d57a4e2ad6208⟩
  filterVersion := 0xb315122ca45df8556f00a57b3a940a4412d67e26d57da1a2231f671fea8dfbd6
  corpusDigest := 0x9e19b7c98d15edb4232969ede2c5d862e3e762b9a67d48651579dd49a82d8ffb
  commitment := 0x2bb9aa67a902180fc4fb8fda057974ca91f715565ee43ccd941d1dbacf6df21e
  counts := ⟨0⟩
  build := "0123abc"
  sealedAtUs := 7

/-- Its seal when it holds `ada`. -/
def grown : NodeSealV1 :=
  { first with
    corpusDigest := 0xe6b9503a6bb796b2c918d1e36a8060862f0d622a65c75ac9002fa1c97cc6f05e
    commitment := adaCommitment
    counts := ⟨1⟩
    sealedAtUs := 18 }

/-- The node's signatures of the two. -/
def signature : Bytes := beBytes 64
  0xad8be687f1dd351ec24577b5d190a9384bfa1640068fd69a3c8deb697cea93f424953fa77e8e2ac03a190dbd47acf3fdc69c71d0049b65961c115f0ee51c2f08
def grownSignature : Bytes := beBytes 64
  0xc67c824de153c1795bc6316d8c1dbe248dd892a3ffc55bda8e32de9af4368ad4b4bc8167f2926a68aceb6ed9fb07a00a842d596e4145cea2a4ec1140a1112003

def ed25519 : Ed25519 := fun key sig message =>
  key = hashBytes nodeKey && (message = (sealParts first).flatten && sig = signature ||
    message = (sealParts grown).flatten && sig = grownSignature)

def expected : Expected :=
  ⟨hashText 1, 1, hashText first.foldVersion.manifest, hashText first.filterVersion⟩

def attempt (doc : Py) (second : Nat) (appends : Bool) : Attempt :=
  ⟨.ok doc, ⟨1970, 1, 1, 0, 0, second, 0⟩, appends⟩

/-- At the second run the file cannot be written; at the last one the answer is an old one. -/
def attempts : List Attempt :=
  [attempt (signedDoc first signature) 1 true, attempt (signedDoc grown grownSignature) 2 false,
   attempt (signedDoc grown grownSignature) 3 true, attempt (signedDoc first signature) 4 true]

/-- The line of a seal that is fetched at the second. -/
def lineOf (prev : Text) (doc : Py) (second : Nat) : Bytes :=
  dumps floats (entryOf prev doc ⟨1970, 1, 1, 0, 0, second, 0⟩)

def line : Bytes := lineOf genesisPrev (signedDoc first signature) 1
def grownLine : Bytes := lineOf (lineDigest crypto line) (signedDoc grown grownSignature) 3

theorem build_first : Build first.build := by decide +kernel

theorem first_verifies : verifySigned ed25519 (hashText nodeKey) (signedDoc first signature) =
    .ok (sealFields first) := by
  refine verifySigned_ok.mpr ⟨first, signature, build_first, rfl, beBytes_length _ _, rfl, rfl, ?_⟩
  have hkey : first.nodeKey = nodeKey := rfl
  simp only [ed25519, hkey, decide_true, Bool.and_self, Bool.true_or]

theorem grown_verifies : verifySigned ed25519 (hashText nodeKey) (signedDoc grown grownSignature) =
    .ok (sealFields grown) := by
  refine verifySigned_ok.mpr ⟨grown, grownSignature, build_first, rfl, beBytes_length _ _, rfl, rfl,
    ?_⟩
  have hkey : grown.nodeKey = nodeKey := rfl
  simp only [ed25519, hkey, decide_true, Bool.and_self, Bool.or_true]

/-! ### The four runs -/

theorem line_digests : crypto.sha256 line ≠ crypto.sha256 grownLine ∧ crypto.sha256 line ≠ 0 ∧
    crypto.sha256 grownLine ≠ 0 := by
  decide +kernel

theorem record_eq {file : File} {entries : List (Bytes × Py)} {doc : Py} {sealed : SealFields}
    (hverified : verifySigned ed25519 (hashText nodeKey) doc = .ok sealed)
    (hdrift : drift expected sealed = []) (hread : readLog crypto floats file = .ok entries)
    (second : Nat) (appends : Bool) :
    record crypto floats ed25519 (hashText nodeKey) expected file (attempt doc second appends) =
      (succeed crypto ed25519 (hashText nodeKey) sealed entries.getLast? >>= fun prev =>
        if appends then .ok (appendEntry file (lineOf prev doc second), sealed, entries.length + 1,
          lineDigest crypto (lineOf prev doc second))
        else .error .os) := by
  have hanswer : (attempt doc second appends).answer = .ok doc := rfl
  unfold record
  rw [hanswer, ok_bind, hverified, ok_bind, requireSealIdentity_ok.mpr ⟨hdrift, rfl⟩, ok_bind,
    hread, ok_bind]
  refine bind_congr fun prev => ?_
  cases appends <;> rfl

theorem first_drift : drift expected (sealFields first) = [] := by decide

theorem grown_drift : drift expected (sealFields grown) = [] := by decide

theorem first_last : [sealFields first].getLast? = some (sealFields first) := rfl

theorem grown_succeeds : requireSuccession (sealFields first) (sealFields grown) =
    .ok (sealFields grown) := rfl

theorem first_recorded : record crypto floats ed25519 (hashText nodeKey) expected none
    (attempt (signedDoc first signature) 1 true) =
      .ok (line ++ [0x0a], sealFields first, 1, lineDigest crypto line) := by
  have hread : readLog crypto floats none = .ok [] := rfl
  rw [record_eq first_verifies first_drift hread]
  rfl

/-- The log of the first line. -/
theorem first_logged : ∃ entry, Logged crypto floats ed25519 (hashText nodeKey) expected
    (some (line ++ [0x0a])) [(line, entry)] [sealFields first] := by
  obtain ⟨line', entry, -, -, hextends⟩ := record_step logged_none first_recorded
  obtain rfl : line = line' := List.append_cancel_right hextends.appended
  exact ⟨entry, hextends.logged⟩

section
variable {entry : Py} (hlogged : Logged crypto floats ed25519 (hashText nodeKey) expected
  (some (line ++ [0x0a])) [(line, entry)] [sealFields first])
include hlogged

theorem unwritten : record crypto floats ed25519 (hashText nodeKey) expected
    (some (line ++ [0x0a])) (attempt (signedDoc grown grownSignature) 2 false) = .error .os := by
  rw [record_eq grown_verifies grown_drift hlogged.read, hlogged.succeed_eq rfl first_last,
    grown_succeeds]
  rfl

theorem grown_recorded : record crypto floats ed25519 (hashText nodeKey) expected
    (some (line ++ [0x0a])) (attempt (signedDoc grown grownSignature) 3 true) =
      .ok (line ++ [0x0a] ++ grownLine ++ [0x0a], sealFields grown, 2,
        lineDigest crypto grownLine) := by
  rw [record_eq grown_verifies grown_drift hlogged.read, hlogged.succeed_eq rfl first_last,
    grown_succeeds]
  rfl

end

theorem grown_logged : ∃ entry entry', Logged crypto floats ed25519 (hashText nodeKey) expected
    (some (line ++ [0x0a] ++ grownLine ++ [0x0a])) [(line, entry), (grownLine, entry')]
      [sealFields first, sealFields grown] := by
  obtain ⟨entry, hlogged⟩ := first_logged
  obtain ⟨line', entry', -, -, hextends⟩ := record_step hlogged (grown_recorded hlogged)
  obtain rfl : grownLine = line' :=
    List.append_cancel_left (List.append_cancel_right hextends.appended)
  exact ⟨entry, entry', hextends.logged⟩

theorem stale {entry entry' : Py}
    (hlogged : Logged crypto floats ed25519 (hashText nodeKey) expected
      (some (line ++ [0x0a] ++ grownLine ++ [0x0a])) [(line, entry), (grownLine, entry')]
      [sealFields first, sealFields grown]) :
    record crypto floats ed25519 (hashText nodeKey) expected
        (some (line ++ [0x0a] ++ grownLine ++ [0x0a]))
        (attempt (signedDoc first signature) 4 true) =
      .error (.regression "time_regression" "sealed_at_us is not later than the log head") := by
  have hhead : [sealFields first, sealFields grown].getLast? = some (sealFields grown) := rfl
  rw [record_eq first_verifies first_drift hlogged.read, hlogged.succeed_eq rfl hhead]
  rfl

/-- The log after the four runs. -/
theorem attempts_file :
    fileAfterAll crypto floats ed25519 (hashText nodeKey) expected none attempts =
      some (line ++ [0x0a] ++ grownLine ++ [0x0a]) := by
  obtain ⟨entry, hfirst⟩ := first_logged
  obtain ⟨_, _, hgrown⟩ := grown_logged
  simp only [fileAfterAll, attempts, List.foldl_cons, List.foldl_nil, fileAfter_ok first_recorded,
    fileAfter_error (unwritten hfirst), fileAfter_ok (grown_recorded hfirst),
    fileAfter_error (stale hgrown)]

theorem lines_distinct : Distinct crypto ([line, grownLine] ++ [line, grownLine]) := by
  obtain ⟨hne, hfirst, hgrown⟩ := line_digests
  have hmem : ∀ a ∈ [line, grownLine] ++ [line, grownLine], a = line ∨ a = grownLine := by simp
  refine ⟨fun a ha b hb heq => ?_, fun a ha => ?_⟩
  · rcases hmem a ha with rfl | rfl <;> rcases hmem b hb with rfl | rfl
    · rfl
    · exact absurd heq hne
    · exact absurd heq.symm hne
    · rfl
  · rcases hmem a ha with rfl | rfl
    · exact hfirst
    · exact hgrown

/-! ### The two snapshots -/

theorem sha256_eq {bytes : Bytes} {key : Nat × UInt8} (h : digestKey bytes = key) :
    crypto.sha256 bytes = (digests.lookup key).getD adaCommitment := by
  rw [← h]
  rfl

theorem digestKey_of {bytes : Bytes} {n : Nat} {head : UInt8} (hlen : bytes.length = n)
    (hhead : bytes.getD 3 0 = head) (hne : head ≠ 10) : digestKey bytes = (n, head) := by
  unfold digestKey
  rw [hhead, if_neg hne, hlen]

theorem manifest_bytes : V1.foldManifest.toUTF8.toList.length = 2217 ∧
    V1.foldManifest.toUTF8.toList.getD 3 0 = 102 := by
  rw [V1.foldManifest, V1.toList_join]
  decide +kernel

theorem adaFilter_fold : adaFilter.fold = first.foldVersion ∧
    V1.foldV1 crypto = first.foldVersion := by
  obtain ⟨hlen, hhead⟩ := manifest_bytes
  refine ⟨?_, ?_⟩
  · change V1.FoldRef.mk 1 ((adaDigests.lookup (V1.foldManifest.toUTF8.toList.length,
      V1.foldManifest.toUTF8.toList.getD 3 0)).getD adaCommitment) = _
    rw [hlen, hhead]
    rfl
  · rw [V1.foldV1, sha256_eq (digestKey_of hlen hhead (by decide))]
    rfl

theorem bound (rows : List (Hash × Bytes)) : adaStore.Bound crypto (adaTables rows) adaFilter :=
  ⟨rfl, adaFilter_fold.1.trans adaFilter_fold.2.symm, rfl⟩

theorem view_key (corpus : Hash) (rows : Bytes) :
    digestKey (viewBytes crypto adaFilter corpus rows) =
      (((hashBytes corpus).getD 0 0).toNat, 10) := by
  have hframed : V1.framed "cc.view.v1" = [0, 0, 0, 10] ++ utf8 "cc.view.v1" :=
    V1.framed_eq "cc.view.v1"
  have hhead : (viewBytes crypto adaFilter corpus rows).getD 3 0 = 10 := by
    simp only [viewBytes, hframed, List.append_assoc]
    rfl
  have hcorpus : (viewBytes crypto adaFilter corpus rows).getD 82 0 =
      (hashBytes corpus).getD 0 0 := by
    have hlen : (V1.framed "cc.view.v1" ++ beBytes 2 V1.canonVersion.toNat ++
        beBytes 2 adaFilter.fold.version.toNat ++ hashBytes adaFilter.fold.manifest ++
        hashBytes (adaFilter.version crypto)).length = 82 := by
      simp only [List.length_append, hframed, beBytes_length, V1.hashBytes_length]
      rfl
    have hpos : 0 < (hashBytes corpus).length := by
      rw [V1.hashBytes_length]
      decide
    rw [viewBytes, List.append_assoc, List.append_assoc, List.getD_eq_getElem?_getD,
      List.getElem?_append_right hlen.le, hlen, Nat.sub_self, List.getElem?_append_left hpos,
      ← List.getD_eq_getElem?_getD]
  unfold digestKey
  rw [hhead, hcorpus]
  rfl

theorem keys_of_small {C : V1.Candidates} {ids : List Hash} (h : ∀ id, id ∈ C ↔ id ∈ ids)
    (hsmall : ids.length ≤ 1) : C.keys = ids := by
  have hnodup : ids.Nodup := by
    match ids, hsmall with
    | [], _ => exact List.nodup_nil
    | [id], _ => exact List.nodup_singleton id
  have hperm : C.keys.Perm ids :=
    (List.perm_ext_iff_of_nodup Std.ExtTreeMap.nodup_keys hnodup).mpr fun id =>
      Std.ExtTreeMap.mem_keys.trans (h id)
  match ids, hsmall with
  | [], _ => exact List.perm_nil.mp hperm
  | [id], _ => exact List.perm_singleton.mp hperm

theorem filter_version : adaFilter.version crypto = first.filterVersion := by
  have hlen : adaFilter.canonical.length = 163 := by
    simp only [V1.FilterIdentity.canonical, V1.framed_eq, List.length_append, beBytes_length,
      V1.hashBytes_length]
    rfl
  have hhead : adaFilter.canonical.getD 3 0 = 12 := by
    rw [V1.FilterIdentity.canonical, V1.framed_eq]
    rfl
  rw [V1.FilterIdentity.version, sha256_eq (digestKey_of hlen hhead (by decide))]
  rfl

theorem corpus_digests : crypto.sha256 (corpusBytes []) = first.corpusDigest ∧
    crypto.sha256 (corpusBytes [adaId]) = grown.corpusDigest := by
  rw [corpusBytes, corpusBytes, V1.framed_eq]
  exact ⟨rfl, rfl⟩

section
variable {t : V1.Tables} {s : V1.Snapshot} {ids : List Hash}

theorem rows_small (h : adaStore.snapshot crypto adaVerify t none = some (.ok s))
    (hids : ∀ id, id ∈ t.candidates ↔ id ∈ ids) (hsmall : ids.length ≤ 1) :
    s.projection.rows.map V1.EventReading.event = ids := by
  obtain ⟨C, hC, hrows⟩ := snapshot_rows h
  exact hrows.trans (keys_of_small (fun id => (hC id).trans (hids id)) hsmall)

/-- The seal of at most one candidate. -/
theorem sealOf_small (h : adaStore.snapshot crypto adaVerify t none = some (.ok s))
    (hids : ∀ id, id ∈ t.candidates ↔ id ∈ ids) (hsmall : ids.length ≤ 1) (now : BitVec 64) :
    sealOf 1 nodeKey "0123abc" s now = { first with
      corpusDigest := crypto.sha256 (corpusBytes ids)
      commitment := (digests.lookup
        (((hashBytes (crypto.sha256 (corpusBytes ids))).getD 0 0).toNat, 10)).getD adaCommitment
      counts := ⟨BitVec.ofNat 64 ids.length⟩
      sealedAtUs := now } := by
  obtain ⟨_, _, hrule, -, hof⟩ := snapshot_folds h
  obtain rfl := Option.some.inj hrule
  obtain ⟨hfilter, hname, -, hcorpus, hcommitment⟩ := snapshot_of hof
  have hrows := rows_small h hids hsmall
  have hlength : s.projection.rows.length = ids.length := by
    rw [← hrows, List.length_map]
  have hfold : s.rule.fold = first.foldVersion := by
    rw [hname]
    exact adaFilter_fold.1
  have hversion : s.rule.filterVersion = first.filterVersion := by
    rw [hname]
    exact filter_version
  rw [hrows] at hcorpus
  rw [hfilter, sha256_eq (view_key _ _), hcorpus] at hcommitment
  rw [sealOf, hfold, hversion, hcorpus, hcommitment, hlength]
  rfl

theorem digested_cases {b : Bytes} (h : adaStore.snapshot crypto adaVerify t none = some (.ok s))
    (hb : b ∈ digested crypto s) :
    (b = corpusBytes (s.projection.rows.map V1.EventReading.event) ∧
      crypto.sha256 b = s.corpusDigest) ∨
    (b = viewBytes crypto s.filter s.corpusDigest (V1.canonicalRows s.projection) ∧
      crypto.sha256 b = s.commitment) := by
  obtain ⟨_, _, -, -, hof⟩ := snapshot_folds h
  obtain ⟨-, -, -, hcorpus, hcommitment⟩ := snapshot_of hof
  rcases hb with rfl | rfl
  · exact Or.inl ⟨rfl, hcorpus.symm⟩
  · exact Or.inr ⟨rfl, hcommitment.symm⟩

end

theorem digested_injOn {t t' : V1.Tables} {s s' : V1.Snapshot}
    (h : adaStore.snapshot crypto adaVerify t none = some (.ok s))
    (h' : adaStore.snapshot crypto adaVerify t' none = some (.ok s'))
    (hfirst : sealOf 1 nodeKey "0123abc" s 7 = first)
    (hgrown : sealOf 1 nodeKey "0123abc" s' 18 = grown) :
    Set.InjOn crypto.sha256 (digested crypto s ∪ digested crypto s') := by
  have hcorpus : s.corpusDigest = first.corpusDigest := congrArg NodeSealV1.corpusDigest hfirst
  have hview : s.commitment = first.commitment := congrArg NodeSealV1.commitment hfirst
  have hcorpus' : s'.corpusDigest = grown.corpusDigest := congrArg NodeSealV1.corpusDigest hgrown
  have hview' : s'.commitment = grown.commitment := congrArg NodeSealV1.commitment hgrown
  have hcases : ∀ b ∈ digested crypto s ∪ digested crypto s',
      (b = corpusBytes (s.projection.rows.map V1.EventReading.event) ∧
        crypto.sha256 b = first.corpusDigest) ∨
      (b = viewBytes crypto s.filter s.corpusDigest (V1.canonicalRows s.projection) ∧
        crypto.sha256 b = first.commitment) ∨
      (b = corpusBytes (s'.projection.rows.map V1.EventReading.event) ∧
        crypto.sha256 b = grown.corpusDigest) ∨
      (b = viewBytes crypto s'.filter s'.corpusDigest (V1.canonicalRows s'.projection) ∧
        crypto.sha256 b = grown.commitment) := by
    rintro b (hb | hb)
    · rw [← hcorpus, ← hview]
      exact (digested_cases h hb).imp_right Or.inl
    · rw [← hcorpus', ← hview']
      exact Or.inr (Or.inr (digested_cases h' hb))
  intro a ha b hb heq
  obtain ⟨ha', hda⟩ | ⟨ha', hda⟩ | ⟨ha', hda⟩ | ⟨ha', hda⟩ := hcases a ha <;>
    obtain ⟨hb', hdb⟩ | ⟨hb', hdb⟩ | ⟨hb', hdb⟩ | ⟨hb', hdb⟩ := hcases b hb <;>
      rw [hda, hdb] at heq <;> first | exact ha'.trans hb'.symm | exact absurd heq (by decide)

theorem ada_held : ∃ d, V1.decode crypto adaVerify d.bytes = .ok d ∧ d.envelope = ada ∧
    d.id = adaId := by
  have hdigest : ∀ p : Bytes, p.length = 192 → p.getD 3 0 = 11 → crypto.sha256 p = adaId := by
    intro p hlen hhead
    rw [sha256_eq (digestKey_of hlen hhead (by decide))]
    rfl
  have hverify : ∀ p : Bytes, p.length = 192 →
      adaVerify V1.Sample.alice p V1.Sample.adaSignature = true := by
    intro p hlen
    simp [adaVerify, hlen]
  obtain ⟨d, hd, he, hid, -⟩ := V1.Sample.ada_decoded hdigest (by decide) hverify
  exact ⟨d, hd, he, hid⟩

theorem snapshot_exists {rows : List (Hash × Bytes)}
    (sound : adaStore.Sound crypto adaVerify (adaTables rows))
    (hrows : ∀ id ∈ (adaTables rows).candidates, id = adaId) :
    ∃ s, adaStore.snapshot crypto adaVerify (adaTables rows) none = some (.ok s) := by
  obtain ⟨all, hall, -⟩ := V1.verified_spec sound
  have free : V1.CollisionFree crypto (V1.candidatesOf all) := by
    have hroot : V1.rootGrant crypto adaId ≠ adaId := by
      rw [V1.rootGrant, V1.domainHash, V1.toList_eq]
      decide
    refine V1.CollisionFree.single (fun r hr => ?_) hroot
    rw [V1.mem_candidatesOf, V1.verified_mem sound hall] at hr
    exact hrows r hr
  obtain ⟨s, hs, -⟩ := V1.exists_snapshot free adaFilter
  exact ⟨s, V1.snapshot_ok ((bound rows).ready (by simp)) hall hs⟩

end LogSample

open LogSample in
open V1.Sample (ada adaId adaStore adaTables adaTables_mem adaTables_sound adaVerify) in
/-- The log of a node that gets its first event: of four runs two are refused, and the two seals
that are logged are the ones of its snapshots. -/
theorem seal_log_grown : ∃ (d : V1.Decoded) (s s' : V1.Snapshot), d.envelope = ada ∧
    adaStore.snapshot crypto adaVerify (adaTables []) none = some (.ok s) ∧
    adaStore.snapshot crypto adaVerify (adaTables [(d.id, d.bytes)]) none = some (.ok s') ∧
    sealOf 1 nodeKey "0123abc" s 7 = first ∧ sealOf 1 nodeKey "0123abc" s' 18 = grown ∧
    requireSuccession (sealFields first) (sealFields grown) = .ok (sealFields grown) ∧
    let file := some (line ++ [0x0a] ++ grownLine ++ [0x0a])
    fileAfterAll crypto floats ed25519 (hashText nodeKey) expected none attempts = file ∧
    verifyLog crypto floats ed25519 (hashText nodeKey) expected file =
      .ok ⟨2, some (lineDigest crypto grownLine), some (sealFields grown)⟩ ∧
    ∀ (file' : File) (entry entry' : Py),
      readLog crypto floats file' = .ok [(line, entry), (grownLine, entry')] → file' = file := by
  obtain ⟨hruns, hunique, hnode⟩ :=
    seal_log crypto floats ed25519 (hashText nodeKey) expected
  obtain ⟨d, hd, he, hid⟩ := ada_held
  have fresh : adaStore.Sound crypto adaVerify (adaTables []) :=
    (V1.Store.Reachable.fresh _).sound
  have hnone : ∀ id, id ∈ (adaTables []).candidates ↔ id ∈ ([] : List Hash) := by
    simp [adaTables]
  have hone : ∀ id, id ∈ (adaTables [(d.id, d.bytes)]).candidates ↔ id ∈ [adaId] := by
    intro id
    rw [adaTables_mem, hid, List.mem_singleton]
  obtain ⟨s, hs⟩ := snapshot_exists fresh fun id h => by simpa using (hnone id).mp h
  obtain ⟨s', hs'⟩ := snapshot_exists (adaTables_sound hd he) fun id h =>
    List.mem_singleton.mp ((hone id).mp h)
  have hfirst : sealOf 1 nodeKey "0123abc" s 7 = first := by
    rw [sealOf_small hs hnone (by decide), corpus_digests.1]
    rfl
  have hgrown : sealOf 1 nodeKey "0123abc" s' 18 = grown := by
    rw [sealOf_small hs' hone (by decide), corpus_digests.2]
    rfl
  have hcount : s'.projection.rows.length < 2 ^ 64 := by
    rw [← List.length_map V1.EventReading.event, rows_small hs' hone (by decide)]
    decide
  have grows : (adaTables []).Grows (adaTables [(d.id, d.bytes)]) :=
    ⟨rfl, fun h => by simp [adaTables] at h⟩
  obtain ⟨entries, seals, hlogged, hreport, -⟩ := hruns attempts
  rw [attempts_file] at hlogged hreport
  obtain ⟨entry, entry', hread⟩ := grown_logged
  obtain rfl := Except.ok.inj (hread.read.symm.trans hlogged.read)
  obtain rfl := Except.ok.inj (hread.verified.symm.trans hlogged.verified)
  refine ⟨d, s, s', he, hs, hs', hfirst, hgrown, ?_, attempts_file, hreport, ?_⟩
  · rw [← hfirst, ← hgrown]
    exact hnode adaVerify adaStore _ _ s s' none none 1 nodeKey "0123abc" "0123abc" 7 18 grows
      (by decide) (digested_injOn hs hs' hfirst hgrown) hcount hs hs'
  · intro file' e e' hfile
    exact hunique _ _ [(line, e), (grownLine, e')] [(line, entry), (grownLine, entry')] _ _
      lines_distinct hfile hread.read rfl rfl rfl

end Clockchain.Operator
