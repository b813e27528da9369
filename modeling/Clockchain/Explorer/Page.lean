import Clockchain.Verifier.Reads

/-!
# Subject pages

`pageChecks` of `web/explorer/js/model.js`: what the page of a subject may claim of the texts it
shows. The report is the verifier's, found by the names of its checks, and the texts are read a
second time, by `JSON.parse`.
-/

namespace Clockchain.Explorer
open Json (Value)
open Json.Members (field_get optional_get pair_get record_get strict_lenient)
open Public (entity hex32 hex32_hex proseOf)
open V0.Publisher (Text)
open V1 (Crypto Hash Verify)
open Verifier (Check Input Report Status Wording subjectReadForm proseReadForm snapshotForm)
set_option autoImplicit false

/-! ## Values of JavaScript -/

/-- `JSON.parse` of a response text, null where it throws. -/
def parsed (text : Option Value) : Value := (text.map (Json.reread Json.double)).getD .null

/-- A property of a value that is not null; of repeated members the last one stands. -/
def prop (v : Value) (name : String) : Option Value :=
  match v with
  | .obj members => members.reverse.lookup name
  | _ => none

def truthy : Value → Bool
  | .null => false
  | .bool b => b
  | .num n => n ≠ 0
  | .str s => s ≠ ""
  | _ => true

/-- `padStart(2, '0')`, by UTF-16 code units. -/
def padTwo : Text → Text
  | [] => ['0', '0']
  | [c] => if c.toNat < 0x10000 then ['0', c] else [c]
  | t => t

section
variable (shown : Value → Option Text)

/-- `b.toString(16)` in two digits; `shown` is what is said of a boolean, an array or an object. -/
def byteText : Value → Option Text
  | .null => none
  | .num n => some (padTwo (Nat.toDigits 16 n))
  | .str s => some (padTwo s.toList)
  | v => padTwo <$> shown v

/-- `hex`: none where it throws. -/
def hexText : Option Value → Option String
  | some (.str s) => some s
  | some (.arr items) => do return .ofList (← items.mapM (byteText shown)).flatten
  | _ => none

/-! ## Pages -/

def snapshotChecks : List String := ["health", "fold_version", "filter_version", "snapshot",
  "snapshot_rule", "canonical_form", "event_ids", "corpus_digest", "view_commitment"]

structure Page where
  ok : Bool
  claim : Bool
  problems : List String

/-- The status of the first check of a name. -/
def statusOf (report : Option Report) (name : String) : Status :=
  match report.bind fun r => r.checks.find? fun c => c.name = name with
  | some c => c.status
  | none => .notChecked

def problem (bad : Bool) (text : String) : List String := if bad then [text] else []

/-- Whether a member is a text, or is missing where there is none. -/
def isText (v : Option Value) (text : Option String) : Bool :=
  match v, text with
  | some (.str s), some t => s = t
  | none, none => true
  | some .null, none => true
  | _, _ => false

/-- The id of the revision a read shows; the outer none is a throw. -/
def currentText (subjectRead : Value) : Option (Option String) :=
  match prop subjectRead "revision" with
  | some v => if truthy v then some <$> hexText shown (prop v "id") else some none
  | none => some none

/-- Whether the prose is that of another revision. -/
def otherRevision (current : Option String) (proseRead : Value) : Option Bool :=
  match current with
  | none => some true
  | some c =>
    if c = "" then some true
    else match prop proseRead "revision" with
      | none => none
      | some .null => none
      | some v => do return (← hexText shown (prop v "id")) ≠ c

def pageChecks (report : Option Report) (id : String) (asOf : Option String)
    (subjectRead proseRead : Value) : Option Page := do
  let failed := ((report.map Report.checks).getD []).filter fun c =>
    c.status = .fail ∧ c.name ∈ snapshotChecks
  let problems := problem report.isNone "the verifier did not run" ++
    problem (failed ≠ []) ("the served snapshot does not verify (" ++
      ", ".intercalate (failed.map Check.name) ++ ")") ++
    problem (!isText (prop subjectRead "subject") (some id))
      "the subject read names another subject than the one requested" ++
    problem (!isText (prop subjectRead "as_of") asOf)
      "the subject read answers another as_of than the one requested" ++
    problem (statusOf report "read:subject" ≠ .pass) "the subject read did not verify"
  let current ← currentText shown subjectRead
  if truthy proseRead then
    let other ← otherRevision shown current proseRead
    let problems := problems ++
      problem other "the prose read is for another revision than the current one" ++
      problem (statusOf report "read:prose" ≠ .pass) "the prose read did not verify"
    return ⟨problems = [], problems = [], problems⟩
  return ⟨problems = [], false, problems⟩

/-- What the verifier is given: the texts of the page, and no export. -/
def pageInput (health snapshot subject : Option Value) (prose : Option (Option Value)) : Input where
  health
  snapshot
  exported := none
  reads := ⟨"subject", subject⟩ :: prose.toList.map fun text => ⟨"prose", text⟩

/-- The checks of a page over the texts it shows. -/
def pageOf (cr : Crypto) (signed : Verify) (w : Wording) (health snapshot subject : Option Value)
    (prose : Option (Option Value)) (id : String) (asOf : Option String) : Option Page :=
  pageChecks shown (some (Verifier.verify cr signed w (pageInput health snapshot subject prose)))
    id asOf (parsed subject) ((prose.map parsed).getD .null)

end

/-! ## Two readings of a text -/

theorem lookup_reread (f : Nat → Nat) (members : List (String × Value)) (name : String) :
    (members.map fun entry => (entry.1, Json.reread f entry.2)).lookup name =
      (members.lookup name).map (Json.reread f) := by
  induction members with
  | nil => rfl
  | cons entry members ih =>
    rw [List.map_cons, List.lookup_cons, List.lookup_cons, ih]
    cases name == entry.1 <;> rfl

theorem prop_reread (f : Nat → Nat) (v : Value) (name : String) :
    prop (Json.reread f v) name = (prop v name).map (Json.reread f) := by
  cases v with
  | obj members =>
    rw [Json.reread, prop, prop, Json.rereadMembers_eq, ← List.map_reverse, lookup_reread]
  | null | bool b | num n | str s | arr items => rfl

theorem lookup_absent {members : List (String × Value)} {name : String}
    (h : (members.map Prod.fst).count name = 0) : members.lookup name = none := by
  rw [List.lookup_eq_none_iff]
  intro entry he
  have hmem : name ∉ members.map Prod.fst := List.count_eq_zero.mp h
  exact bne_iff_ne.mpr fun heq => hmem (heq ▸ List.mem_map_of_mem he)

/-- A member that is not repeated is the last of its name. -/
theorem lookup_reverse {members : List (String × Value)} {name : String}
    (h : (members.map Prod.fst).count name ≤ 1) :
    members.reverse.lookup name = members.lookup name := by
  induction members with
  | nil => rfl
  | cons entry members ih =>
    rw [List.map_cons, List.count_cons] at h
    rw [List.reverse_cons, List.lookup_append, List.lookup_cons, List.lookup_cons, List.lookup_nil]
    by_cases hname : name = entry.1
    · subst hname
      rw [beq_self_eq_true, if_pos rfl] at h
      rw [ih (by omega), lookup_absent (by omega), beq_self_eq_true]
      rfl
    · rw [beq_false_of_ne hname, ih (by omega)]
      exact Option.or_none

/-- A form that passes over other names reads what JavaScript finds. -/
theorem lenient_prop {α : Type} {f : Json.Members α} {v : Value} {a : α} {name : String}
    (hget : f.lenient.get v = some a) (hprop : (prop v name).isSome) :
    ∃ members, v = .obj members ∧ f.get members = some a ∧
      ∀ other ∈ f.names, prop v other = members.lookup other := by
  cases v with
  | obj members =>
    obtain ⟨hread, honce⟩ := Json.Members.lenient_get hget
    exact ⟨members, rfl, hread, fun other hother => lookup_reverse (honce other hother)⟩
  | null | bool b | num n | str s | arr items => cases hprop

theorem isText_get {members : List (String × Value)} {name : String} {text : Option String}
    (h : (Json.Members.optional name .text).get members = some text) :
    isText (members.lookup name) text = true := by
  rcases optional_get h with ⟨rfl, hnone | hnull⟩ | ⟨u, t, hu, rfl, htext⟩
  · rw [hnone]
    rfl
  · rw [hnull]
    rfl
  · rw [hu, Json.Form.text_get htext]
    exact decide_eq_true rfl

/-- What the verifier reads of a subject read. -/
theorem subjectRead_prop {v : Value} {read : Verifier.SubjectRead}
    (hget : subjectReadForm.get v = some read) (hprop : (prop v "subject").isSome) :
    prop v "subject" = some (.str read.subject) ∧
      isText (prop v "as_of") read.asOf = true ∧
      (read.revision = none ∧ (prop v "revision" = none ∨ prop v "revision" = some .null) ∨
        ∃ u rev, prop v "revision" = some u ∧ read.revision = some rev ∧
          Verifier.revisionForm.get u = some rev) := by
  obtain ⟨members, rfl, hmembers, hsame⟩ := lenient_prop hget hprop
  rw [hsame "subject" (by decide), hsame "as_of" (by decide), hsame "revision" (by decide)]
  obtain ⟨⟨asOf, subject, state, frontier, revision, visibility⟩, hparts, rfl⟩ :=
    record_get.mp hmembers
  simp only [pair_get] at hparts
  obtain ⟨hasOf, hsubject, -, -, hrevision, -⟩ := hparts
  refine ⟨?_, isText_get hasOf, optional_get hrevision⟩
  obtain ⟨u, hu, htext⟩ := field_get.mp hsubject
  rw [hu, Json.Form.text_get htext]

/-- What the verifier reads of a prose read. -/
theorem proseRead_prop {v : Value} {read : Verifier.ProseRead}
    (hget : proseReadForm.get v = some read) (hprop : (prop v "revision").isSome) :
    (∃ u, prop v "revision" = some u ∧ Verifier.revisionForm.get u = some read.revision) ∧
      prop v "availability" = some (.str read.availability) ∧
      isText (prop v "prose") read.prose = true := by
  obtain ⟨members, rfl, hmembers, hsame⟩ := lenient_prop hget hprop
  rw [hsame "revision" (by decide), hsame "availability" (by decide), hsame "prose" (by decide)]
  obtain ⟨⟨revision, availability, prose⟩, hparts, rfl⟩ := record_get.mp hmembers
  simp only [pair_get] at hparts
  obtain ⟨hrevision, havailability, hprose⟩ := hparts
  refine ⟨field_get.mp hrevision, ?_, isText_get hprose⟩
  obtain ⟨u, hu, htext⟩ := field_get.mp havailability
  rw [hu, Json.Form.text_get htext]

theorem revision_prop {v : Value} {rev : Verifier.Revision}
    (hget : Verifier.revisionForm.get v = some rev) (hprop : (prop v "id").isSome) :
    ∃ u, prop v "id" = some u ∧ V1.ViewRows.hash.get u = some rev.id := by
  obtain ⟨members, rfl, hmembers, hsame⟩ := lenient_prop (strict_lenient hget) hprop
  rw [hsame "id" (by decide)]
  obtain ⟨⟨id, subject, creating, body, time⟩, hparts, rfl⟩ := record_get.mp hmembers
  simp only [pair_get] at hparts
  exact field_get.mp hparts.1

/-! ## Ids -/

theorem hash_get {v : Value} {h : Hash} (hget : V1.ViewRows.hash.get v = some h) :
    v = V1.ViewRows.hash.put h := by
  cases v with
  | arr items =>
    obtain ⟨bytes, hbytes, hlength⟩ := Option.bind_eq_some_iff.mp hget
    split at hlength
    · next hlen =>
      obtain rfl := Option.some.inj hlength
      have hback : Codec.beBytes 32 (Codec.beNat (bytes.map fun b => UInt8.ofBitVec b)) =
          bytes.map fun b => UInt8.ofBitVec b := by
        have hself := Codec.beBytes_beNat (bytes.map fun b => UInt8.ofBitVec b)
        rwa [List.length_map, hlen] at hself
      have hlt := Codec.beNat_lt (bytes.map fun b => UInt8.ofBitVec b)
      rw [List.length_map, hlen] at hlt
      have hmod : Codec.beNat (bytes.map fun b => UInt8.ofBitVec b) % 2 ^ 256 = _ :=
        Nat.mod_eq_of_lt hlt
      rw [Json.Form.mapM_get (fun _ _ => Json.Form.number_get) hbytes]
      change _ = Value.arr ((Codec.beBytes 32 (BitVec.ofNat 256 _).toNat).map _)
      rw [BitVec.toNat_ofNat, hmod, hback, List.map_map]
      rfl
    · cases hlength
  | null | bool b | num n | str s | obj members => cases hget

theorem padTwo_byte {b : Nat} (h : b < 256) :
    padTwo (Nat.toDigits 16 b) = [Nat.digitChar (b / 16), Nat.digitChar (b % 16)] := by
  have hsmall : ∀ n < 16, (Nat.digitChar n).toNat < 0x10000 := by decide
  by_cases hlow : b < 16
  · rw [Nat.toDigits_of_lt_base hlow, Nat.div_eq_of_lt hlow, Nat.mod_eq_of_lt hlow]
    exact if_pos (hsmall b hlow)
  · rw [Nat.toDigits_of_base_le (by decide) (by omega), Nat.toDigits_of_lt_base (by omega)]
    rfl

/-- An id is shown as the node writes it. -/
theorem hexText_hash (shown : Value → Option Text) (h : Hash) :
    hexText shown (some (Json.reread Json.double (V1.ViewRows.hash.put h))) =
      some (V1.Publisher.hex h) := by
  have hbyte : ∀ b ∈ Codec.beBytes 32 h.toNat,
      byteText shown (Json.reread Json.double (.num b.toNat)) =
        some [Nat.digitChar (b.toNat / 16), Nat.digitChar (b.toNat % 16)] := by
    intro b _
    have hlt : b.toNat < 256 := b.toNat_lt
    rw [Json.reread, Json.double_eq (by omega), byteText, padTwo_byte hlt]
  have hitems : ((Codec.beBytes 32 h.toNat).map
      (Json.reread Json.double ∘ fun b => .num b.toNat)).mapM (byteText shown) =
        some ((Codec.beBytes 32 h.toNat).map fun b =>
          [Nat.digitChar (b.toNat / 16), Nat.digitChar (b.toNat % 16)]) := by
    rw [List.mapM_map]
    exact Programs.mapM_spec hbyte
  change hexText shown (some (Json.reread Json.double (.arr _))) = _
  rw [Json.reread, Json.rereadItems_eq, List.map_map, hexText, hitems]
  rfl

/-! ## Claims -/

section
variable {shown : Value → Option Text}

/-- What a page has found when it claims. -/
structure Claims (shown : Value → Option Text) (report : Report) (id : String)
    (asOf : Option String) (subjectRead proseRead : Value) : Prop where
  snapshot : ∀ c ∈ report.checks, c.name ∈ snapshotChecks → c.status ≠ .fail
  subject : prop subjectRead "subject" = some (.str id)
  asOf : isText (prop subjectRead "as_of") asOf = true
  read : statusOf (some report) "read:subject" = .pass
  present : truthy proseRead = true
  current : ∃ v u c, prop subjectRead "revision" = some v ∧ truthy v = true ∧
    hexText shown (prop v "id") = some c ∧ c ≠ "" ∧ prop proseRead "revision" = some u ∧
    u ≠ .null ∧ hexText shown (prop u "id") = some c
  prose : statusOf (some report) "read:prose" = .pass

theorem problem_nil {bad : Bool} {text : String} : problem bad text = [] ↔ bad = false := by
  cases bad with
  | false => exact iff_of_true rfl rfl
  | true => exact iff_of_false (List.cons_ne_nil _ _) (fun h => Bool.noConfusion h)

theorem isText_some {v : Option Value} {t : String} :
    isText v (some t) = true ↔ v = some (.str t) := by
  unfold isText
  split
  · next s' t' heq =>
    obtain rfl := Option.some.inj heq
    rw [decide_eq_true_iff, Option.some.injEq, Value.str.injEq]
  · next heq => cases heq
  · next heq => cases heq
  · next hstr _ _ =>
    refine iff_of_false (fun h => Bool.noConfusion h) ?_
    rintro rfl
    exact hstr t t rfl rfl

theorem currentText_some {v : Value} {c : String} : currentText shown v = some (some c) ↔
    ∃ u, prop v "revision" = some u ∧ truthy u = true ∧ hexText shown (prop u "id") = some c := by
  unfold currentText
  cases prop v "revision" with
  | none => simp
  | some u =>
    cases htruthy : truthy u with
    | false => simp [htruthy]
    | true => simp [htruthy]

theorem differs_false {x : Option String} {c : String} :
    (do return decide ((← x) ≠ c)) = some false ↔ x = some c := by
  cases x with
  | none => simp
  | some d => simp

theorem otherRevision_false {current : Option String} {v : Value} :
    otherRevision shown current v = some false ↔ ∃ c u, current = some c ∧ c ≠ "" ∧
      prop v "revision" = some u ∧ u ≠ .null ∧ hexText shown (prop u "id") = some c := by
  unfold otherRevision
  cases current with
  | none => simp
  | some c =>
    by_cases hempty : c = ""
    · simp [hempty]
    · cases hprop : prop v "revision" with
      | none => simp [hempty]
      | some u =>
        cases u with
        | null => simp [hempty]
        | bool b | num n | str s | arr items | obj members =>
          simp only [hempty, if_false, differs_false]
          simp [hempty]

/-- A page claims exactly when it has found all of it, and then without a problem. -/
theorem claims_iff {report : Report} {id : String} {asOf : Option String}
    {subjectRead proseRead : Value} :
    (∃ p, pageChecks shown (some report) id asOf subjectRead proseRead = some p ∧ p.claim = true) ↔
      Claims shown report id asOf subjectRead proseRead := by
  have hfailed : (((some report).map Report.checks).getD []).filter (fun c =>
      c.status = .fail ∧ c.name ∈ snapshotChecks) = [] ↔
        ∀ c ∈ report.checks, c.name ∈ snapshotChecks → c.status ≠ .fail := by
    rw [List.filter_eq_nil_iff]
    exact forall₂_congr fun c _ => by
      rw [decide_eq_true_iff, not_and']
  unfold pageChecks
  constructor
  · rintro ⟨p, hp, hclaim⟩
    obtain ⟨current, hcurrent, hp⟩ := Option.bind_eq_some_iff.mp hp
    split at hp
    · next htruthy =>
      obtain ⟨other, hother, hp⟩ := Option.bind_eq_some_iff.mp hp
      obtain rfl := Option.some.inj hp
      have hnil := of_decide_eq_true hclaim
      simp only [List.append_eq_nil_iff, problem_nil, decide_eq_false_iff_not, ne_eq, not_not,
        Bool.not_eq_false'] at hnil
      obtain ⟨⟨⟨⟨⟨⟨-, hsnapshot⟩, hsubject⟩, hasOf⟩, hread⟩, rfl⟩, hprose⟩ := hnil
      obtain ⟨c, u, rfl, hc, hu, hnull, htext⟩ := otherRevision_false.mp hother
      obtain ⟨v, hv, hshown, hid⟩ := currentText_some.mp hcurrent
      exact ⟨hfailed.mp hsnapshot, isText_some.mp hsubject, hasOf, hread, htruthy,
        ⟨v, u, c, hv, hshown, hid, hc, hu, hnull, htext⟩, hprose⟩
    · obtain rfl := Option.some.inj hp
      cases hclaim
  · intro h
    obtain ⟨v, u, c, hv, hshown, hid, hc, hu, hnull, htext⟩ := h.current
    have hcurrent : currentText shown subjectRead = some (some c) :=
      currentText_some.mpr ⟨v, hv, hshown, hid⟩
    have hother : otherRevision shown (some c) proseRead = some false :=
      otherRevision_false.mpr ⟨c, u, rfl, hc, hu, hnull, htext⟩
    refine ⟨⟨true, true, []⟩, ?_, rfl⟩
    simp only [hfailed.mpr h.snapshot, isText_some.mpr h.subject, h.asOf, h.read, h.prose, hcurrent,
      h.present, hother, Option.bind_eq_bind, Option.bind_some, if_true]
    rfl

end

/-! ## Reports -/

section
variable {cr : Crypto} {signed : Verify} {w : Wording}

theorem expect_name {name pass fail : String} {ok : Bool} :
    (Check.expect name ok pass fail).name = name := by
  cases ok <;> rfl

theorem identity_names {text : Option Value} :
    ∀ c ∈ (Verifier.identity cr w text).1, c.name ∈ snapshotChecks := by
  have hfilter : ∀ h fold, (Verifier.filterOf cr h fold).1.name = "filter_version" := by
    intro h fold
    unfold Verifier.filterOf
    split
    · rfl
    · split
      · rfl
      · exact expect_name
  unfold Verifier.identity
  split
  · simp [Check.failed, snapshotChecks]
  · dsimp only
    split
    · simp [expect_name, snapshotChecks]
    · split
      · simp [expect_name, snapshotChecks]
      · simp [expect_name, hfilter, snapshotChecks]

theorem eventIds_name {s : Verifier.Snapshot} : (Verifier.eventIds cr s).1.name = "event_ids" := by
  unfold Verifier.eventIds
  split
  · rfl
  · exact expect_name

theorem checkSnapshot_checks (cr : Crypto) (signed : Verify) (w : Wording) (i : Input)
    (r : Verifier.Recomputed) (fold : V1.FoldRef) (version : Hash) (served : Value)
    (s : Verifier.Snapshot) : ∃ ok before,
      (Verifier.checkSnapshot cr signed w i r fold version served s).1 = before ++
        (Verifier.signatures cr signed w i.exported s fold version).1 ::
          i.reads.map (fun read => Verifier.checkRead cr w read s ok) ∧
      ∀ c ∈ before, c.name ∈ snapshotChecks := by
  refine ⟨_, [_, _, _, (Verifier.eventIds cr s).1, _, _], rfl, ?_⟩
  simp only [List.forall_mem_cons, expect_name, eventIds_name]
  simp [Check.passed, snapshotChecks]

/-- The checks of a report without an export: those of the snapshot, the signatures, and a check
for each read. -/
theorem run_checks (cr : Crypto) (signed : Verify) (w : Wording) {i : Input}
    (r : Verifier.Recomputed) (hexport : i.exported = none) :
    (∀ c ∈ (Verifier.run cr signed w i r).1, c.name ∈ snapshotChecks) ∨
      ∃ s ok before signatures, (Verifier.run cr signed w i r).1 =
          before ++ signatures :: i.reads.map (fun read => Verifier.checkRead cr w read s ok) ∧
        signatures.name = "signatures" ∧ signatures.status = .notChecked ∧
        ∀ c ∈ before, c.name ∈ snapshotChecks := by
  cases hidentity : Verifier.identity cr w i.health with
  | mk checks found =>
  have hchecks : ∀ c ∈ checks, c.name ∈ snapshotChecks := by
    intro c hc
    have hmem : c ∈ (Verifier.identity cr w i.health).1 := by
      rw [hidentity]
      exact hc
    exact identity_names c hmem
  have hsnapshot : ∀ (detail : String), ∀ c ∈ checks ++ [Check.failed "snapshot" detail],
      c.name ∈ snapshotChecks := by
    intro detail c hc
    rcases List.mem_append.mp hc with hc | hc
    · exact hchecks c hc
    · rw [List.mem_singleton.mp hc]
      simp [Check.failed, snapshotChecks]
  unfold Verifier.run
  rw [hidentity]
  cases found with
  | none => exact .inl hchecks
  | some found =>
    obtain ⟨fold, version⟩ := found
    dsimp only
    cases i.snapshot with
    | none => exact .inl (hsnapshot _)
    | some served =>
      dsimp only
      cases snapshotForm.get served with
      | none => exact .inl (hsnapshot _)
      | some s =>
        obtain ⟨ok, before, hshape, hbefore⟩ :=
          checkSnapshot_checks cr signed w i
            { r with filterVersion := some (V1.Publisher.hex version) } fold version served s
        refine .inr ⟨s, ok, checks ++ before,
          (Verifier.signatures cr signed w i.exported s fold version).1, ?_, ?_, ?_, ?_⟩
        · dsimp only
          rw [hshape, List.append_assoc]
        · rw [hexport]
          rfl
        · rw [hexport]
          rfl
        · intro c hc
          rcases List.mem_append.mp hc with hc | hc
          · exact hchecks c hc
          · exact hbefore c hc

theorem checkRead_name {read : Verifier.Read} {s : Verifier.Snapshot} {ok : Bool} :
    (Verifier.checkRead cr w read s ok).name = "read:" ++ read.kind := by
  unfold Verifier.checkRead
  dsimp only
  split
  · rfl
  split
  · rfl
  split
  · rfl
  split <;> rfl

theorem find_past {checks more : List Check} {name : String} (hname : name ∉ snapshotChecks)
    (h : ∀ c ∈ checks, c.name ∈ snapshotChecks) :
    (checks ++ more).find? (fun c => c.name = name) = more.find? fun c => c.name = name := by
  have hnone : checks.find? (fun c => c.name = name) = none := by
    rw [List.find?_eq_none]
    intro c hc heq
    exact hname (of_decide_eq_true heq ▸ h c hc)
  rw [List.find?_append, hnone, Option.none_or]

/-- Nothing has failed when no check of the snapshot has and both reads pass. -/
theorem report_passes {health snapshot subject prose : Option Value} :
    (Verifier.verify cr signed w (pageInput health snapshot subject (some prose))).outcome ≠
        .failed ↔
      (∀ c ∈ (Verifier.verify cr signed w (pageInput health snapshot subject (some prose))).checks,
        c.name ∈ snapshotChecks → c.status ≠ .fail) ∧
      statusOf (some (Verifier.verify cr signed w
        (pageInput health snapshot subject (some prose)))) "read:subject" = .pass ∧
      statusOf (some (Verifier.verify cr signed w
        (pageInput health snapshot subject (some prose)))) "read:prose" = .pass := by
  let i := pageInput health snapshot subject (some prose)
  have hsubject : "read:subject" ∉ snapshotChecks := by decide
  have hprose : "read:prose" ∉ snapshotChecks := by decide
  have htexts : "read:" ++ "subject" = "read:subject" ∧ "read:" ++ "prose" = "read:prose" ∧
      "signatures" ≠ "read:subject" ∧ "signatures" ≠ "read:prose" ∧
      "read:subject" ≠ "read:prose" ∧ "signatures" ∉ snapshotChecks := by decide
  have hchecks : (Verifier.verify cr signed w i).checks =
      (Verifier.run cr signed w i (Verifier.initial cr)).1 := rfl
  have hstatus : ∀ name, statusOf (some (Verifier.verify cr signed w i)) name =
      match (Verifier.run cr signed w i (Verifier.initial cr)).1.find? fun c => c.name = name with
      | some c => c.status
      | none => .notChecked := fun _ => rfl
  change Verifier.outcomeOf (Verifier.run cr signed w i (Verifier.initial cr)).1 ≠ .failed ↔ _
  rw [Verifier.outcomeOf_failed, hstatus, hstatus, hchecks]
  rcases run_checks cr signed w (Verifier.initial cr) (rfl : i.exported = none) with
    hnames | ⟨s, ok, before, signatures, hrun, hname, hskipped, hbefore⟩
  · refine iff_of_false (fun hall => ?_) fun h => ?_
    · obtain ⟨fold, version, s, h⟩ := Verifier.verify_ok.mp (Verifier.outcomeOf_failed.mpr hall)
      obtain ⟨served, -, hrun⟩ := h.run
      obtain ⟨ok, before, hshape, -⟩ := checkSnapshot_checks cr signed w i (.named cr version) fold
        version served s
      have hmem : Verifier.checkRead cr w ⟨"subject", subject⟩ s ok ∈
          (Verifier.run cr signed w i (Verifier.initial cr)).1 := by
        rw [hrun, hshape]
        simp [i, pageInput]
      have hread := hnames _ hmem
      rw [checkRead_name, htexts.1] at hread
      exact hsubject hread
    · have hnone : (Verifier.run cr signed w i (Verifier.initial cr)).1.find?
          (fun c => c.name = "read:subject") = none := by
        rw [← List.append_nil (Verifier.run cr signed w i (Verifier.initial cr)).1,
          find_past hsubject hnames]
        rfl
      have hread := h.2.1
      rw [hnone] at hread
      exact Status.noConfusion hread
  · have hreads : i.reads.map (fun read => Verifier.checkRead cr w read s ok) =
        [Verifier.checkRead cr w ⟨"subject", subject⟩ s ok,
          Verifier.checkRead cr w ⟨"prose", prose⟩ s ok] := rfl
    rw [hrun, find_past hsubject hbefore, find_past hprose hbefore, hreads]
    simp only [List.find?_cons, hname, checkRead_name, htexts, decide_true, decide_false,
      List.forall_mem_append, List.forall_mem_cons, hskipped, hsubject, hprose, false_implies,
      true_and, Verifier.checkRead_status]
    constructor
    · rintro ⟨hpast, -, hfirst, hsecond, -⟩
      exact ⟨⟨fun c hc _ => hpast c hc, fun c hc => absurd hc List.not_mem_nil⟩, hfirst, hsecond⟩
    · rintro ⟨⟨hpast, -⟩, hfirst, hsecond⟩
      exact ⟨fun c hc => hpast c hc (hbefore c hc), fun heq => Status.noConfusion heq, hfirst,
        hsecond, fun c hc => absurd hc List.not_mem_nil⟩

theorem checkRead_pass {read : Verifier.Read} {s : Verifier.Snapshot}
    (h : (Verifier.checkRead cr w read s true).status = .pass) :
    ∃ detail, Verifier.detailOf cr w read s = .ok detail := by
  unfold Verifier.checkRead at h
  simp only [Bool.not_true, Bool.false_eq_true, if_false] at h
  split at h
  · exact Status.noConfusion h
  split at h
  · exact Status.noConfusion h
  split at h
  · next detail hdetail => exact ⟨detail, hdetail⟩
  · exact Status.noConfusion h

/-- A read that shows a revision is of a subject that has resolved to it, at a moment it is visible
at. -/
theorem implied_current {s : Verifier.Snapshot} {read : Verifier.SubjectRead} {id : Hash}
    {q : Option Hash} {detail : String} {rev : Verifier.Revision}
    (h : Verifier.implied s read id q = .ok detail) (hrev : read.revision = some rev) :
    ∃ reading, s.subjects.find? (fun x => x.subject = id) = some reading ∧
      reading.state = "resolved" ∧ Verifier.currentOf s reading = some rev ∧
      Verifier.visibilityAt q rev = "visible" := by
  unfold Verifier.implied at h
  split at h
  · next hnone =>
    split at h
    · next hall => cases hrev.symm.trans hall.2.2.2
    · cases h
  · next reading hfind =>
    split at h
    · cases h
    split at h
    · cases h
    next visibility revision hshown =>
    split at h
    · cases h
    next hsame =>
    rw [not_or, not_not, not_not] at hsame
    refine ⟨reading, hfind, ?_⟩
    unfold Verifier.shown at hshown
    split at hshown
    · cases hshown
      cases hrev.symm.trans hsame.2
    next hstate =>
    rw [ne_eq, not_not] at hstate
    split at hshown
    · cases hshown
    next current hcurrent =>
    have hparts := Except.ok.inj hshown
    obtain ⟨hvisibility, hrevision⟩ := Prod.mk.inj hparts
    rw [hrev] at hsame
    split at hrevision
    · next hvisible =>
      obtain rfl : current = rev := Option.some.inj (hrevision.trans hsame.2.symm)
      exact ⟨hstate, hcurrent, hvisible⟩
    · cases hrevision.trans hsame.2.symm

/-- The prose that is read hashes to the body of a revision of the snapshot. -/
theorem proseRead_ok {text : Option Value} {s : Verifier.Snapshot} {detail : String}
    (h : Verifier.proseRead cr w text s = .ok detail) :
    ∃ read, text.bind proseReadForm.get = some read ∧ read.revision ∈ s.revisions ∧
      (read.availability = "available" ↔ read.prose ≠ none) ∧
      ∀ prose, read.prose = some prose →
        cr.sha256 prose.toUTF8.data.toList = read.revision.body := by
  unfold Verifier.proseRead at h
  split at h
  · cases h
  next read hread =>
  split at h
  · cases h
  next hmem =>
  refine ⟨read, hread, not_not.mp hmem, ?_⟩
  split at h
  · next p heq hsome =>
    rw [hsome]
    split at h
    · next hhash =>
      refine ⟨iff_of_true heq nofun, fun prose hprose => ?_⟩
      rwa [← Option.some.inj hprose]
    · cases h
  · cases h
  · next hnone hother =>
    rw [hnone]
    exact ⟨iff_of_false hother nofun, nofun⟩
  · cases h

end

theorem subjectRead_parts {w : Wording} {text : Option Value} {s : Verifier.Snapshot}
    {detail : String} (h : Verifier.subjectRead w text s = .ok detail) :
    ∃ read sid q, text.bind subjectReadForm.get = some read ∧ read.subject = V1.Publisher.hex sid ∧
      read.asOf = q.map V1.Publisher.hex ∧ Verifier.implied s read sid q = .ok detail := by
  unfold Verifier.subjectRead at h
  split at h
  · cases h
  next read hread =>
  split at h
  · cases h
  · cases h
  · next sid q hsid hq =>
    obtain ⟨t, ht, hhex⟩ := Option.map_eq_some_iff.mp hq
    refine ⟨read, sid, some q, hread, Verifier.hex32_iff.mp hsid, ?_, h⟩
    rw [ht, Verifier.hex32_iff.mp hhex]
    rfl
  · next sid hsid hq =>
    refine ⟨read, sid, none, hread, Verifier.hex32_iff.mp hsid, ?_, h⟩
    exact Option.map_eq_none_iff.mp hq

/-! ## Claims of a page -/

theorem isText_reread {f : Nat → Nat} {v : Option Value} {t : Option String} :
    isText (v.map (Json.reread f)) t = isText v t := by
  cases v with
  | none => rfl
  | some v => cases v <;> rfl

theorem isText_unique {v : Option Value} {t t' : Option String} (h : isText v t = true)
    (h' : isText v t' = true) : t = t' := by
  cases t with
  | some t =>
    rw [isText_some.mp h] at h'
    cases t' with
    | none => cases h'
    | some t' =>
      have heq := isText_some.mp h'
      rw [Option.some.injEq, Value.str.injEq] at heq
      rw [heq]
  | none =>
    cases t' with
    | none => rfl
    | some t' =>
      rw [isText_some.mp h'] at h
      cases h

/-- An id that is shown of a revision is the one that is read. -/
theorem revision_shown {shown : Value → Option Text} {v : Value} {rev : Verifier.Revision}
    {c : String} (hget : Verifier.revisionForm.get v = some rev)
    (hshown : hexText shown (prop (Json.reread Json.double v) "id") = some c) :
    c = V1.Publisher.hex rev.id := by
  rw [prop_reread] at hshown
  have hprop : (prop v "id").isSome := by
    cases hid : prop v "id" with
    | none =>
      rw [hid] at hshown
      cases hshown
    | some u => rfl
  obtain ⟨u, hu, hhash⟩ := revision_prop hget hprop
  rw [hu, hash_get hhash, Option.map_some, hexText_hash] at hshown
  exact (Option.some.inj hshown).symm

theorem current_mem {s : Verifier.Snapshot} {reading : Verifier.Subject} {rev : Verifier.Revision}
    (h : Verifier.currentOf s reading = some rev) : rev ∈ s.revisions := by
  unfold Verifier.currentOf at h
  obtain ⟨row, -, h⟩ := Option.bind_eq_some_iff.mp h
  obtain ⟨id, -, h⟩ := Option.bind_eq_some_iff.mp h
  exact List.mem_of_find?_eq_some h

/-- What has been read of the texts of a page that claims: a subject of the verified snapshot that
has resolved to a revision visible at the moment asked for, and prose of a revision of that id, the
same to the page as to the verifier. -/
structure Shows (cr : Crypto) (s : Verifier.Snapshot) (subject prose : Option Value) (id : String)
    (asOf : Option String) (rev : Verifier.Revision) (said : Verifier.ProseRead) : Prop where
  current : ∃ (sid : Hash) (q : Option Hash) (reading : Verifier.Subject),
    id = V1.Publisher.hex sid ∧ asOf = q.map V1.Publisher.hex ∧
    s.subjects.find? (fun x => x.subject = sid) = some reading ∧
    reading.state = "resolved" ∧ Verifier.currentOf s reading = some rev ∧
    Verifier.visibilityAt q rev = "visible"
  shown : ∃ read, subject.bind subjectReadForm.get = some read ∧ read.revision = some rev
  told : prop (parsed prose) "availability" = some (.str said.availability)
  displayed : isText (prop (parsed prose) "prose") said.prose = true
  prose : prose.bind proseReadForm.get = some said
  listed : said.revision ∈ s.revisions
  same : said.revision.id = rev.id
  available : said.availability = "available" ↔ said.prose ≠ none
  hashes : ∀ text, said.prose = some text →
    cr.sha256 text.toUTF8.data.toList = said.revision.body

/-! ## Pages of an honest node -/

section
variable {shown : Value → Option Text}

theorem revision_text (rev : V1.Revision) :
    hexText shown (prop (Json.reread Json.double (V1.ViewRows.revision rev)) "id") =
      some (V1.Publisher.hex rev.id) := by
  have hid : prop (V1.ViewRows.revision rev) "id" = some (V1.ViewRows.hash.put rev.id) := rfl
  rw [prop_reread, hid, Option.map_some, hexText_hash]

theorem hex_ne_empty (h : Hash) : V1.Publisher.hex h ≠ "" := by
  intro heq
  have hlength := Public.length_hex h
  rw [heq] at hlength
  cases hlength

theorem truthy_revision (rev : V1.Revision) :
    truthy (Json.reread Json.double (V1.ViewRows.revision rev)) = true := rfl

theorem subject_props (s : V1.Snapshot) (e : Public.EntityRead) :
    prop (parsed (some (Public.subjectJson s e))) "subject" =
        some (.str (V1.Publisher.hex e.subject)) ∧
      isText (prop (parsed (some (Public.subjectJson s e))) "as_of")
        (e.asOf.map V1.Publisher.hex) = true ∧
      prop (parsed (some (Public.subjectJson s e))) "revision" =
        some (Json.reread Json.double (Public.revisionJson e.revision)) := by
  refine ⟨?_, ?_, ?_⟩
  · exact prop_reread Json.double (Public.subjectJson s e) "subject"
  · have hprop : prop (Public.subjectJson s e) "as_of" = some (Public.asOfJson e.asOf) := rfl
    change isText (prop (Json.reread Json.double (Public.subjectJson s e)) "as_of") _ = true
    rw [prop_reread, hprop, isText_reread]
    cases e.asOf with
    | none => rfl
    | some q => exact decide_eq_true rfl
  · exact prop_reread Json.double (Public.subjectJson s e) "revision"

theorem prose_prop (s : V1.Snapshot) (r : V1.Revision) (a : Public.Availability) :
    prop (parsed (some (Public.proseJson s r a))) "revision" =
      some (Json.reread Json.double (V1.ViewRows.revision r)) :=
  prop_reread Json.double (Public.proseJson s r a) "revision"

/-- The page of an honest answer is made, with what it shows. -/
theorem page_made (shown : Value → Option Text) (report : Option Report) (id : String)
    (asOf : Option String) (s : V1.Snapshot) (e : Public.EntityRead) (r : V1.Revision)
    (a : Public.Availability) :
    ∃ p, pageChecks shown report id asOf (parsed (some (Public.subjectJson s e)))
      (parsed (some (Public.proseJson s r a))) = some p := by
  have hpresent : truthy (parsed (some (Public.proseJson s r a))) = true := rfl
  have hcurrent : currentText shown (parsed (some (Public.subjectJson s e))) =
      some (e.revision.map fun rev => V1.Publisher.hex rev.id) := by
    rw [currentText, (subject_props s e).2.2]
    cases e.revision with
    | none => rfl
    | some rev =>
      dsimp only [Public.revisionJson]
      rw [truthy_revision, revision_text]
      rfl
  have hother : ∀ current, ∃ other, otherRevision shown current
      (parsed (some (Public.proseJson s r a))) = some other := by
    intro current
    unfold otherRevision
    cases current with
    | none => exact ⟨_, rfl⟩
    | some c =>
      dsimp only
      split
      · exact ⟨_, rfl⟩
      · rw [prose_prop]
        have hobj : Json.reread Json.double (V1.ViewRows.revision r) = .obj _ := rfl
        rw [hobj]
        dsimp only
        rw [← hobj, revision_text]
        exact ⟨_, rfl⟩
  obtain ⟨other, hother⟩ := hother (e.revision.map fun rev => V1.Publisher.hex rev.id)
  unfold pageChecks
  rw [hcurrent, hpresent]
  simp only [Option.bind_eq_bind, Option.bind_some, if_true, hother]
  exact ⟨_, rfl⟩

/-- A page over a read of a subject and prose claims, under checks that pass, exactly when they are
of what has been asked for and of one revision. -/
theorem claims_answers {report : Report} {id : String} {asOf : Option String} {s : V1.Snapshot}
    {e : Public.EntityRead} {r : V1.Revision} {a : Public.Availability}
    (hsnapshot : ∀ c ∈ report.checks, c.name ∈ snapshotChecks → c.status ≠ .fail)
    (hread : statusOf (some report) "read:subject" = .pass)
    (hsaid : statusOf (some report) "read:prose" = .pass) :
    Claims shown report id asOf (parsed (some (Public.subjectJson s e)))
        (parsed (some (Public.proseJson s r a))) ↔
      id = V1.Publisher.hex e.subject ∧ asOf = e.asOf.map V1.Publisher.hex ∧
        ∃ rev, e.revision = some rev ∧ rev.id = r.id := by
  obtain ⟨hsubject, hmoment, hrevision⟩ := subject_props s e
  constructor
  · intro h
    obtain ⟨v, u, c, hv, htruthy, hid, -, hu, -, hid'⟩ := h.current
    rw [prose_prop, Option.some.injEq] at hu
    rw [hrevision, Option.some.injEq] at hv
    subst hu hv
    rw [revision_text, Option.some.injEq] at hid'
    have hnamed := h.subject
    rw [hsubject, Option.some.injEq, Value.str.injEq] at hnamed
    refine ⟨hnamed.symm, isText_unique h.asOf hmoment, ?_⟩
    cases hrev : e.revision with
    | none =>
      rw [hrev] at htruthy
      cases htruthy
    | some rev =>
      rw [hrev] at hid
      have hid : hexText shown (prop (Json.reread Json.double (V1.ViewRows.revision rev)) "id") =
        some c := hid
      rw [revision_text, Option.some.injEq, ← hid'] at hid
      exact ⟨rev, rfl, Public.hex_injective hid⟩
  · rintro ⟨rfl, rfl, rev, hrev, hsame⟩
    rw [hrev] at hrevision
    refine ⟨hsnapshot, hsubject, hmoment, hread, rfl, ⟨_, _, V1.Publisher.hex rev.id, hrevision,
      truthy_revision rev, revision_text rev, hex_ne_empty _, prose_prop s r a, ?_, ?_⟩, hsaid⟩
    · intro heq
      cases heq
    · rw [revision_text, hsame]

/-- Over what an honest node answers of one snapshot no check of the snapshot fails, and both reads
pass. -/
theorem answers_report {cr : Crypto} {signed : Verify} (w : Wording) {n : Public.Node}
    (free : n.Free cr signed) (governed : n.filter.isGoverned cr = true) {s : V1.Snapshot}
    (hs : n.store.snapshot cr signed n.tables none = some (.ok s)) {sid pid : Hash}
    {q : Option Hash} {e : Public.EntityRead} (he : entity s sid q = some e) {r : V1.Revision}
    {a : Public.Availability} (hprose : proseOf cr n s pid = .ok (r, a)) :
    (Verifier.verify cr signed w (pageInput (some (Public.healthBody cr n))
      (some (Public.snapshotJson s)) (some (Public.subjectJson s e))
      (some (some (Public.proseJson s r a))))).outcome ≠ .failed := by
  obtain ⟨all, folds⟩ := Verifier.snapshot_folded free hs
  have hreads : ∀ read ∈ [⟨"subject", some (Public.subjectJson s e)⟩,
      ⟨"prose", some (Public.proseJson s r a)⟩], Verifier.Answered cr n s read := by
    simp only [List.forall_mem_cons]
    exact ⟨.subject he, .prose hprose, fun read hread => absurd hread List.not_mem_nil⟩
  exact Verifier.verify_ok.mpr ⟨_, _, _, folds.verifies free governed
    (fun m hm => absurd hm (Option.not_mem_none m)) hreads⟩

end

namespace Sample
open Public.Sample (adaNode)
open V1.Sample (ada adaCrypto adaId adaVerify)

/-- The subject of Ada is visible in a fold of its Genesis alone. -/
theorem ada_visible {p : V1.Projection}
    (hp : V1.project adaCrypto (V1.Sample.candidates [(adaId, ada)]) = some p) :
    ∃ rev, V1.visibility p adaId none = some (.visible, some rev) ∧ rev ∈ p.revisions := by
  have h : (do
      let p ← V1.project adaCrypto (V1.Sample.candidates [(adaId, ada)])
      let found ← V1.visibility p adaId none
      return found.1 = .visible ∧ ∃ r ∈ p.revisions, found.2 = some r) = some true := by
    decide +kernel
  rw [hp] at h
  change (V1.visibility p adaId none).bind _ = _ at h
  obtain ⟨⟨v, rev⟩, hvisibility, h⟩ := Option.bind_eq_some_iff.mp h
  obtain ⟨rfl, r, hr, rfl⟩ := of_decide_eq_true (Option.some.inj h)
  exact ⟨r, hvisibility, hr⟩

theorem ada_candidates {d : V1.Decoded} {all : V1.BTreeMap V1.Decoded}
    (hd : V1.decode adaCrypto adaVerify d.bytes = .ok d) (he : d.envelope = ada)
    (hid : d.id = adaId) (hall : (adaNode d).store.verifiedCandidates adaCrypto adaVerify
      (adaNode d).tables = .ok all) :
    V1.candidatesOf all = V1.Sample.candidates [(adaId, ada)] := by
  have hcanonical : ada.Canonical := he ▸ d.canonical
  have hsigned : d.toSigned = ⟨ada, hcanonical⟩ := by
    obtain ⟨⟨envelope, canonical⟩, id, bytes⟩ := d
    obtain rfl : envelope = ada := he
    rfl
  have hlist : V1.Sample.candidates [(adaId, ada)] =
      Std.ExtTreeMap.ofList [(adaId, (⟨ada, hcanonical⟩ : V1.Signed))] := by
    rw [V1.Sample.candidates, List.filterMap_cons_some (dif_pos hcanonical), List.filterMap_nil]
  have sound := V1.Sample.adaTables_sound hd he
  have hrow : (adaNode d).tables.candidates[d.id]? = some d.bytes :=
    V1.Sample.adaTables_row.mpr (List.mem_singleton.mpr rfl)
  have hnodup : ([(adaId, (⟨ada, hcanonical⟩ : V1.Signed))].map Prod.fst).Nodup :=
    List.nodup_singleton adaId
  apply Maps.ext_graph
  intro id signed
  rw [hlist, Maps.getElem?_ofList hnodup, List.mem_singleton, Prod.mk.injEq,
    V1.getElem?_candidatesOf]
  constructor
  · rintro ⟨d', hd', rfl⟩
    obtain ⟨hrow', hid', hdecode, -⟩ := V1.verified_get sound hall hd'
    obtain ⟨rfl, hbytes⟩ := Prod.mk.inj (List.mem_singleton.mp (V1.Sample.adaTables_row.mp hrow'))
    rw [hbytes, hd] at hdecode
    obtain rfl := Except.ok.inj hdecode
    exact ⟨hid, hsigned⟩
  · rintro ⟨rfl, rfl⟩
    obtain ⟨d', hd', hbytes⟩ := V1.verified_row sound hall hrow
    obtain ⟨-, -, hdecode, -⟩ := V1.verified_get sound hall hd'
    rw [hbytes, hd] at hdecode
    obtain rfl := Except.ok.inj hdecode
    exact ⟨d, hid ▸ hd', hsigned⟩

/-- What Ada's node answers of its subject, and of the revision it shows. -/
theorem ada_answers : ∃ d : V1.Decoded, ∃ s e rev r a, d.envelope = ada ∧
    (adaNode d).Free adaCrypto adaVerify ∧
    (adaNode d).store.snapshot adaCrypto adaVerify (adaNode d).tables none = some (.ok s) ∧
    entity s adaId none = some e ∧ e.revision = some rev ∧
    proseOf adaCrypto (adaNode d) s rev.id = .ok (r, a) := by
  obtain ⟨d, s, m, hd, he, hid, free, hs, -⟩ := Verifier.Sample.ada_served
  obtain ⟨all, folds⟩ := Verifier.snapshot_folded free hs
  obtain ⟨p, hp, hfolded⟩ := Option.bind_eq_some_iff.mp folds.folded
  have hprojection : s.projection = p := by rw [← Option.some.inj hfolded]
  rw [ada_candidates hd he hid folds.verified] at hp
  obtain ⟨rev, hvisibility, hmem⟩ := ada_visible hp
  rw [← hprojection] at hvisibility hmem
  have hfind : (s.projection.revisions.find? fun r => r.id = rev.id).isSome :=
    List.find?_isSome.mpr ⟨rev, hmem, decide_eq_true rfl⟩
  obtain ⟨r, hr⟩ := Option.isSome_iff_exists.mp hfind
  have hbody : (adaNode d).bodies[r.body]? = none := Std.ExtTreeMap.getElem?_empty
  obtain ⟨e, he', hrev⟩ : ∃ e, entity s adaId none = some e ∧ e.revision = some rev := by
    rw [entity, hvisibility]
    exact ⟨_, rfl, rfl⟩
  refine ⟨d, s, e, rev, r, .unavailable, he, free, hs, he', hrev, ?_⟩
  rw [proseOf, hr]
  dsimp only
  rw [hbody]

end Sample

/-! ## What a page shows -/

/-- Whatever has been served, a page that claims shows prose of the current revision of the subject
it names, in a snapshot whose rows give the commitment it names; where the ids of its revisions
differ it is the very revision. -/
theorem page_claims (cr : Crypto) (signed : Verify) (w : Wording) (shown : Value → Option Text)
    (health snapshot subject prose : Option Value) (id : String) (asOf : Option String) (p : Page)
    (hp : pageOf shown cr signed w health snapshot subject (some prose) id asOf = some p)
    (hclaim : p.claim = true) :
    ∃ served fold version s rev said, snapshot = some served ∧
      snapshotForm.get served = some s ∧
      (Verifier.identity cr w health).2 = some (fold, version) ∧
      Verifier.Matches cr fold version served s ∧
      Shows cr s subject prose id asOf rev said ∧
      ((s.revisions.map Verifier.Revision.id).Nodup → said.revision = rev) := by
  have h := claims_iff.mp ⟨p, hp, hclaim⟩
  have hok := report_passes.mpr ⟨h.snapshot, h.read, h.prose⟩
  obtain ⟨fold, version, s, verifies⟩ := Verifier.verify_ok.mp hok
  obtain ⟨served, hserved, hread, hmatches⟩ := verifies.matched
  obtain ⟨detail, hdetail⟩ :=
    checkRead_pass (verifies.reads ⟨"subject", subject⟩ (by simp [pageInput]))
  obtain ⟨detail', hdetail'⟩ :=
    checkRead_pass (verifies.reads ⟨"prose", prose⟩ (by simp [pageInput]))
  obtain ⟨read, sid, q, hreads, hsid, hq, himplied⟩ := subjectRead_parts hdetail
  obtain ⟨said, hsaid, hlisted, havailable, hhashes⟩ := proseRead_ok hdetail'
  obtain ⟨v, rfl, hgetv⟩ := Option.bind_eq_some_iff.mp hreads
  obtain ⟨z, rfl, hgetz⟩ := Option.bind_eq_some_iff.mp hsaid
  have hprop : ∀ x name,
      prop (parsed (some x)) name = (prop x name).map (Json.reread Json.double) :=
    fun x name => prop_reread Json.double x name
  have hsubject := h.subject
  have hasOf := h.asOf
  obtain ⟨shownRev, shownProse, c, hcurrent, htruthy, hid, -, hprose, -, hid'⟩ := h.current
  rw [hprop] at hsubject hasOf hcurrent
  have hprose : (prop z "revision").map (Json.reread Json.double) = some shownProse :=
    (hprop z "revision").symm.trans hprose
  obtain ⟨x, hx, -⟩ := Option.map_eq_some_iff.mp hsubject
  obtain ⟨y, hy, rfl⟩ := Option.map_eq_some_iff.mp hprose
  obtain ⟨hnamed, hmoment, hrevision⟩ := subjectRead_prop hgetv (by rw [hx]; rfl)
  obtain ⟨⟨y', hy', hgety⟩, htold, hdisplayed⟩ := proseRead_prop hgetz (by rw [hy]; rfl)
  obtain rfl := Option.some.inj (hy.symm.trans hy')
  rw [hnamed, Option.map_some, Json.reread, Option.some.injEq, Value.str.injEq] at hsubject
  rw [isText_reread] at hasOf
  rcases hrevision with ⟨-, hnone | hnull⟩ | ⟨u, rev, hu, hrev, hgetu⟩
  · rw [hnone] at hcurrent
    cases hcurrent
  · rw [hnull] at hcurrent
    obtain rfl := Option.some.inj hcurrent
    cases htruthy
  rw [hu] at hcurrent
  obtain rfl := Option.some.inj hcurrent
  have hsame : said.revision.id = rev.id :=
    Public.hex_injective ((revision_shown hgety hid').symm.trans (revision_shown hgetu hid))
  obtain ⟨reading, hfind, hstate, hhead, hvisible⟩ := implied_current himplied hrev
  have hlistedRev : rev ∈ s.revisions := current_mem hhead
  refine ⟨served, fold, version, s, rev, said, hserved, hread, verifies.identity, hmatches,
    ⟨⟨sid, q, reading, ?_, ?_, hfind, hstate, hhead, hvisible⟩, ⟨read, hgetv, hrev⟩, ?_, ?_, hgetz,
      hlisted, hsame, havailable, hhashes⟩, fun hnodup => ?_⟩
  · rw [← hsubject, hsid]
  · rw [← hq]
    exact isText_unique hasOf hmoment
  · rw [hprop, htold]
    rfl
  · rwa [hprop, isText_reread]
  · exact List.inj_on_of_nodup_map hnodup hlisted hlistedRev hsame

theorem page_claims_ada : ∃ (served : Value) (s : Verifier.Snapshot) (subject prose : Option Value)
    (rev : Verifier.Revision) (said : Verifier.ProseRead),
    snapshotForm.get served = some s ∧
    Shows V1.Sample.adaCrypto s subject prose (V1.Publisher.hex V1.Sample.adaId) none rev said ∧
    ((s.revisions.map Verifier.Revision.id).Nodup → said.revision = rev) := by
  obtain ⟨d, s, e, rev, r, a, he, free, hs, hentity, hrev, hprose⟩ := Sample.ada_answers
  obtain ⟨hsnapshot, hread, hsaid⟩ := report_passes.mp (answers_report Verifier.Sample.wording free
    V1.Sample.adaFilter_governed hs hentity hprose)
  obtain ⟨⟨v, revision⟩, -, hsome⟩ := Option.bind_eq_some_iff.mp hentity
  have hnames : e.subject = V1.Sample.adaId ∧ e.asOf = none := by
    obtain rfl := Option.some.inj hsome
    exact ⟨rfl, rfl⟩
  have hclaims : Claims (fun _ => none) _ (V1.Publisher.hex V1.Sample.adaId) none
      (parsed (some (Public.subjectJson s e))) (parsed (some (Public.proseJson s r a))) :=
    (claims_answers hsnapshot hread hsaid).mpr
      ⟨by rw [hnames.1], by rw [hnames.2]; rfl, rev, hrev, (Public.proseOf_ok hprose).symm⟩
  obtain ⟨p, hp, hclaim⟩ := claims_iff.mpr hclaims
  obtain ⟨served, fold, version, s', rev', said, -, hget, -, -, hshows, hsame⟩ :=
    page_claims V1.Sample.adaCrypto V1.Sample.adaVerify Verifier.Sample.wording (fun _ => none)
      _ _ _ _ _ _ p hp hclaim
  exact ⟨served, s', _, _, rev', said, hget, hshows, hsame⟩

/-- The page over what an honest node answers of one snapshot is made, and claims exactly when the
read is of the subject and the moment asked for and the prose is of the revision it shows. -/
theorem page_answers (cr : Crypto) (signed : Verify) (w : Wording) (shown : Value → Option Text)
    (n : Public.Node) (free : n.Free cr signed) (governed : n.filter.isGoverned cr = true)
    (s : V1.Snapshot) (hs : n.store.snapshot cr signed n.tables none = some (.ok s))
    (sid pid : Hash) (q : Option Hash) (e : Public.EntityRead) (he : entity s sid q = some e)
    (r : V1.Revision) (a : Public.Availability) (hprose : proseOf cr n s pid = .ok (r, a))
    (id : String) (asOf : Option String) :
    ∃ p, pageOf shown cr signed w (some (Public.healthBody cr n)) (some (Public.snapshotJson s))
        (some (Public.subjectJson s e)) (some (some (Public.proseJson s r a))) id asOf = some p ∧
      (p.claim = true ↔ id = V1.Publisher.hex sid ∧ asOf = q.map V1.Publisher.hex ∧
        ∃ rev, e.revision = some rev ∧ rev.id = pid) := by
  obtain ⟨hsnapshot, hread, hsaid⟩ :=
    report_passes.mp (answers_report w free governed hs he hprose)
  obtain ⟨p, hp⟩ := page_made shown (some (Verifier.verify cr signed w (pageInput
    (some (Public.healthBody cr n)) (some (Public.snapshotJson s)) (some (Public.subjectJson s e))
    (some (some (Public.proseJson s r a)))))) id asOf s e r a
  refine ⟨p, hp, ?_⟩
  obtain ⟨rfl, rfl⟩ : e.subject = sid ∧ e.asOf = q := by
    obtain ⟨⟨v, revision⟩, -, hsome⟩ := Option.bind_eq_some_iff.mp he
    obtain rfl := Option.some.inj hsome
    exact ⟨rfl, rfl⟩
  obtain rfl : r.id = pid := Public.proseOf_ok hprose
  rw [← claims_answers hsnapshot hread hsaid, ← claims_iff]
  constructor
  · intro hclaim
    exact ⟨p, hp, hclaim⟩
  · rintro ⟨p', hp', hclaim⟩
    obtain rfl := Option.some.inj (hp.symm.trans hp')
    exact hclaim

/-- The page of Ada claims. -/
theorem page_answers_ada : ∃ (d : V1.Decoded) (s : V1.Snapshot) (e : Public.EntityRead)
    (r : V1.Revision) (a : Public.Availability), d.envelope = V1.Sample.ada ∧
    ∃ p, pageOf (fun _ => none) V1.Sample.adaCrypto V1.Sample.adaVerify Verifier.Sample.wording
      (some (Public.healthBody V1.Sample.adaCrypto (Public.Sample.adaNode d)))
      (some (Public.snapshotJson s)) (some (Public.subjectJson s e))
      (some (some (Public.proseJson s r a))) (V1.Publisher.hex V1.Sample.adaId) none = some p ∧
    p.claim = true := by
  obtain ⟨d, s, e, rev, r, a, he, free, hs, hentity, hrev, hprose⟩ := Sample.ada_answers
  obtain ⟨p, hp, hclaim⟩ := page_answers V1.Sample.adaCrypto V1.Sample.adaVerify
    Verifier.Sample.wording (fun _ => none) (Public.Sample.adaNode d) free
    V1.Sample.adaFilter_governed s hs V1.Sample.adaId rev.id none e hentity r a hprose
    (V1.Publisher.hex V1.Sample.adaId) none
  exact ⟨d, s, e, r, a, he, p, hp, hclaim.mpr ⟨rfl, rfl, rev, hrev, rfl⟩⟩

end Clockchain.Explorer
