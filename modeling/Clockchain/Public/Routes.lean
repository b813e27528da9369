import Clockchain.Public.Answers
import Clockchain.V1.Retention

/-!
# Routes

What each route of the node computes for a question, and what both clients make of its answer.
-/

namespace Clockchain.Public
open Gateway (Reply refusal)
open Json (Small Value double)
open V1 (Hash Crypto Verify FoldRef)
open V1.Publisher (hex)
set_option autoImplicit false

/-- The reads that the node computes for a question. -/
inductive Computed (cr : Crypto) (verify : Verify) (n : Node) : Question → Read → Prop where
  | health : Computed cr verify n .health (.health (.of cr n))
  | snapshot {requested : Option FoldRef} {s : V1.Snapshot} :
    n.store.snapshot cr verify n.tables requested = some (.ok s) →
    Computed cr verify n (.snapshot requested) (.snapshot (.of s))
  | subject {id : Hash} {asOf : Option Hash} {s : V1.Snapshot} {r : EntityRead} :
    n.store.snapshot cr verify n.tables none = some (.ok s) → entity s id asOf = some r →
    Computed cr verify n (.subject id asOf) (.subject (.of s r))
  | prose {revision : Hash} {s : V1.Snapshot} {r : V1.Revision} {a : Availability} :
    n.store.snapshot cr verify n.tables none = some (.ok s) → proseOf cr n s revision = .ok (r, a) →
    Computed cr verify n (.prose revision) (.prose (.of s r a))
  | support {source target : Hash} {asOf : Option Hash} {s : V1.Snapshot} {v : V1.Support} :
    n.store.snapshot cr verify n.tables none = some (.ok s) →
    verdict s source target asOf = some v →
    Computed cr verify n (.support source target asOf) (.support (.of s source target asOf v))
  | receipts {event : Hash} {found : List V1.SignedReceipt} :
    receiptsOf cr verify n event = .ok found → found ≠ [] →
    Computed cr verify n (.receipt event) (.receipts (.of cr event found))

/-- The times of the receipts of a read. -/
def Read.times : Read → List Nat
  | .receipts r => r.receipts.map NodeReceipt.receivedAt
  | _ => []

/-- What a client that reads `n` as `f n` returns. -/
def Read.returned (d : Dialect) (f : Nat → Nat) (read : Read) : Decoded Read :=
  if ∀ t ∈ read.times, d.integer (f t) = true then .ok read else protocol (.wrongType "received_at")

/-- The body holds a read that the node has computed, and each client makes of it what it does of
its numbers. -/
def Answered (cr : Crypto) (verify : Verify) (n : Node) (q : Question) (reply : Reply) : Prop :=
  ∃ read, Computed cr verify n q read ∧ ∀ d f, Dialect.Reads d f →
    parse d (q.call d cr.sha256) reply = read.returned d f

theorem Read.returned_timeless {d : Dialect} {f : Nat → Nat} {read : Read} (h : read.times = []) :
    read.returned d f = .ok read := by
  rw [Read.returned, h]
  exact if_pos fun _ h => nomatch h

theorem parse_served {d : Dialect} {c : Call} {status : Nat} {doc loaded : Value}
    (hload : d.load doc = loaded) (hobject : isObject loaded = true) (hstatus : status ∈ c.ok) :
    parse d c (status, doc) = c.decode status loaded := by
  unfold parse
  simp only [hload, hobject, hstatus, if_true, Bool.not_true, Bool.false_eq_true, if_false]

/-! ## Queries -/

theorem parseU16_toString (v : BitVec 16) : parseU16 (toString v.toNat) = some v := by
  have hchars : (toString v.toNat).toList = Nat.toDigits 10 v.toNat := by
    rw [Nat.toString_eq_ofList_toDigits, String.toList_ofList]
  have hdigits : ∀ c ∈ Nat.toDigits 10 v.toNat, c.isDigit = true := fun c hc =>
    Nat.isDigit_of_mem_toDigits (by decide) (by decide) hc
  have hvalue : Nat.ofDigitChars 10 (Nat.toDigits 10 v.toNat) 0 = v.toNat :=
    Nat.ofDigitChars_ten_toDigits
  have hdecimal : Nat.toDigits 10 v.toNat ≠ [] ∧
      ((Nat.toDigits 10 v.toNat).all Char.isDigit = true) ∧ v.toNat < 2 ^ 16 :=
    ⟨Nat.toDigits_ne_nil, List.all_eq_true.2 hdigits, v.isLt⟩
  unfold parseU16
  rw [hchars]
  generalize Nat.toDigits 10 v.toNat = digits at *
  dsimp only
  split
  · next rest =>
    have hplus := hdigits '+' List.mem_cons_self
    exact absurd hplus (by decide)
  · rw [hvalue, if_pos hdecimal, BitVec.ofNat_toNat, BitVec.setWidth_eq]

theorem foldRequest_some {get : String → Option String} {f : FoldRef}
    (hversion : get "fold_version" = some (toString f.version.toNat))
    (hmanifest : get "fold_manifest" = some (hex f.manifest)) :
    foldRequest get = some (some f) := by
  simp only [foldRequest, hversion, hmanifest, parseU16_toString, hex32_hex, if_true]

/-! ## Reads of the store -/

section
variable {cr : Crypto} {verify : Verify} {n : Node} {ok : List Nat}

theorem storeRefusal_refused (hok : ok ⊆ [200, 404]) (e : V1.StoreError) :
    Refused ok (storeRefusal e) := by
  refine ⟨_, _, rfl, fun hmem => ?_⟩
  have hstatus := hok hmem
  cases e <;> simp at hstatus

/-- A read fails with a refusal of the store, or it is made of the snapshot. -/
theorem reading_cases (hok : ok ⊆ [200, 404]) {requested : Option FoldRef}
    {answer : V1.Snapshot → Option Reply} {reply : Reply}
    (h : reading cr verify n requested answer = some reply) : Refused ok reply ∨
      ∃ s, n.store.snapshot cr verify n.tables requested = some (.ok s) ∧
        answer s = some reply := by
  obtain ⟨result, hresult, h⟩ := Option.bind_eq_some_iff.1 h
  cases result with
  | error e =>
    obtain rfl := Option.some.inj h
    exact .inl (storeRefusal_refused hok e)
  | ok s => exact .inr ⟨s, hresult, h⟩

/-- The store is bound to the fold that is asked for. -/
theorem ready_filter {requested : Option FoldRef} {filter : V1.FilterIdentity}
    (h : n.store.ready cr n.tables requested = .ok filter) :
    filter = n.filter ∧ ∀ f ∈ requested, f = n.filter.fold := by
  obtain ⟨rule, hbound, h⟩ := Programs.bind_ok.1 h
  obtain rfl : rule = filter := by
    split at h
    · exact Except.ok.inj h
    · cases h
    · cases h
  change (if requested.any _ = true then _ else _) = _ at hbound
  split_ifs at hbound with hother
  obtain rfl := Except.ok.inj hbound
  refine ⟨rfl, fun f hf => ?_⟩
  obtain rfl := hf
  simp only [Option.any_some, Bool.or_eq_true, not_or, decide_eq_true_eq, not_not] at hother
  exact hother.2

/-- No two events, or revisions, of the store have one hash. -/
def Node.Free (cr : Crypto) (verify : Verify) (n : Node) : Prop :=
  ∀ all, n.store.verifiedCandidates cr verify n.tables = .ok all →
    V1.CollisionFree cr (V1.candidatesOf all)

theorem snapshot_spec (free : n.Free cr verify) {requested : Option FoldRef} {s : V1.Snapshot}
    (h : n.store.snapshot cr verify n.tables requested = some (.ok s)) :
    s.rule = .of cr n.filter ∧ (∀ f ∈ requested, f = n.filter.fold) ∧
      ∃ C out A subjects, V1.Projected cr C out A s.projection ∧
        V1.Verdicts cr C out subjects := by
  simp only [V1.Store.snapshot, V1.Store.folded, Programs.run_bind_ok, Programs.liftExcept_ok,
    Programs.liftOption_ok] at h
  obtain ⟨filter, hready, all, hall, hs⟩ := h
  obtain ⟨p, hp, hs⟩ := Option.bind_eq_some_iff.1 hs
  obtain rfl := Option.some.inj hs
  obtain ⟨rfl, hrequested⟩ := ready_filter hready
  obtain ⟨out, subjects, A, p', -, verdicts, -, -, hp', projected⟩ :=
    V1.project_spec (free all hall)
  obtain rfl := Option.some.inj (hp.symm.trans hp')
  exact ⟨rfl, hrequested, _, out, A, subjects, projected, verdicts⟩

/-! ## Each question -/

theorem ok_subset (q : Question) (d : Dialect) : (q.call d cr.sha256).ok ⊆ [200, 404] := by
  cases q <;> exact fun status h => by simp_all [Question.call, healthCall, snapshotCall,
    subjectCall, proseCall, supportCall, receiptCall]

theorem Answered.served {q : Question} {read : Read} {status : Nat} {doc : Value}
    (computed : Computed cr verify n q read) (htimes : read.times = [])
    (hexact : Small (2 ^ 53) doc) (hobject : isObject doc = true)
    (hstatus : ∀ d, status ∈ (q.call d cr.sha256).ok)
    (hdecode : ∀ d : Dialect, d.Exact → (q.call d cr.sha256).decode status doc = .ok read) :
    Answered cr verify n q (status, doc) := by
  refine ⟨read, computed, fun d f reads => ?_⟩
  rw [Read.returned_timeless htimes, parse_served (reads.load_exact hexact) hobject (hstatus d),
    hdecode d reads.exact]

variable {maxBody : Nat} (barred : Option Barred)

/-- The answer to a question is a refusal, or holds what the node has computed. -/
def Settled (cr : Crypto) (verify : Verify) (n : Node) (maxBody : Nat) (barred : Option Barred)
    (q : Question) : Prop :=
  Refused (q.call python cr.sha256).ok
      (answer cr verify maxBody n barred (q.call python cr.sha256).request) ∨
    Answered cr verify n q (answer cr verify maxBody n barred (q.call python cr.sha256).request)

theorem settled_health : Settled cr verify n maxBody barred .health := by
  refine answer_cases (ok_subset _ _) rfl (fun reply h => ?_) barred
  obtain rfl := Option.some.inj h
  exact .inr ⟨200, _, rfl, .served .health rfl (health_exact cr n) rfl (fun _ => List.mem_cons_self)
    fun d exact => health_json exact cr n⟩

theorem settled_snapshot (free : n.Free cr verify) (requested : Option FoldRef) :
    Settled cr verify n maxBody barred (.snapshot requested) := by
  have hread : ∃ query, forwarded (Question.call python cr.sha256 (.snapshot requested)).request =
      some ⟨["v1", "snapshot"], query⟩ ∧ ∃ get, strict ["fold_version", "fold_manifest"] query =
        some get ∧ foldRequest get = some requested := by
    cases requested with
    | none => exact ⟨[], rfl, ([].lookup ·), rfl, rfl⟩
    | some f =>
      exact ⟨_, rfl, _, rfl, foldRequest_some rfl rfl⟩
  obtain ⟨query, hforward, get, hstrict, hfold⟩ := hread
  refine answer_cases (ok_subset _ _) hforward (fun reply h => ?_) barred
  change snapshotRoute cr verify n query = some reply at h
  simp only [snapshotRoute, hstrict, hfold] at h
  refine (reading_cases (ok_subset _ _) h).imp_right ?_
  rintro ⟨s, hs, hreply⟩
  obtain rfl := Option.some.inj hreply
  obtain ⟨hrule, hrequested, -⟩ := snapshot_spec free hs
  refine ⟨200, _, rfl, .served (.snapshot hs) rfl (snapshot_exact s) rfl
    (fun _ => List.mem_cons_self) fun d exact => snapshot_json exact s ?_⟩
  rintro p hp
  obtain ⟨f, hf, rfl⟩ := Option.map_eq_some_iff.1 hp
  rw [hrule, hrequested f hf]
  rfl

/-- The instant that a query names. -/
theorem strict_asOf (h : Option Hash) : ∃ get, strict ["as_of"] (present "as_of" (h.map hex)) =
    some get ∧ asOf (get "as_of") = some h := by
  cases h with
  | none => exact ⟨([].lookup ·), rfl, rfl⟩
  | some h =>
    refine ⟨_, rfl, ?_⟩
    change (hex32 (hex h)).map some = _
    rw [hex32_hex]
    rfl

/-- Only a visible revision is read, and it is one of the subject. -/
theorem entity_spec (free : n.Free cr verify) {s : V1.Snapshot} {requested : Option FoldRef}
    (hs : n.store.snapshot cr verify n.tables requested = some (.ok s)) {id : Hash}
    {at' : Option Hash} {r : EntityRead} (h : entity s id at' = some r) :
    r.subject = id ∧ r.asOf = at' ∧
      ∀ rev ∈ r.revision, r.visibility = .visible ∧ rev.subject = r.subject := by
  obtain ⟨-, -, C, out, A, subjects, projected, verdicts⟩ := snapshot_spec free hs
  obtain ⟨⟨v, revision⟩, hvisibility, h⟩ := Option.bind_eq_some_iff.1 h
  obtain rfl := Option.some.inj h
  refine ⟨rfl, rfl, fun rev hrev => ?_⟩
  obtain ⟨hvisible, hrevision⟩ := Option.ite_none_right_eq_some.1 hrev
  rw [hrevision] at hvisibility
  exact ⟨hvisible, V1.visibility_subject projected verdicts.branch hvisibility⟩

theorem settled_subject (free : n.Free cr verify) (id : Hash) (at' : Option Hash) :
    Settled cr verify n maxBody barred (.subject id at') := by
  have hforward : forwarded (Question.call python cr.sha256 (.subject id at')).request =
      some ⟨["v1", "subjects", hex id], present "as_of" (at'.map hex)⟩ := by
    change some (Request.mk ["v1", "subjects", segment (hex id)] _) = _
    rw [segment_hex]
    rfl
  obtain ⟨get, hstrict, hasOf⟩ := strict_asOf at'
  refine answer_cases (ok_subset _ _) hforward (fun reply h => ?_) barred
  change subjectRoute cr verify n (hex id) _ = some reply at h
  simp only [subjectRoute, hstrict, hex32_hex, hasOf] at h
  refine (reading_cases (ok_subset _ _) h).imp_right ?_
  rintro ⟨s, hs, hreply⟩
  obtain ⟨r, hr, hreply⟩ := Option.bind_eq_some_iff.1 hreply
  obtain rfl := Option.some.inj hreply
  obtain ⟨rfl, rfl, hrevision⟩ := entity_spec free hs hr
  refine ⟨_, _, rfl, .served (.subject hs hr) rfl (subject_exact s r) rfl (fun _ => ?_)
    fun d exact => subject_json exact s r ?_ hrevision⟩
  · change _ ∈ [200, 404]
    split <;> decide
  · split <;> simp [*]

theorem proseOf_ok {s : V1.Snapshot} {id : Hash} {r : V1.Revision} {a : Availability}
    (h : proseOf cr n s id = .ok (r, a)) : r.id = id := by
  unfold proseOf at h
  cases hfind : s.projection.revisions.find? fun r => r.id = id with
  | none => simp [hfind] at h
  | some rev =>
    have hid : rev.id = id := by simpa using List.find?_some hfind
    rw [hfind] at h
    suffices rev = r by rwa [← this]
    dsimp only at h
    split at h
    · exact congrArg Prod.fst (Except.ok.inj h)
    · split_ifs at h
      split at h
      · exact congrArg Prod.fst (Except.ok.inj h)
      · exact congrArg Prod.fst (Except.ok.inj h)

theorem proseOf_error {s : V1.Snapshot} {id : Hash} {status : Nat} {error : String}
    (h : proseOf cr n s id = .error (status, error)) : status ∉ [200] := by
  unfold proseOf at h
  split at h
  · obtain ⟨rfl, -⟩ := Prod.mk.inj (Except.error.inj h)
    decide
  · split at h
    · cases h
    · split_ifs at h
      · obtain ⟨rfl, -⟩ := Prod.mk.inj (Except.error.inj h)
        decide
      · split at h <;> cases h

theorem settled_prose (revision : Hash) : Settled cr verify n maxBody barred (.prose revision) := by
  have hforward : forwarded (Question.call python cr.sha256 (.prose revision)).request =
      some ⟨["v1", "revisions", hex revision, "prose"], []⟩ := by
    change some (Request.mk ["v1", "revisions", segment (hex revision), "prose"] _) = _
    rw [segment_hex]
    rfl
  refine answer_cases (ok_subset _ _) hforward (fun reply h => ?_) barred
  have hstrict : strict [] [] = some ([].lookup ·) := rfl
  change proseRoute cr verify n (hex revision) _ = some reply at h
  simp only [proseRoute, hstrict, hex32_hex] at h
  rcases reading_cases (ok_subset _ _) h with hrefused | ⟨s, hs, hreply⟩
  · exact .inl hrefused
  cases hprose : proseOf cr n s revision with
  | error e =>
    rw [hprose] at hreply
    obtain rfl := Option.some.inj hreply
    exact .inl ⟨_, _, rfl, proseOf_error hprose⟩
  | ok found =>
    rw [hprose] at hreply
    obtain rfl := Option.some.inj hreply
    obtain rfl := proseOf_ok hprose
    exact .inr ⟨200, _, rfl, .served (.prose hs hprose) rfl (prose_exact s _ _) rfl
      (fun _ => List.mem_cons_self) fun d exact => prose_json exact s _ _⟩

theorem settled_support (source target : Hash) (at' : Option Hash) :
    Settled cr verify n maxBody barred (.support source target at') := by
  have hread : ∃ get, strict ["from", "to", "as_of"]
      ([("from", hex source), ("to", hex target)] ++ present "as_of" (at'.map hex)) = some get ∧
        get "from" = some (hex source) ∧ get "to" = some (hex target) ∧
          asOf (get "as_of") = some at' := by
    cases at' with
    | none => exact ⟨_, rfl, rfl, rfl, rfl⟩
    | some h =>
      refine ⟨_, rfl, rfl, rfl, ?_⟩
      change (hex32 (hex h)).map some = _
      rw [hex32_hex]
      rfl
  obtain ⟨get, hstrict, hsource, htarget, hasOf⟩ := hread
  refine answer_cases (ok_subset _ _) rfl (fun reply h => ?_) barred
  change supportRoute cr verify n _ = some reply at h
  simp only [supportRoute, Question.call, supportCall, hstrict, hsource, htarget, Option.bind_some,
    hex32_hex, hasOf] at h
  refine (reading_cases (ok_subset _ _) h).imp_right ?_
  rintro ⟨s, hs, hreply⟩
  obtain ⟨v, hv, hreply⟩ := Option.bind_eq_some_iff.1 hreply
  obtain rfl := Option.some.inj hreply
  exact ⟨200, _, rfl, .served (.support hs hv) rfl (support_read_exact s source target at' v) rfl
    (fun _ => List.mem_cons_self) fun d exact => support_read_json exact s source target at' v⟩

/-! ## Receipts -/

theorem receiptsOf_spec {event : Hash} {found : List V1.SignedReceipt}
    (h : receiptsOf cr verify n event = .ok found) :
    ∀ r ∈ found, r.bytes ≠ [] ∧ r.receipt.event = event := by
  obtain ⟨found', hfound, -, hmem⟩ := Programs.mapM_ok (g := fun _ => ()) (h := fun _ => ())
    fun row hrow => (Programs.mapM_each h row hrow).imp fun r hr => ⟨hr, rfl⟩
  obtain rfl := Except.ok.inj (h.symm.trans hfound)
  intro r hr
  obtain ⟨row, -, hrow⟩ := (hmem r).1 hr
  cases hdecode : V1.SignedReceipt.decode cr verify row.2.2 with
  | error e => simp [hdecode] at hrow
  | ok r' =>
    simp only [hdecode] at hrow
    split_ifs at hrow with hother
    obtain rfl := Except.ok.inj hrow
    simp only [not_or, not_not] at hother
    obtain ⟨p, sig, -, hlength, hbytes, -, -, hsame⟩ := V1.receipt_decode_ok.1 hdecode
    refine ⟨fun hempty => ?_, hother.2.1⟩
    rw [hsame, hbytes, List.append_eq_nil_iff] at hempty
    rw [hempty.2] at hlength
    cases hlength

theorem receipts_returned {d : Dialect} {f : Nat → Nat} (reads : d.Reads f) {event : Hash}
    {found : List V1.SignedReceipt} (hsome : found ≠ [])
    (h : ∀ r ∈ found, r.bytes ≠ [] ∧ r.receipt.event = event) :
    decodeReceipts d cr.sha256 (hex event)
      (receiptsAt cr (hex event) (found.map fun r => (r, f r.receipt.receivedAt.toNat))) =
        (Read.receipts (.of cr event found)).returned d f := by
  have htimes : (Read.receipts (.of cr event found)).times =
      found.map fun r => r.receipt.receivedAt.toNat := by
    simp only [Read.times, Receipts.of, List.map_map]
    rfl
  rw [receipts_json reads.exact cr (by simpa using hsome) (by simpa using h), Read.returned, htimes]
  simp only [List.forall_mem_map, List.map_map, Function.comp_def]
  refine if_ctx_congr Iff.rfl (fun hall => ?_) fun _ => rfl
  have hsame : (found.map fun r => { NodeReceipt.of cr r with
      receivedAt := f r.receipt.receivedAt.toNat }) = found.map (NodeReceipt.of cr) :=
    List.map_congr_left fun r hr => by rw [reads.taken _ (hall r hr)]; rfl
  rw [hsame]
  rfl

theorem settled_receipt (event : Hash) : Settled cr verify n maxBody barred (.receipt event) := by
  have hforward : forwarded (Question.call python cr.sha256 (.receipt event)).request =
      some ⟨["v1", "receipts", hex event], []⟩ := by
    change some (Request.mk ["v1", "receipts", segment (hex event)] _) = _
    rw [segment_hex]
    rfl
  have hstrict : strict [] [] = some ([].lookup ·) := rfl
  have hok : (Question.call python cr.sha256 (.receipt event)).ok = [200] := rfl
  refine answer_cases (ok_subset _ _) hforward (fun reply h => ?_) barred
  replace h : receiptsRoute cr verify n (hex event) [] = reply := Option.some.inj h
  simp only [receiptsRoute, hstrict, hex32_hex] at h
  rw [hok]
  split at h
  · obtain rfl := h
    exact .inl ⟨404, _, rfl, by decide⟩
  · next found hempty hfound =>
    obtain rfl := h
    have hsome : found ≠ [] := hempty
    exact .inr ⟨200, _, rfl, _, .receipts hfound hsome, fun d f reads =>
      (parse_served (reads.receipts cr (hex event) found) rfl List.mem_cons_self).trans
        (receipts_returned reads hsome (receiptsOf_spec hfound))⟩
  · obtain rfl := h
    exact .inl ⟨503, _, rfl, by decide⟩
  · obtain rfl := h
    exact .inl (storeRefusal_refused (by decide) _)

theorem settled (free : n.Free cr verify) (q : Question) :
    Settled cr verify n maxBody barred q := by
  cases q with
  | health => exact settled_health barred
  | snapshot requested => exact settled_snapshot barred free requested
  | subject id at' => exact settled_subject barred free id at'
  | prose revision => exact settled_prose barred revision
  | support source target at' => exact settled_support barred source target at'
  | receipt event => exact settled_receipt barred event

end

end Clockchain.Public
