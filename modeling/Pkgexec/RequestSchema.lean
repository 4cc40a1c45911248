import Pkgexec.RequestParsing
import Pkgexec.RecordDecoding

/-!
# The schemas of the two requests

What the parsers accept, stated about the members of the root value: an accepted effector
request has exactly five members and an accepted preview request exactly three, and both put
the same demands on the package list.
-/

namespace Pkgexec.Request
open CStrings JsonValues

theorem strClean_eq_some_iff {v : Option Json} {s : CStr} :
    strClean v = some s ↔ v = some (.string s.bytes) := by
  cases v with
  | none => simp [strClean]
  | some v =>
    cases v with
    | string mem =>
      simp only [strClean, Option.some.injEq, Json.string.injEq]
      constructor
      · intro h
        split at h
        · simp at h
        · rename_i hlen
          obtain rfl := Option.some.inj h
          have hpre : (CStr.ofMem mem).bytes <+: mem := List.takeWhile_prefix _
          exact (hpre.eq_of_length (not_not.mp hlen)).symm
      · rintro rfl
        simp [CStr.length]
    | _ => simp [strClean]

/-- The array of the given names. -/
def jsonNames (names : List CStr) : Json := .array (names.map fun s => .string s.bytes)

theorem jsonNames_injective : Function.Injective jsonNames := by
  intro xs ys h
  refine List.map_injective_iff.mpr ?_ (Json.array.inj h)
  intro s t hst
  exact CStr.ext (Json.string.inj hst)

theorem parseNames_extends (stored : List CStr) (vs : List Json) :
    ∃ rest, (parseNames stored vs).1 = stored ++ rest := by
  induction vs generalizing stored with
  | nil => exact ⟨[], (List.append_nil stored).symm⟩
  | cons v vs ih =>
    rw [parseNames]
    cases hv : strClean (some v) with
    | none => exact ⟨[], by simp⟩
    | some name =>
      dsimp only
      split
      · exact ⟨[], by simp⟩
      · obtain ⟨rest, hrest⟩ := ih (stored ++ [name])
        exact ⟨name :: rest, by simpa using hrest⟩

/-- One turn of a loop that reaches the end stores one more acceptable name. -/
theorem parseNames_cons_iff {v : Json} {vs : List Json} {stored names : List CStr} :
    parseNames stored (v :: vs) = (stored ++ names, true) ↔
      ∃ name rest, v = .string name.bytes ∧ names = name :: rest ∧ nameOk name = true ∧
        name ∉ stored ∧ parseNames (stored ++ [name]) vs = (stored ++ [name] ++ rest, true) := by
  rw [parseNames]
  constructor
  · intro h
    cases hv : strClean (some v) with
    | none => simp [hv] at h
    | some name =>
      simp only [hv] at h
      split at h
      · simp at h
      · rename_i hname
        simp only [Bool.or_eq_true, Bool.not_eq_true', not_or, Bool.not_eq_false,
          List.any_eq_true, decide_eq_true_eq, not_exists, not_and] at hname
        obtain ⟨hok, hfresh⟩ := hname
        obtain ⟨rest, rfl⟩ : ∃ rest, names = name :: rest := by
          obtain ⟨rest, hrest⟩ := parseNames_extends (stored ++ [name]) vs
          rw [h] at hrest
          exact ⟨rest, by simpa using hrest⟩
        exact ⟨name, rest, Option.some.inj (strClean_eq_some_iff.mp hv), rfl, hok,
          fun hmem => hfresh name hmem rfl, by simpa using h⟩
  · rintro ⟨name, rest, rfl, rfl, hok, hfresh, hrest⟩
    have hgo : (!nameOk name || stored.any (· = name)) = false := by
      simpa [hok] using fun s (hs : s ∈ stored) => ne_of_mem_of_not_mem hs hfresh
    rw [strClean_eq_some_iff.mpr rfl]
    simp only [hgo]
    simpa using hrest

/-- The loop reaches the end exactly on an array of acceptable names that repeats neither
itself nor a name already stored. -/
theorem parseNames_iff {vs : List Json} {stored names : List CStr} (hstored : stored.Nodup) :
    parseNames stored vs = (stored ++ names, true) ↔
      vs = names.map (fun s => .string s.bytes) ∧ (∀ s ∈ names, nameOk s = true) ∧
        (stored ++ names).Nodup := by
  induction vs generalizing stored names with
  | nil =>
    rw [parseNames, Prod.mk.injEq]
    constructor
    · rintro ⟨h, -⟩
      obtain rfl : names = [] := by simpa using h
      exact ⟨rfl, by simp, by simpa using hstored⟩
    · rintro ⟨h, -⟩
      obtain rfl : names = [] := by simpa using h.symm
      simp
  | cons v vs ih =>
    have hstep {name : CStr} (hfresh : name ∉ stored) : (stored ++ [name]).Nodup := by
      refine List.nodup_append.mpr ⟨hstored, by simp, ?_⟩
      intro s hs t ht
      rw [List.mem_singleton.mp ht]
      exact ne_of_mem_of_not_mem hs hfresh
    rw [parseNames_cons_iff]
    constructor
    · rintro ⟨name, rest, rfl, rfl, hok, hfresh, hrest⟩
      obtain ⟨rfl, hall, hnodup⟩ := (ih (hstep hfresh)).mp hrest
      exact ⟨rfl, List.forall_mem_cons.mpr ⟨hok, hall⟩, by simpa using hnodup⟩
    · rintro ⟨hvs, hall, hnodup⟩
      cases names with
      | nil => simp at hvs
      | cons name rest =>
        obtain ⟨rfl, rfl⟩ := List.cons.inj hvs
        obtain ⟨hok, hrest⟩ := List.forall_mem_cons.mp hall
        have hfresh : name ∉ stored := fun hs =>
          (List.nodup_append.mp hnodup).2.2 name hs name (by simp) rfl
        exact ⟨name, rest, rfl, rfl, hok, hfresh,
          (ih (hstep hfresh)).mpr ⟨rfl, hrest, by simpa using hnodup⟩⟩

/-- The verbs whose plan covers the whole system, and the verbs that name their targets. -/
def wholeVerbs : List CStr :=
  [.lit "apt.update", .lit "apt.configure", .lit "apt.upgrade", .lit "apt.dist_upgrade"]

def targetVerbs : List CStr :=
  [.lit "apt.install", .lit "apt.remove", .lit "apt.purge", .lit "apt.hold", .lit "apt.unhold"]

/-- The verb is one of the nine and goes with a package list of this kind. -/
def VerbTakes (verb : CStr) (names : List CStr) : Prop :=
  verb ∈ wholeVerbs ∧ names = [] ∨ verb ∈ targetVerbs ∧ names ≠ []

/-- The package list of a request for the verb. -/
structure PackagesOk (verb : CStr) (names : List CStr) : Prop where
  targets : TargetsOk names
  arity : VerbTakes verb names

theorem verbArity_eq_none_iff {verb : CStr} : verbArity verb = some .none ↔ verb ∈ wholeVerbs := by
  have hverbs : verb ∈ wholeVerbs ↔ verb = .lit "apt.update" ∨ verb = .lit "apt.configure" ∨
      verb = .lit "apt.upgrade" ∨ verb = .lit "apt.dist_upgrade" := by simp [wholeVerbs]
  rw [hverbs, verbArity]
  split
  · simp_all
  · split <;> simp_all

theorem verbArity_eq_onePlus_iff {verb : CStr} :
    verbArity verb = some .onePlus ↔ verb ∈ targetVerbs := by
  have hverbs : verb ∈ targetVerbs ↔ verb = .lit "apt.install" ∨ verb = .lit "apt.remove" ∨
      verb = .lit "apt.purge" ∨ verb = .lit "apt.hold" ∨ verb = .lit "apt.unhold" := by
    simp [targetVerbs]
  have hdisjoint : ∀ v ∈ wholeVerbs, v ∉ targetVerbs := by decide
  rw [verbArity]
  split
  · rename_i h
    have hwhole : verb ∈ wholeVerbs := by simpa [wholeVerbs] using h
    simp [hdisjoint verb hwhole]
  · split
    · rename_i h
      simp [hverbs, h]
    · rename_i h
      simp [hverbs, h]

/-- The checks on the list before its names are read. -/
theorem packagesArray_eq_some_iff {arity : Arity} {j : Option Json} {vs : List Json} :
    packagesArray arity j = some vs ↔ j = some (.array vs) ∧ vs.length ≤ maxPackages ∧
      (arity = .none ∧ vs = [] ∨ arity = .onePlus ∧ vs ≠ []) := by
  cases j with
  | none => simp [packagesArray]
  | some v =>
    cases v with
    | array ws =>
      simp only [packagesArray, Option.some.injEq, Json.array.injEq]
      constructor
      · intro h
        split at h
        · simp at h
        · split at h
          · simp at h
          · rename_i hlen harity
            obtain rfl := Option.some.inj h
            refine ⟨rfl, by omega, ?_⟩
            cases arity <;> simpa using harity
      · rintro ⟨rfl, hlen, harity⟩
        rw [if_neg (by omega), if_neg]
        rcases harity with ⟨rfl, rfl⟩ | ⟨rfl, hne⟩
        · simp
        · simpa using hne
    | _ => simp [packagesArray]

/-- Both parsers accept exactly the arrays of acceptable names, and store the names in order. -/
theorem packages_iff {verb : CStr} {j : Option Json} {names : List CStr} :
    (∃ arity, verbArity verb = some arity ∧ ∃ vs, packagesArray arity j = some vs ∧
      parseNames [] vs = (names, true)) ↔ j = some (jsonNames names) ∧ PackagesOk verb names := by
  have hloop (vs : List Json) : parseNames [] vs = (names, true) ↔
      vs = names.map (fun s => .string s.bytes) ∧ (∀ s ∈ names, nameOk s = true) ∧ names.Nodup :=
    parseNames_iff List.nodup_nil
  constructor
  · rintro ⟨arity, harity, vs, hvs, hnames⟩
    obtain ⟨rfl, hlen, hcount⟩ := packagesArray_eq_some_iff.mp hvs
    obtain ⟨rfl, hall, hnodup⟩ := (hloop vs).mp hnames
    refine ⟨rfl, ⟨hall, hnodup, by simpa using hlen⟩, ?_⟩
    rcases hcount with ⟨rfl, hnil⟩ | ⟨rfl, hne⟩
    · exact .inl ⟨verbArity_eq_none_iff.mp harity, by simpa using hnil⟩
    · exact .inr ⟨verbArity_eq_onePlus_iff.mp harity, by simpa using hne⟩
  · rintro ⟨rfl, htargets, harity⟩
    have hnames := (hloop _).mpr ⟨rfl, htargets.each, htargets.nodup⟩
    have hlen : (names.map fun s => Json.string s.bytes).length ≤ maxPackages := by
      simpa using htargets.length_le
    rcases harity with ⟨hverb, hnil⟩ | ⟨hverb, hne⟩
    · exact ⟨_, verbArity_eq_none_iff.mpr hverb, _,
        packagesArray_eq_some_iff.mpr ⟨rfl, hlen, .inl ⟨rfl, by simp [hnil]⟩⟩, hnames⟩
    · exact ⟨_, verbArity_eq_onePlus_iff.mpr hverb, _,
        packagesArray_eq_some_iff.mpr ⟨rfl, hlen, .inr ⟨rfl, by simpa using hne⟩⟩, hnames⟩

theorem depthElements_le {vs : List Json} {m d : ℕ} (hm : m ≤ d) (h : ∀ v ∈ vs, depth v ≤ d) :
    depthElements vs m ≤ d := by
  induction vs generalizing m with
  | nil => rwa [depthElements]
  | cons v vs ih =>
    obtain ⟨hv, hvs⟩ := List.forall_mem_cons.mp h
    rw [depthElements]
    apply ih _ hvs
    split
    · exact hv
    · exact hm

theorem depthMembers_le {ms : List (CStr × Json)} {m d : ℕ} (hm : m ≤ d)
    (h : ∀ kv ∈ ms, depth kv.2 ≤ d) : depthMembers ms m ≤ d := by
  induction ms generalizing m with
  | nil => rwa [depthMembers]
  | cons kv ms ih =>
    obtain ⟨k, v⟩ := kv
    obtain ⟨hv, hms⟩ := List.forall_mem_cons.mp h
    rw [depthMembers]
    apply ih _ hms
    split
    · exact hv
    · exact hm

theorem depth_jsonNames (names : List CStr) : depth (jsonNames names) ≤ 1 := by
  rw [jsonNames, depth]
  refine Nat.succ_le_succ (depthElements_le le_rfl ?_)
  intro v hv
  obtain ⟨s, -, rfl⟩ := List.mem_map.mp hv
  simp [depth]

/-- An object whose members are scalars and lists of scalars is shallow enough. -/
theorem depth_of_perm {ms want : List (CStr × Json)} (hperm : ms.Perm want)
    (h : ∀ w ∈ want, depth w.2 ≤ 1) : depth (.object ms) ≤ maxDepth := by
  have hms : depthMembers ms 0 ≤ 1 :=
    depthMembers_le (Nat.zero_le 1) fun m hm => h m (hperm.mem_iff.mp hm)
  rw [depth, maxDepth]
  omega

/-- The members of an effector request with the given package list. -/
def requestMembers (rcpt cid : CStr) (t : ℤ) (packages : Json) : List (CStr × Json) :=
  [(.lit "effect_receipt", .string rcpt.bytes), (.lit "correlation_id", .string cid.bytes),
    (.lit "plan_schema", .integer 1), (.lit "packages", packages),
    (.lit "lock_timeout", .integer t)]

/-- The members of an effector request other than its package list are in order. -/
structure RequestOk (rcpt cid : CStr) (t : ℤ) : Prop where
  receipt : isLcHex rcpt receiptHexlen = true
  cid : CidGrammar cid
  timeout : 0 ≤ t ∧ t ≤ lockTimeoutMax

/-- The structure that such a request fills. -/
def filledRequest (rcpt cid : CStr) (t : ℤ) (names : List CStr) : PkgxRequest where
  effectReceipt := .ofStr _ rcpt
  correlationId := .ofStr _ cid
  planSchema := 1
  packages := some names
  npackages := names.length
  lockTimeout := t

theorem requestMembers_keys (rcpt cid : CStr) (t : ℤ) (p : Json) :
    (requestMembers rcpt cid t p).map Prod.fst = allowed := rfl

theorem requestMembers_nodup (rcpt cid : CStr) (t : ℤ) (p : Json) :
    ((requestMembers rcpt cid t p).map Prod.fst).Nodup := by
  rw [requestMembers_keys]
  decide

theorem isAllowedKey_iff {k : CStr} : isAllowedKey k = true ↔ k ∈ allowed := by
  simp [isAllowedKey]

theorem parseRoot_eq_ok_iff {verb : CStr} {root : Json} (hclean : root.Clean) {req : PkgxRequest} :
    (∃ arity, verbArity verb = some arity ∧ parseRoot arity root = .ok req) ↔
      ∃ rcpt cid t names ms, root = .object ms ∧
        ms.Perm (requestMembers rcpt cid t (jsonNames names)) ∧ RequestOk rcpt cid t ∧
        PackagesOk verb names ∧ req = filledRequest rcpt cid t names := by
  constructor
  · rintro ⟨arity, harity, h⟩
    simp only [parseRoot, bind_eq_ok, require_eq_ok, present_eq_ok, integerIn_eq_some_iff,
      strClean_eq_some_iff] at h
    obtain ⟨-, hobj, -, hkeys, rcpt, hrcpt, -, hhex, cid, hcid, -, hvalid, schema,
      ⟨hschema, hone⟩, t, ⟨ht, htimeout⟩, vs, hvs, -, hnames, hreq⟩ := h
    obtain rfl : schema = 1 := le_antisymm hone.2 hone.1
    obtain ⟨hpackages, hok⟩ := packages_iff.mp ⟨arity, harity, vs, hvs, Prod.ext rfl hnames⟩
    cases root with
    | object ms =>
      cases hclean with
      | object hnodup _ =>
        refine ⟨rcpt, cid, t, (parseNames [] vs).1, ms, rfl, ?_,
          ⟨hhex, pkgxCidValid_iff.mp hvalid, htimeout⟩, hok, (Except.ok.inj hreq).symm⟩
        refine KeyedLists.perm_of_only_keys hnodup (requestMembers_nodup ..) ?_ ?_
        · intro m hm
          exact isAllowedKey_iff.mp (List.all_eq_true.mp hkeys m hm)
        · intro w hw
          simp only [requestMembers, List.mem_cons, List.not_mem_nil, or_false] at hw
          rcases hw with rfl | rfl | rfl | rfl | rfl
          · exact hrcpt
          · exact hcid
          · exact hschema
          · exact hpackages
          · exact ht
    | _ => simp [Json.isObject] at hobj
  · rintro ⟨rcpt, cid, t, names, ms, rfl, hperm, hreq, hok, rfl⟩
    have hget := Json.objectGet_of_perm (requestMembers_nodup ..) hperm
    obtain ⟨arity, harity, vs, hvs, hnames⟩ := packages_iff.mpr ⟨rfl, hok⟩
    refine ⟨arity, harity, ?_⟩
    simp only [parseRoot, bind_eq_ok, require_eq_ok, present_eq_ok, integerIn_eq_some_iff,
      strClean_eq_some_iff]
    refine ⟨(), ?_, (), ?_, rcpt, hget _, (), hreq.receipt, cid, hget _, (),
      pkgxCidValid_iff.mpr hreq.cid, 1, ⟨hget _, le_rfl, le_rfl⟩, t, ⟨hget _, hreq.timeout⟩, vs, ?_,
      (), ?_, ?_⟩
    · refine decide_eq_true (depth_of_perm hperm ?_)
      simpa [requestMembers, depth] using depth_jsonNames names
    · rw [List.all_eq_true]
      intro m hm
      have hkey : m.1 ∈ (requestMembers rcpt cid t (jsonNames names)).map Prod.fst :=
        List.mem_map_of_mem (hperm.mem_iff.mp hm)
      exact isAllowedKey_iff.mpr hkey
    · rw [hget]
      exact hvs
    · rw [hnames]
    · rw [hnames]
      rfl

/-- What a refused request leaves in `*out`. -/
structure Wiped (out : PkgxRequest) : Prop where
  receipt : out.effectReceipt = .zero _
  packages : out.packages = none
  count : out.npackages = 0

/-- A partly filled structure: names are counted only while they are allocated. -/
def Filling (out : PkgxRequest) : Prop := out.packages = none → out.npackages = 0

theorem wiped_zero : Wiped .zero := ⟨rfl, rfl, rfl⟩

theorem wiped_free {out : PkgxRequest} (h : Filling out) : Wiped out.free := by
  obtain ⟨rcpt, cid, schema, packages, count, t⟩ := out
  cases packages with
  | none => exact ⟨rfl, rfl, h rfl⟩
  | some names => exact ⟨rfl, rfl, rfl⟩

/-- Every failure of the computation leaves a state of the given kind. -/
def FailsIn {ε α : Type} (P : ε → Prop) (x : Except ε α) : Prop := ∀ e, x = .error e → P e

section FailsIn

variable {ε α β : Type} {P : ε → Prop}

theorem failsIn_pure {a : α} : FailsIn P (pure a) := by
  intro e h
  cases h

theorem failsIn_require {ok : Bool} {fail : ε} (h : P fail) : FailsIn P (require ok fail) := by
  intro e he
  cases ok with
  | false => exact Except.error.inj he ▸ h
  | true => simp [require] at he

theorem failsIn_present {v : Option α} {fail : ε} (h : P fail) : FailsIn P (present v fail) := by
  intro e he
  cases v with
  | none => exact Except.error.inj he ▸ h
  | some a => simp [present] at he

theorem FailsIn.bind {x : Except ε α} {f : α → Except ε β} (hx : FailsIn P x)
    (hf : ∀ a, FailsIn P (f a)) : FailsIn P (x >>= f) := by
  intro e he
  cases hxe : x with
  | error e' =>
    rw [hxe] at he
    obtain rfl : e' = e := Except.error.inj he
    exact hx e' hxe
  | ok a =>
    rw [hxe] at he
    exact hf a e he

end FailsIn

/-- Wherever the parser stops, names are counted only while they are allocated. -/
theorem failsIn_parseRoot (arity : Arity) (root : Json) :
    FailsIn Filling (parseRoot arity root) := by
  have hempty (out : PkgxRequest) (h : out.npackages = 0) : Filling out := fun _ => h
  refine .bind (failsIn_require (hempty _ rfl)) fun _ => ?_
  refine .bind (failsIn_require (hempty _ rfl)) fun _ => ?_
  refine .bind (failsIn_present (hempty _ rfl)) fun rcpt => ?_
  refine .bind (failsIn_require (hempty _ rfl)) fun _ => ?_
  refine .bind (failsIn_present (hempty _ rfl)) fun cid => ?_
  refine .bind (failsIn_require (hempty _ rfl)) fun _ => ?_
  refine .bind (failsIn_present (hempty _ rfl)) fun schema => ?_
  refine .bind (failsIn_present (hempty _ rfl)) fun t => ?_
  refine .bind (failsIn_present (hempty _ rfl)) fun vs => ?_
  refine .bind (failsIn_require fun hnone => ?_) fun _ => failsIn_pure
  cases hnone

theorem pkgxParseRequest_wiped {J : Jansson} {verb : CStr} {body : List UInt8} {r : Refusal}
    (h : pkgxParseRequest J verb body = .error r) : Wiped r.out := by
  rw [pkgxParseRequest] at h
  cases ha : verbArity verb with
  | none =>
    rw [ha] at h
    exact Except.error.inj h ▸ wiped_zero
  | some arity =>
    cases hl : J.loadb body with
    | none =>
      rw [ha, hl] at h
      exact Except.error.inj h ▸ wiped_zero
    | some root =>
      cases hp : parseRoot arity root with
      | error out =>
        simp only [ha, hl, hp] at h
        exact Except.error.inj h ▸ wiped_free (failsIn_parseRoot arity root out hp)
      | ok out => simp [ha, hl, hp] at h

theorem pkgxParseRequest_eq_ok_iff {J : Jansson} {verb : CStr} {body : List UInt8}
    {req : PkgxRequest} : pkgxParseRequest J verb body = .ok req ↔
      ∃ rcpt cid t names ms, J.loadb body = some (.object ms) ∧
        ms.Perm (requestMembers rcpt cid t (jsonNames names)) ∧ RequestOk rcpt cid t ∧
        PackagesOk verb names ∧ req = filledRequest rcpt cid t names := by
  have hroot : pkgxParseRequest J verb body = .ok req ↔ ∃ root, J.loadb body = some root ∧
      ∃ arity, verbArity verb = some arity ∧ parseRoot arity root = .ok req := by
    rw [pkgxParseRequest]
    cases verbArity verb with
    | none => simp
    | some arity =>
      cases J.loadb body with
      | none => simp
      | some root =>
        cases hp : parseRoot arity root with
        | error out => simp [hp]
        | ok out => simp [hp]
  rw [hroot]
  constructor
  · rintro ⟨root, hload, hparse⟩
    obtain ⟨rcpt, cid, t, names, ms, rfl, hrest⟩ :=
      (parseRoot_eq_ok_iff (J.loadb_clean _ _ hload)).mp hparse
    exact ⟨rcpt, cid, t, names, ms, hload, hrest⟩
  · rintro ⟨rcpt, cid, t, names, ms, hload, hrest⟩
    exact ⟨_, hload, (parseRoot_eq_ok_iff (J.loadb_clean _ _ hload)).mpr
      ⟨rcpt, cid, t, names, ms, rfl, hrest⟩⟩

theorem pkgxParseRequest_ok {J : Jansson} {verb : CStr} {body : List UInt8} {req : PkgxRequest}
    (h : pkgxParseRequest J verb body = .ok req) : ∃ names, Accepted req names := by
  obtain ⟨rcpt, cid, t, names, ms, -, -, hvalid, hok, rfl⟩ := pkgxParseRequest_eq_ok_iff.mp h
  have hcidValid : pkgxCidValid (some cid) = true := pkgxCidValid_iff.mpr hvalid.cid
  have hrcpt : (filledRequest rcpt cid t names).effectReceipt.str = rcpt :=
    CharBuf.str_ofStr ((isLcHex_iff.mp hvalid.receipt).1.trans_lt (Nat.lt_succ_self _))
  have hcid : (filledRequest rcpt cid t names).correlationId.str = cid :=
    CharBuf.str_ofStr ((pkgxCidValid_length hcidValid).trans_lt (by decide))
  refine ⟨names, ?_, ?_, rfl, rfl, hok.targets⟩
  · rw [hrcpt]
    exact hvalid.receipt
  · rw [hcid]
    exact hcidValid

/-- The effector parser accepts exactly its schema, fills in exactly the values of the request,
and leaves no receipt and no name behind when it refuses. -/
theorem request_schema_exact (J : Jansson) (verb : CStr) (body : List UInt8) :
    (∀ req, pkgxParseRequest J verb body = .ok req ↔
      ∃ rcpt cid t names ms, J.loadb body = some (.object ms) ∧
        ms.Perm (requestMembers rcpt cid t (jsonNames names)) ∧ RequestOk rcpt cid t ∧
        PackagesOk verb names ∧ req = filledRequest rcpt cid t names) ∧
    ∀ r, pkgxParseRequest J verb body = .error r → Wiped r.out :=
  ⟨fun _ => pkgxParseRequest_eq_ok_iff, fun _ => pkgxParseRequest_wiped⟩

/-- The members of a preview request with the given package list. -/
def previewMembers (verb : CStr) (packages : Json) : List (CStr × Json) :=
  [(.lit "schema_version", .integer 1), (.lit "verb", .string verb.bytes),
    (.lit "packages", packages)]

theorem previewMembers_keys (verb : CStr) (p : Json) :
    (previewMembers verb p).map Prod.fst = previewAllowed := rfl

theorem previewMembers_nodup (verb : CStr) (p : Json) :
    ((previewMembers verb p).map Prod.fst).Nodup := by
  rw [previewMembers_keys]
  decide

theorem isPreviewKey_iff {k : CStr} : isPreviewKey k = true ↔ k ∈ previewAllowed := by
  simp [isPreviewKey]

/-- The structure that such a request fills. -/
def filledPreview (verb : CStr) (names : List CStr) : PkgxPreviewRequest :=
  ⟨.ofStr _ verb, some names, names.length⟩

/-- Every verb of the nine leaves room for its terminator. -/
theorem length_verb_lt {verb : CStr} {names : List CStr} (h : VerbTakes verb names) :
    verb.length < verbMax := by
  have hall : ∀ v ∈ wholeVerbs ++ targetVerbs, v.length < verbMax := by decide
  apply hall
  rcases h with ⟨hverb, -⟩ | ⟨hverb, -⟩
  · exact List.mem_append_left _ hverb
  · exact List.mem_append_right _ hverb

theorem parsePreviewRoot_eq_ok_iff {root : Json} (hclean : root.Clean) {req : PkgxPreviewRequest} :
    parsePreviewRoot root = .ok req ↔ ∃ verb names ms, root = .object ms ∧
      ms.Perm (previewMembers verb (jsonNames names)) ∧ PackagesOk verb names ∧
      req = filledPreview verb names := by
  constructor
  · intro h
    simp only [parsePreviewRoot, bind_eq_ok, require_eq_ok, present_eq_ok, integerIn_eq_some_iff,
      strClean_eq_some_iff] at h
    obtain ⟨-, hobj, -, hkeys, schema, ⟨hschema, hone⟩, verb, hverb, arity, harity, -, -, vs, hvs,
      -, hnames, hreq⟩ := h
    obtain rfl : schema = 1 := le_antisymm hone.2 hone.1
    obtain ⟨hpackages, hok⟩ := packages_iff.mp ⟨arity, harity, vs, hvs, Prod.ext rfl hnames⟩
    cases root with
    | object ms =>
      cases hclean with
      | object hnodup _ =>
        refine ⟨verb, (parseNames [] vs).1, ms, rfl, ?_, hok, (Except.ok.inj hreq).symm⟩
        refine KeyedLists.perm_of_only_keys hnodup (previewMembers_nodup ..) ?_ ?_
        · intro m hm
          exact isPreviewKey_iff.mp (List.all_eq_true.mp hkeys m hm)
        · intro w hw
          simp only [previewMembers, List.mem_cons, List.not_mem_nil, or_false] at hw
          rcases hw with rfl | rfl | rfl
          · exact hschema
          · exact hverb
          · exact hpackages
    | _ => simp [Json.isObject] at hobj
  · rintro ⟨verb, names, ms, rfl, hperm, hok, rfl⟩
    have hget := Json.objectGet_of_perm (previewMembers_nodup ..) hperm
    obtain ⟨arity, harity, vs, hvs, hnames⟩ := packages_iff.mpr ⟨rfl, hok⟩
    simp only [parsePreviewRoot, bind_eq_ok, require_eq_ok, present_eq_ok, integerIn_eq_some_iff,
      strClean_eq_some_iff]
    refine ⟨(), ?_, (), ?_, 1, ⟨hget _, le_rfl, le_rfl⟩, verb, hget _, arity, harity, (),
      decide_eq_true (length_verb_lt hok.arity), vs, ?_, (), ?_, ?_⟩
    · refine decide_eq_true (depth_of_perm hperm ?_)
      simpa [previewMembers, depth] using depth_jsonNames names
    · rw [List.all_eq_true]
      intro m hm
      have hkey : m.1 ∈ (previewMembers verb (jsonNames names)).map Prod.fst :=
        List.mem_map_of_mem (hperm.mem_iff.mp hm)
      exact isPreviewKey_iff.mpr hkey
    · rw [hget]
      exact hvs
    · rw [hnames]
    · rw [hnames]
      rfl

theorem pkgxParsePreviewRequest_eq_ok_iff {J : Jansson} {body : List UInt8}
    {req : PkgxPreviewRequest} : pkgxParsePreviewRequest J body = .ok req ↔
      ∃ verb names ms, J.loadb body = some (.object ms) ∧
        ms.Perm (previewMembers verb (jsonNames names)) ∧ PackagesOk verb names ∧
        req = filledPreview verb names := by
  have hroot : pkgxParsePreviewRequest J body = .ok req ↔
      ∃ root, J.loadb body = some root ∧ parsePreviewRoot root = .ok req := by
    rw [pkgxParsePreviewRequest]
    cases J.loadb body with
    | none => simp
    | some root =>
      cases hp : parsePreviewRoot root with
      | error r => simp [hp]
      | ok out => simp [hp]
  rw [hroot]
  constructor
  · rintro ⟨root, hload, hparse⟩
    obtain ⟨verb, names, ms, rfl, hrest⟩ :=
      (parsePreviewRoot_eq_ok_iff (J.loadb_clean _ _ hload)).mp hparse
    exact ⟨verb, names, ms, hload, hrest⟩
  · rintro ⟨verb, names, ms, hload, hrest⟩
    exact ⟨_, hload, (parsePreviewRoot_eq_ok_iff (J.loadb_clean _ _ hload)).mpr
      ⟨verb, names, ms, rfl, hrest⟩⟩

section Agreement

variable {J : Jansson} {verb : CStr} {p : Json} {ms : List (CStr × Json)} {body : List UInt8}

/-- The preview parser accepts a list exactly if it is an acceptable list for the verb. -/
theorem preview_with_packages_iff (hload : J.loadb body = some (.object ms))
    (hperm : ms.Perm (previewMembers verb p)) {req : PkgxPreviewRequest} :
    pkgxParsePreviewRequest J body = .ok req ↔
      ∃ names, p = jsonNames names ∧ PackagesOk verb names ∧ req = filledPreview verb names := by
  rw [pkgxParsePreviewRequest_eq_ok_iff]
  constructor
  · rintro ⟨verb', names, ms', hload', hperm', hok, rfl⟩
    obtain rfl : ms = ms' := Json.object.inj (Option.some.inj (hload.symm.trans hload'))
    have hget := Json.objectGet_of_perm (previewMembers_nodup ..) hperm
    have hget' := Json.objectGet_of_perm (previewMembers_nodup ..) hperm'
    have hverb : some (Json.string verb.bytes) = some (.string verb'.bytes) :=
      (hget (.lit "verb")).symm.trans (hget' (.lit "verb"))
    have hp : some p = some (jsonNames names) :=
      (hget (.lit "packages")).symm.trans (hget' (.lit "packages"))
    obtain rfl : verb = verb' := CStr.ext (Json.string.inj (Option.some.inj hverb))
    exact ⟨names, Option.some.inj hp, hok, rfl⟩
  · rintro ⟨names, rfl, hok, rfl⟩
    exact ⟨verb, names, ms, hload, hperm, hok, rfl⟩

/-- So does the effector parser, on a request that is otherwise in order. -/
theorem request_with_packages_iff {rcpt cid : CStr} {t : ℤ}
    (hload : J.loadb body = some (.object ms)) (hperm : ms.Perm (requestMembers rcpt cid t p))
    (hvalid : RequestOk rcpt cid t) {req : PkgxRequest} : pkgxParseRequest J verb body = .ok req ↔
      ∃ names, p = jsonNames names ∧ PackagesOk verb names ∧
        req = filledRequest rcpt cid t names := by
  rw [pkgxParseRequest_eq_ok_iff]
  constructor
  · rintro ⟨rcpt', cid', t', names, ms', hload', hperm', -, hok, rfl⟩
    obtain rfl : ms = ms' := Json.object.inj (Option.some.inj (hload.symm.trans hload'))
    have hget := Json.objectGet_of_perm (requestMembers_nodup ..) hperm
    have hget' := Json.objectGet_of_perm (requestMembers_nodup ..) hperm'
    have hrcpt : some (Json.string rcpt.bytes) = some (.string rcpt'.bytes) :=
      (hget (.lit "effect_receipt")).symm.trans (hget' (.lit "effect_receipt"))
    have hcid : some (Json.string cid.bytes) = some (.string cid'.bytes) :=
      (hget (.lit "correlation_id")).symm.trans (hget' (.lit "correlation_id"))
    have ht : some (Json.integer t) = some (.integer t') :=
      (hget (.lit "lock_timeout")).symm.trans (hget' (.lit "lock_timeout"))
    have hp : some p = some (jsonNames names) :=
      (hget (.lit "packages")).symm.trans (hget' (.lit "packages"))
    obtain rfl : rcpt = rcpt' := CStr.ext (Json.string.inj (Option.some.inj hrcpt))
    obtain rfl : cid = cid' := CStr.ext (Json.string.inj (Option.some.inj hcid))
    obtain rfl : t = t' := Json.integer.inj (Option.some.inj ht)
    exact ⟨names, Option.some.inj hp, hok, rfl⟩
  · rintro ⟨names, rfl, hok, rfl⟩
    exact ⟨rcpt, cid, t, names, ms, hload, hperm, hvalid, hok, rfl⟩

/-- A package list can be previewed for a verb exactly if it can be requested for it, and the
two parsers then store the same names in the same order. -/
theorem parsers_agree {body' : List UInt8} {ms' : List (CStr × Json)} {rcpt cid : CStr} {t : ℤ}
    (hload : J.loadb body = some (.object ms)) (hperm : ms.Perm (previewMembers verb p))
    (hload' : J.loadb body' = some (.object ms')) (hperm' : ms'.Perm (requestMembers rcpt cid t p))
    (hvalid : RequestOk rcpt cid t) :
    ((∃ r, pkgxParsePreviewRequest J body = .ok r) ↔
      ∃ req, pkgxParseRequest J verb body' = .ok req) ∧
    ∀ r req, pkgxParsePreviewRequest J body = .ok r → pkgxParseRequest J verb body' = .ok req →
      r.verb.str = verb ∧ r.packages = req.packages ∧ r.npackages = req.npackages := by
  have hpreview (r : PkgxPreviewRequest) : pkgxParsePreviewRequest J body = .ok r ↔
      ∃ names, p = jsonNames names ∧ PackagesOk verb names ∧ r = filledPreview verb names :=
    preview_with_packages_iff hload hperm
  have hrequest (req : PkgxRequest) : pkgxParseRequest J verb body' = .ok req ↔
      ∃ names, p = jsonNames names ∧ PackagesOk verb names ∧
        req = filledRequest rcpt cid t names :=
    request_with_packages_iff hload' hperm' hvalid
  constructor
  · constructor
    · rintro ⟨r, hr⟩
      obtain ⟨names, hp, hok, -⟩ := (hpreview r).mp hr
      exact ⟨_, (hrequest _).mpr ⟨names, hp, hok, rfl⟩⟩
    · rintro ⟨req, hreq⟩
      obtain ⟨names, hp, hok, -⟩ := (hrequest req).mp hreq
      exact ⟨_, (hpreview _).mpr ⟨names, hp, hok, rfl⟩⟩
  · intro r req hr hreq
    obtain ⟨names, hp, hok, rfl⟩ := (hpreview r).mp hr
    obtain ⟨names', hp', -, rfl⟩ := (hrequest req).mp hreq
    obtain rfl : names = names' := jsonNames_injective (hp.symm.trans hp')
    exact ⟨CharBuf.str_ofStr (length_verb_lt hok.arity), rfl, rfl⟩

end Agreement

theorem clean_jsonNames (names : List CStr) : (jsonNames names).Clean := by
  refine .array ?_
  intro v hv
  obtain ⟨s, -, rfl⟩ := List.mem_map.mp hv
  exact .string s.noNul

theorem clean_requestMembers {rcpt cid : CStr} {t : ℤ} {p : Json} (hp : p.Clean) :
    (Json.object (requestMembers rcpt cid t p)).Clean := by
  refine .object (requestMembers_nodup ..) ?_
  simpa [requestMembers] using ⟨.string rcpt.noNul, .string cid.noNul, .integer 1, hp, .integer t⟩

theorem clean_previewMembers {verb : CStr} {p : Json} (hp : p.Clean) :
    (Json.object (previewMembers verb p)).Clean := by
  refine .object (previewMembers_nodup ..) ?_
  simpa [previewMembers] using ⟨.integer 1, .string verb.noNul, hp⟩

def sampleReceipt : CStr := .lit "0123456789abcdef0123456789abcdef"

def sampleCid : CStr := .lit "00000000000000000001-0123456789abcdef"

theorem sample_ok : RequestOk sampleReceipt sampleCid 30 :=
  ⟨by decide, pkgxCidValid_iff.mp (by decide), by decide⟩

def holdPreview : Json := .object (previewMembers (.lit "apt.hold") (jsonNames [.lit "nginx"]))

def holdRequest : Json :=
  .object (requestMembers sampleReceipt sampleCid 30 (jsonNames [.lit "nginx"]))

/-- A library that parses the two texts. -/
def holdBodies : Jansson :=
  PlanDigest.janssonTable
    [(holdPreview.compact, holdPreview), (holdRequest.compact, holdRequest)]
    (by simpa using ⟨clean_previewMembers (clean_jsonNames _),
      clean_requestMembers (clean_jsonNames _)⟩)

set_option maxRecDepth 4000 in
theorem parsers_agree_hold_nginx :
    ((∃ r, pkgxParsePreviewRequest holdBodies holdPreview.compact = .ok r) ↔
      ∃ req, pkgxParseRequest holdBodies (.lit "apt.hold") holdRequest.compact = .ok req) ∧
    ∀ r req, pkgxParsePreviewRequest holdBodies holdPreview.compact = .ok r →
      pkgxParseRequest holdBodies (.lit "apt.hold") holdRequest.compact = .ok req →
      r.verb.str = .lit "apt.hold" ∧ r.packages = req.packages ∧ r.npackages = req.npackages :=
  parsers_agree rfl (.refl _) rfl (.refl _) sample_ok

set_option maxRecDepth 4000 in
theorem holdRequest_accepted : pkgxParseRequest holdBodies (.lit "apt.hold") holdRequest.compact =
    .ok (filledRequest sampleReceipt sampleCid 30 [.lit "nginx"]) := by
  refine pkgxParseRequest_eq_ok_iff.mpr ⟨sampleReceipt, sampleCid, 30, [.lit "nginx"],
    requestMembers sampleReceipt sampleCid 30 (jsonNames [.lit "nginx"]), rfl, .refl _, sample_ok,
    ⟨⟨?_, ?_, ?_⟩, .inr ⟨?_, ?_⟩⟩, rfl⟩
  · decide
  · decide
  · decide
  · decide
  · decide

end Pkgexec.Request
