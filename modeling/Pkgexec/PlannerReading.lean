import Pkgexec.BuilderDomain
import Pkgexec.PlannerCourse
import Pkgexec.SelectionPayload
import Pkgexec.SigningKeys

/-!
# What is read off the sheet of a planner

A driver takes the resource and the hash from the lines that begin with their keys. Where the
names of the packages have no newline, it reads the plan that would be spent, and nothing else.
-/

namespace Pkgexec.Plan
open CStrings PlanDigest Apt

/-- The call of the encoder behind a plan. -/
def PlanCall.encoding : PlanCall → EncoderCall
  | txn verb recs _ => .pkgTxn verb recs
  | update srcs _ => .update srcs
  | hold verb holds _ => .hold verb holds
  | configure cfgs => .configure cfgs

section Encoding

variable {E : Evp} {c c' : PlanCall} {d d' : Digest}

theorem PlanCall.digest_eq (E : Evp) (c : PlanCall) : c.digest E = c.encoding.run E := by
  cases c <;> rfl

/-- The hash is the hexadecimal digest of the canonical bytes. -/
theorem PlanCall.hex_digest (h : c.digest E = some d) :
    ∃ md, E.sha256 d.canon = some md ∧ d.hex.bytes = md.mem.flatMap hexPair := by
  rw [PlanCall.digest_eq] at h
  obtain ⟨-, -, hhex, hcanon⟩ := EncoderCall.run_eq_some_iff.mp h
  rw [← hcanon] at hhex
  exact sha256Hex_eq_some_iff.mp hhex

theorem PlanCall.hex_digits (h : c.digest E = some d) : ∀ b ∈ d.hex.bytes, b ∈ hx := by
  obtain ⟨md, -, hhex⟩ := PlanCall.hex_digest h
  have hdigit : ∀ i < 16, hx.getD i 0 ∈ hx := by decide
  intro b hb
  rw [hhex] at hb
  obtain ⟨a, -, hb⟩ := List.mem_flatMap.mp hb
  have hlt := a.toNat_lt
  rw [hexPair, high_half, low_half, List.mem_cons, List.mem_singleton] at hb
  rcases hb with rfl | rfl
  · exact hdigit _ (by omega)
  · exact hdigit _ (by omega)

end Encoding

end Pkgexec.Plan

namespace Pkgexec.Oracle
open CStrings DecimalNumerals DelimitedLists JsonValues PlanDigest Policy Redeem Plan Request Apt

/-- The value of a line with the given key. -/
def fieldValue (key : CStr) (line : List UInt8) : Option (List UInt8) :=
  if key.bytes ++ [equals] <+: line then some (line.drop (key.length + 1)) else none

/-- What a driver reads off a stream under a key. -/
def fieldValues (key : CStr) (bytes : List UInt8) : List (List UInt8) :=
  (bytes.splitOn newline).filterMap (fieldValue key)

theorem fieldValue_nil (key : CStr) : fieldValue key [] = none := by
  rw [fieldValue, if_neg]
  simp

/-- Items without a newline are the lines of their stream. -/
theorem fieldValues_stream (key : CStr) {items : List (List UInt8)}
    (h : ∀ item ∈ items, newline ∉ item) :
    fieldValues key (stream items) = items.filterMap (fieldValue key) := by
  have hsplit : (stream items).splitOn newline = items ++ [[]] := splitOn_terminated h
  rw [fieldValues, hsplit, List.filterMap_append]
  simp [fieldValue_nil]

@[simp] theorem text_nil : text [] = [] := rfl

@[simp] theorem text_cons (s : CStr) (parts : List CStr) :
    text (s :: parts) = s.bytes ++ text parts := rfl

/-- The line that was written for a key. -/
theorem fieldValue_text {key head : CStr} (hhead : head.bytes = key.bytes ++ [equals])
    (value : CStr) : fieldValue key (text [head, value]) = some value.bytes := by
  simp [fieldValue, hhead, CStr.length]

/-- A line that begins with another byte. -/
theorem fieldValue_other {key : CStr} {b c : UInt8} {line : List UInt8}
    (hkey : key.bytes.head? = some b) (hline : line.head? = some c) (hne : b ≠ c) :
    fieldValue key line = none := by
  obtain ⟨ks, hks⟩ := List.head?_eq_some_iff.mp hkey
  obtain ⟨ls, rfl⟩ := List.head?_eq_some_iff.mp hline
  rw [fieldValue, if_neg]
  simp [hks, hne]

theorem newline_notMem_text {parts : List CStr} (h : ∀ s ∈ parts, newline ∉ s.bytes) :
    newline ∉ text parts := by
  simpa [text] using h

theorem newline_notMem_numeral (n : ℕ) : newline ∉ (CStr.ofMem (numeral n)).bytes := by
  intro hmem
  have hdigit := (numeral_spec n).1 _ (List.takeWhile_subset _ hmem)
  revert hdigit
  decide

/-- A driver takes this resource and this hash off the sheet. -/
structure Issues (sheet : Sheet) (resource hash : CStr) : Prop where
  exit : sheet.exit = .ok
  resource : fieldValues (.lit "resource") (stream sheet.out) = [resource.bytes]
  planHash : fieldValues (.lit "plan_hash") (stream sheet.out) = [hash.bytes]

theorem newline_notMem_hex {E : Evp} {c : PlanCall} {d : Digest} (h : c.digest E = some d) :
    newline ∉ d.hex.bytes := fun hmem =>
  absurd (PlanCall.hex_digits h _ hmem) (by decide)

/-- The names of the packages and the targets are each on one line. -/
structure OneLine (h : AptHost) (targets : List CStr) : Prop where
  packages : ∀ c, h.cache.pkgCache = some c → ∀ P ∈ c.packages, newline ∉ P.name.bytes
  targets : ∀ t ∈ targets, newline ∉ t.bytes

/-- What is written of a plan is on one line each. -/
structure OneLinePlan (c : PlanCall) : Prop where
  verb : newline ∉ c.verb.bytes
  resource : ∀ r, c.resource = some r → newline ∉ r.bytes
  offender : ∀ result offender, c.refusal = some (result, offender) →
    newline ∉ (orEmpty offender).bytes

/-- The packages of the records. -/
def packages : PlanCall → List (Option CStr)
  | .txn _ recs _ => recs.map (·.package)
  | .update _ _ => []
  | .hold _ holds _ => holds.map (·.package)
  | .configure cfgs => cfgs.map (·.package)

/-- An offender is the package of a record. -/
theorem refusal_offender {c : PlanCall} {result : PlanResult} {offender : Option CStr}
    (h : c.refusal = some (result, offender)) : offender ∈ packages c := by
  cases c with
  | txn verb recs targets =>
    have hfirst : ∀ {rule}, FirstOffender rule recs offender →
        offender ∈ packages (.txn verb recs targets) := by
      rintro rule ⟨before, r, after, rfl, -, -, rfl⟩
      exact List.mem_map_of_mem (by simp)
    rw [PlanCall.refusal] at h
    have hverdict := pkgxPolicyCheck_verdict recs
    generalize pkgxPolicyCheck recs = out at h hverdict
    cases hverdict with
    | notOwned hfound =>
      cases h
      exact hfirst hfound
    | held howned hfound =>
      cases h
      exact hfirst hfound
    | isProtected howned hheld hfound =>
      cases h
      exact hfirst hfound
    | ok howned hheld hprotected => cases h
  | update srcs token => cases h
  | hold verb holds targets =>
    obtain ⟨r, hr, heq⟩ := Option.map_eq_some_iff.mp h
    cases heq
    exact List.mem_map_of_mem (List.mem_of_find?_eq_some hr)
  | configure cfgs =>
    obtain ⟨r, hr, heq⟩ := Option.map_eq_some_iff.mp h
    cases heq
    exact List.mem_map_of_mem (List.mem_of_find?_eq_some hr)

section OneLine

variable {E : Evp} {h : AptHost} {targets : List CStr}

theorem newline_notMem_resource (htargets : ∀ t ∈ targets, newline ∉ t.bytes) {r : CStr}
    (hr : pkgxResource (targets.map some) = some r) : newline ∉ r.bytes := by
  obtain ⟨-, -, rfl⟩ := pkgxResource_eq_some_iff.mp hr
  intro hmem
  have hjoin := List.takeWhile_subset _ hmem
  rw [itemsText_eq] at hjoin
  rcases mem_join hjoin with hcomma | ⟨p, hp, hin⟩
  · exact absurd hcomma (by decide)
  · obtain ⟨s, hs, rfl⟩ := List.mem_map.mp hp
    rw [List.map_map] at hs
    obtain ⟨t, ht, rfl⟩ := List.mem_map.mp (mem_qsort.mp hs)
    exact htargets t ht hin

/-- The packages of the records are those of the cache, or targets as they were spelled. -/
theorem packages_oneLine (hline : OneLine h targets) {f : Effector} {call : PlanCall}
    (hplans : f.Plans E h call) (hf : ∀ verb names, f = .hold verb names → names = targets) :
    ∀ p ∈ packages call, newline ∉ (orEmpty p).bytes := by
  cases hplans with
  | txn hcache hresolve =>
    rw [packages, List.forall_mem_map]
    intro r hr
    obtain ⟨P, hP, hrecord⟩ := List.mem_filterMap.mp hr
    obtain ⟨action, -, rfl⟩ := Option.map_eq_some_iff.mp hrecord
    exact hline.packages _ hcache P hP
  | update hsources => exact fun _ hp => absurd hp List.not_mem_nil
  | hold hcache hmap =>
    rw [packages, List.forall_mem_map]
    intro r hr
    rw [(pkgxAptMapHold_ok hmap).1] at hr
    obtain ⟨change, hchange, rfl⟩ := List.mem_map.mp hr
    have hmem := (mem_changes hmap hchange).1
    rw [hf _ _ rfl] at hmem
    exact hline.targets _ hmem
  | configure hcache hmap =>
    obtain ⟨-, rfl, hcfgs⟩ := pkgxAptMapConfigure_eq_ok_iff.mp hmap
    rw [packages, List.forall_mem_map]
    intro r hr
    rw [hcfgs] at hr
    obtain ⟨holder, hholder, rfl⟩ := List.mem_map.mp hr
    obtain ⟨P, hP, hkept⟩ := List.mem_filterMap.mp hholder
    obtain ⟨state, -, rfl⟩ := Option.map_eq_some_iff.mp hkept
    exact hline.packages _ hcache P hP

theorem Allows.newline_notMem {verb : CStr} {n : ℕ} (hallows : Allows verb n) :
    newline ∉ verb.bytes := by
  obtain ⟨arity, harity, -⟩ := hallows
  have hfind := find_spec verb
  rw [harity, Option.map_some] at hfind
  have hverb := List.find?_some hfind
  have hall : ∀ s ∈ specs, newline ∉ s.verb.bytes := by decide
  exact hall _ (List.mem_of_find?_eq_some hfind)

/-- The effector of a verb is called for it. -/
theorem effector_verb (verb : CStr) (req : PkgxRequest) :
    (Entry.effectorFor verb req).verb = verb := by
  by_cases hupdate : verb = .lit "apt.update"
  · subst hupdate
    rfl
  rw [Entry.effectorFor, if_neg hupdate]
  by_cases hhold : verb = .lit "apt.hold" ∨ verb = .lit "apt.unhold"
  · rw [if_pos hhold]
    rfl
  rw [if_neg hhold]
  by_cases hconfigure : verb = .lit "apt.configure"
  · subst hconfigure
    rfl
  · rw [if_neg hconfigure]
    rfl

/-- The targets of an effector are those of its request. -/
theorem effector_targets (verb : CStr) {req : PkgxRequest}
    (hreq : req.packages.getD [] = targets) :
    (∀ v names, Entry.effectorFor verb req = .hold v names → names = targets) ∧
      ∀ r, (Entry.effectorFor verb req).resource = some r →
        pkgxResource (targets.map some) = some r ∨ r = .lit "" ∨ r = .lit "pending" := by
  by_cases hupdate : verb = .lit "apt.update"
  · subst hupdate
    refine ⟨fun v names heq => ?_, fun r hr => .inr (.inl (Option.some_inj.mp hr).symm)⟩
    cases heq
  rw [Entry.effectorFor, if_neg hupdate, hreq]
  by_cases hhold : verb = .lit "apt.hold" ∨ verb = .lit "apt.unhold"
  · rw [if_pos hhold]
    exact ⟨fun v names heq => (Effector.hold.inj heq).2.symm, fun r hr => .inl hr⟩
  rw [if_neg hhold]
  by_cases hconfigure : verb = .lit "apt.configure"
  · rw [if_pos hconfigure]
    refine ⟨fun v names heq => ?_, fun r hr => .inr (.inr (Option.some_inj.mp hr).symm)⟩
    cases heq
  · rw [if_neg hconfigure]
    refine ⟨fun v names heq => ?_, fun r hr => .inl hr⟩
    cases heq

theorem oneLinePlan_of_planned {verb : CStr} (hallows : Allows verb targets.length)
    (hline : OneLine h targets) {req : PkgxRequest} (hreq : req.packages.getD [] = targets)
    {call : PlanCall}
    (hf : (Entry.effectorFor verb req).planned E h = .ok call) :
    OneLinePlan call := by
  obtain ⟨hhold, hresource⟩ := effector_targets verb hreq
  obtain ⟨hverb, hres⟩ := Effector.planned_ok hf
  refine ⟨?_, fun r hr => ?_, fun result offender hrefusal => ?_⟩
  · rw [hverb, effector_verb]
    exact hallows.newline_notMem
  · rw [hres] at hr
    rcases hresource r hr with hr | rfl | rfl
    · exact newline_notMem_resource hline.targets hr
    · decide
    · decide
  · exact packages_oneLine hline (Effector.plans_of_planned hf) hhold _ (refusal_offender hrefusal)

end OneLine

theorem headline_head (c : PlanCall) : (headline c).head? = some 0x76 := rfl

theorem newline_notMem_headline {c : PlanCall} (hverb : newline ∉ c.verb.bytes) :
    newline ∉ headline c := by
  refine newline_notMem_text fun s hs => ?_
  simp only [List.mem_cons, List.not_mem_nil, or_false] at hs
  rcases hs with rfl | rfl | rfl | rfl
  · decide
  · exact hverb
  · decide
  · exact newline_notMem_numeral _

/-- The two keys the driver reads. -/
def keys : List CStr := [.lit "resource", .lit "plan_hash"]

/-- A line that begins as a headline or a status does is not read. -/
theorem fieldValue_unread {key : CStr} (hkey : key ∈ keys) {line : List UInt8} {b : UInt8}
    (hline : line.head? = some b) (hb : b = 0x76 ∨ b = 0x73 ∨ b = 0x6e) :
    fieldValue key line = none := by
  simp only [keys, List.mem_cons, List.not_mem_nil, or_false] at hkey
  rcases hkey with rfl | rfl
  · exact fieldValue_other (b := 0x72) rfl hline (by rcases hb with rfl | rfl | rfl <;> decide)
  · exact fieldValue_other (b := 0x70) rfl hline (by rcases hb with rfl | rfl | rfl <;> decide)

theorem newline_notMem_pair {head value : CStr} (hhead : newline ∉ head.bytes)
    (hvalue : newline ∉ value.bytes) : newline ∉ text [head, value] := by
  refine newline_notMem_text fun s hs => ?_
  simp only [List.mem_cons, List.not_mem_nil, or_false] at hs
  rcases hs with rfl | rfl
  · exact hhead
  · exact hvalue

theorem reason_oneLine (result : PlanResult) : newline ∉ (reason result).bytes := by
  cases result <;> simp only [reason] <;> decide

/-- The plan that is emitted is read back. -/
theorem fieldValues_emitPlan {c : PlanCall} {resource hex : CStr}
    (hverb : newline ∉ c.verb.bytes) (hresource : newline ∉ resource.bytes)
    (hhex : newline ∉ hex.bytes) :
    fieldValues (.lit "resource") (stream (headline c :: emitPlan resource hex)) =
        [resource.bytes] ∧
      fieldValues (.lit "plan_hash") (stream (headline c :: emitPlan resource hex)) =
        [hex.bytes] := by
  have hlines : ∀ item ∈ headline c :: emitPlan resource hex, newline ∉ item := by
    intro item hitem
    simp only [emitPlan, List.mem_cons, List.not_mem_nil, or_false] at hitem
    rcases hitem with rfl | rfl | rfl | rfl
    · exact newline_notMem_headline hverb
    · exact newline_notMem_pair (by decide) hresource
    · exact newline_notMem_pair (by decide) hhex
    · exact newline_notMem_text (by decide)
  have hhead : ∀ key ∈ keys, fieldValue key (headline c) = none := fun key hkey =>
    fieldValue_unread hkey (headline_head c) (.inl rfl)
  have hnote : ∀ key ∈ keys, fieldValue key
      (text [.lit "note=would redeem+commit under the activation slice (not here)"]) = none :=
    fun key hkey => fieldValue_unread hkey (b := 0x6e) rfl (.inr (.inr rfl))
  have hother : fieldValue (.lit "resource") (text [.lit "plan_hash=", hex]) = none :=
    fieldValue_other (b := 0x72) (c := 0x70) rfl rfl (by decide)
  have hother' : fieldValue (.lit "plan_hash") (text [.lit "resource=", resource]) = none :=
    fieldValue_other (b := 0x70) (c := 0x72) rfl rfl (by decide)
  have hvalue : fieldValue (.lit "resource") (text [.lit "resource=", resource]) =
      some resource.bytes := fieldValue_text (by decide) resource
  have hvalue' : fieldValue (.lit "plan_hash") (text [.lit "plan_hash=", hex]) =
      some hex.bytes := fieldValue_text (by decide) hex
  rw [fieldValues_stream _ hlines, fieldValues_stream _ hlines]
  simp only [emitPlan, List.filterMap_cons, List.filterMap_nil, hvalue, hvalue', hother, hother',
    hhead _ (by decide : CStr.lit "resource" ∈ keys),
    hnote _ (by decide : CStr.lit "resource" ∈ keys),
    hhead _ (by decide : CStr.lit "plan_hash" ∈ keys),
    hnote _ (by decide : CStr.lit "plan_hash" ∈ keys), and_self]

theorem fieldValues_unread {key : CStr} (hkey : key ∈ keys) {items : List (List UInt8)}
    (h : ∀ item ∈ items, newline ∉ item ∧
      ∃ b, item.head? = some b ∧ (b = 0x76 ∨ b = 0x73 ∨ b = 0x6e)) :
    fieldValues key (stream items) = [] := by
  rw [fieldValues_stream _ fun item hitem => (h item hitem).1, List.filterMap_eq_nil_iff]
  intro item hitem
  obtain ⟨-, b, hhead, hb⟩ := h item hitem
  exact fieldValue_unread hkey hhead hb

section Reading

variable {E : Evp} {h : AptHost} {c : PlanCall} {sheet : Sheet} {targets : List CStr}

/-- Nothing is read off a sheet that is no plan. -/
theorem Shows.silent (hs : Shows E c sheet) (hline : OneLinePlan c) (hexit : sheet.exit ≠ .ok)
    {key : CStr} (hkey : key ∈ keys) : fieldValues key (stream sheet.out) = [] := by
  have hhead : newline ∉ headline c ∧
      ∃ b, (headline c).head? = some b ∧ (b = 0x76 ∨ b = 0x73 ∨ b = 0x6e) :=
    ⟨newline_notMem_headline hline.verb, _, headline_head c, .inl rfl⟩
  refine fieldValues_unread hkey ?_
  cases hs with
  | noop hverdict =>
    refine List.forall_mem_cons.mpr ⟨hhead, List.forall_mem_singleton.mpr ?_⟩
    exact ⟨newline_notMem_text (by decide), 0x73, rfl, .inr (.inl rfl)⟩
  | @refused result offender hrefusal hverdict =>
    refine List.forall_mem_cons.mpr ⟨hhead, List.forall_mem_singleton.mpr ?_⟩
    refine ⟨newline_notMem_text fun s hs => ?_, 0x73, rfl, .inr (.inl rfl)⟩
    simp only [List.mem_cons, List.not_mem_nil, or_false] at hs
    rcases hs with rfl | rfl | rfl | rfl
    · decide
    · exact reason_oneLine result
    · decide
    · exact hline.offender result offender hrefusal
  | failed hverdict => exact List.forall_mem_singleton.mpr hhead
  | ok hresource hdigest hverdict => exact absurd rfl hexit

/-- The driver reads a plan exactly where the receipt would be spent, and that one. -/
theorem Shows.issues_iff (hs : Shows E c sheet) (hline : OneLinePlan c) {r x : CStr} :
    Issues sheet r x ↔ c.verdict E = .spend c.verb r x := by
  by_cases hexit : sheet.exit = .ok
  · cases hs with
    | noop hverdict | refused hrefusal hverdict | failed hverdict => cases hexit
    | @ok resource d hresource hdigest hverdict =>
      obtain ⟨hread, hread'⟩ := fieldValues_emitPlan hline.verb (hline.resource _ hresource)
        (newline_notMem_hex hdigest)
      rw [hverdict]
      constructor
      · intro hissues
        have hr := hread.symm.trans hissues.resource
        have hx := hread'.symm.trans hissues.planHash
        rw [CStr.ext (List.cons.inj hr).1, CStr.ext (List.cons.inj hx).1]
      · intro hspend
        obtain ⟨-, rfl, rfl⟩ := Verdict.spend.inj hspend
        exact ⟨rfl, hread, hread'⟩
  · refine iff_of_false (fun hissues => hexit hissues.exit) fun hspend => ?_
    cases hs with
    | noop hverdict | refused hrefusal hverdict | failed hverdict =>
      rw [hverdict] at hspend
      cases hspend
    | ok hresource hdigest hverdict => exact hexit rfl

end Reading

end Pkgexec.Oracle
