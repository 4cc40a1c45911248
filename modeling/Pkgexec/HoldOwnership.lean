import Pkgexec.EffectDiscipline
import Pkgexec.OwnershipGrammar
import Pkgexec.RequestSchema

/-!
# Ownership in hold and unhold

The ownership predicate sees the target as it was spelled. A target that names an architecture
is outside the predicate's alphabet, so an owned package is refused only where one of the
owned targets that change is spelled plainly.
-/

namespace Pkgexec.Apt
open CStrings JsonValues PlanDigest Policy Redeem Plan Request Effect Spawn

/-- What libapt promises of `FindPkg`: a name, with or without an architecture, finds a package
of that name. -/
structure FindsByName (cache : PkgCache) : Prop where
  plain : ∀ (name : CStr) (P : Pkg), colon ∉ name.bytes → cache.findPkg name = some P →
    P.name = name
  qualified : ∀ (name target : CStr) (arch : List UInt8) (P : Pkg), colon ∉ name.bytes →
    target.bytes = name.bytes ++ colon :: arch → cache.findPkg target = some P → P.name = name

/-- A target that resolves to a rapt-owned package whose selection would change. -/
def OwnedChange (cache : PkgCache) (hold : Bool) (target : CStr) : Prop :=
  ∃ P, cache.findPkg target = some P ∧ pkgxIsRaptOwned P.name = true ∧
    selectionWord P.selectedState ≠ toState hold

/-- The plan step of the hold effector on its records, from the empty log. -/
def holdPlanStep (J : Jansson) (E : Evp) (h : AptHost) (g : Grant) (outCid : OutCid)
    (verb : CStr) (targets : List CStr) (recs : List HoldRecord) : PlanOut × Log :=
  (pkgxPlanAndRedeemHold J E g h.tx outCid (some verb) recs (targets.map some)).run []

/-- If an owned target would change, the plan step refuses it without calling the transport,
and the effector neither calls the transport nor writes anything to dpkg. -/
def OwnershipEnforced (J : Jansson) (E : Evp) (h : AptHost) (g : Grant) (outCid : OutCid)
    (cache : PkgCache) (verb : CStr) (targets : List CStr) (recs : List HoldRecord) : Prop :=
  (∃ t ∈ targets, OwnedChange cache (verb = .lit "apt.hold") t) →
    (holdPlanStep J E h g outCid verb targets recs).1.result = .notOwned ∧
      (holdPlanStep J E h g outCid verb targets recs).2 = [] ∧
      ((Effector.hold verb targets).run J E h g outCid).2 = []

section Ownership

variable {J : Jansson} {E : Evp} {h : AptHost} {g : Grant} {outCid : OutCid} {cache : PkgCache}
  {verb : CStr} {targets : List CStr} {changes : List PkgxHoldHolder} {recs : List HoldRecord}

/-- The predicate refuses every name with a colon in it. -/
theorem plain_of_owned {name : CStr} (h : pkgxIsRaptOwned name = true) : colon ∉ name.bytes := by
  intro hcolon
  rw [not_owned_of_mem (by decide) hcolon] at h
  cases h

/-- The verdict is an ownership refusal exactly if some record is named like an owned
package. -/
theorem holdVerdict_notOwned_iff :
    (∃ detail, (PlanCall.hold (some verb) recs (targets.map some)).verdict E =
      .settled .notOwned detail) ↔
      ∃ r ∈ recs, pkgxIsRaptOwned (orEmpty r.package) = true := by
  cases hfind : recs.find? fun r => pkgxIsRaptOwned (orEmpty r.package) with
  | none =>
    refine iff_of_false ?_ ?_
    · rintro ⟨detail, hv⟩
      have hpass : (PlanCall.hold (some verb) recs (targets.map some)).refusal = none := by
        rw [PlanCall.refusal, hfind]
        rfl
      rw [PlanCall.verdict, hpass] at hv
      cases he : (PlanCall.hold (some verb) recs (targets.map some)).isEmpty <;>
        cases hr : (PlanCall.hold (some verb) recs (targets.map some)).resource <;>
        cases hd : (PlanCall.hold (some verb) recs (targets.map some)).digest E <;>
        simp [he, hr, hd] at hv
    · simpa using hfind
  | some r =>
    have hmem := List.mem_of_find?_eq_some hfind
    have howned := List.find?_some hfind
    refine iff_of_true ⟨r.package, ?_⟩ ⟨r, hmem, howned⟩
    have hne : (PlanCall.hold (some verb) recs (targets.map some)).isEmpty = false := by
      rw [PlanCall.isEmpty, List.isEmpty_eq_false_iff]
      exact List.ne_nil_of_mem hmem
    have hrefusal : (PlanCall.hold (some verb) recs (targets.map some)).refusal =
        some (.notOwned, r.package) := by
      rw [PlanCall.refusal, hfind]
      rfl
    rw [PlanCall.verdict, hne, hrefusal]
    rfl

/-- The hold plan step refuses for ownership exactly if a changing target is spelled like an
owned package. -/
theorem holdPlanStep_notOwned_iff
    (hmap : pkgxAptMapHold cache targets (verb = .lit "apt.hold") = .ok (changes, recs)) :
    (holdPlanStep J E h g outCid verb targets recs).1.result = .notOwned ↔
      ∃ t ∈ targets, Changes cache (verb = .lit "apt.hold") t ∧ pkgxIsRaptOwned t = true := by
  obtain ⟨hrecs, hpackages⟩ := pkgxAptMapHold_ok hmap
  have hstep : (holdPlanStep J E h g outCid verb targets recs).1.result = .notOwned ↔ _ :=
    PlanCall.result_eq_iff (c := .hold (some verb) recs (targets.map some)) (by simp) (by simp)
  rw [hstep, holdVerdict_notOwned_iff, hrecs]
  constructor
  · rintro ⟨r, hr, howned⟩
    obtain ⟨change, hchange, rfl⟩ := List.mem_map.mp hr
    obtain ⟨ht, hc⟩ := (hpackages change.package).mp (List.mem_map_of_mem hchange)
    exact ⟨change.package, ht, hc, howned⟩
  · rintro ⟨t, ht, hc, howned⟩
    obtain ⟨change, hchange, rfl⟩ := List.mem_map.mp ((hpackages t).mpr ⟨ht, hc⟩)
    exact ⟨change.record, List.mem_map_of_mem hchange, howned⟩

/-- A refused plan leaves the log of the plan step and of the effector empty. -/
theorem logs_empty_of_notOwned (hcache : h.cache.pkgCache = some cache)
    (hmap : pkgxAptMapHold cache targets (verb = .lit "apt.hold") = .ok (changes, recs))
    (hresult : (holdPlanStep J E h g outCid verb targets recs).1.result = .notOwned) :
    (holdPlanStep J E h g outCid verb targets recs).2 = [] ∧
      ((Effector.hold verb targets).run J E h g outCid).2 = [] := by
  obtain ⟨detail, hv⟩ : ∃ detail, (PlanCall.hold (some verb) recs (targets.map some)).verdict E =
      .settled .notOwned detail :=
    (PlanCall.result_eq_iff (by simp) (by simp)).mp hresult
  constructor
  · have hstep : holdPlanStep J E h g outCid verb targets recs =
        (⟨.notOwned, outCid, detail, none⟩, []) :=
      congrArg (fun m => StateT.run (m := Id) m []) (PlanCall.run_settled hv)
    rw [hstep]
  · show ((effect J E h g outCid (prepareHold h verb targets)).run []).2 = []
    cases hp : prepareHold h verb targets with
    | error e => rfl
    | ok p =>
      obtain ⟨call, M⟩ := p
      have hcall : call = .hold (some verb) recs (targets.map some) := by
        obtain ⟨cache', changes', recs', hcache', hmap', hcall, -⟩ := Effector.prepareHold_ok hp
        obtain rfl : cache = cache' := Option.some.inj (hcache.symm.trans hcache')
        rw [hmap] at hmap'
        obtain ⟨rfl, rfl⟩ := Prod.mk.inj (Except.ok.inj hmap')
        exact hcall
      obtain ⟨status, -, hrun⟩ := planAndCommit_settled (J := J) (h := h) (g := g)
        (hcall ▸ hv) (pkgxCidEcho outCid (some g.expectedCid)) M
      show ((planAndCommit J E h g (pkgxCidEcho outCid (some g.expectedCid)) call M).run []).2 = []
      rw [hrun]
      rfl

/-- Ownership is enforced exactly where every request that would change an owned package also
spells one of the owned packages it changes plainly. -/
theorem hold_ownership_enforced_iff (hfind : FindsByName cache)
    (hcache : h.cache.pkgCache = some cache)
    (hmap : pkgxAptMapHold cache targets (verb = .lit "apt.hold") = .ok (changes, recs)) :
    OwnershipEnforced J E h g outCid cache verb targets recs ↔
      ((∃ t ∈ targets, OwnedChange cache (verb = .lit "apt.hold") t) →
        ∃ t ∈ targets, OwnedChange cache (verb = .lit "apt.hold") t ∧ colon ∉ t.bytes) := by
  have hplain : (∃ t ∈ targets, Changes cache (verb = .lit "apt.hold") t ∧
      pkgxIsRaptOwned t = true) ↔
      ∃ t ∈ targets, OwnedChange cache (verb = .lit "apt.hold") t ∧ colon ∉ t.bytes := by
    constructor
    · rintro ⟨t, ht, ⟨P, hP, hc⟩, howned⟩
      have hcolon := plain_of_owned howned
      exact ⟨t, ht, ⟨P, hP, (hfind.plain t P hcolon hP).symm ▸ howned, hc⟩, hcolon⟩
    · rintro ⟨t, ht, ⟨P, hP, howned, hc⟩, hcolon⟩
      exact ⟨t, ht, ⟨P, hP, hc⟩, hfind.plain t P hcolon hP ▸ howned⟩
  constructor
  · intro henforced hchange
    obtain ⟨hresult, -⟩ := henforced hchange
    exact hplain.mp ((holdPlanStep_notOwned_iff hmap).mp hresult)
  · intro hspelled hchange
    have hresult : (holdPlanStep J E h g outCid verb targets recs).1.result = .notOwned :=
      (holdPlanStep_notOwned_iff hmap).mpr (hplain.mpr (hspelled hchange))
    exact ⟨hresult, logs_empty_of_notOwned hcache hmap hresult⟩

end Ownership

theorem cacheOf_findPkg {packages : List Pkg} {target : CStr} {P : Pkg}
    (h : (cacheOf packages).findPkg target = some P) : P ∈ packages ∧
      (target.bytes = P.name.bytes ∨ target.bytes = P.name.bytes ++ colon :: P.arch.bytes) := by
  have hfound : packages.find? (fun P =>
    target.bytes = P.name.bytes ∨
      target.bytes = P.name.bytes ++ colon :: P.arch.bytes) = some P := h
  have hspelled := List.find?_some hfound
  exact ⟨List.mem_of_find?_eq_some hfound, of_decide_eq_true hspelled⟩

theorem cacheOf_findsByName {packages : List Pkg} (h : ∀ P ∈ packages, colon ∉ P.name.bytes) :
    FindsByName (cacheOf packages) where
  plain := by
    intro name P hname hfind
    obtain ⟨-, hb | hb⟩ := cacheOf_findPkg hfind
    · exact CStr.ext hb.symm
    · rw [hb] at hname
      exact absurd (by simp) hname
  qualified := by
    intro name target arch P hname htarget hfind
    obtain ⟨hmem, hb | hb⟩ := cacheOf_findPkg hfind
    · have hP := h P hmem
      rw [← hb, htarget] at hP
      exact absurd (by simp) hP
    · rw [htarget] at hb
      exact CStr.ext (DelimitedLists.append_cons_inj hname (h P hmem) hb).1.symm

def rBaseCache : PkgCache := cacheOf [installedPkg (.lit "r-base-core")]

theorem rBaseCache_findsByName : FindsByName rBaseCache := by
  apply cacheOf_findsByName
  decide

def rBaseHost : AptHost := willingHost rBaseCache rBaseCache

/-- The change records of a hold of `r-base-core` under the given spelling. -/
def rBaseChange (target : CStr) : PkgxHoldHolder := ⟨target, .lit "install", .lit "hold", true⟩

/-- Spelled plainly, the owned package is refused. -/
theorem hold_ownership_enforced_plain :
    OwnershipEnforced replyJansson holdNginxEvp rBaseHost holdGrant (.zero _) rBaseCache
      (.lit "apt.hold") [.lit "r-base-core"] [(rBaseChange (.lit "r-base-core")).record] :=
  (hold_ownership_enforced_iff rBaseCache_findsByName rfl rfl).mpr fun _ =>
    ⟨.lit "r-base-core", by simp, ⟨installedPkg (.lit "r-base-core"), rfl, by decide, by decide⟩,
      by decide⟩

def rBaseTarget : CStr := .lit "r-base-core:amd64"

/-- The request body of a hold of `r-base-core:amd64`. -/
def rBaseRequest : Json :=
  .object [(.lit "effect_receipt", .string (CStr.lit "0123456789abcdef0123456789abcdef").bytes),
    (.lit "correlation_id", .string brokerCid.bytes),
    (.lit "plan_schema", .integer 1),
    (.lit "packages", .array [.string rBaseTarget.bytes]),
    (.lit "lock_timeout", .integer 30)]

theorem rBaseRequest_clean : rBaseRequest.Clean :=
  clean_requestMembers (clean_jsonNames [rBaseTarget])

def rBaseJansson : Jansson :=
  janssonTable [(redeemedReply.compact, redeemedReply), (rBaseRequest.compact, rBaseRequest)]
    (by simpa using ⟨redeemedReply_clean, rBaseRequest_clean⟩)

def rBaseEvp : Evp :=
  .table [((CStr.lit "1\x1eapt.hold\x1er-base-core:amd64\x1finstall\x1fhold").bytes,
    ⟨[220, 143, 125, 156, 176, 212, 120, 102, 204, 188, 155, 152, 150, 125, 251, 165, 169, 3, 203,
      23, 70, 182, 204, 58, 47, 32, 142, 142, 184, 88, 3, 255], rfl⟩)]

set_option maxRecDepth 4000 in
theorem rBaseRequest_accepted :
    ∃ req, pkgxParseRequest rBaseJansson (.lit "apt.hold") rBaseRequest.compact = .ok req ∧
      req.packages = some [rBaseTarget] := by
  have hpackages : ((pkgxParseRequest rBaseJansson (.lit "apt.hold")
      rBaseRequest.compact).toOption.bind PkgxRequest.packages) = some [rBaseTarget] := rfl
  cases hparse : pkgxParseRequest rBaseJansson (.lit "apt.hold") rBaseRequest.compact with
  | error e => simp [hparse, Except.toOption] at hpackages
  | ok req => exact ⟨req, rfl, by simpa [hparse, Except.toOption] using hpackages⟩

/-- Spelled with its architecture, the same package is changed: the request is accepted, the
map succeeds, the receipt is spent and the selection is written. -/
theorem hold_ownership_bypassed :
    (∃ req, pkgxParseRequest rBaseJansson (.lit "apt.hold") rBaseRequest.compact = .ok req ∧
      req.packages = some [rBaseTarget]) ∧
    FindsByName rBaseCache ∧
    pkgxAptMapHold rBaseCache [rBaseTarget] true =
      .ok ([rBaseChange rBaseTarget], [(rBaseChange rBaseTarget).record]) ∧
    ¬ OwnershipEnforced rBaseJansson rBaseEvp rBaseHost holdGrant (.zero _) rBaseCache
      (.lit "apt.hold") [rBaseTarget] [(rBaseChange rBaseTarget).record] ∧
    Event.child (.wrote (CStr.lit "r-base-core:amd64 hold\n").bytes) ∈
      ((Effector.hold (.lit "apt.hold") [rBaseTarget]).run rBaseJansson rBaseEvp rBaseHost
        holdGrant (.zero _)).2 := by
  refine ⟨rBaseRequest_accepted, rBaseCache_findsByName, rfl, ?_, ?_⟩
  · intro henforced
    have howned : OwnedChange rBaseCache ((CStr.lit "apt.hold" : CStr) = .lit "apt.hold")
        rBaseTarget := ⟨installedPkg (.lit "r-base-core"), rfl, by decide, by decide⟩
    obtain ⟨hresult, -⟩ := henforced ⟨rBaseTarget, by simp, howned⟩
    have hok : (holdPlanStep rBaseJansson rBaseEvp rBaseHost holdGrant (.zero _)
      (.lit "apt.hold") [rBaseTarget] [(rBaseChange rBaseTarget).record]).1.result = .ok := rfl
    rw [hok] at hresult
    cases hresult
  · have hlog : ((Effector.hold (.lit "apt.hold") [rBaseTarget]).run rBaseJansson rBaseEvp
        rBaseHost holdGrant (.zero _)).2[4]? =
          some (.child (.wrote (CStr.lit "r-base-core:amd64 hold\n").bytes)) := rfl
    exact List.mem_of_getElem? hlog

end Pkgexec.Apt
