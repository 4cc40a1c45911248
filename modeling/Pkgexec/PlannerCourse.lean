import Pkgexec.EffectDiagnostic
import Pkgexec.LockedPlanner
import Pkgexec.PreviewAgreement

/-!
# The locked planner follows the effector

Whatever the cache is, the planner prints the sheet of the plan that the effector of the verb
prepares on the same host, and where the effector prepares none, it stops as that one does.
-/

namespace Pkgexec.Oracle
open CStrings DecimalNumerals DelimitedLists JsonValues PlanDigest Policy Redeem Plan Request Apt

def count : PlanCall → ℕ
  | .txn _ recs _ => recs.length
  | .update srcs _ => srcs.length
  | .hold _ holds _ => holds.length
  | .configure cfgs => cfgs.length

theorem count_eq_zero_iff {c : PlanCall} : count c = 0 ↔ c.isEmpty = true := by
  cases c <;> simp [count, PlanCall.isEmpty]

/-- The reason a refusal is printed with. -/
def reason : PlanResult → CStr
  | .notOwned => .lit "not_owned"
  | .held => .lit "held"
  | .isProtected => .lit "protected"
  | _ => .empty

def reasonText (r : PlanResult × Option CStr) : CStr × Option CStr := (reason r.1, r.2)

theorem policyReason_eq (verb : Option CStr) (recs : List TxnRecord)
    (targets : List (Option CStr)) :
    policyReason recs = (PlanCall.txn verb recs targets).refusal.map reasonText := by
  rw [policyReason, PlanCall.refusal]
  cases pkgxPolicyCheck recs with
  | mk result offender => cases result <;> rfl

theorem ownedReason_hold (verb : Option CStr) (changes : List PkgxHoldHolder)
    (targets : List (Option CStr)) :
    ownedReason (changes.map (·.package)) =
      (PlanCall.hold verb (changes.map PkgxHoldHolder.record) targets).refusal.map reasonText := by
  rw [ownedReason, PlanCall.refusal, List.find?_map, List.find?_map]
  simp only [Option.map_map]
  rfl

theorem ownedReason_configure (holders : List PkgxCfgHolder) :
    ownedReason (holders.map (·.package)) =
      (PlanCall.configure (holders.map PkgxCfgHolder.record)).refusal.map reasonText := by
  rw [ownedReason, PlanCall.refusal, List.find?_map, List.find?_map]
  simp only [Option.map_map]
  rfl

def headline (c : PlanCall) : List UInt8 :=
  text [.lit "verb=", c.verb, .lit " resolved_records=", .ofMem (numeral (count c))]

/-- What is printed for a plan, beside its verdict. -/
inductive Shows (E : Evp) (c : PlanCall) : Sheet → Prop where
  | noop {detail : Option CStr} (hverdict : c.verdict E = .settled .noOp detail) :
    Shows E c ⟨[headline c, text [.lit "status=noop"]], [], .noop⟩
  | refused {result : PlanResult} {offender : Option CStr}
    (hrefusal : c.refusal = some (result, offender))
    (hverdict : c.verdict E = .settled result offender) :
    Shows E c ⟨[headline c, text [.lit "status=refused reason=", reason result,
      .lit " offender=", orEmpty offender]], [], .refused⟩
  | failed {message : List CStr} {detail : Option CStr}
    (hverdict : c.verdict E = .settled .internal detail) :
    Shows E c ⟨[headline c], [text message], .internal⟩
  | ok {resource : CStr} {d : Digest} (hresource : c.resource = some resource)
    (hdigest : c.digest E = some d)
    (hverdict : c.verdict E = .spend c.verb resource d.hex) :
    Shows E c ⟨headline c :: emitPlan resource d.hex, [], .ok⟩

/-- The sheet of a plan. -/
def planSheet (E : Evp) (c : PlanCall) : Sheet :=
  planRecords c.verb (count c) (c.refusal.map reasonText) c.resource (c.digest E)

theorem planSheet_shows (E : Evp) (c : PlanCall) : Shows E c (planSheet E c) := by
  have hverdict : c.verdict E = c.verdict E := rfl
  conv at hverdict => rhs; rw [PlanCall.verdict]
  simp only [planSheet, planRecords]
  by_cases hempty : c.isEmpty = true
  · rw [if_pos (count_eq_zero_iff.mpr hempty)]
    rw [if_pos hempty] at hverdict
    exact .noop hverdict
  rw [if_neg fun h => hempty (count_eq_zero_iff.mp h)]
  rw [if_neg hempty] at hverdict
  cases hrefusal : c.refusal with
  | some refusal =>
    rw [hrefusal] at hverdict
    exact .refused hrefusal hverdict
  | none =>
    rw [hrefusal] at hverdict
    cases hresource : c.resource with
    | none =>
      rw [hresource] at hverdict
      exact .failed hverdict
    | some resource =>
      rw [hresource] at hverdict
      cases hdigest : c.digest E with
      | none =>
        rw [hdigest] at hverdict
        exact .failed hverdict
      | some d =>
        rw [hdigest] at hverdict
        exact .ok hresource hdigest hverdict

/-- What is printed where the effector prepares a plan, and where it stops before. -/
inductive Follows (E : Evp) (h : AptHost) : Sheet → Except Exit PlanCall → Prop where
  | planned {sheet : Sheet} {call : PlanCall} (hshows : Shows E call sheet) :
    Follows E h sheet (.ok call)
  | failed {message : List CStr} {e : Exit}
    (hstatus : e.status = .internal ∨ e.status = .locked ∨ e.status = .resolveFailed) :
    Follows E h (fails .internal message) (.error e)
  | broken {name : CStr} {e : Exit} (hstatus : e.status = .broken)
    (hname : ∃ c P, h.cache.pkgCache = some c ∧ P ∈ c.packages ∧ P.name = name) :
    Follows E h ⟨[text [.lit "verb=apt.configure status=refused reason=broken offender=", name]],
      [], .refused⟩ (.error e)

section Follows

variable {E : Evp} {h : AptHost} {verb : CStr} {targets : List CStr}

/-- The loop fails on a target it does not find. -/
theorem markTargets_status {c : PkgCache} {removal purge : Bool} {marks : List Mark} {e : Exit}
    (herr : markTargets c removal purge marks targets = .error e) : e.status = .resolveFailed := by
  induction targets generalizing marks with
  | nil => cases herr
  | cons target targets ih =>
    rw [markTargets] at herr
    cases hfind : c.findPkg target with
    | none =>
      rw [hfind] at herr
      cases herr
      rfl
    | some P =>
      rw [hfind] at herr
      exact ih herr

/-- The two resolves succeed together. -/
theorem resolvePlan_eq (h : AptHost) (verb : CStr) (targets : List CStr) (c : PkgCache) :
    (∃ dc, resolvePlan h verb targets c = .ok dc ∧ resolveTxn h verb targets c = .ok dc) ∨
      ∃ message e, resolvePlan h verb targets c = .error message ∧
        resolveTxn h verb targets c = .error e ∧ e.status = .resolveFailed := by
  rw [resolvePlan, resolveTxn]
  split
  · cases h.upgrade _ with
    | none => exact .inr ⟨_, _, rfl, rfl, rfl⟩
    | some dc => exact .inl ⟨dc, rfl, rfl⟩
  · cases hmarks : markTargets c (verb = .lit "apt.remove" ∨ verb = .lit "apt.purge")
        (verb = .lit "apt.purge") [] targets with
    | error e => exact .inr ⟨_, e, rfl, rfl, markTargets_status hmarks⟩
    | ok marks =>
      cases hdc : h.resolve marks with
      | none =>
        refine .inr ⟨[.lit "resolve failed"], .mk .resolveFailed (some (.lit "resolve")), ?_, ?_,
          rfl⟩
        · simp only [Except.mapError, bind, Except.bind, hdc]
          rfl
        · simp only [bind, Except.bind, hdc]
          rfl
      | some dc =>
        refine .inl ⟨dc, ?_, ?_⟩
        · simp only [Except.mapError, bind, Except.bind, hdc]
          rfl
        · simp only [bind, Except.bind, hdc]
          rfl

/-- libapt is initialised, the lock is taken and the cache opens under it. -/
structure Opened (h : AptHost) : Prop where
  config : h.initConfig = true
  system : h.initSystem = true
  lock : h.lock = true
  cache : h.cache.opens = true

theorem Opened.init (ho : Opened h) : pkgxAptInit h = .ok () := by
  simp [pkgxAptInit, require, ho.config, ho.system, bind, Except.bind]

theorem planTxn_follows (ho : Opened h)
    (harity : ¬ ((verb = .lit "apt.upgrade" ∨ verb = .lit "apt.dist_upgrade") ∧
      targets.length ≠ 0)) :
    Follows E h (planTxn E h verb targets) ((Effector.txn verb targets).planned E h) := by
  rw [Effector.planned, prepareTxn, ho.init, ho.lock, ho.cache, planTxn]
  simp only [harity, decide_false, Bool.not_false, require, present, bind, Except.bind, if_true]
  cases hc : h.cache.pkgCache with
  | none => exact .failed (.inl rfl)
  | some c =>
    cases hdc : h.cache.depCache with
    | none => exact .failed (.inl rfl)
    | some dc₀ =>
      rcases resolvePlan_eq h verb targets c with ⟨dc, hplan, htxn⟩ |
        ⟨message, e, hplan, htxn, hstatus⟩
      · simp only [hplan, htxn, Option.isSome_some, if_true]
        rw [policyReason_eq (some verb) _ (targets.map some)]
        exact .planned
          (planSheet_shows E (.txn (some verb) (pkgxAptMapTxn c dc) (targets.map some)))
      · simp only [hplan, htxn, Option.isSome_some, if_true]
        exact .failed (.inr (.inr hstatus))

theorem planUpdate_follows (hinit : pkgxAptInit h = .ok ()) (hlists : h.listsLock = true) :
    Follows E h (planUpdate E h) ((Effector.update (some (.lit ""))).planned E h) := by
  have hempty : orEmpty (some (.lit "")) = .empty := rfl
  rw [Effector.planned, prepareUpdate, hinit, hlists, hempty, planUpdate]
  simp only [decide_true, require, present, bind, Except.bind, if_true]
  cases hsources : h.sources with
  | none => exact .failed (.inl rfl)
  | some list =>
    exact .planned (planSheet_shows E (.update (pkgxAptMapSources E list) (some (.lit ""))))

theorem planHold_follows (ho : Opened h) :
    Follows E h (planHold E h verb targets) ((Effector.hold verb targets).planned E h) := by
  rw [Effector.planned, prepareHold, ho.init, ho.lock, ho.cache, planHold]
  simp only [require, present, bind, Except.bind, if_true]
  cases hc : h.cache.pkgCache with
  | none => exact .failed (.inl rfl)
  | some c =>
    have hmap := Preview.pkgxAptMapHold_map c targets (verb = .lit "apt.hold")
    dsimp only
    cases hr : pkgxAptMapHold c targets (verb = .lit "apt.hold") with
    | error f => exact .failed (.inr (.inr rfl))
    | ok p =>
      rw [hr] at hmap
      obtain ⟨changes, holds⟩ := p
      obtain rfl : changes.map PkgxHoldHolder.record = holds := (Prod.mk.inj (Except.ok.inj hmap)).2
      dsimp only
      rw [ownedReason_hold (some verb) changes (targets.map some)]
      have hshows := planSheet_shows E
        (.hold (some verb) (changes.map PkgxHoldHolder.record) (targets.map some))
      rw [planSheet, count, List.length_map] at hshows
      exact .planned hshows

/-- A failed map names a package of the cache. -/
theorem mapConfigureLoop_name {packages : List Pkg} {done : List PkgxCfgHolder} {name : CStr}
    (hmap : mapConfigureLoop done packages = .error name) : ∃ P ∈ packages, P.name = name := by
  induction packages generalizing done with
  | nil => cases hmap
  | cons P packages ih =>
    have hrest : ∀ {done}, mapConfigureLoop done packages = .error name →
        ∃ Q ∈ P :: packages, Q.name = name := by
      intro done hmap
      obtain ⟨Q, hQ, hname⟩ := ih hmap
      exact ⟨Q, List.mem_cons_of_mem P hQ, hname⟩
    rw [mapConfigureLoop] at hmap
    split at hmap
    · exact ⟨P, List.mem_cons_self, Except.error.inj hmap⟩
    · split at hmap
      · exact hrest hmap
      · exact hrest hmap

theorem pkgxAptMapConfigure_name {c : PkgCache} {name : CStr}
    (hmap : pkgxAptMapConfigure c = .error name) : ∃ P ∈ c.packages, P.name = name := by
  rw [pkgxAptMapConfigure] at hmap
  cases hloop : mapConfigureLoop [] c.packages with
  | error name' =>
    rw [hloop] at hmap
    exact mapConfigureLoop_name (hloop.trans (congrArg Except.error (Except.error.inj hmap)))
  | ok holders =>
    rw [hloop] at hmap
    cases hmap

theorem planConfigure_follows (ho : Opened h) :
    Follows E h (planConfigure E h) (Effector.configure.planned E h) := by
  rw [Effector.planned, prepareConfigure, ho.init, ho.lock, ho.cache, planConfigure]
  simp only [require, present, bind, Except.bind, if_true]
  cases hc : h.cache.pkgCache with
  | none => exact .failed (.inl rfl)
  | some c =>
    have hmap := Preview.pkgxAptMapConfigure_map c
    dsimp only
    cases hr : pkgxAptMapConfigure c with
    | error name =>
      obtain ⟨P, hP, hname⟩ := pkgxAptMapConfigure_name hr
      exact .broken rfl ⟨c, P, hc, hP, hname⟩
    | ok p =>
      rw [hr] at hmap
      obtain ⟨holders, cfgs⟩ := p
      obtain rfl : holders.map PkgxCfgHolder.record = cfgs := (Prod.mk.inj (Except.ok.inj hmap)).2
      dsimp only
      rw [ownedReason_configure holders]
      exact .planned (planSheet_shows E (.configure (holders.map PkgxCfgHolder.record)))

/-- The arity of a verb allows that many packages. -/
def Allows (verb : CStr) (n : ℕ) : Prop :=
  ∃ arity, verbArity verb = some arity ∧ (arity = .none ↔ n = 0)

/-- The table is the arity of the requests. -/
theorem find_spec (verb : CStr) : specs.find? (fun s => verb = s.verb) =
    (verbArity verb).map fun arity => ⟨verb, arity = .onePlus⟩ := by
  by_cases hmem : ∃ s ∈ specs, verb = s.verb
  · obtain ⟨s, hs, rfl⟩ := hmem
    simp only [specs, List.mem_cons, List.not_mem_nil, or_false] at hs
    rcases hs with rfl | rfl | rfl | rfl | rfl | rfl | rfl | rfl | rfl <;> rfl
  · have hnone : specs.find? (fun s => verb = s.verb) = none := by
      simpa [List.find?_eq_none] using hmem
    simp only [specs, List.mem_cons, List.not_mem_nil, or_false, exists_eq_or_imp,
      exists_eq_left, not_or] at hmem
    obtain ⟨hinstall, hremove, hpurge, hupgrade, hdist, hupdate, hhold, hunhold, hconfigure⟩ := hmem
    rw [hnone, verbArity, if_neg, if_neg]
    · rfl
    · simp [hinstall, hremove, hpurge, hhold, hunhold]
    · simp [hupdate, hconfigure, hupgrade, hdist]

/-- The planner takes the verbs of the requests, with the same number of packages. -/
theorem checkVerbArity_ok_iff {n : ℕ} : checkVerbArity verb n = .ok () ↔ Allows verb n := by
  rw [checkVerbArity, find_spec, Allows]
  cases verbArity verb with
  | none => simp
  | some arity => cases arity <;> by_cases hn : n = 0 <;> simp [hn]

/-- Without libapt no effector prepares a plan. -/
theorem planned_uninitialised {e : Exit} (hinit : pkgxAptInit h = .error e) (f : Effector) :
    f.planned E h = .error e := by
  cases f <;>
    simp only [Effector.planned, prepareTxn, prepareUpdate, prepareHold, prepareConfigure, hinit,
      bind, Except.bind, Except.map]

theorem pkgxAptInit_error (hinit : (!h.initConfig || !h.initSystem) = true) :
    ∃ e, pkgxAptInit h = .error e ∧ e.status = .internal := by
  rw [pkgxAptInit]
  cases hconfig : h.initConfig with
  | false => exact ⟨_, rfl, rfl⟩
  | true =>
    rw [hconfig] at hinit
    have hsystem : h.initSystem = false := by simpa using hinit
    rw [hsystem]
    exact ⟨_, rfl, rfl⟩

/-- Without the lock or the cache an effector that needs them prepares no plan. -/
theorem planned_unopened (hinit : pkgxAptInit h = .ok ())
    (hopen : (h.lock && h.cache.opens) = false) {f : Effector}
    (hf : ∀ token, f ≠ .update token) : ∃ e, f.planned E h = .error e ∧
      (e.status = .internal ∨ e.status = .locked ∨ e.status = .resolveFailed) := by
  have hstop : (h.lock = false) ∨ (h.lock = true ∧ h.cache.opens = false) := by
    cases hlock : h.lock
    · exact .inl rfl
    · exact .inr ⟨rfl, by simpa [hlock] using hopen⟩
  cases f with
  | update token => exact absurd rfl (hf token)
  | txn verb targets =>
    simp only [Effector.planned, prepareTxn, hinit, require, bind, Except.bind]
    cases (!decide ((verb = .lit "apt.upgrade" ∨ verb = .lit "apt.dist_upgrade") ∧
        targets.length ≠ 0)) with
    | false => exact ⟨_, rfl, .inr (.inr rfl)⟩
    | true =>
      rcases hstop with hlock | ⟨hlock, hopens⟩
      · rw [hlock]
        exact ⟨_, rfl, .inr (.inl rfl)⟩
      · rw [hlock, hopens]
        exact ⟨_, rfl, .inl rfl⟩
  | hold verb targets =>
    simp only [Effector.planned, prepareHold, hinit, require, bind, Except.bind]
    rcases hstop with hlock | ⟨hlock, hopens⟩
    · rw [hlock]
      exact ⟨_, rfl, .inr (.inl rfl)⟩
    · rw [hlock, hopens]
      exact ⟨_, rfl, .inl rfl⟩
  | configure =>
    simp only [Effector.planned, prepareConfigure, hinit, require, bind, Except.bind]
    rcases hstop with hlock | ⟨hlock, hopens⟩
    · rw [hlock]
      exact ⟨_, rfl, .inr (.inl rfl)⟩
    · rw [hlock, hopens]
      exact ⟨_, rfl, .inl rfl⟩

/-- A sheet of an allowed call follows the effector of its verb. The lists are locked by the
effector only. -/
theorem planMain_follows (h : AptHost) (name : CStr) (hallows : Allows verb targets.length)
    (hlists : verb = .lit "apt.update" → h.listsLock = true) {req : PkgxRequest}
    (hreq : req.packages.getD [] = targets) :
    Follows E h (planMain E h (name :: verb :: targets))
      ((Entry.effectorFor verb req).planned E h) := by
  rw [planMain]
  simp only [List.getElem?_cons_succ, List.getElem?_cons_zero, List.drop_succ_cons, List.drop_zero,
    checkVerbArity_ok_iff.mpr hallows]
  by_cases hinit : (!h.initConfig || !h.initSystem) = true
  · obtain ⟨e, he, hstatus⟩ := pkgxAptInit_error hinit
    rw [if_pos hinit, planned_uninitialised he]
    exact .failed (.inl hstatus)
  rw [if_neg hinit]
  obtain ⟨hconfig, hsystem⟩ : h.initConfig = true ∧ h.initSystem = true := by simpa using hinit
  have hready : pkgxAptInit h = .ok () := by
    simp [pkgxAptInit, require, hconfig, hsystem, bind, Except.bind]
  by_cases hupdate : verb = .lit "apt.update"
  · subst hupdate
    exact planUpdate_follows hready (hlists rfl)
  rw [if_neg hupdate]
  by_cases hopen : (!(h.lock && h.cache.opens)) = true
  · have hother : ∀ token, Entry.effectorFor verb req ≠ .update token := by
      intro token
      rw [Entry.effectorFor, if_neg hupdate]
      split
      · simp
      · split <;> simp
    obtain ⟨e, he, hstatus⟩ :=
      planned_unopened (E := E) hready ((Bool.not_eq_true' _).mp hopen) hother
    rw [if_pos hopen, he]
    exact .failed hstatus
  rw [if_neg hopen]
  have ho : Opened h := by
    obtain ⟨hlock, hopens⟩ : h.lock = true ∧ h.cache.opens = true := by simpa using hopen
    exact ⟨hconfig, hsystem, hlock, hopens⟩
  rw [Entry.effectorFor, if_neg hupdate]
  by_cases hhold : verb = .lit "apt.hold" ∨ verb = .lit "apt.unhold"
  · rw [if_pos hhold, if_pos hhold, hreq]
    exact planHold_follows ho
  rw [if_neg hhold, if_neg hhold]
  by_cases hconfigure : verb = .lit "apt.configure"
  · subst hconfigure
    exact planConfigure_follows ho
  rw [if_neg hconfigure, if_neg hconfigure, hreq]
  refine planTxn_follows ho ?_
  rintro ⟨hupgrade, hne⟩
  obtain ⟨arity, harity, hnone⟩ := hallows
  have hwhole : verbArity verb = some .none := by rcases hupgrade with rfl | rfl <;> rfl
  rw [hwhole, Option.some_inj] at harity
  exact hne (hnone.mp harity.symm)

end Follows

end Pkgexec.Oracle
