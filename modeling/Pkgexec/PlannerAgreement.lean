import Pkgexec.PlannerReading

/-!
# The locked planner foretells the effector

What the planner prints for a verb and its packages is the plan that the effector resolves on
the same host: the resource and the hash on its two lines are those the broker is asked for, and
its other exits are the ends of an effector that asks for nothing.
-/

namespace Pkgexec.Oracle
open CStrings DecimalNumerals DelimitedLists JsonValues PlanDigest Policy Redeem Plan Request Apt

section Foretelling

variable {J : Jansson} {E : Evp} {h : AptHost} {g : Grant} {step : Event → Prop} {sheet : Sheet}
  {planned : Except Exit PlanCall} {run : EffectOut × Apt.Log}

/-- The driver reads what the broker is asked for. -/
theorem Follows.issues_iff (hcompact : ∀ v, J.dumps v = .ofMem v.compact)
    (hf : Follows E h sheet planned) (hs : Spends J E h g step planned run)
    (hline : ∀ call, planned = .ok call → OneLinePlan call) {verb r x body : CStr}
    (hverb : ∀ call, planned = .ok call → call.verb = verb)
    (hbody : buildRequest J
      ⟨g.effectReceipt, g.principalUid, verb, r, g.planSchema, x⟩ = some body) :
    Issues sheet r x ↔ run.2.head? = some (.transport body) := by
  cases hf with
  | failed hstatus | broken hstatus hname =>
    rw [hs.of_error.2]
    exact iff_of_false (fun hissues => absurd hissues.exit (by simp [fails])) (by simp)
  | @planned sheet call hshows =>
    rw [hshows.issues_iff (hline call rfl)]
    rcases hs.of_planned with ⟨result, detail, hverdict, -, hlog⟩ |
      ⟨verb', resource, hash, hverdict, hsent⟩
    · rw [hverdict, hlog]
      simp
    · obtain ⟨-, -, rfl, -⟩ := PlanCall.verdict_eq_spend_iff.mp hverdict
      rw [hverb call rfl] at hverdict hsent ⊢
      rw [hverdict, Verdict.spend.injEq]
      rcases hsent with ⟨hnone, -, hlog⟩ | ⟨body', es, hbuilt, hlog⟩
      · rw [hlog]
        refine iff_of_false ?_ (by simp)
        rintro ⟨-, rfl, rfl⟩
        rw [hnone] at hbody
        cases hbody
      · rw [hlog, List.head?_cons, Option.some_inj, Event.transport.injEq]
        constructor
        · rintro ⟨-, rfl, rfl⟩
          exact Option.some_inj.mp (hbuilt.symm.trans hbody)
        · rintro rfl
          obtain ⟨rfl, rfl⟩ := Preview.buildRequest_inj hcompact hbuilt hbody
          exact ⟨rfl, rfl, rfl⟩

/-- A cache of one package. -/
theorem oneLine_nginx : OneLine nginxHost [.lit "nginx"] where
  packages := by
    rintro c hc P hP
    cases hc
    rw [List.mem_singleton.mp hP]
    decide
  targets := by decide

/-- A driver reads one resource and one hash of 64 hexadecimal digits, or nothing. -/
structure Legible (sheet : Sheet) : Prop where
  plan : sheet.exit = .ok → ∃ resource hash, Issues sheet resource hash ∧ hash.length = 64 ∧
    ∀ b ∈ hash.bytes, b ∈ hx
  silent : sheet.exit ≠ .ok → ∀ key ∈ keys, fieldValues key (stream sheet.out) = []

theorem legible_fails {exit : PlanExit} (hexit : exit ≠ .ok) (message : List CStr) :
    Legible (fails exit message) where
  plan hok := absurd hok hexit
  silent _ key hkey := fieldValues_unread hkey (by simp [fails])

theorem Follows.legible {targets : List CStr} (hf : Follows E h sheet planned)
    (hline : OneLine h targets) (hplan : ∀ call, planned = .ok call → OneLinePlan call) :
    Legible sheet := by
  cases hf with
  | failed hstatus => exact legible_fails (by simp) _
  | @broken name e hstatus hname =>
    refine ⟨fun hok => absurd hok (by simp), fun _ key hkey => fieldValues_unread hkey ?_⟩
    obtain ⟨c, P, hc, hP, rfl⟩ := hname
    refine List.forall_mem_singleton.mpr ⟨?_, 0x76, rfl, .inl rfl⟩
    exact newline_notMem_pair (by decide) (hline.packages c hc P hP)
  | @planned sheet call hshows =>
    refine ⟨fun hok => ?_, fun hexit key hkey => hshows.silent (hplan call rfl) hexit hkey⟩
    cases hshows with
    | noop hverdict | refused hrefusal hverdict | failed hverdict => cases hok
    | @ok resource d hresource hdigest hverdict =>
      have hshown : Shows E call ⟨headline call :: emitPlan resource d.hex, [], .ok⟩ :=
        .ok hresource hdigest hverdict
      obtain ⟨md, -, hbytes⟩ := PlanCall.hex_digest hdigest
      refine ⟨resource, d.hex, (hshown.issues_iff (hplan call rfl)).mpr hverdict, ?_,
        PlanCall.hex_digits hdigest⟩
      rw [CStr.length, hbytes]
      exact length_hex md

theorem planMain_legible (E : Evp) (h : AptHost) (argv : List CStr)
    (hline : OneLine h (argv.drop 2)) : Legible (planMain E h argv) := by
  match argv with
  | [] => exact legible_fails (by simp : PlanExit.usage ≠ .ok) _
  | [_] => exact legible_fails (by simp : PlanExit.usage ≠ .ok) _
  | name :: verb :: targets =>
    cases harity : checkVerbArity verb targets.length with
    | error message =>
      have hsheet : planMain E h (name :: verb :: targets) = fails .usage message := by
        simp only [planMain, List.getElem?_cons_succ, List.getElem?_cons_zero,
          List.drop_succ_cons, List.drop_zero, harity]
      rw [hsheet]
      exact legible_fails (by decide) _
    | ok =>
      -- the planner does not ask for the lock of the lists
      have hallows := checkVerbArity_ok_iff.mp harity
      have hlocked : OneLine { h with listsLock := true } targets := ⟨hline.packages, hline.targets⟩
      have hreq : ({ PkgxRequest.zero with packages := some targets }).packages.getD [] =
          targets := rfl
      have hf : Follows E { h with listsLock := true } (planMain E h (name :: verb :: targets)) _ :=
        planMain_follows { h with listsLock := true } name hallows (fun _ => rfl) hreq
      exact hf.legible hlocked fun call hcall => oneLinePlan_of_planned hallows hlocked hreq hcall

theorem PlanExit.code_eq_zero_iff {exit : PlanExit} : exit.code = 0 ↔ exit = .ok := by
  cases exit <;> simp [PlanExit.code]

/-- The lines of a plan are printed exactly with the exit code zero, once each: whatever the
arguments, a driver reads one resource and one hash off a sheet, or nothing. -/
theorem plan_printed_iff_ok (E : Evp) (h : AptHost) (argv : List CStr)
    (hline : OneLine h (argv.drop 2)) :
    let sheet := planMain E h argv
    (sheet.exit.code = 0 → ∃ resource hash, Issues sheet resource hash ∧ hash.length = 64 ∧
        ∀ b ∈ hash.bytes, b ∈ hx) ∧
      (sheet.exit.code ≠ 0 → ∀ key ∈ keys, fieldValues key (stream sheet.out) = []) := by
  intro sheet
  rw [ne_eq, PlanExit.code_eq_zero_iff]
  exact ⟨(planMain_legible E h argv hline).plan, (planMain_legible E h argv hline).silent⟩

theorem plan_printed_nginx :
    let sheet := planMain holdNginxEvp nginxHost
      [.lit "pkgexec-plan", .lit "apt.hold", .lit "nginx"]
    (sheet.exit.code = 0 → ∃ resource hash, Issues sheet resource hash ∧ hash.length = 64 ∧
        ∀ b ∈ hash.bytes, b ∈ hx) ∧
      (sheet.exit.code ≠ 0 → ∀ key ∈ keys, fieldValues key (stream sheet.out) = []) :=
  plan_printed_iff_ok holdNginxEvp nginxHost [.lit "pkgexec-plan", .lit "apt.hold", .lit "nginx"]
    oneLine_nginx

example : Issues (planMain holdNginxEvp nginxHost
    [.lit "pkgexec-plan", .lit "apt.hold", .lit "nginx"]) (.lit "nginx")
    (.lit "756ff19107155ca5d98792aeca9538cb82a1e395fba777ceb69a475f77277712") :=
  ⟨by decide, by decide, by decide⟩

end Foretelling

end Pkgexec.Oracle
