import Pkgexec.EntrypointRuns

/-!
# The diagnostic

`effect.cc` is one program for all verbs: it takes the verb from its arguments and picks the
effector by it. It follows the course of the entrypoints, and it must not be a way around them.
-/

namespace Pkgexec.Entry
open CStrings FuelRuns Deliveries DescriptorTables JsonValues PlanDigest Plan Request Apt Hygiene

def usage : CStr := .lit "usage: pkgexec-effect <apt.verb>  (request on stdin)\n"

/-- The effector is picked by the verb. -/
def dispatch (J : Jansson) (E : Evp) (os : EntryOs) (verb : CStr) (req : PkgxRequest) (g : Grant) :
    Run World EffectOut :=
  let packages := req.packages.getD []
  if verb = .lit "apt.update" then runEffector J E os (.update (some (.lit ""))) g
  else if verb = .lit "apt.hold" ∨ verb = .lit "apt.unhold" then
    runEffector J E os (.hold verb packages) g
  else if verb = .lit "apt.configure" then runEffector J E os .configure g
  else runEffector J E os (.txn verb packages) g

/-- `main` of `effect.cc`. -/
def effectMain (J : Jansson) (E : Evp) (os : EntryOs) (argv : List CStr) (fuel : ℕ) :
    Run World ℤ := do
  match argv[1]? with
  | none => do
    complain usage
    return 2
  | some verb =>
    match ← onFds (pkgxResultChannelOpen os.channel) with
    | none => do
      complain (.lit "result: cannot isolate the result channel\n")
      return 1
    | some rfd =>
      match pkgxReadPkexecUid (getenv (← get).environ (.lit "PKEXEC_UID")) with
      | none => failResult J os rfd (.lit "") (.lit "pkexec_uid")
      | some uid =>
        match ← onHeap (Stdin.pkgxReadStdin os.stdin fuel) with
        | .error ec => failResult J os rfd (.lit "") ec
        | .ok (body, len) => do
          let parsed := pkgxParseRequest J verb (bodyBytes body len)
          onHeap (Stdin.free (Stdin.secureWipe body len))
          match parsed with
          | .error refusal => do
            keepRequest refusal.out
            failResult J os rfd (.lit "") refusal.errcode
          | .ok req => do
            keepRequest req
            if !(← hygiene os) then do
              let rc ← failResult J os rfd req.correlationId.str (.lit "hygiene")
              freeRequest
              return rc
            else do
              let out ← dispatch J E os verb req (grantFor req uid)
              let emitted ←
                emitResult J os rfd out.status out.effectIssued out.outCid.str out.detail
              freeRequest
              if emitted ≠ 0 then do
                complain (.lit "result: could not emit\n")
                return 1
              else return if out.status = .ok ∨ out.status = .noOp then 0 else 1

/-- The effector that is picked. -/
def effectorFor (verb : CStr) (req : PkgxRequest) : Effector :=
  if verb = .lit "apt.update" then .update (some (.lit ""))
  else if verb = .lit "apt.hold" ∨ verb = .lit "apt.unhold" then
    .hold verb (req.packages.getD [])
  else if verb = .lit "apt.configure" then .configure
  else .txn verb (req.packages.getD [])

section Diagnostic

variable {J : Jansson} {E : Evp} {os : EntryOs} {argv : List CStr} {fuel : ℕ} {verb : CStr}

theorem dispatch_eq (verb : CStr) (req : PkgxRequest) (g : Grant) :
    dispatch J E os verb req g = runEffector J E os (effectorFor verb req) g := by
  rw [dispatch, effectorFor]
  split_ifs <;> rfl

/-- Whatever the verb is, the diagnostic follows the course of an entrypoint for it. -/
theorem effectMain_eq_runVerb (hargv : argv[1]? = some verb) :
    effectMain J E os argv fuel = runVerb J E os fuel verb (effectorFor verb) := by
  rw [effectMain, hargv, runVerb]
  simp only [dispatch_eq]
  rfl

/-- The pick is the family of the build. -/
theorem effectorFor_of_mem {spec : EntrySpec} (hspec : spec ∈ entrySpecs) (req : PkgxRequest) :
    effectorFor spec.verb req = spec.family.effector spec.verb req := by
  simp only [entrySpecs, List.mem_cons, List.not_mem_nil, or_false] at hspec
  rcases hspec with rfl | rfl | rfl | rfl | rfl | rfl | rfl | rfl | rfl <;> rfl

theorem verbArity_of_mem {spec : EntrySpec} (hspec : spec ∈ entrySpecs) :
    verbArity spec.verb ≠ none := by
  simp only [entrySpecs, List.mem_cons, List.not_mem_nil, or_false] at hspec
  rcases hspec with rfl | rfl | rfl | rfl | rfl | rfl | rfl | rfl | rfl <;> decide

/-- There is a build for every verb that a request can be made for. -/
theorem exists_spec_of_arity (h : verbArity verb ≠ none) :
    ∃ spec ∈ entrySpecs, spec.verb = verb := by
  by_contra hno
  have hall : ∀ spec ∈ entrySpecs, verb ≠ spec.verb := fun spec hspec he =>
    hno ⟨spec, hspec, he.symm⟩
  simp only [entrySpecs, List.forall_mem_cons] at hall
  obtain ⟨hinstall, hremove, hpurge, hupgrade, hdist, hupdate, hhold, hunhold, hconfigure, -⟩ :=
    hall
  refine h ?_
  simp [verbArity, hinstall, hremove, hpurge, hupgrade, hdist, hupdate, hhold, hunhold, hconfigure]

/-- A verb without a build is refused with its request: the host is not touched, and the run
returns 1 as soon as the request has been read. -/
theorem runVerb_unknown (effector : PkgxRequest → Effector) (hverb : verbArity verb = none)
    (fds : Fds) (environ : List CStr) :
    wp (runVerb J E os fuel verb effector) (fun rc w => rc = 1 ∧ w.host = [])
      (fun w => (exec (Stdin.pkgxReadStdin os.stdin fuel) []).1 = none ∧ w.host = [])
      (.fresh fds environ) := by
  have hunparsed : ∀ {w : World} {uid req},
      ¬ Requested J os fuel verb environ w.heap uid req := by
    intro w uid req hrequested
    have hparsed := hrequested.parsed
    rw [pkgxParseRequest, hverb] at hparsed
    cases hparsed
  refine wp_mono (fun rc w hended => ?_) (fun w hpending => ⟨?_, hpending.host⟩)
    (runVerb_wp J E os fuel verb effector fds environ)
  · cases hended with
    | unisolated hfailed hheap hrequest hhost hresults => exact ⟨rfl, hhost⟩
    | rejected hfds hrejection hheap hrequest hhost hreported =>
      refine ⟨?_, hhost⟩
      rw [hreported.exit, if_neg (by simp)]
    | unclean hfailed hfds hheap hrequested hrequest hhost hreported =>
      exact absurd hrequested hunparsed
    | performed hfds hsealed hleft hspawning hheap hrequested hrequest henviron hhost hreported =>
      exact absurd hrequested hunparsed
  · rw [hpending.reading]

/-- The diagnostic is no way around the entrypoints. Without a verb it prints its usage on
`stderr`, returns 2 and touches nothing else; with the verb of one of the nine builds it is that
build, step by step; and with any other verb the host is not touched, and the run returns 1 as
soon as its request has been read, whatever the system answers. -/
theorem diagnostic_mirrors (J : Jansson) (E : Evp) (os : EntryOs) (fds : Fds)
    (environ : List CStr) (argv : List CStr) (fuel : ℕ) :
    (argv[1]? = none ∧ exec (effectMain J E os argv fuel) (.fresh fds environ) =
        (some 2, { World.fresh fds environ with stderr := [usage] })) ∨
      (∃ spec ∈ entrySpecs, argv[1]? = some spec.verb ∧
        effectMain J E os argv fuel = entrypointMain J E os spec argv fuel) ∨
      ∃ verb, argv[1]? = some verb ∧ (∀ spec ∈ entrySpecs, spec.verb ≠ verb) ∧
        (exec (effectMain J E os argv fuel) (.fresh fds environ)).2.host = [] ∧
        (∀ rc, (exec (effectMain J E os argv fuel) (.fresh fds environ)).1 = some rc → rc = 1) ∧
        ((exec (Stdin.pkgxReadStdin os.stdin fuel) []).1 ≠ none →
          (exec (effectMain J E os argv fuel) (.fresh fds environ)).1 = some 1) := by
  cases hargv : argv[1]? with
  | none =>
    refine .inl ⟨rfl, ?_⟩
    rw [effectMain, hargv]
    rfl
  | some verb =>
    rw [effectMain_eq_runVerb hargv]
    by_cases hverb : verbArity verb = none
    · refine .inr (.inr ⟨verb, rfl, ?_, ?_⟩)
      · rintro spec hspec rfl
        exact verbArity_of_mem hspec hverb
      · refine wp_result (m := runVerb J E os fuel verb (effectorFor verb))
          (s := .fresh fds environ) (P := fun rc (w : World) => w.host = [] ∧
            (∀ r, rc = some r → r = 1) ∧
            ((exec (Stdin.pkgxReadStdin os.stdin fuel) []).1 ≠ none → rc = some 1)) ?_
        refine wp_mono ?_ ?_ (runVerb_unknown (effectorFor verb) hverb fds environ)
        · rintro rc w ⟨rfl, hhost⟩
          exact ⟨hhost, fun r hr => (Option.some_inj.mp hr).symm, fun _ => rfl⟩
        · rintro w ⟨hreading, hhost⟩
          exact ⟨hhost, nofun, fun hread => absurd hreading hread⟩
    · obtain ⟨spec, hspec, rfl⟩ := exists_spec_of_arity hverb
      refine .inr (.inl ⟨spec, hspec, rfl, ?_⟩)
      rw [entrypointMain, funext (effectorFor_of_mem hspec)]

end Diagnostic

end Pkgexec.Entry
