import Pkgexec.EntrypointRuns
import Pkgexec.JsonReading

/-!
# What an entrypoint guarantees

Read off the four ends of a run: when the host may be touched, what a child can see, what is
left of the receipt, and what the record says about the host. The runs are those of the nine
builds, returned or still reading.
-/

namespace Pkgexec.Entry
open CStrings FuelRuns Deliveries DecimalNumerals DescriptorTables Utf8Encoding JsonValues
  PlanDigest Redeem Plan Request Apt Hygiene Spawn

/-- Every call before the effector succeeds, and the request arrives in time, in whatever
chunks. -/
structure Willing (os : EntryOs) (input : List UInt8) (bound : ℕ) : Prop where
  channel : os.channel.Works
  stdin : Stdin.Delivers os.stdin (Stdin.stdinDeadlineSec * 1000) input bound
  scrub : os.scrub.Works
  null : os.null.Works
  cloexec : os.cloexec.Works

def shellFds : Fds :=
  [some ⟨.inherited 0, false⟩, some ⟨.inherited 1, false⟩, some ⟨.inherited 2, false⟩]

def shellEnviron : List CStr := [.lit "PATH=/home/alice/bin", .lit "PKEXEC_UID=1000"]

/-- `/proc/self/fd`, with the names of closed descriptors as well. -/
def procFds (t : Fds) : List CStr := (List.range t.length).map fun fd => .ofMem (numeral fd)

theorem listing_procFds (opendir : Bool) (setFd : ℕ → Bool) :
    Listing ⟨opendir, procFds, setFd⟩ := by
  intro t fd hfd
  have hlt : fd < t.length := by
    by_contra hge
    refine hfd ?_
    rw [Table.entry, List.getElem?_eq_none (Nat.le_of_not_lt hge)]
    rfl
  refine ⟨_, List.mem_map.mpr ⟨fd, List.mem_range.mpr hlt, rfl⟩, ?_⟩
  exact CStr.ofMem_of_noNul fun h0 => absurd ((numeral_spec fd).1 0 h0) (by decide)

/-- libapt with a lock file of its own, closed on `exec`. -/
def lockingLibapt : Libapt where
  environ := id
  fds _ t := t.assign t.lowestFree (some ⟨.lockFile, true⟩)

theorem discreet_locking : lockingLibapt.Discreet where
  keeps _ t fd hfd := by
    refine Table.entry_assign_ne _ _ ?_
    rintro rfl
    exact hfd t.entry_lowestFree
  closes _ t fd hfd d hd := by
    replace hd : (t.assign t.lowestFree (some ⟨.lockFile, true⟩)).entry fd = some d := hd
    by_cases he : fd = t.lowestFree
    · rw [he, Table.entry_assign_self] at hd
      rw [← Option.some_inj.mp hd]
    · rw [Table.entry_assign_ne _ _ he, hfd] at hd
      cases hd
  environ _ := rfl

/-- A system on which nothing fails. -/
def willingOs (host : AptHost) (input : List UInt8) : EntryOs where
  channel := ⟨true, true, true⟩
  stdin := Stdin.dribbleOs input
  scrub := ⟨true, true, true, true⟩
  null := ⟨true, true, true⟩
  cloexec := ⟨true, procFds, fun _ => true⟩
  host := host
  libapt := lockingLibapt
  emit := ⟨true, [.wrote resultCap], true⟩
  buf := .zero _

theorem launched_willing (host : AptHost) (input : List UInt8) :
    Launched (.inherited 1) (.inherited 2) shellFds (willingOs host input) where
  started := ⟨by decide, rfl, rfl⟩
  room := by
    refine ⟨3, fun fd hfd => ?_, by decide⟩
    by_contra hge
    obtain ⟨k, rfl⟩ : ∃ k, fd = k + 3 := ⟨fd - 3, by omega⟩
    exact hfd rfl
  listing := listing_procFds _ _

theorem willing_willing (host : AptHost) (input : List UInt8) :
    Willing (willingOs host input) input 1 where
  channel := ⟨rfl, rfl, rfl⟩
  stdin := Stdin.delivers_dribble input
  scrub := ⟨rfl, rfl, rfl, rfl⟩
  null := ⟨rfl, rfl, rfl⟩
  cloexec := ⟨rfl, fun _ => rfl⟩

def redeemedSample : Json := .object (okMembers sampleCid)

theorem redeemedSample_clean : redeemedSample.Clean := by
  refine .object (by decide) ?_
  intro m hm
  simp only [okMembers, List.mem_cons, List.not_mem_nil, or_false] at hm
  rcases hm with rfl | rfl | rfl
  · exact .boolean true
  · exact .boolean true
  · exact .string sampleCid.noNul

/-- A library that parses the request and the reply of the broker. -/
def holdJansson : Jansson :=
  janssonTable [(holdRequest.compact, holdRequest), (redeemedSample.compact, redeemedSample)]
    (by simpa using ⟨clean_requestMembers (clean_jsonNames _), redeemedSample_clean⟩)

/-- A hold of `nginx` that the caller asks for and the broker redeems. -/
def holdOs : EntryOs :=
  willingOs { nginxHost with reply := fun _ => ⟨0, some redeemedSample.compact⟩ }
    holdRequest.compact

def holdSpec : EntrySpec := ⟨.lit "apt.hold", .hold⟩

theorem uid_shell : pkgxReadPkexecUid (getenv shellEnviron (.lit "PKEXEC_UID")) = some 1000 := by
  decide

set_option maxRecDepth 4000 in
theorem fits_holdRequest : holdRequest.compact.length ≤ maxStdin := by
  decide

theorem launched_hold : Launched (.inherited 1) (.inherited 2) shellFds holdOs :=
  launched_willing _ holdRequest.compact

theorem willing_hold : Willing holdOs holdRequest.compact 1 :=
  willing_willing _ holdRequest.compact

set_option maxRecDepth 4000 in
theorem holdRequest_parsed : pkgxParseRequest holdJansson (.lit "apt.hold") holdRequest.compact =
    .ok (filledRequest sampleReceipt sampleCid 30 [.lit "nginx"]) := by
  refine pkgxParseRequest_eq_ok_iff.mpr ⟨sampleReceipt, sampleCid, 30, [.lit "nginx"],
    requestMembers sampleReceipt sampleCid 30 (jsonNames [.lit "nginx"]), rfl, .refl _, sample_ok,
    ⟨⟨?_, ?_, ?_⟩, .inr ⟨?_, ?_⟩⟩, rfl⟩
  · decide
  · decide
  · decide
  · decide
  · decide

section Guarantees

variable {J : Jansson} {E : Evp} {os : EntryOs} {out err : File} {fds : Fds} {environ : List CStr}
  {fuel : ℕ} {verb : CStr} {effector : PkgxRequest → Effector} {rc : ℤ} {w : World}

theorem verb_of_mem {spec : EntrySpec} (hspec : spec ∈ entrySpecs) (req : PkgxRequest) :
    (spec.family.effector spec.verb req).verb = spec.verb := by
  simp only [entrySpecs, List.mem_cons, List.not_mem_nil, or_false] at hspec
  rcases hspec with rfl | rfl | rfl | rfl | rfl | rfl | rfl | rfl | rfl <;> rfl

/-- A request that arrives in time and within the cap is read as it is. -/
theorem pkgxReadStdin_ends {os : Stdin.Os} {input : List UInt8} {bound : ℕ}
    (h : Stdin.Delivers os (Stdin.stdinDeadlineSec * 1000) input bound)
    (hlen : input.length ≤ maxStdin) :
    Ends (fun r => ∃ block, r = .ok (block, input.length) ∧ bodyBytes block input.length = input)
      (Stdin.pkgxReadStdin os) [] := by
  obtain ⟨start, hstart, htime⟩ := h.inTime
  refine .ask hstart (.ask (h.memory _).1 ?_)
  obtain ⟨r, log, hloop, hsmall, -⟩ := Stdin.readLoop_ends h htime
    (Stdin.reading_start start _ _) (Nat.zero_le _) List.nil_prefix
  refine .bind hloop ?_
  obtain ⟨buf, rfl, hbuf⟩ := hsmall hlen
  refine .pure ⟨_, by rw [hbuf.count], ?_⟩
  have hterminated := hbuf.terminated
  rw [hbuf.count] at hterminated
  rw [bodyBytes, hterminated, List.take_left' (List.length_map _), List.map_map]
  exact List.map_id _

/-- Where nothing fails before the effector, every run with enough fuel returns, and it has run
the effector for the request that arrived. -/
theorem performed_of_willing (effector : PkgxRequest → Effector) {input : List UInt8} {bound : ℕ}
    (hwilling : Willing os input bound) (hstdout : fds.entry 1 ≠ none)
    (hstderr : fds.entry 2 ≠ none) {uid : UInt32}
    (huid : pkgxReadPkexecUid (getenv environ (.lit "PKEXEC_UID")) = some uid)
    (hlen : input.length ≤ maxStdin) {req : PkgxRequest}
    (hparse : pkgxParseRequest J verb input = .ok req) :
    ∃ n₀, ∀ fuel, n₀ ≤ fuel → ∃ rc w,
      exec (runVerb J E os fuel verb effector) (.fresh fds environ) = (some rc, w) ∧
        Requested J os fuel verb environ w.heap uid req ∧ w.request = some req.free ∧
        w.host = (performed J E os effector uid req).2 ∧
        ∃ rfd t, (∀ {out err}, StartedWith out err fds → Isolated out err rfd t) ∧
          w.fds = os.libapt.fds w.host t ∧
          Reported J os ((w.fds.entry rfd).map Descriptor.file)
            (performed J E os effector uid req).1.status
            (performed J E os effector uid req).1.effectIssued
            (performed J E os effector uid req).1.outCid.str
            (performed J E os effector uid req).1.detail rc w := by
  obtain ⟨r, heap, ⟨n₀, hread⟩, block, rfl, hbody⟩ := pkgxReadStdin_ends hwilling.stdin hlen
  refine ⟨n₀, fun fuel hfuel => ?_⟩
  have hread := hread fuel hfuel
  have hheld := (wp_iff.mp (pkgxReadStdin_wp os.stdin fuel)).1 _ _ hread
  have hreceived : received heap = input := (hheld.2 block _ rfl).1.symm.trans hbody
  have hended := wp_iff.mp (runVerb_wp J E os fuel verb effector fds environ)
  cases hrun : exec (runVerb J E os fuel verb effector) (.fresh fds environ) with
  | mk rc w =>
  cases rc with
  | none =>
    have hreading := (hended.2 w hrun).reading
    rw [hread] at hreading
    cases hreading
  | some rc =>
    refine ⟨rc, w, rfl, ?_⟩
    cases hended.1 rc w hrun with
    | unisolated hfailed hheap hrequest hhost hresults =>
      exact absurd hwilling.channel (hfailed hstdout hstderr)
    | rejected hfds hrejection hheap hrequest hhost hreported =>
      exfalso
      cases hrejection with
      | uid hnone =>
        rw [huid] at hnone
        cases hnone
      | unread hread' =>
        rw [hread] at hread'
        cases hread'
      | unparsed hread' hparsed =>
        rw [hread] at hread'
        cases hread'
        rw [hreceived, hparse] at hparsed
        cases hparsed
    | unclean hfailed hfds hheap hrequested hrequest hhost hreported =>
      exact absurd ⟨hwilling.scrub, hwilling.null, hwilling.cloexec⟩ hfailed
    | performed hfds hsealed hleft hspawning hheap hrequested hrequest henviron hhost hreported =>
      obtain ⟨block', len, before, hread', hheap'⟩ := hrequested.read
      rw [hread] at hread'
      cases hread'
      have hparsed := hrequested.parsed
      rw [hheap', received_quiet _ rfl, hreceived, hparse] at hparsed
      cases hparsed
      have huid' := hrequested.uid
      rw [huid] at huid'
      cases huid'
      exact ⟨hrequested, hrequest, hhost, _, _, hfds, hleft, hreported⟩

/-- The file of the results is the standard output of the caller. -/
theorem file_of_keeps {rfd : ℕ} {t : Fds} (h : Isolated out err rfd t) (hkeeps : os.libapt.Keeps)
    (hleft : w.fds = os.libapt.fds w.host t) :
    (w.fds.entry rfd).map Descriptor.file = some out := by
  rw [hleft, (h.keeps hkeeps w.host).results]
  rfl

/-- The sample run of the effector. -/
def holdRun : EffectOut × Apt.Log :=
  performed holdJansson holdNginxEvp holdOs
    (fun req => Family.hold.effector (.lit "apt.hold") req) 1000
    (filledRequest sampleReceipt sampleCid 30 [.lit "nginx"])

set_option maxRecDepth 8000 in
theorem holdRun_log : ∃ body es, holdRun.2 = .transport body :: .unLockInner true ::
    .child (.spawned [.lit "/usr/bin/dpkg", .lit "--set-selections"]
      (.lit "DPKG_FRONTEND_LOCKED=true" :: scrubbed)) :: es := ⟨_, _, rfl⟩

set_option maxRecDepth 8000 in
theorem holdRun_emission : holdRun.1.status = .ok ∧ ∃ chunk,
    emission holdJansson holdOs holdRun.1.status holdRun.1.effectIssued holdRun.1.outCid.str
      holdRun.1.detail = (0, [chunk]) := ⟨rfl, _, rfl⟩

/-- The sample run returns: its request is read in single bytes, its receipt is redeemed, `dpkg`
is started, and the record is written. -/
structure HoldReturned (fuel : ℕ) (w : World) : Prop where
  run : exec (entrypointMain holdJansson holdNginxEvp holdOs holdSpec [] fuel)
    (.fresh shellFds shellEnviron) = (some 0, w)
  host : w.host = holdRun.2
  spawned : ∃ args env, .child (.spawned args env) ∈ w.host
  freed : ∃ block, .free block ∈ w.heap
  request : w.request ≠ none
  results : ∃ chunk, w.results = [(some (.inherited 1), chunk)]

theorem hold_returns : ∃ fuel w, HoldReturned fuel w := by
  obtain ⟨n₀, hreturns⟩ := performed_of_willing (J := holdJansson) (E := holdNginxEvp)
    (fun req => Family.hold.effector (.lit "apt.hold") req) willing_hold
    (show shellFds.entry 1 ≠ none by decide) (by decide) uid_shell fits_holdRequest
    holdRequest_parsed
  obtain ⟨rc, w, hrun, hrequested, hrequest, hhost, rfd, t, hfds, hleft, hreported⟩ :=
    hreturns n₀ le_rfl
  replace hhost : w.host = holdRun.2 := hhost
  replace hreported : Reported holdJansson holdOs _ holdRun.1.status holdRun.1.effectIssued
      holdRun.1.outCid.str holdRun.1.detail rc w := hreported
  obtain ⟨block, len, before, -, hheap⟩ := hrequested.read
  obtain ⟨body, es, hlog⟩ := holdRun_log
  have hspawned : Event.child (.spawned _ _) ∈ w.host :=
    List.mem_of_getElem? (show w.host[2]? = _ by rw [hhost, hlog]; rfl)
  obtain ⟨hok, chunk, hemitted⟩ := holdRun_emission
  have hexit := hreported.exit
  rw [hemitted, if_pos ⟨rfl, .inl hok⟩] at hexit
  have hresults := hreported.results
  rw [hemitted, file_of_keeps (hfds launched_hold.started) discreet_locking.keeps hleft] at hresults
  subst hexit
  exact ⟨n₀, w, hrun, hhost, ⟨_, _, hspawned⟩, ⟨_, hheap ▸ List.mem_concat_self⟩,
    by simp [hrequest], chunk, hresults⟩

/-- What stands behind everything that was done to the host: a request accepted for the verb
from a known uid, and one message to the broker that spends its receipt on the plan resolved for
it. The rest is behind the gate and follows a reply that redeems the receipt. -/
structure Guarded (J : Jansson) (E : Evp) (os : EntryOs) (fuel : ℕ) (verb : CStr)
    (effector : PkgxRequest → Effector) (environ : List CStr) (w : World) (uid : UInt32)
    (req : PkgxRequest) (body : CStr) (es : Apt.Log) : Prop where
  requested : Requested J os fuel verb environ w.heap uid req
  spent : ∃ resource hash, (effector req).resource = some resource ∧
    Spending J E (grantFor req uid) ((effector req).planned E os.effectorHost)
      (effector req).verb resource hash body
  confined : ∀ e ∈ es, BehindGate os.effectorHost e
  redeemed : es ≠ [] → Redeems J req.correlationId.str (os.host.reply body)

theorem Ending.guarded (h : Ending J E os fuel verb effector fds environ rc w) :
    w.host = [] ∨ ∃ uid req body es, w.host = .transport body :: es ∧
      Guarded J E os fuel verb effector environ w uid req body es := by
  cases h with
  | unisolated hfailed hheap hrequest hhost hresults => exact .inl hhost
  | rejected hfds hrejection hheap hrequest hhost hreported => exact .inl hhost
  | unclean hfailed hfds hheap hrequested hrequest hhost hreported => exact .inl hhost
  | @performed w rfd t uid req rc hfds hsealed hleft hspawning hheap hrequested hrequest henviron
      hhost hreported =>
    have hspends := (effector req).run_spends J E os.effectorHost (grantFor req uid) (.zero _)
    rw [← Entry.performed.eq_def J E os effector uid req] at hspends
    rw [hhost]
    generalize Entry.performed J E os effector uid req = run at hspends
    cases hspends with
    | unsent hunsent hissued => exact .inl rfl
    | refused hspending hstatus hissued =>
      obtain ⟨rfl, hresource⟩ := hspending.operation
      exact .inr ⟨uid, req, _, [], rfl, hrequested, ⟨_, _, hresource, hspending⟩, by simp, by simp⟩
    | redeemed hspending hreply hlen hes hconfined =>
      obtain ⟨rfl, hresource⟩ := hspending.operation
      exact .inr ⟨uid, req, _, _, rfl, hrequested, ⟨_, _, hresource, hspending⟩, hconfined,
        fun _ => hreply⟩

/-- In every run, returned or not. -/
theorem runVerb_guarded (J : Jansson) (E : Evp) (os : EntryOs) (fuel : ℕ) (verb : CStr)
    (effector : PkgxRequest → Effector) (fds : Fds) (environ : List CStr) :
    let w := (exec (runVerb J E os fuel verb effector) (.fresh fds environ)).2
    w.host = [] ∨ ∃ uid req body es, w.host = .transport body :: es ∧
      Guarded J E os fuel verb effector environ w uid req body es :=
  wp_state (P := fun w : World => w.host = [] ∨ ∃ uid req body es, w.host = .transport body :: es ∧
      Guarded J E os fuel verb effector environ w uid req body es)
    (wp_mono (fun _ _ hended => hended.guarded) (fun _ hpending => .inl hpending.host)
      (runVerb_wp J E os fuel verb effector fds environ))

/-- Nothing is done to the host, or it was guarded: in every run of one of the nine builds,
returned or not, in whatever environment, with whatever descriptors and answers of the system, the
request on standard input was accepted for the verb that is baked in, the broker was asked once,
with the receipt of that request and for the verb, the targets and the hash of the plan, and only
a reply that redeems it let anything else happen. -/
theorem host_guarded (J : Jansson) (E : Evp) (os : EntryOs) (fds : Fds) (environ : List CStr)
    (argv : List CStr) (fuel : ℕ) {spec : EntrySpec} (hspec : spec ∈ entrySpecs) :
    let w := (exec (entrypointMain J E os spec argv fuel) (.fresh fds environ)).2
    w.host = [] ∨ ∃ uid req body es, w.host = .transport body :: es ∧
      Guarded J E os fuel spec.verb (fun req => spec.family.effector spec.verb req) environ w uid
        req body es ∧
      (spec.family.effector spec.verb req).verb = spec.verb := by
  refine (runVerb_guarded J E os fuel spec.verb _ fds environ).imp_right ?_
  rintro ⟨uid, req, body, es, hhost, hguarded⟩
  exact ⟨uid, req, body, es, hhost, hguarded, verb_of_mem hspec req⟩

/-- The sample run has returned, and `dpkg` was started in it. -/
theorem host_guarded_hold : ∃ fuel w,
    exec (entrypointMain holdJansson holdNginxEvp holdOs holdSpec [] fuel)
      (.fresh shellFds shellEnviron) = (some 0, w) ∧
    (∃ args env, .child (.spawned args env) ∈ w.host) ∧
    ∃ uid req body es, w.host = .transport body :: es ∧
      Guarded holdJansson holdNginxEvp holdOs fuel (.lit "apt.hold")
        (fun req => Family.hold.effector (.lit "apt.hold") req) shellEnviron w uid req body es ∧
      (Family.hold.effector (.lit "apt.hold") req).verb = .lit "apt.hold" := by
  obtain ⟨fuel, w, hreturned⟩ := hold_returns
  obtain ⟨args, env, hspawned⟩ := hreturned.spawned
  have hguarded := host_guarded holdJansson holdNginxEvp holdOs shellFds shellEnviron [] fuel
    (List.mem_of_getElem? (show entrySpecs[6]? = some holdSpec from rfl))
  rw [hreturned.run] at hguarded
  exact ⟨fuel, w, hreturned.run, hreturned.spawned,
    hguarded.resolve_left (List.ne_nil_of_mem hspawned)⟩

/-- A process that is ready to start children. Its environment is three entries, and its results
go to a descriptor of their own; every child that the spawn helper has started got one entry more,
and, from the descriptors that were open then, the three standard ones only, whatever the helper is
asked and told: the process keeps its own. -/
structure SealedProcess (out err : File) (w : World) : Prop where
  environ : w.environ = scrubbed
  results : ∃ rfd, Isolated out err rfd w.fds
  spawned : ∀ args env, .child (.spawned args env) ∈ w.host →
    env = .lit "DPKG_FRONTEND_LOCKED=true" :: scrubbed
  tables : w.spawning.length = w.host.countP startsChild
  children : ∀ t ∈ w.spawning, ∀ (answers : SpawnOs) args input extraEnv,
    wp (spawnFds answers args input extraEnv)
      (fun child t' => (∀ fd, t'.entry fd = t.entry fd) ∧
        (child.isSome = true ↔ (pkgxSpawnWaitEnv answers args input extraEnv).started = true) ∧
        ∀ c, child = some c → ∀ fd, c.entry fd = (standard (childStdin input) err).entry fd)
      (fun _ => False) t

/-- Once anything is done to the host, the process is sealed: no child inherits the environment
of the caller, its input, the channel of the results or any other descriptor. The process was
launched with its standard descriptors, and libapt hides what it opens itself. -/
theorem children_isolated (h : Launched out err fds os) (hlib : os.libapt.Discreet) (J : Jansson)
    (E : Evp) (environ : List CStr) (argv : List CStr) (fuel : ℕ) (spec : EntrySpec) :
    (exec (entrypointMain J E os spec argv fuel) (.fresh fds environ)).2.host = [] ∨
      SealedProcess out err
        (exec (entrypointMain J E os spec argv fuel) (.fresh fds environ)).2 := by
  refine wp_state (P := fun w : World => w.host = [] ∨ SealedProcess out err w) ?_
  refine wp_mono (fun rc w hended => ?_) (fun w hpending => .inl hpending.host)
    (runVerb_wp J E os fuel spec.verb _ fds environ)
  have hguarded := hended.guarded
  cases hended with
  | unisolated hfailed hheap hrequest hhost hresults => exact .inl hhost
  | rejected hfds hrejection hheap hrequest hhost hreported => exact .inl hhost
  | unclean hfailed hfds hheap hrequested hrequest hhost hreported => exact .inl hhost
  | @performed w rfd t uid req rc hfds hsealed hleft hspawning hheap hrequested hrequest henviron
      hhost hreported =>
    refine hguarded.imp_right ?_
    rintro ⟨uid, req, body, es, hlog, hguarded⟩
    refine ⟨by rw [henviron, hlib.environ], ?_, ?_, ?_, ?_⟩
    · rw [hleft]
      exact ⟨_, (hfds h.started).keeps hlib.keeps _⟩
    · intro args env hmem
      rw [hlog] at hmem
      rcases List.mem_cons.mp hmem with hmem | hmem
      · cases hmem
      · rw [(hguarded.confined _ hmem).1, ← hlib.environ scrubbed]
        rfl
    · rw [hspawning, length_spawning]
    · intro t' ht' answers args input extraEnv
      rw [hspawning] at ht'
      obtain ⟨log, rfl⟩ := mem_spawning ht'
      have hstarted : wp (spawnFds answers args input extraEnv) _ (fun _ => False)
          (os.libapt.fds log t) := spawnFds_started
      have hspawned : wp (spawnFds answers args input extraEnv) _ (fun _ => False)
          (os.libapt.fds log t) :=
        (hlib.sealed (hsealed h) log).spawnFds_wp fun child t hsame hchild => And.intro hsame hchild
      refine wp_mono ?_ (fun _ hfalse => hfalse.1) (wp_and hspawned hstarted)
      rintro child t ⟨⟨hsame, hchild⟩, hstarts⟩
      exact ⟨hsame, hstarts, hchild⟩

theorem children_isolated_hold : ∃ fuel w,
    exec (entrypointMain holdJansson holdNginxEvp holdOs holdSpec [] fuel)
      (.fresh shellFds shellEnviron) = (some 0, w) ∧
    w.spawning ≠ [] ∧ SealedProcess (.inherited 1) (.inherited 2) w := by
  obtain ⟨fuel, w, hreturned⟩ := hold_returns
  obtain ⟨args, env, hspawned⟩ := hreturned.spawned
  have hisolated := children_isolated launched_hold discreet_locking holdJansson holdNginxEvp
    shellEnviron [] fuel holdSpec
  rw [hreturned.run] at hisolated
  have hsealed := hisolated.resolve_left (List.ne_nil_of_mem hspawned)
  refine ⟨fuel, w, hreturned.run, fun hnone => ?_, hsealed⟩
  have hpos : 0 < w.host.countP startsChild := List.countP_pos_iff.mpr ⟨_, hspawned, rfl⟩
  rw [← hsealed.tables, hnone] at hpos
  exact absurd hpos (Nat.lt_irrefl 0)

/-- The mutating step of a family. -/
def Family.step (h : AptHost) : Family → Event → Prop
  | txn, e => e = .doInstall
  | update, e => e = .listUpdate
  | hold, e => Spawns h [.lit "--set-selections"] e
  | configure, e => Spawns h [.lit "--configure", .lit "--pending"] e

/-- A request is never lost: where the system lets every call succeed and an acceptable request
of a known uid arrives in time, in whatever chunks and with whatever interruptions, every run
with enough fuel returns, it has run the effector for that request, and the record and the exit
code are those of its outcome. The process was started with its standard descriptors, and libapt
leaves them alone. -/
theorem request_performed (h : StartedWith out err fds) (hlib : os.libapt.Keeps) (J : Jansson)
    (E : Evp) (environ : List CStr) (argv : List CStr) (spec : EntrySpec) {input : List UInt8}
    {bound : ℕ} (hwilling : Willing os input bound) {uid : UInt32}
    (huid : pkgxReadPkexecUid (getenv environ (.lit "PKEXEC_UID")) = some uid)
    (hlen : input.length ≤ maxStdin) {req : PkgxRequest}
    (hparse : pkgxParseRequest J spec.verb input = .ok req) :
    ∃ n₀, ∀ fuel, n₀ ≤ fuel → ∃ rc w,
      exec (entrypointMain J E os spec argv fuel) (.fresh fds environ) = (some rc, w) ∧
        let r := performed J E os (fun req => spec.family.effector spec.verb req) uid req
        w.host = r.2 ∧
          Reported J os (some out) r.1.status r.1.effectIssued r.1.outCid.str r.1.detail rc w := by
  have hstdout : fds.entry 1 ≠ none := by
    rw [h.stdout]
    exact Option.some_ne_none _
  have hstderr : fds.entry 2 ≠ none := by
    rw [h.stderr]
    exact Option.some_ne_none _
  obtain ⟨n₀, hreturns⟩ := performed_of_willing (E := E)
    (fun req => spec.family.effector spec.verb req) hwilling hstdout hstderr huid hlen hparse
  refine ⟨n₀, fun fuel hfuel => ?_⟩
  obtain ⟨rc, w, hrun, hrequested, hrequest, hhost, rfd, t, hfds, hleft, hreported⟩ :=
    hreturns fuel hfuel
  rw [file_of_keeps (hfds h) hlib hleft] at hreported
  exact ⟨rc, w, hrun, hhost, hreported⟩

theorem request_performed_hold : ∃ n₀, ∀ fuel, n₀ ≤ fuel → ∃ rc w,
    exec (entrypointMain holdJansson holdNginxEvp holdOs holdSpec [] fuel)
        (.fresh shellFds shellEnviron) = (some rc, w) ∧
      let r := performed holdJansson holdNginxEvp holdOs
        (fun req => Family.hold.effector (.lit "apt.hold") req) 1000
        (filledRequest sampleReceipt sampleCid 30 [.lit "nginx"])
      w.host = r.2 ∧ Reported holdJansson holdOs (some (.inherited 1)) r.1.status
        r.1.effectIssued r.1.outCid.str r.1.detail rc w :=
  request_performed launched_hold.started discreet_locking.keeps holdJansson holdNginxEvp
    shellEnviron [] holdSpec willing_hold uid_shell fits_holdRequest holdRequest_parsed

end Guarantees

end Pkgexec.Entry
