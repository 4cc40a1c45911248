import Pkgexec.Entrypoint
import Pkgexec.RequestReading
import Pkgexec.RequestSchema
import Pkgexec.SpentReceipts

/-!
# Whole runs of an entrypoint

Every run of an entrypoint ends in one of four ways: the result channel cannot be isolated, the
request is rejected, the hygiene fails, or the effector is run and its outcome reported. The
course is proved once for any verb and effector and for any process that is started; what it does
with the descriptors depends on how they were handed over, and on libapt.
-/

namespace Pkgexec.Entry
open CStrings FuelRuns Deliveries DescriptorTables JsonValues PlanDigest Redeem Plan Request Apt
  Hygiene

/-- The descriptors of a program that was executed with its three standard descriptors. -/
structure StartedWith (out err : File) (fds : Fds) : Prop where
  stdin : fds.entry 0 ≠ none
  stdout : fds.entry 1 = some ⟨out, false⟩
  stderr : fds.entry 2 = some ⟨err, false⟩

/-- The results go to the standard output of the caller and everything else to its errors. -/
structure Isolated (out err : File) (rfd : ℕ) (fds : Fds) : Prop where
  high : 3 ≤ rfd
  results : fds.entry rfd = some ⟨out, true⟩
  stdout : fds.entry 1 = some ⟨err, false⟩
  stderr : fds.entry 2 = some ⟨err, false⟩

/-- The three entries that `pkgx_scrub_env` leaves. -/
def scrubbed : List CStr :=
  [.lit "PATH=/usr/sbin:/usr/bin:/sbin:/bin", .lit "LC_ALL=C",
    .lit "DEBIAN_FRONTEND=noninteractive"]

/-- The directory of the open descriptors names every one of them. -/
def Listing (os : CloexecOs) : Prop :=
  ∀ t : Fds, ∀ fd, t.entry fd ≠ none → ∃ name ∈ os.readdir t, Names name fd

/-- A process as its caller starts it: with its three standard descriptors, with room for more,
and with the directory of its descriptors mounted. -/
structure Launched (out err : File) (fds : Fds) (os : EntryOs) : Prop where
  started : StartedWith out err fds
  room : ∃ n, fds.Below n ∧ n + 4 < 2 ^ 31
  listing : Listing os.cloexec

/-- libapt leaves alone what it finds open. -/
def Libapt.Keeps (lib : Libapt) : Prop :=
  ∀ log t fd, t.entry fd ≠ none → (lib.fds log t).entry fd = t.entry fd

/-- And a child of its process sees nothing of it: what it opens is closed on `exec`, and it sets
no variable. -/
structure Libapt.Discreet (lib : Libapt) : Prop where
  keeps : lib.Keeps
  closes : ∀ log t fd, t.entry fd = none → SealedAt (lib.fds log t) fd
  environ : ∀ environ, lib.environ environ = environ

section Stages

variable {out err : File} {rfd n : ℕ} {fds t t' : Fds} {os : EntryOs} {lib : Libapt} {w : World}
  {Q : Bool → World → Prop} {I : World → Prop}

theorem StartedWith.isolated (h : StartedWith out err fds) (hchannel : Channel fds rfd t) :
    Isolated out err rfd t := by
  have hfree : fds.entry rfd = none := hchannel.lowest ▸ fds.entry_lowestFree
  have hhigh : 3 ≤ rfd := by
    by_contra hlt
    obtain rfl | rfl | rfl : rfd = 0 ∨ rfd = 1 ∨ rfd = 2 := by omega
    · exact h.stdin hfree
    · exact absurd (h.stdout.symm.trans hfree) (by simp)
    · exact absurd (h.stderr.symm.trans hfree) (by simp)
  refine ⟨hhigh, ?_, ?_, ?_⟩
  · rw [hchannel.results, h.stdout]
    rfl
  · rw [hchannel.stdout, h.stderr]
    rfl
  · rw [hchannel.rest 2 (by decide) (by omega), h.stderr]

/-- Numbers stay below a bound that leaves room for the descriptors that are opened. -/
theorem below_channel (hchannel : Channel fds rfd t) (h : fds.Below n) : t.Below (n + 3) := by
  intro fd hfd
  have hlowest := Table.lowestFree_le_of_below h
  by_cases h₁ : fd = 1
  · omega
  by_cases hr : fd = rfd
  · rw [hr, hchannel.lowest]
    omega
  · rw [hchannel.rest fd h₁ hr] at hfd
    exact Nat.lt_add_right 3 (h fd hfd)

theorem Isolated.congr (h : Isolated out err rfd t)
    (hrest : ∀ fd, fd ≠ 0 → t'.entry fd = t.entry fd) : Isolated out err rfd t' where
  high := h.high
  results := (hrest rfd (by have := h.high; omega)).trans h.results
  stdout := (hrest 1 (by decide)).trans h.stdout
  stderr := (hrest 2 (by decide)).trans h.stderr

theorem Isolated.marks (h : Isolated out err rfd t) (hmarks : Marks 3 t t') :
    Isolated out err rfd t' where
  high := h.high
  results := by
    rcases hmarks rfd with hsame | ⟨-, hmark⟩
    · rw [hsame, h.results]
    · rw [hmark, h.results]
      rfl
  stdout := (hmarks.below (by decide)).trans h.stdout
  stderr := (hmarks.below (by decide)).trans h.stderr

/-- Whatever was inherited, three entries are left. -/
theorem pkgxScrubEnv_wp {os : ScrubOs} {environ : List CStr} {Q : Bool → List CStr → Prop}
    {I : List CStr → Prop} (hQ : ∀ ok environ', (os.Works → ok = true) →
      (ok = true → environ' = scrubbed) → Q ok environ') :
    wp (pkgxScrubEnv os) Q I environ := by
  obtain ⟨clear, path, lcAll, frontend⟩ := os
  cases clear
  · exact hQ false _ (by simp [ScrubOs.Works]) nofun
  cases path
  · exact hQ false _ (by simp [ScrubOs.Works]) nofun
  cases lcAll
  · exact hQ false _ (by simp [ScrubOs.Works]) nofun
  cases frontend
  · exact hQ false _ (by simp [ScrubOs.Works]) nofun
  exact hQ true _ (fun _ => rfl) fun _ => by decide

theorem Isolated.keeps (h : Isolated out err rfd t) (hkeeps : lib.Keeps) (log : Apt.Log) :
    Isolated out err rfd (lib.fds log t) := by
  have hopen : ∀ fd d, t.entry fd = some d → (lib.fds log t).entry fd = some d := by
    intro fd d hd
    rw [hkeeps log t fd (by rw [hd]; exact Option.some_ne_none d), hd]
  exact ⟨h.high, hopen _ _ h.results, hopen _ _ h.stdout, hopen _ _ h.stderr⟩

theorem Libapt.Discreet.sealed (hlib : lib.Discreet) (h : Sealed err t) (log : Apt.Log) :
    Sealed err (lib.fds log t) := by
  have hopen : ∀ fd d, t.entry fd = some d → (lib.fds log t).entry fd = some d := by
    intro fd d hd
    rw [hlib.keeps log t fd (by rw [hd]; exact Option.some_ne_none d), hd]
  refine ⟨hopen _ _ h.stdin, hopen _ _ h.stdout, hopen _ _ h.stderr, fun fd hfd d hd => ?_⟩
  cases hentry : t.entry fd with
  | none => exact hlib.closes log t fd hentry d hd
  | some d' =>
    rw [hopen fd d' hentry] at hd
    exact h.rest fd hfd d (hentry.trans hd)

theorem mem_spawning {before log : Apt.Log} (h : t' ∈ lib.spawning t before log) :
    ∃ log, t' = lib.fds log t := by
  induction before, log using Libapt.spawning.induct with
  | case1 before => exact absurd h List.not_mem_nil
  | case2 before args env es ih =>
    rw [Libapt.spawning] at h
    rcases List.mem_cons.mp h with rfl | h
    · exact ⟨before, rfl⟩
    · exact ih h
  | case3 before e es hne ih =>
    rw [Libapt.spawning] at h
    · exact ih h
    · exact hne

/-- A start of a child. -/
def startsChild : Event → Bool
  | .child (.spawned _ _) => true
  | _ => false

/-- There is one table for every child. -/
theorem length_spawning (lib : Libapt) (t : Fds) (before log : Apt.Log) :
    (lib.spawning t before log).length = log.countP startsChild := by
  induction before, log using Libapt.spawning.induct with
  | case1 before => rfl
  | case2 before args env es ih =>
    rw [Libapt.spawning, List.length_cons, ih, List.countP_cons_of_pos rfl]
  | case3 before e es hne ih =>
    rw [Libapt.spawning, ih, List.countP_cons_of_neg]
    · intro hstarts
      cases e with
      | child e =>
        cases e with
        | spawned args env => exact hne args env rfl
        | _ => cases hstarts
      | _ => cases hstarts
    · exact hne

/-- The hygiene touches the environment and the descriptors; where it succeeds, three entries
are left to a child, and three descriptors if the process was launched with its own. -/
theorem hygiene_wp (hQ : ∀ ok environ fds',
    (∀ {out err rfd}, Isolated out err rfd w.fds → Isolated out err rfd fds') →
    (os.scrub.Works → os.null.Works → os.cloexec.Works → ok = true) →
    (ok = true → environ = scrubbed) →
    (ok = true → ∀ {out err rfd n}, Isolated out err rfd w.fds → w.fds.Below n →
      n + 1 < 2 ^ 31 → Listing os.cloexec → Sealed err fds') →
      Q ok { w with environ := environ, fds := fds' }) :
    wp (hygiene os) Q I w := by
  rw [hygiene, wp_bind, onEnviron, wp_focus]
  refine pkgxScrubEnv_wp fun scrub environ hscrubs hscrub => ?_
  split
  · rename_i hfailed
    exact hQ false environ w.fds id (fun h _ _ => by simp [hscrubs h] at hfailed) nofun nofun
  rename_i hscrubbed
  have henviron := hscrub (by simpa using hscrubbed)
  rw [wp_bind, onFds, wp_focus]
  refine pkgxNullStdin_wp fun null t hrest hnulls hnull => ?_
  dsimp only
  split
  · rename_i hfailed
    exact hQ false environ t (fun h => h.congr hrest)
      (fun _ h _ => by simp [hnulls h] at hfailed) nofun nofun
  rename_i hnulled
  have hzero := hnull (by simpa using hnulled)
  rw [wp_focus]
  refine pkgxCloexecFrom_wp fun ok t' hmarks hworks hsealed => ?_
  refine hQ ok environ t' (fun h => (h.congr hrest).marks hmarks) (fun _ _ => hworks)
    (fun _ => henviron) fun hok out err rfd n hisolated hbelow hn hlisting => ?_
  have hbelow' : t.Below (max n 1) := by
    intro fd hfd
    by_cases he : fd = 0
    · omega
    · rw [hrest fd he] at hfd
      exact lt_max_of_lt_left (hbelow fd hfd)
  have hlowest := Table.lowestFree_le_of_below hbelow'
  have hmarked := (hisolated.congr hrest).marks hmarks
  refine ⟨?_, hmarked.stdout, hmarked.stderr, fun fd hfd => hsealed hok ?_ fd (by omega)⟩
  · rw [hmarks.below (by decide), hzero]
  · intro fd hfd
    refine ⟨?_, hlisting _ fd hfd⟩
    by_cases he : fd = t.lowestFree
    · omega
    · rw [Table.entry_assign_ne _ _ he] at hfd
      have := hbelow' fd hfd
      omega

end Stages

/-- The request that a run has accepted, and where it got it from. -/
structure Requested (J : Jansson) (os : EntryOs) (fuel : ℕ) (verb : CStr) (environ : List CStr)
    (heap : Stdin.Log) (uid : UInt32) (req : PkgxRequest) : Prop where
  uid : pkgxReadPkexecUid (getenv environ (.lit "PKEXEC_UID")) = some uid
  read : ∃ block len before,
    exec (Stdin.pkgxReadStdin os.stdin fuel) [] = (some (.ok (block, len)), before) ∧
      heap = before ++ [.free (Stdin.secureWipe block len)]
  parsed : pkgxParseRequest J verb (received heap) = .ok req

/-- Why there is no request, and what the record says about it. -/
inductive Rejection (J : Jansson) (os : EntryOs) (fuel : ℕ) (verb : CStr) (environ : List CStr) :
    CStr → Prop where
  | uid (huid : pkgxReadPkexecUid (getenv environ (.lit "PKEXEC_UID")) = none) :
    Rejection J os fuel verb environ (.lit "pkexec_uid")
  | unread {ec : CStr} {heap : Stdin.Log}
    (hread : exec (Stdin.pkgxReadStdin os.stdin fuel) [] = (some (.error ec), heap)) :
    Rejection J os fuel verb environ ec
  | unparsed {body : Stdin.Block × ℕ} {heap : Stdin.Log} {refusal : Refusal}
    (hread : exec (Stdin.pkgxReadStdin os.stdin fuel) [] = (some (.ok body), heap))
    (hparsed : pkgxParseRequest J verb (received heap) = .error refusal) :
    Rejection J os fuel verb environ refusal.errcode

/-- Every block is wiped before it is freed. A growing `realloc` that moves the block is the only
thing that hands input back to the allocator, and it does. -/
structure WipedBlocks (heap : Stdin.Log) : Prop where
  freed : ∀ block, Stdin.Event.free block ∈ heap → Stdin.Wiped block
  released_iff : (∀ block ∈ Stdin.releasedBlocks heap, Stdin.Wiped block) ↔
    ∀ old size, Stdin.Event.realloc old size .moved ∉ heap

/-- The call of `pkgx_result_emit`: its return value and the chunks it writes. -/
def emission (J : Jansson) (os : EntryOs) (st : AptStatus) (issued : Bool) (cid detail : CStr) :
    ℤ × List (List UInt8) :=
  pkgxResultEmit J st (if issued then 1 else 0) (some cid) (some detail) os.emit os.buf

/-- The one record of a run, the file it goes to, and the exit code. -/
structure Reported (J : Jansson) (os : EntryOs) (file : Option File) (st : AptStatus)
    (issued : Bool) (cid detail : CStr) (rc : ℤ) (w : World) : Prop where
  results : w.results = (emission J os st issued cid detail).2.map fun chunk => (file, chunk)
  exit : rc = if (emission J os st issued cid detail).1 = 0 ∧ (st = .ok ∨ st = .noOp) then 0 else 1

/-- The host that the effector works on: its children get what libapt makes of three entries. -/
def EntryOs.effectorHost (os : EntryOs) : AptHost := hostIn os.host (os.libapt.environ scrubbed)

/-- The run of the effector for an accepted request. -/
def performed (J : Jansson) (E : Evp) (os : EntryOs) (effector : PkgxRequest → Effector)
    (uid : UInt32) (req : PkgxRequest) : EffectOut × Apt.Log :=
  (effector req).run J E os.effectorHost (grantFor req uid) (.zero _)

/-- The four ends of a run that was started with `fds` in `environ`. Where the process was started
with its three standard descriptors, `rfd` is the channel of the results. -/
inductive Ending (J : Jansson) (E : Evp) (os : EntryOs) (fuel : ℕ) (verb : CStr)
    (effector : PkgxRequest → Effector) (fds : Fds) (environ : List CStr) : ℤ → World → Prop where
  | unisolated {w : World} (hfailed : fds.entry 1 ≠ none → fds.entry 2 ≠ none → ¬ os.channel.Works)
    (hheap : w.heap = []) (hrequest : w.request = none) (hhost : w.host = [])
    (hresults : w.results = []) :
    Ending J E os fuel verb effector fds environ 1 w
  | rejected {w : World} {rfd : ℕ} {detail : CStr} {rc : ℤ}
    (hfds : ∀ {out err}, StartedWith out err fds → Isolated out err rfd w.fds)
    (hrejection : Rejection J os fuel verb environ detail) (hheap : WipedBlocks w.heap)
    (hrequest : ∀ req, w.request = some req → Request.Wiped req) (hhost : w.host = [])
    (hreported : Reported J os ((w.fds.entry rfd).map Descriptor.file) .internal false (.lit "")
      detail rc w) :
    Ending J E os fuel verb effector fds environ rc w
  | unclean {w : World} {rfd : ℕ} {uid : UInt32} {req : PkgxRequest} {rc : ℤ}
    (hfailed : ¬ (os.scrub.Works ∧ os.null.Works ∧ os.cloexec.Works))
    (hfds : ∀ {out err}, StartedWith out err fds → Isolated out err rfd w.fds)
    (hheap : WipedBlocks w.heap) (hrequested : Requested J os fuel verb environ w.heap uid req)
    (hrequest : w.request = some req.free) (hhost : w.host = [])
    (hreported : Reported J os ((w.fds.entry rfd).map Descriptor.file) .internal false
      req.correlationId.str (.lit "hygiene") rc w) :
    Ending J E os fuel verb effector fds environ rc w
  | performed {w : World} {rfd : ℕ} {t : Fds} {uid : UInt32} {req : PkgxRequest} {rc : ℤ}
    (hfds : ∀ {out err}, StartedWith out err fds → Isolated out err rfd t)
    (hsealed : ∀ {out err}, Launched out err fds os → Sealed err t)
    (hleft : w.fds = os.libapt.fds w.host t)
    (hspawning : w.spawning = os.libapt.spawning t [] w.host) (hheap : WipedBlocks w.heap)
    (hrequested : Requested J os fuel verb environ w.heap uid req)
    (hrequest : w.request = some req.free) (henviron : w.environ = os.libapt.environ scrubbed)
    (hhost : w.host = (performed J E os effector uid req).2)
    (hreported : Reported J os ((w.fds.entry rfd).map Descriptor.file)
      (performed J E os effector uid req).1.status
      (performed J E os effector uid req).1.effectIssued
      (performed J E os effector uid req).1.outCid.str
      (performed J E os effector uid req).1.detail rc w) :
    Ending J E os fuel verb effector fds environ rc w

/-- A run that is still reading its request has done nothing else. -/
structure Pending (os : EntryOs) (fuel : ℕ) (w : World) : Prop where
  reading : exec (Stdin.pkgxReadStdin os.stdin fuel) [] = (none, w.heap)
  heap : WipedBlocks w.heap
  request : w.request = none
  host : w.host = []
  results : w.results = []

section Course

variable {J : Jansson} {E : Evp} {os : EntryOs} {rfd : ℕ} {fds : Fds} {environ : List CStr}
  {w : World} {Q : ℤ → World → Prop} {I : World → Prop}

theorem wipedBlocks_of_sound {os : Stdin.Os} {heap : Stdin.Log}
    (h : Historical (Stdin.Sound os) heap) : WipedBlocks heap := by
  refine ⟨fun block hmem => ?_, Stdin.released_wiped_iff h⟩
  obtain ⟨before, hallowed⟩ := h.mem hmem
  exact hallowed

theorem wipedBlocks_nil : WipedBlocks [] :=
  wipedBlocks_of_sound (Historical.nil : Historical (Stdin.Sound (Stdin.dribbleOs [])) [])

/-- What the reader hands over is what it has read, and its block is wiped before it is freed. -/
theorem pkgxReadStdin_wp (os : Stdin.Os) (fuel : ℕ) :
    wp (Stdin.pkgxReadStdin os fuel)
      (fun r heap => Historical (Stdin.Sound os) heap ∧ ∀ block len, r = .ok (block, len) →
        bodyBytes block len = received heap ∧ Stdin.Wiped (Stdin.secureWipe block len))
      (Historical (Stdin.Sound os)) [] := by
  rw [Stdin.pkgxReadStdin, Stdin.pkgxReadStdinDeadline, wp_bind, Stdin.clockGettime, wp_ask]
  split
  · exact ⟨Historical.nil.snoc trivial, by simp⟩
  rename_i start hstart
  rw [hstart, wp_bind, Stdin.malloc, wp_ask]
  split
  · exact ⟨(Historical.nil.snoc trivial).snoc trivial, by simp⟩
  rw [wp_bind]
  refine wp_mono ?_ (fun _ h => h)
    (Stdin.readLoop_wp start _ fuel (Stdin.reading_start _ _ _) (Nat.zero_le _))
  rintro r heap ⟨hsound, hheld⟩
  split
  · exact ⟨hsound, by simp⟩
  · rename_i buf
    refine ⟨hsound, ?_⟩
    rintro _ _ ⟨⟩
    have h := hheld buf rfl
    have hlen : buf.n = ((received heap).map Stdin.Cell.input).length := by
      rw [h.count, List.length_map]
    rw [h.terminated]
    constructor
    · rw [bodyBytes, hlen, List.take_left, List.map_map]
      exact List.map_id _
    · intro c hc
      rw [Stdin.secureWipe, Stdin.write, List.length_replicate, Nat.zero_add, List.take_zero,
        List.nil_append, hlen, List.drop_left, List.mem_append, List.mem_cons] at hc
      rcases hc with hc | rfl | hc
      · rw [List.eq_of_mem_replicate hc]
        rfl
      · rfl
      · rw [List.eq_of_mem_replicate hc]
        rfl

/-- The record goes to the file of the results. -/
theorem wp_emitResult {st : AptStatus} {issued : Bool} {cid detail : CStr} :
    wp (emitResult J os rfd st issued cid detail) Q I w ↔
      Q (emission J os st issued cid detail).1 { w with
        results := w.results ++ (emission J os st issued cid detail).2.map fun chunk =>
          ((w.fds.entry rfd).map Descriptor.file, chunk) } := by
  rw [emitResult, wp_modifyGet]
  rfl

/-- A failure is one internal record. -/
theorem failResult_wp {cid detail : CStr} (hresults : w.results = [])
    (hQ : ∀ w', w'.fds = w.fds → w'.heap = w.heap → w'.request = w.request → w'.host = w.host →
      Reported J os ((w'.fds.entry rfd).map Descriptor.file) .internal false cid detail 1 w' →
        Q 1 w') :
    wp (failResult J os rfd cid detail) Q I w := by
  rw [failResult, wp_bind, wp_emitResult, hresults, List.nil_append]
  split
  · show Q 1 _
    exact hQ _ rfl rfl rfl rfl ⟨rfl, by simp⟩
  · show Q 1 _
    exact hQ _ rfl rfl rfl rfl ⟨rfl, by simp⟩

/-- From the accepted request on. -/
theorem performRequest_wp {uid : UInt32} {req : PkgxRequest} {verb : CStr}
    {effector : PkgxRequest → Effector}
    (hisolated : ∀ {out err}, StartedWith out err fds → Isolated out err rfd w.fds)
    (hroom : ∀ n, fds.Below n → fds.entry 2 ≠ none → w.fds.Below (n + 3))
    {fuel : ℕ} (hheap : WipedBlocks w.heap)
    (hrequested : Requested J os fuel verb environ w.heap uid req)
    (hrequest : w.request = some req) (hhost : w.host = []) (hspawning : w.spawning = [])
    (hresults : w.results = []) :
    wp (performRequest J E os rfd uid req (effector req))
      (Ending J E os fuel verb effector fds environ) I w := by
  rw [performRequest, wp_bind]
  refine hygiene_wp fun ok environ' fds' hkept hworks henviron hclean => ?_
  cases ok with
  | false =>
    simp only [Bool.not_false, if_true, wp_bind]
    refine failResult_wp hresults fun w' hfds hheap' hrequest' hhost' hreported => ?_
    have hfailed : ¬ (os.scrub.Works ∧ os.null.Works ∧ os.cloexec.Works) := by
      rintro ⟨hscrub, hnull, hcloexec⟩
      simpa using hworks hscrub hnull hcloexec
    refine .unclean hfailed (fun h => hfds ▸ hkept (hisolated h)) (hheap' ▸ hheap)
      (hheap' ▸ hrequested) ?_ (hhost'.trans hhost) ⟨hreported.results, hreported.exit⟩
    show w'.request.map PkgxRequest.free = _
    rw [hrequest']
    show w.request.map PkgxRequest.free = _
    rw [hrequest]
    rfl
  | true =>
    obtain rfl := henviron rfl
    have hsealed : ∀ {out err}, Launched out err fds os → Sealed err fds' := by
      intro out err h
      obtain ⟨n, hbelow, hn⟩ := h.room
      have hstderr : fds.entry 2 ≠ none := by
        rw [h.started.stderr]
        exact Option.some_ne_none _
      exact hclean rfl (hisolated h.started) (hroom n hbelow hstderr) (by omega) h.listing
    have hended : ∀ rc (w' : World), w'.fds = os.libapt.fds w'.host fds' →
        w'.spawning = os.libapt.spawning fds' [] w'.host →
        w'.environ = os.libapt.environ scrubbed → w'.heap = w.heap →
        w'.request = some req.free → w'.host = (performed J E os effector uid req).2 →
        Reported J os ((w'.fds.entry rfd).map Descriptor.file)
          (performed J E os effector uid req).1.status
          (performed J E os effector uid req).1.effectIssued
          (performed J E os effector uid req).1.outCid.str
          (performed J E os effector uid req).1.detail rc w' →
        Ending J E os fuel verb effector fds environ rc w' := by
      intro rc w' hleft hspawning' henviron' hheap' hrequest' hhost' hreported
      exact .performed (fun h => hkept (hisolated h)) hsealed hleft hspawning' (hheap' ▸ hheap)
        (hheap' ▸ hrequested) hrequest' henviron' hhost' hreported
    have hfreed : w.request.map PkgxRequest.free = some req.free := by
      rw [hrequest]
      rfl
    simp only [Bool.not_true, Bool.false_eq_true, if_false]
    rw [wp_bind, runEffector, wp_modifyGet, wp_bind, wp_emitResult, wp_bind]
    simp only [hresults, List.nil_append, hhost, hspawning]
    show wp (if (_ : ℤ) ≠ 0 then _ else _) _ _ _
    split
    · rename_i hlost
      refine hended 1 _ rfl rfl rfl rfl hfreed rfl ⟨rfl, ?_⟩
      rw [if_neg]
      exact fun h => hlost h.1
    · rename_i hsent
      refine hended _ _ rfl rfl rfl rfl hfreed rfl ⟨rfl, ?_⟩
      refine if_congr ?_ rfl rfl
      exact (and_iff_right (not_not.mp hsent)).symm

/-- Every run of the common body ends in one of the four ways, or is still reading. -/
theorem runVerb_wp (J : Jansson) (E : Evp) (os : EntryOs) (fuel : ℕ) (verb : CStr)
    (effector : PkgxRequest → Effector) (fds : Fds) (environ : List CStr) :
    wp (runVerb J E os fuel verb effector) (Ending J E os fuel verb effector fds environ)
      (Pending os fuel) (.fresh fds environ) := by
  rw [runVerb, wp_bind, onFds, wp_focus]
  refine pkgxResultChannelOpen_wp ?_ fun rfd t hchannel => ?_
  · intro t hfailed hsame
    exact .unisolated hfailed rfl rfl rfl rfl
  have hisolated : ∀ {out err}, StartedWith out err fds → Isolated out err rfd t := by
    intro out err h
    have hstderr : fds.entry 2 ≠ none := by
      rw [h.stderr]
      exact Option.some_ne_none _
    exact h.isolated (hchannel hstderr)
  have hrejected : ∀ (w' : World) (detail : CStr), Rejection J os fuel verb environ detail →
      w'.fds = t → WipedBlocks w'.heap → (∀ req, w'.request = some req → Request.Wiped req) →
      w'.host = [] →
      Reported J os ((w'.fds.entry rfd).map Descriptor.file) .internal false (.lit "") detail 1 w' →
      Ending J E os fuel verb effector fds environ 1 w' := by
    intro w' detail hrejection hfds
    exact .rejected (fun h => hfds ▸ hisolated h) hrejection
  dsimp only
  rw [wp_bind, wp_get]
  dsimp only [World.fresh]
  cases huid : pkgxReadPkexecUid (getenv environ (.lit "PKEXEC_UID")) with
  | none =>
    refine failResult_wp rfl fun w' hfds hheap hrequest hhost hreported => ?_
    refine hrejected w' _ (.uid huid) hfds ?_ ?_ hhost hreported
    · rw [hheap]
      exact wipedBlocks_nil
    · rw [hrequest]
      simp
  | some uid =>
    dsimp only
    rw [wp_bind, onHeap, wp_focus]
    refine wp_mono ?_ (fun heap h => ⟨h.1, wipedBlocks_of_sound h.2, rfl, rfl, rfl⟩)
      (wp_run (pkgxReadStdin_wp os.stdin fuel))
    rintro r heap ⟨hrun, hsound, hread⟩
    cases r with
    | error ec =>
      refine failResult_wp rfl fun w' hfds hheap hrequest hhost hreported => ?_
      refine hrejected w' _ (.unread hrun) hfds ?_ ?_ hhost hreported
      · rw [hheap]
        exact wipedBlocks_of_sound hsound
      rw [hrequest]
      simp
    | ok body =>
      obtain ⟨block, len⟩ := body
      obtain ⟨hbody, hblock⟩ := hread block len rfl
      dsimp only
      rw [wp_bind, onHeap, wp_focus, Stdin.free, wp_ask]
      have hheap : WipedBlocks (heap ++ [.free (Stdin.secureWipe block len)]) :=
        wipedBlocks_of_sound (hsound.snoc hblock)
      have hreceived : received (heap ++ [.free (Stdin.secureWipe block len)]) =
          bodyBytes block len := by
        rw [received_quiet _ rfl, hbody]
      cases hparsed : pkgxParseRequest J verb (bodyBytes block len) with
      | error refusal =>
        rw [wp_bind]
        refine failResult_wp rfl fun w' hfds hheap' hrequest hhost hreported => ?_
        refine hrejected w' _ (.unparsed hrun (hbody ▸ hparsed)) hfds ?_ ?_ hhost hreported
        · rw [hheap']
          exact hheap
        intro req hreq
        rw [hrequest] at hreq
        rw [← Option.some_inj.mp hreq]
        exact pkgxParseRequest_wiped hparsed
      | ok req =>
        rw [wp_bind]
        refine performRequest_wp hisolated (fun n hbelow hstderr => below_channel
          (hchannel hstderr) hbelow) hheap ⟨huid, ⟨block, len, heap, hrun, rfl⟩, ?_⟩ rfl rfl rfl rfl
        show pkgxParseRequest J verb (received (heap ++ [.free _])) = .ok req
        rw [hreceived]
        exact hparsed

end Course

end Pkgexec.Entry
