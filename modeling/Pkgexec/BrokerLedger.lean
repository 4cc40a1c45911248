import Pkgexec.Interleavings
import Pkgexec.ReceiptRedemption
import Pkgexec.SpentReceipts

/-!
# Effectors and the broker

Any number of effectors run against one broker, each on a host of its own and in any order of
their steps. The broker is not part of the sources: it is a parameter, and what the effectors rely
on are the hypotheses of `Lawful`, that a receipt is issued under a token of its own, and redeemed
once and for the request that is bound to it. So no receipt is spent on two effects, and there are
no more effects than receipts.
-/

namespace Pkgexec.Broker
open CStrings JsonValues PlanDigest Redeem Plan Apt Interleavings

/-- A receipt with what is bound to it. -/
structure Receipt where
  token : CStr
  uid : UInt32
  operation : CStr
  resource : CStr
  schema : ℤ
  planHash : CStr
  cid : CStr
  deriving DecidableEq

def Receipt.request (r : Receipt) : RedeemReq :=
  ⟨some r.token, r.uid, r.operation, r.resource, r.schema, r.planHash⟩

/-- One run of an effector. -/
structure Process where
  host : AptHost
  grant : Grant
  effector : Effector

def Process.run (J : Jansson) (E : Evp) (p : Process) : EffectOut × Apt.Log :=
  p.effector.run J E p.host p.grant (.zero _)

/-- The reply redeems the receipt of the process. -/
def Process.Redeemed (J : Jansson) (p : Process) (body : CStr) : Prop :=
  Redeems J p.grant.expectedCid (p.host.reply body)

/-- A broker: its states, what happens to them by itself and with a request of a process, and the
receipts that were issued and redeemed when it has come to a state. -/
structure Service (ι : Type) where
  State : Type
  start : State
  idle : State → State → Prop
  answers : ι → CStr → State → State → Prop
  ledger : State → Ledger ι Receipt

/-- What a request of process `i` may do to the ledger. A reply that redeems carries the cid of
the receipt; a receipt may also be redeemed without such a reply getting through. -/
inductive Answered {ι : Type} (J : Jansson) (procs : ι → Process) (i : ι) (body : CStr)
    (l : Ledger ι Receipt) : Ledger ι Receipt → Prop where
  | redeemed {r : Receipt} (hissued : r ∈ l.issued)
    (hunspent : ∀ p ∈ l.redeemed, p.2.token ≠ r.token)
    (hmatch : buildRequest J r.request = some body)
    (hcid : (procs i).Redeemed J body → (procs i).grant.expectedCid = r.cid) :
    Answered J procs i body l (l.redeem i r)
  | refused (hreply : ¬ (procs i).Redeemed J body) : Answered J procs i body l l

/-- What the effectors rely on: nothing is issued before the start, a new receipt has a new token,
and a request is answered from the ledger. -/
structure Service.Lawful {ι : Type} (B : Service ι) (J : Jansson) (procs : ι → Process) :
    Prop where
  start : B.ledger B.start = .empty
  idle : ∀ s s', B.idle s s' → B.ledger s' = B.ledger s ∨ ∃ r,
    (∀ r' ∈ (B.ledger s).issued, r'.token ≠ r.token) ∧ B.ledger s' = (B.ledger s).issue r
  answers : ∀ i body s s', B.answers i body s s' →
    Answered J procs i body (B.ledger s) (B.ledger s')

section System

variable {ι : Type} (B : Service ι)

/-- A request goes to the broker; the other events are none of its business. -/
inductive Service.Acts (i : ι) : Event → B.State → B.State → Prop where
  | asks {body : CStr} {s s' : B.State} (hanswers : B.answers i body s s') :
    Acts i (.transport body) s s'
  | does {e : Event} {s : B.State} (he : ∀ body, e ≠ .transport body) : Acts i e s s

/-- Every process does the events of its run. -/
def Service.system (J : Jansson) (E : Evp) (procs : ι → Process) : System ι Event B.State where
  script i := ((procs i).run J E).2
  act := B.Acts
  env := B.idle

end System

section Ledgers

variable {ι : Type} [DecidableEq ι] {B : Service ι} {J : Jansson} {E : Evp} {procs : ι → Process}
  {c : Config ι Event B.State}

/-- The ledger is balanced, and a process that was told that its receipt is redeemed has redeemed
one that it asked for. -/
structure Settled (B : Service ι) (J : Jansson) (procs : ι → Process)
    (c : Config ι Event B.State) : Prop where
  balanced : (B.ledger c.shared).Balanced Receipt.token
  answered : ∀ i body, .transport body ∈ c.events i → (procs i).Redeemed J body →
    ∃ r, (i, r) ∈ (B.ledger c.shared).redeemed ∧ buildRequest J r.request = some body ∧
      (procs i).grant.expectedCid = r.cid

theorem settled_start (hB : B.Lawful J procs) : Settled B J procs (.start B.start) where
  balanced := by
    show (B.ledger B.start).Balanced _
    rw [hB.start]
    exact Ledger.balanced_empty
  answered := by simp

theorem Settled.idle (h : Settled B J procs c) (hB : B.Lawful J procs) {s : B.State}
    (hidle : B.idle c.shared s) : Settled B J procs ⟨s, c.trace⟩ := by
  rcases hB.idle _ _ hidle with hsame | ⟨r, hfresh, hissued⟩
  · exact ⟨hsame ▸ h.balanced, hsame ▸ h.answered⟩
  · refine ⟨hissued ▸ h.balanced.issue hfresh, fun i body hmem hreply => ?_⟩
    obtain ⟨r', hr', hbody⟩ := h.answered i body hmem hreply
    refine ⟨r', ?_, hbody⟩
    rw [hissued]
    exact hr'

/-- A request was made before, or it is the event. -/
theorem mem_events_act {i j : ι} {e : Event} {s : B.State} {body : CStr}
    (h : .transport body ∈ (Config.mk s (c.trace ++ [(i, e)])).events j) :
    .transport body ∈ c.events j ∨ i = j ∧ e = .transport body := by
  by_cases hij : i = j
  · subst hij
    rw [events_append_self] at h
    rcases List.mem_append.mp h with h | h
    · exact .inl h
    · exact .inr ⟨rfl, (List.mem_singleton.mp h).symm⟩
  · rw [events_append_other s c hij] at h
    exact .inl h

theorem Settled.act (h : Settled B J procs c) (hB : B.Lawful J procs) {i : ι} {e : Event}
    {s : B.State} (hact : B.Acts i e c.shared s) : Settled B J procs ⟨s, c.trace ++ [(i, e)]⟩ := by
  cases hact with
  | does he =>
    refine ⟨h.balanced, fun j body hmem hreply => ?_⟩
    rcases mem_events_act hmem with hmem | ⟨-, heq⟩
    · exact h.answered j body hmem hreply
    · exact absurd heq (he body)
  | @asks body _ _ hanswers =>
    have hledger := hB.answers _ _ _ _ hanswers
    generalize hl : B.ledger s = l at hledger
    cases hledger with
    | refused hno =>
      refine ⟨hl ▸ h.balanced, fun j body' hmem hreply => ?_⟩
      rcases mem_events_act hmem with hmem | ⟨rfl, heq⟩
      · show ∃ r, (j, r) ∈ (B.ledger s).redeemed ∧ _
        rw [hl]
        exact h.answered j body' hmem hreply
      · cases heq
        exact absurd hreply hno
    | @redeemed r hissued hunspent hmatch hcid =>
      refine ⟨hl ▸ h.balanced.redeem hissued hunspent, fun j body' hmem hreply => ?_⟩
      show ∃ r, (j, r) ∈ (B.ledger s).redeemed ∧ _
      rw [hl]
      rcases mem_events_act hmem with hmem | ⟨rfl, heq⟩
      · obtain ⟨r', hr', hbody', hcid'⟩ := h.answered j body' hmem hreply
        exact ⟨r', List.mem_append_left _ hr', hbody', hcid'⟩
      · cases heq
        exact ⟨r, List.mem_append_right _ (List.mem_singleton_self _), hmatch, hcid hreply⟩

theorem settled_of_reachable (hB : B.Lawful J procs)
    (hc : (B.system J E procs).Reachable B.start c) : Settled B J procs c :=
  hc.invariant (settled_start hB) (fun _ _ h hidle => h.idle hB hidle)
    fun _ _ _ _ h _ hact => h.act hB hact

/-- The process has done something besides asking. -/
def Acted {σ : Type} (c : Config ι Event σ) (i : ι) : Prop :=
  ∃ e ∈ c.events i, ∀ body, e ≠ .transport body

/-- The receipt is for the plan of the process: its operation, its resource and its hash, under
the uid and the cid of the grant. -/
structure Authorises (E : Evp) (p : Process) (r : Receipt) : Prop where
  token : p.grant.effectReceipt = some r.token
  uid : p.grant.principalUid = r.uid
  schema : p.grant.planSchema = r.schema
  cid : p.grant.expectedCid = r.cid
  plan : ∃ call, p.effector.planned E p.host = .ok call ∧
    call.verdict E = .spend r.operation r.resource r.planHash

/-- Who has done something has asked first, and the reply redeemed the receipt. -/
theorem redeemed_of_acted {p : Process} {es : Apt.Log} (hes : es <+: (p.run J E).2) {e : Event}
    (he : e ∈ es) (hother : ∀ body, e ≠ .transport body) :
    ∃ verb resource hash body,
      Spending J E p.grant (p.effector.planned E p.host) verb resource hash body ∧
        p.Redeemed J body ∧ .transport body ∈ es := by
  have hs := p.effector.run_spends J E p.host p.grant (.zero _)
  rw [Process.run] at hes
  revert hs hes
  generalize p.effector.run J E p.host p.grant (.zero _) = run
  intro hes hs
  cases hs with
  | unsent hunsent hissued =>
    rw [List.prefix_nil.mp hes] at he
    exact absurd he List.not_mem_nil
  | @refused out verb resource hash body hspending hstatus hissued =>
    exact absurd (List.mem_singleton.mp (hes.subset he)) (hother body)
  | @redeemed verb resource hash body s rest hspending hreply hlen hes' hconfined =>
    refine ⟨verb, resource, hash, body, hspending, hreply, ?_⟩
    cases es with
    | nil => exact absurd he List.not_mem_nil
    | cons a es =>
      rw [(List.cons_prefix_cons.mp hes).1]
      exact List.mem_cons_self

theorem authorised_of_acted (hB : B.Lawful J procs) (hcompact : ∀ v, J.dumps v = .ofMem v.compact)
    (hc : (B.system J E procs).Reachable B.start c) {i : ι} (hacted : Acted c i) :
    ∃ r, (i, r) ∈ (B.ledger c.shared).redeemed ∧ Authorises E (procs i) r := by
  obtain ⟨e, he, hother⟩ := hacted
  obtain ⟨verb, resource, hash, body, hspending, hreply, hmem⟩ :=
    redeemed_of_acted (hc.events_prefix i) he hother
  obtain ⟨r, hr, hbody, hcid⟩ := (settled_of_reachable hB hc).answered i body hmem hreply
  refine ⟨r, hr, ?_⟩
  have hrequest := buildRequest_injective hcompact hspending.request hbody
  simp only [Receipt.request, RedeemReq.mk.injEq] at hrequest
  obtain ⟨htoken, huid, rfl, rfl, hschema, rfl⟩ := hrequest
  exact ⟨htoken, huid, hschema, hcid, hspending.plan⟩

/-- Two processes of one receipt do not both act. -/
theorem eq_of_acted (hB : B.Lawful J procs) (hcompact : ∀ v, J.dumps v = .ofMem v.compact)
    (hc : (B.system J E procs).Reachable B.start c) {i j : ι} (hi : Acted c i) (hj : Acted c j)
    (hreceipt : (procs i).grant.effectReceipt = (procs j).grant.effectReceipt) : i = j := by
  obtain ⟨r, hr, hauth⟩ := authorised_of_acted hB hcompact hc hi
  obtain ⟨r', hr', hauth'⟩ := authorised_of_acted hB hcompact hc hj
  have htoken : some r.token = some r'.token :=
    hauth.token.symm.trans (hreceipt.trans hauth'.token)
  exact congrArg Prod.fst
    ((settled_of_reachable hB hc).balanced.eq_of_key hr hr' (Option.some_inj.mp htoken))

end Ledgers

/-- A broker that is its ledger. -/
def ledgerService {ι : Type} (J : Jansson) (procs : ι → Process) : Service ι where
  State := Ledger ι Receipt
  start := .empty
  idle l l' := ∃ r, (∀ r' ∈ l.issued, r'.token ≠ r.token) ∧ l' = l.issue r
  answers := Answered J procs
  ledger := id

theorem lawful_ledger {ι : Type} (J : Jansson) (procs : ι → Process) :
    (ledgerService J procs).Lawful J procs where
  start := rfl
  idle _ _ h := .inr h
  answers _ _ _ _ h := h

/-- A hold of nginx. -/
def holdProcess : Process := ⟨nginxHost, holdGrant, .hold (.lit "apt.hold") [.lit "nginx"]⟩

def holdReceipt : Receipt where
  token := .lit "0123456789abcdef0123456789abcdef"
  uid := 1000
  operation := .lit "apt.hold"
  resource := .lit "nginx"
  schema := 1
  planHash := .lit "756ff19107155ca5d98792aeca9538cb82a1e395fba777ceb69a475f77277712"
  cid := brokerCid

def holdAsked : CStr := .ofMem (holdReceipt.request.json holdReceipt.token).compact

def holdService : Service Bool := ledgerService replyJansson fun _ => holdProcess

/-- Of two processes with one receipt, one has asked and begun. -/
def holdBegun : Config Bool Event (Ledger Bool Receipt) where
  shared := (Ledger.empty.issue holdReceipt).redeem true holdReceipt
  trace := [(true, .transport holdAsked), (true, .unLockInner true)]

theorem buildRequest_hold : buildRequest replyJansson holdReceipt.request = some holdAsked :=
  buildRequest_eq_some_iff.mpr ⟨_, rfl, rfl, rfl, rfl, rfl, rfl⟩

set_option maxRecDepth 8000 in
theorem script_hold : (holdProcess.run replyJansson holdNginxEvp).2.take 2 =
    [.transport holdAsked, .unLockInner true] := rfl

theorem holdBegun_reachable : (holdService.system replyJansson holdNginxEvp
    fun _ => holdProcess).Reachable holdService.start holdBegun := by
  have hnext : ∀ k < 2, ((holdProcess.run replyJansson holdNginxEvp).2)[k]? =
      [Event.transport holdAsked, .unLockInner true][k]? := by
    intro k hk
    rw [← script_hold, List.getElem?_take_of_lt hk]
  have hissue : holdService.idle .empty (Ledger.empty.issue holdReceipt) :=
    ⟨holdReceipt, fun r hr => absurd hr List.not_mem_nil, rfl⟩
  have hredeem : holdService.Acts true (.transport holdAsked) (Ledger.empty.issue holdReceipt)
      holdBegun.shared :=
    .asks (.redeemed List.mem_cons_self (fun p hp => absurd hp List.not_mem_nil) buildRequest_hold
      fun _ => rfl)
  have hissued : (holdService.system replyJansson holdNginxEvp fun _ => holdProcess).Reachable
      holdService.start ⟨Ledger.empty.issue holdReceipt, []⟩ := .step .start (.env hissue)
  have hasked := hissued.step (.act (hnext 0 (by decide)) hredeem)
  exact hasked.step (.act (hnext 1 (by decide)) (.does fun body h => by cases h))

theorem acted_holdBegun : Acted holdBegun true :=
  ⟨.unLockInner true, List.mem_cons_of_mem _ List.mem_cons_self, fun _ => nofun⟩

section SingleUse

variable {ι : Type} [DecidableEq ι] {B : Service ι} {J : Jansson} {E : Evp} {procs : ι → Process}
  {c : Config ι Event B.State}

/-- However the effectors and a lawful broker are interleaved: a process that has done anything
has redeemed a receipt that was issued for its caller and for the very plan it has resolved, no
two processes act on one receipt, and there are no more of them than receipts. -/
theorem single_use (hB : B.Lawful J procs) (hcompact : ∀ v, J.dumps v = .ofMem v.compact)
    (hc : (B.system J E procs).Reachable B.start c) :
    (∀ i, Acted c i → ∃ r, (i, r) ∈ (B.ledger c.shared).redeemed ∧
      r ∈ (B.ledger c.shared).issued ∧ Authorises E (procs i) r) ∧
      (∀ i j, Acted c i → Acted c j →
        (procs i).grant.effectReceipt = (procs j).grant.effectReceipt → i = j) ∧
      ∀ s : Finset ι, (∀ i ∈ s, Acted c i) → s.card ≤ (B.ledger c.shared).issued.length := by
  have hbalanced := (settled_of_reachable hB hc).balanced
  refine ⟨fun i hi => ?_, fun i j hi hj => eq_of_acted hB hcompact hc hi hj,
    fun s hs => hbalanced.card_le fun i hi => ?_⟩
  · obtain ⟨r, hr, hauth⟩ := authorised_of_acted hB hcompact hc hi
    exact ⟨r, hr, hbalanced.issued _ hr, hauth⟩
  · obtain ⟨r, hr, -⟩ := authorised_of_acted hB hcompact hc (hs i hi)
    exact ⟨r, hr⟩

end SingleUse

/-- One of the two processes has acted. -/
theorem single_use_hold : Acted holdBegun true ∧
    (∀ i, Acted holdBegun i → ∃ r, (i, r) ∈ holdBegun.shared.redeemed ∧
      r ∈ holdBegun.shared.issued ∧ Authorises holdNginxEvp holdProcess r) ∧
      (∀ i j, Acted holdBegun i → Acted holdBegun j →
        holdProcess.grant.effectReceipt = holdProcess.grant.effectReceipt → i = j) ∧
      ∀ s : Finset Bool, (∀ i ∈ s, Acted holdBegun i) →
        s.card ≤ holdBegun.shared.issued.length :=
  ⟨acted_holdBegun,
    single_use (lawful_ledger replyJansson fun _ => holdProcess) (fun _ => rfl) holdBegun_reachable⟩

end Pkgexec.Broker
