import Pkgexec.PlanDigest

/-!
# Policy over a resolved plan

The ownership predicate and the whole-plan check of `policy.c`: ownership first, then holds,
then the removal of essential or protected packages.
-/

namespace Pkgexec.Policy
open CStrings PlanDigest

def dot : UInt8 := 0x2e

/-- The scan after `r-`: letters, a dash, then letters, digits and dots to the end. -/
def ownedTail (start : List UInt8) : Bool :=
  let p := start.dropWhile isLower
  if p.length = start.length ∨ p.head? ≠ some dash then false
  else
    let start := p.tail
    let p := start.dropWhile fun c => isLower c || isDigit c || c == dot
    if p.length = start.length then false else p.isEmpty

def pkgxIsRaptOwned (name : CStr) : Bool :=
  match name.bytes with
  | c₀ :: c₁ :: rest => if c₀ ≠ 0x72 ∨ c₁ ≠ dash then false else ownedTail rest
  | _ => false

/-- The bytes the predicate can accept. -/
def ownedByte (c : UInt8) : Bool := isLower c || isDigit c || c == dot || c == dash

def hasFlag (r : TxnRecord) (flag : CStr) : Bool := r.flags.any fun f => f = some flag

def isRemoval (action : Option CStr) : Bool :=
  action = some (.lit "remove") || action = some (.lit "purge")

inductive PolicyResult where
  | ok
  | notOwned
  | held
  | isProtected
  deriving DecidableEq

/-- A record whose package is rapt-owned; a `NULL` package is not. -/
def ownedRecord (r : TxnRecord) : Bool := r.package.any pkgxIsRaptOwned

def heldRecord (r : TxnRecord) : Bool := hasFlag r (.lit "hold")

def protectedRecord (r : TxnRecord) : Bool :=
  isRemoval r.action && (hasFlag r (.lit "essential") || hasFlag r (.lit "protected"))

/-- The result and `*offender`. -/
def pkgxPolicyCheck (recs : List TxnRecord) : PolicyResult × Option CStr :=
  match recs.find? ownedRecord with
  | some r => (.notOwned, r.package)
  | none =>
    match recs.find? heldRecord with
    | some r => (.held, r.package)
    | none =>
      match recs.find? protectedRecord with
      | some r => (.isProtected, r.package)
      | none => (.ok, none)

/-- The check passes exactly when no record violates any of the three rules. -/
theorem pkgxPolicyCheck_ok_iff {recs : List TxnRecord} :
    (pkgxPolicyCheck recs).1 = .ok ↔
      ∀ r ∈ recs, ownedRecord r = false ∧ heldRecord r = false ∧ protectedRecord r = false := by
  have hnone : ∀ p : TxnRecord → Bool, recs.find? p = none ↔ ∀ r ∈ recs, p r = false := by
    intro p
    simp [List.find?_eq_none]
  simp only [forall_and, ← hnone]
  rw [pkgxPolicyCheck]
  cases recs.find? ownedRecord <;> cases recs.find? heldRecord <;>
    cases recs.find? protectedRecord <;> simp

/-- What a refusal says of one record. -/
def Violates : PolicyResult → TxnRecord → Prop
  | .ok, _ => False
  | .notOwned, r => ∃ name, r.package = some name ∧ pkgxIsRaptOwned name = true
  | .held, r => some (.lit "hold") ∈ r.flags
  | .isProtected, r =>
    (r.action = some (.lit "remove") ∨ r.action = some (.lit "purge")) ∧
      (some (.lit "essential") ∈ r.flags ∨ some (.lit "protected") ∈ r.flags)

def Violated (rule : PolicyResult) (recs : List TxnRecord) : Prop :=
  ∃ r ∈ recs, Violates rule r

/-- The package of the first record that violates the rule. -/
def FirstOffender (rule : PolicyResult) (recs : List TxnRecord) (offender : Option CStr) : Prop :=
  ∃ before r after, recs = before ++ r :: after ∧ Violates rule r ∧
    (∀ r' ∈ before, ¬ Violates rule r') ∧ offender = r.package

theorem hasFlag_iff {r : TxnRecord} {flag : CStr} :
    hasFlag r flag = true ↔ some flag ∈ r.flags := by
  rw [hasFlag, List.any_eq_true]
  simp

theorem ownedRecord_iff {r : TxnRecord} : ownedRecord r = true ↔ Violates .notOwned r := by
  rw [ownedRecord, Option.any_eq_true]
  rfl

theorem heldRecord_iff {r : TxnRecord} : heldRecord r = true ↔ Violates .held r :=
  hasFlag_iff

theorem protectedRecord_iff {r : TxnRecord} :
    protectedRecord r = true ↔ Violates .isProtected r := by
  rw [protectedRecord, Bool.and_eq_true, Bool.or_eq_true, hasFlag_iff, hasFlag_iff, isRemoval,
    Bool.or_eq_true, decide_eq_true_eq, decide_eq_true_eq]
  rfl

section Passes

variable {rule : PolicyResult} {check : TxnRecord → Bool} {recs : List TxnRecord}

/-- A pass that finds nothing. -/
theorem not_violated_of_find (hcheck : ∀ r, check r = true ↔ Violates rule r)
    (h : recs.find? check = none) : ¬ Violated rule recs := by
  rintro ⟨r, hr, hviolates⟩
  exact List.find?_eq_none.mp h r hr ((hcheck r).mpr hviolates)

/-- A pass that stops at `r`. -/
theorem firstOffender_of_find (hcheck : ∀ r, check r = true ↔ Violates rule r) {r : TxnRecord}
    (h : recs.find? check = some r) : FirstOffender rule recs r.package := by
  obtain ⟨hr, before, after, hrecs, hbefore⟩ := List.find?_eq_some_iff_append.mp h
  refine ⟨before, r, after, hrecs, (hcheck r).mp hr, ?_, rfl⟩
  intro r' hr' hviolates
  have hnot := hbefore r' hr'
  rw [(hcheck r').mpr hviolates] at hnot
  cases hnot

theorem FirstOffender.violated {offender : Option CStr} (h : FirstOffender rule recs offender) :
    Violated rule recs := by
  obtain ⟨before, r, after, rfl, hr, -, -⟩ := h
  exact ⟨r, List.mem_append_right before List.mem_cons_self, hr⟩

end Passes

/-- The verdict as the rules give it, the earlier rule before the later one. -/
inductive Verdict (recs : List TxnRecord) : PolicyResult × Option CStr → Prop where
  | notOwned {offender} (h : FirstOffender .notOwned recs offender) :
      Verdict recs (.notOwned, offender)
  | held {offender} (howned : ¬ Violated .notOwned recs) (h : FirstOffender .held recs offender) :
      Verdict recs (.held, offender)
  | isProtected {offender} (howned : ¬ Violated .notOwned recs) (hheld : ¬ Violated .held recs)
      (h : FirstOffender .isProtected recs offender) : Verdict recs (.isProtected, offender)
  | ok (howned : ¬ Violated .notOwned recs) (hheld : ¬ Violated .held recs)
      (hprotected : ¬ Violated .isProtected recs) : Verdict recs (.ok, none)

theorem pkgxPolicyCheck_verdict (recs : List TxnRecord) : Verdict recs (pkgxPolicyCheck recs) := by
  rw [pkgxPolicyCheck]
  cases howned : recs.find? ownedRecord with
  | some r => exact .notOwned (firstOffender_of_find (fun _ => ownedRecord_iff) howned)
  | none =>
    replace howned := not_violated_of_find (fun _ => ownedRecord_iff) howned
    cases hheld : recs.find? heldRecord with
    | some r => exact .held howned (firstOffender_of_find (fun _ => heldRecord_iff) hheld)
    | none =>
      replace hheld := not_violated_of_find (fun _ => heldRecord_iff) hheld
      cases hprotected : recs.find? protectedRecord with
      | some r =>
        exact .isProtected howned hheld
          (firstOffender_of_find (fun _ => protectedRecord_iff) hprotected)
      | none =>
        exact .ok howned hheld (not_violated_of_find (fun _ => protectedRecord_iff) hprotected)

/-- Which rules are violated decides the class of the verdict. -/
structure Classified (recs : List TxnRecord) (result : PolicyResult) : Prop where
  notOwned : result = .notOwned ↔ Violated .notOwned recs
  held : result = .held ↔ ¬ Violated .notOwned recs ∧ Violated .held recs
  isProtected : result = .isProtected ↔
    ¬ Violated .notOwned recs ∧ ¬ Violated .held recs ∧ Violated .isProtected recs
  ok : result = .ok ↔
    ¬ Violated .notOwned recs ∧ ¬ Violated .held recs ∧ ¬ Violated .isProtected recs

theorem Verdict.classified {recs : List TxnRecord} {out : PolicyResult × Option CStr}
    (h : Verdict recs out) : Classified recs out.1 := by
  cases h with
  | notOwned h =>
    have hviolated := h.violated
    constructor <;> simp [hviolated]
  | held howned h =>
    have hviolated := h.violated
    constructor <;> simp [howned, hviolated]
  | isProtected howned hheld h =>
    have hviolated := h.violated
    constructor <;> simp [howned, hheld, hviolated]
  | ok howned hheld hprotected => constructor <;> simp [howned, hheld, hprotected]

theorem Verdict.offender {recs : List TxnRecord} {out : PolicyResult × Option CStr}
    (h : Verdict recs out) :
    out.1 = .ok ∧ out.2 = none ∨ out.1 ≠ .ok ∧ FirstOffender out.1 recs out.2 := by
  cases h with
  | notOwned h => exact .inr ⟨nofun, h⟩
  | held _ h => exact .inr ⟨nofun, h⟩
  | isProtected _ _ h => exact .inr ⟨nofun, h⟩
  | ok => exact .inl ⟨rfl, rfl⟩

/-- The same record with its flags in some other order. -/
def Reflagged (r r' : TxnRecord) : Prop := ∃ flags, r.flags.Perm flags ∧ r' = { r with flags }

/-- The same records in some other order, each with its flags in some other order. -/
def Shuffled (recs recs' : List TxnRecord) : Prop :=
  ∃ mid, recs.Perm mid ∧ List.Forall₂ Reflagged mid recs'

theorem Reflagged.violates {r r' : TxnRecord} (h : Reflagged r r') (rule : PolicyResult) :
    Violates rule r ↔ Violates rule r' := by
  obtain ⟨flags, hperm, rfl⟩ := h
  cases rule with
  | ok => rfl
  | notOwned => rfl
  | held => exact hperm.mem_iff
  | isProtected => exact and_congr_right fun _ => or_congr hperm.mem_iff hperm.mem_iff

theorem Shuffled.violated {recs recs' : List TxnRecord} (h : Shuffled recs recs')
    (rule : PolicyResult) : Violated rule recs ↔ Violated rule recs' := by
  obtain ⟨mid, hperm, hflags⟩ := h
  have hmid : Violated rule recs ↔ Violated rule mid :=
    exists_congr fun r => and_congr_left fun _ => hperm.mem_iff
  rw [hmid]
  clear hperm hmid
  induction hflags with
  | nil => rfl
  | cons hhead _ ih =>
    rw [Violated, Violated, List.exists_mem_cons_iff, List.exists_mem_cons_iff]
    exact or_congr (hhead.violates rule) ih

theorem Classified.unique {recs recs' : List TxnRecord} {result result' : PolicyResult}
    (h : Classified recs result) (h' : Classified recs' result')
    (hrules : ∀ rule, Violated rule recs ↔ Violated rule recs') : result = result' := by
  cases hresult : result' with
  | notOwned => rwa [h.notOwned, hrules, ← h'.notOwned]
  | held => rwa [h.held, hrules, hrules, ← h'.held]
  | isProtected => rwa [h.isProtected, hrules, hrules, hrules, ← h'.isProtected]
  | ok => rwa [h.ok, hrules, hrules, hrules, ← h'.ok]

/-- More records do not make a rule respected. -/
theorem Violated.append {rule : PolicyResult} {recs : List TxnRecord} (h : Violated rule recs)
    (more : List TxnRecord) : Violated rule (recs ++ more) := by
  obtain ⟨r, hr, hviolates⟩ := h
  exact ⟨r, List.mem_append_left more hr, hviolates⟩

theorem refused_append {recs : List TxnRecord} (more : List TxnRecord)
    (h : (pkgxPolicyCheck recs).1 ≠ .ok) : (pkgxPolicyCheck (recs ++ more)).1 ≠ .ok := by
  have hrecs := (pkgxPolicyCheck_verdict recs).classified
  have hall := (pkgxPolicyCheck_verdict (recs ++ more)).classified
  intro hok
  obtain ⟨howned, hheld, hprotected⟩ := hall.ok.mp hok
  exact h (hrecs.ok.mpr ⟨mt (Violated.append · more) howned, mt (Violated.append · more) hheld,
    mt (Violated.append · more) hprotected⟩)

/-- The check is complete: its class is that of the first rule that some record violates,
wherever that record stands, and the offender is the first such record. Neither the order of
the records nor that of their flags matters for the class, and a refused plan stays refused. -/
theorem pkgxPolicyCheck_complete (recs : List TxnRecord) :
    Classified recs (pkgxPolicyCheck recs).1 ∧
      ((pkgxPolicyCheck recs).1 = .ok ∧ (pkgxPolicyCheck recs).2 = none ∨
        (pkgxPolicyCheck recs).1 ≠ .ok ∧
          FirstOffender (pkgxPolicyCheck recs).1 recs (pkgxPolicyCheck recs).2) ∧
      (∀ recs', Shuffled recs recs' → (pkgxPolicyCheck recs').1 = (pkgxPolicyCheck recs).1) ∧
      ∀ more, (pkgxPolicyCheck recs).1 ≠ .ok → (pkgxPolicyCheck (recs ++ more)).1 ≠ .ok := by
  have hverdict := pkgxPolicyCheck_verdict recs
  refine ⟨hverdict.classified, hverdict.offender, ?_, fun more => refused_append more⟩
  intro recs' hshuffled
  exact (pkgxPolicyCheck_verdict recs').classified.unique hverdict.classified
    fun rule => (hshuffled.violated rule).symm

/-- A held package, flagged in either order. -/
theorem held_either_order :
    let record (flags : List (Option CStr)) : TxnRecord :=
      ⟨some (.lit "bash"), none, some (.lit "remove"), none, none, flags⟩
    (pkgxPolicyCheck [record [some (.lit "hold"), some (.lit "essential")]]).1 =
      (pkgxPolicyCheck [record [some (.lit "essential"), some (.lit "hold")]]).1 := by
  intro record
  exact (pkgxPolicyCheck_complete [record [some (.lit "essential"), some (.lit "hold")]]).2.2.1 _
    ⟨_, .refl _, .cons ⟨_, .swap _ _ [], rfl⟩ .nil⟩

end Pkgexec.Policy
