import Pkgexec.DecimalNumerals
import Pkgexec.DelimitedLists
import Pkgexec.JsonPrinting

/-!
# Printed JSON is read in one way

Without real numbers the compact form of a value ends where it ends: whatever follows it, as long
as that does not begin with a digit, value and rest are determined by the text. So two values that
are printed alike are the same value.
-/

namespace JsonValues.Json
open CStrings DecimalNumerals DelimitedLists

/-- The tree holds no real number; those are printed as the library sees fit. -/
inductive RealFree : Json → Prop where
  | null : RealFree .null
  | boolean (b : Bool) : RealFree (.boolean b)
  | integer (n : ℤ) : RealFree (.integer n)
  | string (s : List UInt8) : RealFree (.string s)
  | array {vs : List Json} (h : ∀ v ∈ vs, RealFree v) : RealFree (.array vs)
  | object {ms : List (CStr × Json)} (h : ∀ m ∈ ms, RealFree m.2) : RealFree (.object ms)

/-- What follows cannot be taken for another digit. -/
def Stops (x : List UInt8) : Prop := ∀ b, x.head? = some b → isDigit b = false

theorem stops_nil : Stops [] := by
  rintro b ⟨⟩

theorem stops_cons {b : UInt8} (h : isDigit b = false) (x : List UInt8) : Stops (b :: x) := by
  rintro c hc
  rwa [← Option.some_inj.mp hc]

theorem takeWhile_numeral (n : ℕ) {x : List UInt8} (hx : Stops x) :
    (numeral n ++ x).takeWhile isDigit = numeral n := by
  have hnumeral : (numeral n).takeWhile isDigit = numeral n :=
    List.takeWhile_eq_self_iff.mpr (numeral_spec n).1
  have hrest : x.takeWhile isDigit = [] := by
    cases x with
    | nil => rfl
    | cons b x => rw [List.takeWhile_cons_of_neg (by simp [hx b rfl])]
  rw [List.takeWhile_append, hnumeral, if_pos rfl, hrest, List.append_nil]

/-- A numeral is read as far as its digits go. -/
theorem numeral_append_inj {m n : ℕ} {x y : List UInt8} (hx : Stops x) (hy : Stops y)
    (h : numeral m ++ x = numeral n ++ y) : m = n ∧ x = y := by
  have hdigits := congrArg (List.takeWhile isDigit) h
  rw [takeWhile_numeral m hx, takeWhile_numeral n hy] at hdigits
  have hvalue := congrArg value hdigits
  rw [(numeral_spec m).2, (numeral_spec n).2] at hvalue
  subst hvalue
  exact ⟨rfl, List.append_cancel_left h⟩

theorem utf8EncodeChar_digit {c : Char} (h : c.isDigit = true) :
    String.utf8EncodeChar c = [.ofNat c.toNat] := by
  have hc : 48 ≤ c.val.toNat ∧ c.val.toNat ≤ 57 := by
    simp only [Char.isDigit, Bool.and_eq_true, decide_eq_true_eq] at h
    exact h
  rw [String.utf8EncodeChar, if_pos (by omega)]
  rfl

theorem repr_numeral (n : ℕ) : (Nat.repr n).toUTF8.data.toList = numeral n := by
  rw [repr_bytes, numeral]
  have hdigits : ∀ c ∈ Nat.toDigits 10 n, c.isDigit = true := fun c hc =>
    Nat.isDigit_of_mem_toDigits (by decide) (by decide) hc
  generalize Nat.toDigits 10 n = cs at hdigits
  induction cs with
  | nil => rfl
  | cons c cs ih =>
    rw [List.flatMap_cons, List.map_cons, utf8EncodeChar_digit (hdigits c List.mem_cons_self),
      ih fun d hd => hdigits d (List.mem_cons_of_mem c hd)]
    rfl

/-- An integer is printed as a numeral, with a minus sign if it is negative. -/
theorem compact_integer (n : ℤ) : (Json.integer n).compact =
    if 0 ≤ n then numeral n.toNat else 0x2d :: numeral (-n).toNat := by
  show (toString n).toUTF8.data.toList = _
  cases n with
  | ofNat n => exact repr_numeral n
  | negSucc n =>
    have hrepr : toString (Int.negSucc n) = "-" ++ Nat.repr (n + 1) := rfl
    rw [hrepr, if_neg (by omega)]
    simp only [String.toUTF8, String.toByteArray_append, ByteArray.data_append,
      Array.toList_append]
    exact congrArg _ (repr_numeral (n + 1))

theorem integer_append_inj {m n : ℤ} {x y : List UInt8} (hx : Stops x) (hy : Stops y)
    (h : (Json.integer m).compact ++ x = (Json.integer n).compact ++ y) : m = n ∧ x = y := by
  have hdash : ∀ (k : ℕ) (z t : List UInt8), Stops z → numeral k ++ z ≠ 0x2d :: t := by
    intro k z t hz heq
    obtain ⟨b, s, hb⟩ := List.exists_cons_of_ne_nil (numeral_ne_nil k)
    have hdigit := (numeral_spec k).1 b (hb ▸ List.mem_cons_self)
    rw [hb, List.cons_append] at heq
    rw [(List.cons.inj heq).1] at hdigit
    exact absurd hdigit (by decide)
  rw [compact_integer, compact_integer] at h
  by_cases hm : 0 ≤ m <;> by_cases hn : 0 ≤ n
  · rw [if_pos hm, if_pos hn] at h
    obtain ⟨hnat, hrest⟩ := numeral_append_inj hx hy h
    exact ⟨by omega, hrest⟩
  · rw [if_pos hm, if_neg hn] at h
    exact absurd h (hdash _ _ _ hx)
  · rw [if_neg hm, if_pos hn] at h
    exact absurd h.symm (hdash _ _ _ hy)
  · rw [if_neg hm, if_neg hn] at h
    obtain ⟨hnat, hrest⟩ := numeral_append_inj hx hy (List.cons.inj h).2
    exact ⟨by omega, hrest⟩

inductive Kind where
  | null
  | boolean
  | integer
  | string
  | array
  | object
  | other
  deriving DecidableEq

def kind : Json → Kind
  | .null => .null
  | .boolean _ => .boolean
  | .integer _ => .integer
  | .real _ => .other
  | .string _ => .string
  | .array _ => .array
  | .object _ => .object

/-- The kind is told by the first byte. -/
def kindOf (b : UInt8) : Kind :=
  if b = 0x6e then .null
  else if b = 0x74 ∨ b = 0x66 then .boolean
  else if b = 0x2d ∨ isDigit b then .integer
  else if b = 0x22 then .string
  else if b = 0x5b then .array
  else if b = 0x7b then .object
  else .other

theorem kindOf_digit {b : UInt8} (h : isDigit b = true) : kindOf b = .integer := by
  have hne : ∀ c, isDigit c = false → b ≠ c := by
    rintro c hc rfl
    rw [h] at hc
    cases hc
  rw [kindOf, if_neg (hne _ (by decide)), if_neg, if_pos (.inr h)]
  rw [not_or]
  exact ⟨hne _ (by decide), hne _ (by decide)⟩

theorem head_compact {v : Json} (hv : RealFree v) :
    ∃ b s, v.compact = b :: s ∧ kindOf b = v.kind ∧ v.kind ≠ .other := by
  cases hv with
  | null => exact ⟨_, _, rfl, by decide, by simp [kind]⟩
  | boolean b => cases b <;> exact ⟨_, _, rfl, by decide, by simp [kind]⟩
  | integer n =>
    rw [compact_integer]
    split
    · obtain ⟨b, s, hb⟩ := List.exists_cons_of_ne_nil (numeral_ne_nil n.toNat)
      have hdigit := (numeral_spec n.toNat).1 b (hb ▸ List.mem_cons_self)
      exact ⟨b, s, hb, kindOf_digit hdigit, by simp [kind]⟩
    · exact ⟨_, _, rfl, rfl, by simp [kind]⟩
  | string s => exact ⟨_, _, by rw [compact_string]; rfl, rfl, by simp [kind]⟩
  | array h => exact ⟨_, _, by rw [compact]; rfl, rfl, by simp [kind]⟩
  | object h => exact ⟨_, _, by rw [compact]; rfl, rfl, by simp [kind]⟩

/-- Values of two kinds are printed differently from the first byte on. -/
theorem kind_eq {v w : Json} (hv : RealFree v) (hw : RealFree w) {x y : List UInt8}
    (h : v.compact ++ x = w.compact ++ y) : v.kind = w.kind := by
  obtain ⟨b, s, hb, hkind, -⟩ := head_compact hv
  obtain ⟨c, t, hc, hkind', -⟩ := head_compact hw
  rw [hb, hc, List.cons_append, List.cons_append] at h
  rw [← hkind, ← hkind', (List.cons.inj h).1]

/-- No value begins with a closing bracket. -/
theorem compact_ne {v : Json} (hv : RealFree v) {b : UInt8} (hb : kindOf b = .other)
    (x y : List UInt8) : v.compact ++ x ≠ b :: y := by
  obtain ⟨c, s, hc, hkind, hne⟩ := head_compact hv
  intro h
  rw [hc, List.cons_append] at h
  rw [(List.cons.inj h).1, hb] at hkind
  exact hne hkind.symm

section Items

variable {α : Type*} {p : α → List UInt8} {close : UInt8}

/-- Items that are each read in one way, between commas and up to a closing byte. -/
theorem join_append_inj {as bs : List α} {x y : List UInt8} (hdigit : isDigit close = false)
    (hcomma : close ≠ 0x2c) (hfirst : ∀ a ∈ as ++ bs, ∀ x y, p a ++ x ≠ close :: y)
    (hdet : ∀ a ∈ as, ∀ b ∈ bs, ∀ x y, Stops x → Stops y → p a ++ x = p b ++ y → a = b ∧ x = y)
    (h : join 0x2c (as.map p) ++ close :: x = join 0x2c (bs.map p) ++ close :: y) :
    as = bs ∧ x = y := by
  have htail : ∀ (cs : List α) (z : List UInt8), ∃ t, Stops t ∧
      t = (cs.map p).flatMap (0x2c :: ·) ++ close :: z := by
    intro cs z
    refine ⟨_, ?_, rfl⟩
    cases cs with
    | nil => exact stops_cons hdigit z
    | cons c cs => exact stops_cons (by decide) _
  induction as generalizing bs with
  | nil =>
    cases bs with
    | nil => exact ⟨rfl, (List.cons.inj h).2⟩
    | cons b bs =>
      rw [List.map_cons, join_cons, List.append_assoc] at h
      exact absurd h.symm (hfirst b (by simp) _ _)
  | cons a as ih =>
    cases bs with
    | nil =>
      rw [List.map_cons, join_cons, List.append_assoc] at h
      exact absurd h (hfirst a (by simp) _ _)
    | cons b bs =>
      obtain ⟨t, ht, heq⟩ := htail as x
      obtain ⟨t', ht', heq'⟩ := htail bs y
      rw [List.map_cons, List.map_cons, join_cons, join_cons, List.append_assoc,
        List.append_assoc, ← heq, ← heq'] at h
      obtain ⟨rfl, rfl⟩ := hdet a List.mem_cons_self b List.mem_cons_self t t' ht ht' h
      have hrest := heq.symm.trans heq'
      cases as with
      | nil =>
        cases bs with
        | nil => exact ⟨rfl, (List.cons.inj hrest).2⟩
        | cons c bs => exact absurd (List.cons.inj hrest).1 hcomma
      | cons c as =>
        cases bs with
        | nil => exact absurd (List.cons.inj hrest).1.symm hcomma
        | cons d bs =>
          have hjoin : join 0x2c ((c :: as).map p) ++ close :: x =
              join 0x2c ((d :: bs).map p) ++ close :: y := by
            simp only [List.map_cons, List.flatMap_cons, List.cons_append, List.cons.injEq,
              true_and] at hrest
            simpa only [List.map_cons, join_cons, List.append_assoc] using hrest
          have hfirst' : ∀ e ∈ c :: as ++ d :: bs, ∀ u t, p e ++ u ≠ close :: t := fun e he =>
            hfirst e (by simp only [List.mem_append, List.mem_cons] at he ⊢; tauto)
          obtain ⟨hsame, hxy⟩ := ih hfirst'
            (fun e he f hf => hdet e (List.mem_cons_of_mem a he) f (List.mem_cons_of_mem a hf))
            hjoin
          exact ⟨congrArg (a :: ·) hsame, hxy⟩

end Items

theorem compactElements_join (vs : List Json) :
    compactElements vs = join 0x2c (vs.map compact) := by
  induction vs with
  | nil => rfl
  | cons v vs ih =>
    cases vs with
    | nil => simp [compactElements]
    | cons w ws =>
      rw [compactElements, ih, List.map_cons, List.map_cons, List.map_cons, join_cons_cons]
      simp

/-- A member as it is printed. -/
def memberText (m : CStr × Json) : List UInt8 := quoted m.1.bytes ++ 0x3a :: m.2.compact

theorem compactMembers_join (ms : List (CStr × Json)) :
    compactMembers ms = join 0x2c (ms.map memberText) := by
  induction ms with
  | nil => rfl
  | cons m ms ih =>
    cases ms with
    | nil => simp [compactMembers, memberText]
    | cons w ws =>
      rw [compactMembers, ih, List.map_cons, List.map_cons, List.map_cons, join_cons_cons]
      · simp [memberText]
      · simp

/-- A value is determined by its text. -/
theorem compact_append_inj {v w : Json} (hv : RealFree v) (hw : RealFree w) {x y : List UInt8}
    (hx : Stops x) (hy : Stops y) (h : v.compact ++ x = w.compact ++ y) : v = w ∧ x = y := by
  have hkind := kind_eq hv hw h
  induction hv generalizing w x y with
  | null =>
    cases hw with
    | null => exact ⟨rfl, List.append_cancel_left h⟩
    | _ => simp [kind] at hkind
  | boolean b =>
    cases hw with
    | boolean c =>
      cases b <;> cases c
      · exact ⟨rfl, List.append_cancel_left h⟩
      · exact absurd (List.cons.inj h).1 (by decide)
      · exact absurd (List.cons.inj h).1 (by decide)
      · exact ⟨rfl, List.append_cancel_left h⟩
    | _ => simp [kind] at hkind
  | integer m =>
    cases hw with
    | integer n =>
      obtain ⟨rfl, rfl⟩ := integer_append_inj hx hy h
      exact ⟨rfl, rfl⟩
    | _ => simp [kind] at hkind
  | string s =>
    cases hw with
    | string t =>
      rw [compact_string, compact_string] at h
      obtain ⟨rfl, rfl⟩ := quoted_append_inj h
      exact ⟨rfl, rfl⟩
    | _ => simp [kind] at hkind
  | @array vs hvs ih =>
    cases hw with
    | @array ws hws =>
      rw [compact, compact, compactElements_join, compactElements_join] at h
      simp only [List.cons_append, List.append_assoc, List.nil_append, List.cons.injEq,
        true_and] at h
      have hfirst : ∀ a ∈ vs ++ ws, ∀ x y, a.compact ++ x ≠ 0x5d :: y := fun a ha x y =>
        compact_ne ((List.mem_append.mp ha).elim (hvs a) (hws a)) (by decide) x y
      have hdet : ∀ a ∈ vs, ∀ b ∈ ws, ∀ x y, Stops x → Stops y →
          a.compact ++ x = b.compact ++ y → a = b ∧ x = y := fun a ha b hb x y hx hy hab =>
        ih a ha (hws b hb) hx hy hab (kind_eq (hvs a ha) (hws b hb) hab)
      obtain ⟨rfl, rfl⟩ := join_append_inj (by decide) (by decide) hfirst hdet h
      exact ⟨rfl, rfl⟩
    | _ => simp [kind] at hkind
  | @object ms hms ih =>
    cases hw with
    | @object ns hns =>
      rw [compact, compact, compactMembers_join, compactMembers_join] at h
      simp only [List.cons_append, List.append_assoc, List.nil_append, List.cons.injEq,
        true_and] at h
      have hfirst : ∀ a ∈ ms ++ ns, ∀ x y, memberText a ++ x ≠ 0x7d :: y := fun a _ x y hquote =>
        absurd (List.cons.inj hquote).1 (by decide)
      have hdet : ∀ a ∈ ms, ∀ b ∈ ns, ∀ x y, Stops x → Stops y →
          memberText a ++ x = memberText b ++ y → a = b ∧ x = y := by
        intro a ha b hb x y hx hy hab
        simp only [memberText, List.append_assoc, List.cons_append] at hab
        obtain ⟨hkey, hrest⟩ := quoted_append_inj hab
        have hvalue := (List.cons.inj hrest).2
        obtain ⟨hsame, hxy⟩ :=
          ih a ha (hns b hb) hx hy hvalue (kind_eq (hms a ha) (hns b hb) hvalue)
        exact ⟨Prod.ext (CStr.ext hkey) hsame, hxy⟩
      obtain ⟨rfl, rfl⟩ := join_append_inj (by decide) (by decide) hfirst hdet h
      exact ⟨rfl, rfl⟩
    | _ => simp [kind] at hkind

/-- Two values that are printed alike are the same value. -/
theorem compact_injective {v w : Json} (hv : RealFree v) (hw : RealFree w)
    (h : v.compact = w.compact) : v = w :=
  (compact_append_inj hv hw stops_nil stops_nil (by rw [h])).1

end JsonValues.Json
