import Pkgexec.FieldAlphabet

/-!
# The field checks on their memory

`utf8_valid` and `field_ok` walk a pointer over the string. Here every dereference is a read of
the block that ends with the terminator, and a read behind it has no value: on each string the
walk has a value, which is the one of the checks on its bytes.
-/

namespace Pkgexec.PlanDigest
open CStrings Utf8Encoding

section Walks

variable (mem : List UInt8)

/-- `*p`. -/
def load (p : ℕ) : Option UInt8 := mem[p]?

/-- The loop over the continuation bytes, `p` on the byte before: `cp` and `p` behind them, or
the `return 0`. -/
def utf8RestAt : ℕ → ℕ → ℕ → Option (Option (ℕ × ℕ))
  | 0, cp, p => some (some (cp, p))
  | n + 1, cp, p => do
    let p := p + 1
    let c ← load mem p
    if c &&& 0xC0 ≠ 0x80 then return none
    else utf8RestAt n (cp <<< 6 ||| (c &&& 0x3F).toNat) p

/-- `utf8_valid` from `p` on. -/
def utf8ValidAt : ℕ → ℕ → Option Bool
  | 0, _ => none
  | fuel + 1, p => do
    let c ← load mem p
    if c = 0 then return true
    else if c < 0x80 then utf8ValidAt fuel (p + 1)
    else
      match utf8Lead c with
      | none => return false
      | some (n, min, bits) =>
        match ← utf8RestAt mem n bits p with
        | none => return false
        | some (cp, p) =>
          if cp < min ∨ cp > 0x10FFFF ∨ (cp ≥ 0xD800 ∧ cp ≤ 0xDFFF) then return false
          else utf8ValidAt fuel (p + 1)

/-- The loop of `field_ok` over the separators and delimiters. -/
def unreservedAt : ℕ → ℕ → Option Bool
  | 0, _ => none
  | fuel + 1, p => do
    let c ← load mem p
    if c = 0 then return true
    else if c = us ∨ c = rs ∨ c = comma ∨ c = equals then return false
    else unreservedAt fuel (p + 1)

/-- `field_ok` of a string that is there. -/
def fieldOkAt (fuel : ℕ) : Option Bool := do
  if ← unreservedAt mem fuel 0 then utf8ValidAt mem fuel 0 else return false

end Walks

theorem load_cons (front : List UInt8) (c : UInt8) (rest : List UInt8) :
    load (front ++ c :: rest) front.length = some c := by
  rw [load, List.getElem?_append_right (Nat.le_refl _), Nat.sub_self]
  rfl

/-- The terminator is no continuation byte, so the inner loop stops there. -/
theorem utf8RestAt_eq (n cp : ℕ) {p : ℕ} {front : List UInt8} (rest : List UInt8)
    (hp : p + 1 = front.length) :
    utf8RestAt (front ++ (rest ++ [0])) n cp p =
      some ((utf8Rest n cp rest).map fun r => (r.1, p + n)) := by
  induction n generalizing front rest cp p with
  | zero => rfl
  | succ n ih =>
    rw [utf8RestAt, hp]
    cases rest with
    | nil =>
      rw [List.nil_append, load_cons]
      rfl
    | cons c rest =>
      rw [List.cons_append, load_cons, utf8Rest]
      show (if c &&& 0xC0 ≠ 0x80 then _ else _) = _
      by_cases hc : c &&& 0xC0 = 0x80
      · have hfront : front.length + 1 = (front ++ [c]).length := by
          rw [List.length_append, List.length_singleton]
        have hstep := ih (cp <<< 6 ||| (c &&& 0x3F).toNat) rest hfront
        rw [List.append_assoc, List.singleton_append] at hstep
        rw [if_neg (not_not.mpr hc), if_pos hc, hstep, ← hp, Nat.add_right_comm, Nat.add_assoc]
      · rw [if_pos hc, if_neg hc]
        rfl

theorem utf8ValidAt_eq (front : List UInt8) {rest : List UInt8} {fuel : ℕ}
    (hfuel : rest.length ≤ fuel) (hrest : 0 ∉ rest) :
    utf8ValidAt (front ++ (rest ++ [0])) (fuel + 1) front.length = some (utf8Loop fuel rest) := by
  induction fuel generalizing front rest with
  | zero =>
    obtain rfl : rest = [] := List.eq_nil_of_length_eq_zero (by omega)
    rw [utf8ValidAt, List.nil_append, load_cons]
    rfl
  | succ fuel ih =>
    cases rest with
    | nil =>
      rw [utf8ValidAt, List.nil_append, load_cons]
      rfl
    | cons c rest =>
      rw [List.length_cons] at hfuel
      obtain ⟨hc, hrest⟩ := not_or.mp (mt List.mem_cons.mpr hrest)
      rw [utf8ValidAt, List.cons_append, load_cons, utf8Loop]
      show (if c = 0 then _ else _) = _
      rw [if_neg (Ne.symm hc)]
      by_cases hascii : c < 0x80
      · have hstep := ih (front ++ [c]) (Nat.le_of_succ_le_succ hfuel) hrest
        rw [List.append_assoc, List.singleton_append, List.length_append,
          List.length_singleton] at hstep
        rw [if_pos hascii, if_pos hascii, hstep]
      rw [if_neg hascii, if_neg hascii]
      cases utf8Lead c with
      | none => rfl
      | some lead =>
        obtain ⟨n, min, bits⟩ := lead
        have hfront : front.length + 1 = (front ++ [c]).length := by
          rw [List.length_append, List.length_singleton]
        have hwalk := utf8RestAt_eq n bits rest hfront
        rw [List.append_assoc, List.singleton_append] at hwalk
        dsimp only
        rw [hwalk]
        cases htail : utf8Rest n bits rest with
        | none => rfl
        | some tail =>
          obtain ⟨cp, rest'⟩ := tail
          obtain ⟨bs, rfl, rfl, -, -⟩ := utf8Rest_eq_some_iff.mp htail
          rw [List.length_append] at hfuel
          have hfuel' : rest'.length ≤ fuel := by omega
          have hstep := ih (front ++ c :: bs) hfuel'
            (fun hmem => hrest (List.mem_append_right bs hmem))
          rw [List.append_assoc, List.cons_append, List.length_append, List.length_cons,
            ← List.append_assoc, ← Nat.add_assoc] at hstep
          show (if _ then _ else _) = some (if _ then _ else _)
          rw [hstep]
          split
          · rfl
          · rfl

theorem unreservedAt_eq (front : List UInt8) {rest : List UInt8} {fuel : ℕ}
    (hfuel : rest.length ≤ fuel) (hrest : 0 ∉ rest) :
    unreservedAt (front ++ (rest ++ [0])) (fuel + 1) front.length =
      some (rest.all fun c => c ≠ us ∧ c ≠ rs ∧ c ≠ comma ∧ c ≠ equals) := by
  induction rest generalizing front fuel with
  | nil =>
    rw [unreservedAt, List.nil_append, load_cons]
    rfl
  | cons c rest ih =>
    rw [List.length_cons] at hfuel
    obtain ⟨fuel, rfl⟩ : ∃ k, fuel = k + 1 := ⟨fuel - 1, by omega⟩
    obtain ⟨hc, hrest⟩ := not_or.mp (mt List.mem_cons.mpr hrest)
    have hstep := ih (front ++ [c]) (Nat.le_of_succ_le_succ hfuel) hrest
    rw [List.append_assoc, List.singleton_append, List.length_append,
      List.length_singleton] at hstep
    rw [unreservedAt, List.cons_append, load_cons, List.all_cons]
    show (if c = 0 then _ else if _ then _ else _) = _
    rw [if_neg (Ne.symm hc), hstep]
    have hhead : (c ≠ us ∧ c ≠ rs ∧ c ≠ comma ∧ c ≠ equals) ↔
        ¬ (c = us ∨ c = rs ∨ c = comma ∨ c = equals) := by
      simp only [not_or, ne_eq]
    by_cases hreserved : c = us ∨ c = rs ∨ c = comma ∨ c = equals
    · rw [if_pos hreserved, decide_eq_false (fun h => hhead.mp h hreserved), Bool.false_and]
      rfl
    · rw [if_neg hreserved, decide_eq_true (hhead.mpr hreserved), Bool.true_and]

/-- On every string the walks stay inside its block, terminator included, and have the values of
the checks; and the checks accept exactly the concatenations of encoded scalar values, the
second where none of the four bytes with a meaning of their own is among them. -/
theorem fieldOk_exact (s : CStr) :
    utf8ValidAt (s.bytes ++ [0]) (s.length + 1) 0 = some (utf8Valid s) ∧
      fieldOkAt (s.bytes ++ [0]) (s.length + 1) = some (fieldOk (some s)) ∧
      (utf8Valid s = true ↔ ∃ cs : List Char, s.bytes = cs.flatMap String.utf8EncodeChar) ∧
      (fieldOk (some s) = true ↔
        (∃ cs : List Char, s.bytes = cs.flatMap String.utf8EncodeChar) ∧
          ∀ c ∈ ([0x1f, 0x1e, 0x2c, 0x3d] : List UInt8), c ∉ s.bytes) := by
  have hvalid : utf8ValidAt (s.bytes ++ [0]) (s.length + 1) 0 = some (utf8Valid s) :=
    utf8ValidAt_eq [] (Nat.le_refl _) s.noNul
  have hunreserved := unreservedAt_eq [] (Nat.le_refl s.bytes.length) s.noNul
  refine ⟨hvalid, ?_, utf8Valid_iff s, ?_⟩
  · rw [fieldOkAt, fieldOk]
    change unreservedAt (s.bytes ++ [0]) (s.length + 1) 0 = _ at hunreserved
    rw [hunreserved]
    cases s.bytes.all fun c => c ≠ us ∧ c ≠ rs ∧ c ≠ comma ∧ c ≠ equals with
    | true => exact hvalid
    | false => rfl
  · rw [fieldOk_iff, and_comm]
    rfl

end Pkgexec.PlanDigest
