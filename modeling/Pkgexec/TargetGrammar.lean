import Pkgexec.CharClasses
import Pkgexec.RecordKinds
import Pkgexec.RequestParsing

/-!
# The grammar of a target

`name_ok` splits at the first colon and runs one loop on each side. It accepts exactly a
regular language, up to the bound on the length. The names it accepts pass the field check of the
encoders, are plain ASCII and few, so their resource can always be built and printed.
-/

namespace Pkgexec.Request
open CStrings CharClasses DelimitedLists JsonValues PlanDigest
open scoped Computability

/-- `[a-z0-9]`. -/
def leadByte (c : UInt8) : Bool := isLower c || isDigit c

/-- A byte of the name part. -/
def nameByte (c : UInt8) : Bool :=
  isLower c || isDigit c || c = 0x2b || c = 0x2e || c = dash

def archByte (c : UInt8) : Bool := isLower c || isDigit c || c = dash

/-- `[a-z0-9][a-z0-9+.-]+`. -/
def nameGrammar : Language UInt8 := oneOf leadByte * (oneOf nameByte * (oneOf nameByte)∗)

/-- `[a-z0-9][a-z0-9-]*`. -/
def archGrammar : Language UInt8 := oneOf leadByte * (oneOf archByte)∗

/-- A name, or a name, a colon and an architecture. -/
def targetGrammar : Language UInt8 :=
  nameGrammar + nameGrammar * (oneOf (· = colon) * archGrammar)

theorem allChars_false {ok : Bool → UInt8 → Bool} {s : List UInt8} :
    allChars ok false s = true ↔ ∀ c ∈ s, ok false c = true := by
  induction s with
  | nil => simp [allChars]
  | cons c s ih => rw [allChars, Bool.and_eq_true, ih, List.forall_mem_cons]

theorem nameChar_eq (first : Bool) (c : UInt8) :
    nameChar first c = if first then leadByte c else nameByte c := by
  cases first with
  | true => simp [nameChar, leadByte]
  | false => simp [nameChar, nameByte, Bool.or_assoc]

theorem archChar_eq (first : Bool) (c : UInt8) :
    archChar first c = if first then leadByte c else archByte c := by
  cases first with
  | true => simp [archChar, leadByte]
  | false => simp [archChar, archByte]

theorem mem_nameGrammar {name : List UInt8} :
    name ∈ nameGrammar ↔ 2 ≤ name.length ∧ allChars nameChar true name = true := by
  match name with
  | [] => exact iff_of_false nil_not_mem_oneOf_mul (by simp)
  | [c] =>
    rw [nameGrammar, cons_mem_oneOf_mul]
    exact iff_of_false (fun h => nil_not_mem_oneOf_mul h.2) (by simp)
  | c :: d :: rest =>
    rw [nameGrammar, cons_mem_oneOf_mul, cons_mem_oneOf_mul, mem_kstar_oneOf, allChars, allChars,
      Bool.and_eq_true, Bool.and_eq_true, allChars_false]
    simp only [nameChar_eq, if_true, Bool.false_eq_true, if_false, List.length_cons]
    exact (and_iff_right (by omega)).symm

theorem mem_archGrammar {arch : List UInt8} :
    arch ∈ archGrammar ↔ arch ≠ [] ∧ allChars archChar true arch = true := by
  cases arch with
  | nil => exact iff_of_false nil_not_mem_oneOf_mul (by simp)
  | cons c rest =>
    rw [archGrammar, cons_mem_oneOf_mul, mem_kstar_oneOf, allChars, Bool.and_eq_true,
      allChars_false]
    simp only [archChar_eq, if_true, Bool.false_eq_true, if_false]
    exact (and_iff_right (List.cons_ne_nil c rest)).symm

theorem nameByte_of_leadByte {c : UInt8} (h : leadByte c = true) : nameByte c = true := by
  simp only [leadByte, nameByte, Bool.or_eq_true] at *
  tauto

theorem nameByte_of_archByte {c : UInt8} (h : archByte c = true) : nameByte c = true := by
  simp only [archByte, nameByte, Bool.or_eq_true] at *
  tauto

theorem nameByte_of_mem_name {name : List UInt8} (h : name ∈ nameGrammar) :
    ∀ c ∈ name, nameByte c = true := by
  obtain ⟨b, rest, rfl, hb, hrest⟩ := mem_oneOf_mul.mp h
  rw [List.forall_mem_cons]
  exact ⟨nameByte_of_leadByte hb, (mem_plus.mp hrest).2⟩

theorem nameByte_of_mem_arch {arch : List UInt8} (h : arch ∈ archGrammar) :
    ∀ c ∈ arch, nameByte c = true := by
  obtain ⟨b, rest, rfl, hb, hrest⟩ := mem_oneOf_mul.mp h
  rw [List.forall_mem_cons]
  exact ⟨nameByte_of_leadByte hb, fun c hc => nameByte_of_archByte (mem_kstar_oneOf.mp hrest c hc)⟩

theorem colon_not_name {name : List UInt8} (h : name ∈ nameGrammar) : colon ∉ name :=
  fun hmem => absurd (nameByte_of_mem_name h colon hmem) (by decide)

theorem colon_not_arch {arch : List UInt8} (h : arch ∈ archGrammar) : colon ∉ arch :=
  fun hmem => absurd (nameByte_of_mem_arch h colon hmem) (by decide)

theorem mem_targetGrammar {s : List UInt8} :
    s ∈ targetGrammar ↔ s ∈ nameGrammar ∨
      ∃ name ∈ nameGrammar, ∃ arch ∈ archGrammar, s = name ++ colon :: arch := by
  rw [targetGrammar, Language.mem_add]
  refine or_congr_right ?_
  rw [Language.mem_mul]
  constructor
  · rintro ⟨name, hname, tail, htail, rfl⟩
    obtain ⟨c, arch, rfl, hc, harch⟩ := mem_oneOf_mul.mp htail
    exact ⟨name, hname, arch, harch, by rw [of_decide_eq_true hc]⟩
  · rintro ⟨name, hname, arch, harch, rfl⟩
    exact ⟨name, hname, colon :: arch, cons_mem_oneOf_mul.mpr ⟨decide_eq_true rfl, harch⟩, rfl⟩

/-- No name has a colon in it, so the first one ends the name. -/
theorem mem_targetGrammar_iff_split {s : List UInt8} :
    s ∈ targetGrammar ↔ s.takeWhile (· ≠ colon) ∈ nameGrammar ∧
      (s.dropWhile (· ≠ colon) = [] ∨
        s.dropWhile (· ≠ colon) ∈ oneOf (· = colon) * archGrammar) := by
  have hname : ∀ name ∈ nameGrammar, ∀ c ∈ name, decide (c ≠ colon) = true :=
    fun name hname c hc => decide_eq_true fun heq => colon_not_name hname (heq ▸ hc)
  have hdisjoint : ∀ c : UInt8, decide (c = colon) = true → decide (c ≠ colon) = false :=
    fun c hc => decide_eq_false (not_not.mpr (of_decide_eq_true hc))
  rw [targetGrammar, Language.mem_add, mem_iff_split hname, mem_mul_iff_split hname hdisjoint,
    ← and_or_left]

theorem nameOk_iff (s : CStr) :
    nameOk s = true ↔ s.length ≤ maxName ∧ s.bytes ∈ targetGrammar := by
  have htake : (s.bytes.takeWhile (· ≠ colon)).length ≤ s.length :=
    (List.takeWhile_prefix (· ≠ colon)).length_le
  rw [mem_targetGrammar_iff_split, mem_nameGrammar, nameOk]
  simp only [Bool.if_false_left, Bool.and_eq_true, Bool.not_eq_true', decide_eq_false_iff_not,
    not_or, not_lt]
  cases hdrop : s.bytes.dropWhile (· ≠ colon) with
  | nil =>
    simp only [true_or, and_true]
    constructor
    · rintro ⟨⟨-, hlen⟩, hname⟩
      exact ⟨hlen, hname⟩
    · rintro ⟨hlen, hname⟩
      exact ⟨⟨hname.1.trans htake, hlen⟩, hname⟩
  | cons c arch =>
    have hc : c = colon := by
      have hhead := List.head?_dropWhile_not (· ≠ colon) s.bytes
      rw [hdrop] at hhead
      simpa using hhead
    rw [cons_mem_oneOf_mul, mem_archGrammar]
    simp only [hc, reduceCtorEq, false_or, decide_true, true_and, Bool.and_eq_true,
      Bool.not_eq_true', List.isEmpty_eq_false_iff]
    constructor
    · rintro ⟨⟨-, hlen⟩, hname, hchars, harch⟩
      exact ⟨hlen, ⟨hname, hchars⟩, harch⟩
    · rintro ⟨hlen, ⟨hname, hchars⟩, harch⟩
      exact ⟨⟨hname.trans htake, hlen⟩, hname, hchars, harch⟩

theorem nameOk_bytes {s : CStr} (h : nameOk s = true) :
    ∀ c ∈ s.bytes, nameByte c = true ∨ c = colon := by
  intro c hc
  rcases mem_targetGrammar.mp ((nameOk_iff s).mp h).2 with
    hplain | ⟨name, hname, arch, harch, hqual⟩
  · exact .inl (nameByte_of_mem_name hplain c hc)
  · rw [hqual, List.mem_append, List.mem_cons] at hc
    rcases hc with hc | hc | hc
    · exact .inl (nameByte_of_mem_name hname c hc)
    · exact .inr hc
    · exact .inl (nameByte_of_mem_arch harch c hc)

theorem nameByte_cases {c : UInt8} (h : nameByte c = true ∨ c = colon) :
    c = colon ∨ (97 ≤ c.toNat ∧ c.toNat ≤ 122) ∨ (48 ≤ c.toNat ∧ c.toNat ≤ 57) ∨
      c = 0x2b ∨ c = 0x2e ∨ c = dash := by
  simp only [nameByte, isLower, isDigit, Bool.or_eq_true, Bool.and_eq_true, decide_eq_true_eq] at h
  rcases h with (((h | h) | h) | h) | h
  · rcases h with h | h
    · exact .inr (.inl h)
    · exact .inr (.inr (.inl h))
  · exact .inr (.inr (.inr (.inl h)))
  · exact .inr (.inr (.inr (.inr (.inl h))))
  · exact .inr (.inr (.inr (.inr (.inr h))))
  · exact .inl h

/-- The bytes of a name are printable, and neither blanks nor commas nor equality signs. -/
theorem nameByte_printable {c : UInt8} (h : nameByte c = true ∨ c = colon) :
    0x20 < c.toNat ∧ c.toNat < 0x7f ∧ c ≠ 0x2c ∧ c ≠ 0x3d := by
  rcases nameByte_cases h with rfl | h | h | rfl | rfl | rfl
  · decide
  · refine ⟨by omega, by omega, ?_, ?_⟩ <;> rintro rfl <;> revert h <;> decide
  · refine ⟨by omega, by omega, ?_, ?_⟩ <;> rintro rfl <;> revert h <;> decide
  · decide
  · decide
  · decide

theorem count_colon_le {s : List UInt8} (h : s ∈ targetGrammar) : s.count colon ≤ 1 := by
  rcases mem_targetGrammar.mp h with hplain | ⟨name, hname, arch, harch, rfl⟩
  · rw [List.count_eq_zero.mpr (colon_not_name hplain)]
    exact Nat.zero_le 1
  · rw [List.count_append, List.count_cons_self, List.count_eq_zero.mpr (colon_not_name hname),
      List.count_eq_zero.mpr (colon_not_arch harch)]

theorem lead_of_target {s : List UInt8} (h : s ∈ targetGrammar) :
    ∃ c rest, s = c :: rest ∧ leadByte c = true := by
  have hname {name : List UInt8} (h : name ∈ nameGrammar) :
      ∃ c rest, name = c :: rest ∧ leadByte c = true := by
    obtain ⟨c, rest, heq, hc, -⟩ := mem_oneOf_mul.mp h
    exact ⟨c, rest, heq, hc⟩
  rcases mem_targetGrammar.mp h with hplain | ⟨name, hn, arch, -, rfl⟩
  · exact hname hplain
  · obtain ⟨c, rest, rfl, hc⟩ := hname hn
    exact ⟨c, rest ++ colon :: arch, rfl, hc⟩

/-- `name_ok` accepts exactly the grammar, within the bound on the length, so a name that it
accepts cannot be taken for an option, a list or a line. -/
theorem nameOk_exact (s : CStr) :
    (nameOk s = true ↔ s.length ≤ maxName ∧ s.bytes ∈ targetGrammar) ∧
      (nameOk s = true → s.bytes.head? ≠ some dash ∧ s.bytes.count colon ≤ 1 ∧
        ∀ c ∈ s.bytes, 0x20 < c.toNat ∧ c.toNat < 0x7f ∧ c ≠ 0x2c ∧ c ≠ 0x3d) := by
  refine ⟨nameOk_iff s, fun h => ?_⟩
  have hgrammar := ((nameOk_iff s).mp h).2
  refine ⟨?_, count_colon_le hgrammar, fun c hc => nameByte_printable (nameOk_bytes h c hc)⟩
  obtain ⟨c, rest, hs, hc⟩ := lead_of_target hgrammar
  rw [hs, List.head?_cons, ne_eq, Option.some_inj]
  rintro rfl
  exact absurd hc (by decide)

theorem nameOk_libc6_amd64 :
    (CStr.lit "libc6:amd64").bytes.head? ≠ some dash ∧
      (CStr.lit "libc6:amd64").bytes.count colon ≤ 1 :=
  have h := (nameOk_exact (.lit "libc6:amd64")).2 (by decide)
  ⟨h.1, h.2.1⟩

/-- No byte of a name is a separator of the digest grammar, and every one is ASCII. -/
theorem nameByte_plain {c : UInt8} (h : nameByte c = true ∨ c = colon) :
    c ∉ reserved ∧ c.toNat < 0x80 := by
  rcases nameByte_cases h with rfl | h | h | rfl | rfl | rfl
  · decide
  · refine ⟨?_, by omega⟩
    intro hmem
    simp only [reserved, List.mem_cons, List.not_mem_nil, or_false] at hmem
    rcases hmem with rfl | rfl | rfl | rfl <;> revert h <;> decide
  · refine ⟨?_, by omega⟩
    intro hmem
    simp only [reserved, List.mem_cons, List.not_mem_nil, or_false] at hmem
    rcases hmem with rfl | rfl | rfl | rfl <;> revert h <;> decide
  · decide
  · decide
  · decide

theorem ascii_of_nameOk {s : CStr} (h : nameOk s = true) : Jansson.Ascii s :=
  fun c hc => (nameByte_plain (nameOk_bytes h c hc)).2

theorem ascii_of_isLcHex {r : CStr} {n : ℕ} (h : isLcHex r n = true) : Jansson.Ascii r := by
  intro b hb
  have hrange := hexDigit_range ((isLcHex_iff.mp h).2 b hb)
  omega

theorem fieldOk_of_nameOk {s : CStr} (h : nameOk s = true) : fieldOk (some s) = true := by
  rw [fieldOk_iff]
  refine ⟨fun c hc hmem => ?_, (ascii_of_nameOk h).wellFormed⟩
  exact (nameByte_plain (nameOk_bytes h c hmem)).1 hc

theorem length_le_of_nameOk {s : CStr} (h : nameOk s = true) : s.bytes.length ≤ maxName :=
  ((nameOk_iff s).mp h).1

/-- The sorted, comma-joined names. -/
def targetText (names : List CStr) : CStr := .ofMem (itemsText names)

theorem targetText_bytes (names : List CStr) : (targetText names).bytes = itemsText names :=
  CStr.ofMem_of_noNul (noNul_itemsText names)

theorem length_itemsText_le {names : List CStr} {k : ℕ}
    (h : ∀ s ∈ names, s.bytes.length ≤ k) : (itemsText names).length ≤ names.length * (k + 1) := by
  have hlen : ((qsort names).map CStr.bytes).length = names.length := by
    rw [List.length_map, (qsort_perm names).length_eq]
  rw [itemsText_eq, ← hlen]
  apply length_join_le
  intro p hp
  obtain ⟨s, hs, rfl⟩ := List.mem_map.mp hp
  exact h s ((qsort_perm names).mem_iff.mp hs)

/-- The resource of accepted targets is built, whatever they are. -/
theorem TargetsOk.resource {names : List CStr} (h : TargetsOk names) :
    pkgxResource (names.map some) = some (targetText names) := by
  have hnames : (names.map some).map orEmpty = names := by
    simp [Function.comp_def]
  rw [pkgxResource_eq_some_iff, hnames]
  refine ⟨⟨?_, by simp, by rw [hnames]; exact h.nodup⟩, ?_, rfl⟩
  · intro s hs
    obtain ⟨name, hname, rfl⟩ := List.mem_map.mp hs
    exact fieldOk_of_nameOk (h.each name hname)
  · have hlen := length_itemsText_le fun s hs => length_le_of_nameOk (h.each s hs)
    have hcount : names.length * (maxName + 1) ≤ maxPackages * (maxName + 1) :=
      Nat.mul_le_mul_right _ h.length_le
    have hcap : maxPackages * (maxName + 1) + 1 ≤ maxCanon := by decide
    omega

theorem TargetsOk.ascii_targetText {names : List CStr} (h : TargetsOk names) :
    Jansson.Ascii (targetText names) := by
  intro c hc
  rw [targetText_bytes, itemsText_eq] at hc
  rcases mem_join hc with rfl | ⟨p, hp, hcp⟩
  · decide
  · obtain ⟨s, hs, rfl⟩ := List.mem_map.mp hp
    exact ascii_of_nameOk (h.each s ((qsort_perm names).mem_iff.mp hs)) c hcp

end Pkgexec.Request
