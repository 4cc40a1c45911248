import Pkgexec.BuilderDomain

/-!
# Inline signing keys

An armored key is recognised exactly: whichever footer is the last one, there is one with
nothing but blanks behind it if and only if the value has the armored form. Its token is made
of the hash of all of it, so that two values of `signed-by` are told apart in the record.
-/

namespace Pkgexec.PlanDigest
open CStrings

/-- `PKGX_SIGNEDBY_TOKEN_LEN`. -/
def signedbyTokenLen : ℕ := 78

def inlinePrefix : List UInt8 := (CStr.lit "inline-sha256:").bytes

/-- `pkgx_signed_by_inline_token` with its buffer; a null `value` is `none`. -/
def pkgxSignedByInlineTokenOut (E : Evp) (value : Option (List UInt8))
    (token : CharBuf (signedbyTokenLen + 1)) : ℤ × CharBuf (signedbyTokenLen + 1) :=
  match value with
  | none => (0, token)
  | some value =>
    match pkgxSignedByInlineToken E value with
    | .token t => (1, .ofStr _ t)
    | .original => (0, token)
    | .hashFailure => (-1, token)

/-- Newline, carriage return, space and tab. -/
def trailing : List UInt8 := [0x0a, 0x0d, 0x20, 0x09]

def Blank (rest : List UInt8) : Prop := ∀ c ∈ rest, c ∈ trailing

/-- The armored form: header, anything, footer, and blanks. -/
def Armored (value : List UInt8) : Prop :=
  ∃ key blanks, value = pgpBegin ++ key ++ pgpEnd ++ blanks ∧ Blank blanks

/-- The footer starts at `j`. -/
def FooterAt (value : List UInt8) (j : ℕ) : Prop :=
  j + pgpEnd.length ≤ value.length ∧ (value.drop j).take pgpEnd.length = pgpEnd

theorem footerAt_append (front rest : List UInt8) :
    FooterAt (front ++ pgpEnd ++ rest) front.length := by
  constructor
  · simp only [List.length_append]
    omega
  · rw [List.append_assoc, List.drop_left, List.take_left]

theorem split_footer {value : List UInt8} {j : ℕ} (h : FooterAt value j) :
    value = value.take j ++ pgpEnd ++ value.drop (j + pgpEnd.length) := by
  conv_lhs => rw [← List.take_append_drop j value, ← List.take_append_drop pgpEnd.length
    (value.drop j), h.2, List.drop_drop]
  rw [List.append_assoc]

/-- The search from `i` on ends at the last footer there, or keeps what was found before. -/
theorem lastFooter_eq {value : List UInt8} (fuel i : ℕ) (found : Option ℕ)
    (hfuel : value.length < i + fuel) :
    (∃ e, i ≤ e ∧ FooterAt value e ∧ (∀ j, e < j → ¬ FooterAt value j) ∧
        lastFooter value fuel i found = some e) ∨
      (∀ j, i ≤ j → ¬ FooterAt value j) ∧ lastFooter value fuel i found = found := by
  induction fuel generalizing i found with
  | zero =>
    refine .inr ⟨?_, rfl⟩
    rintro j hj ⟨hlen, -⟩
    omega
  | succ fuel ih =>
    rw [lastFooter]
    by_cases hend : i + pgpEnd.length ≤ value.length
    · rw [if_pos hend]
      by_cases hhere : FooterAt value i
      · rw [if_pos hhere.2]
        rcases ih (i + 1) (some i) (by omega) with ⟨e, hle, he, hlast, heq⟩ | ⟨hnone, heq⟩
        · exact .inl ⟨e, by omega, he, hlast, heq⟩
        · exact .inl ⟨i, Nat.le_refl i, hhere, hnone, heq⟩
      · rw [if_neg fun htake => hhere ⟨hend, htake⟩]
        rcases ih (i + 1) found (by omega) with ⟨e, hle, he, hlast, heq⟩ | ⟨hnone, heq⟩
        · exact .inl ⟨e, by omega, he, hlast, heq⟩
        · refine .inr ⟨fun j hj hfooter => ?_, heq⟩
          rcases Nat.eq_or_lt_of_le hj with rfl | hlt
          · exact hhere hfooter
          · exact hnone j hlt hfooter
    · rw [if_neg hend]
      refine .inr ⟨?_, rfl⟩
      rintro j hj ⟨hlen, -⟩
      omega

theorem blank_iff {rest : List UInt8} :
    rest.all (fun c => c = 0x0a ∨ c = 0x0d ∨ c = 0x20 ∨ c = 0x09) = true ↔ Blank rest := by
  simp [Blank, trailing]

/-- The two checks and the search between them accept exactly the armored form. -/
theorem armored_iff {value : List UInt8} :
    Armored value ↔
      ¬ (value.length < pgpBegin.length ∨ value.take pgpBegin.length ≠ pgpBegin) ∧
        ∃ epos, lastFooter value (value.length + 1) pgpBegin.length none = some epos ∧
          Blank (value.drop (epos + pgpEnd.length)) := by
  have hsearch := @lastFooter_eq value (value.length + 1) pgpBegin.length none (by omega)
  constructor
  · rintro ⟨key, blanks, rfl, hblanks⟩
    have hheader : ¬ ((pgpBegin ++ key ++ pgpEnd ++ blanks).length < pgpBegin.length ∨
        (pgpBegin ++ key ++ pgpEnd ++ blanks).take pgpBegin.length ≠ pgpBegin) := by
      rw [List.append_assoc, List.append_assoc, List.length_append, List.take_left]
      rintro (hlt | hne)
      · omega
      · exact hne rfl
    have hfooter := footerAt_append (pgpBegin ++ key) blanks
    have hpast : pgpBegin.length ≤ (pgpBegin ++ key).length := by
      rw [List.length_append]
      omega
    refine ⟨hheader, ?_⟩
    rcases hsearch with ⟨e, -, he, hlast, heq⟩ | ⟨hnone, -⟩
    · refine ⟨e, heq, ?_⟩
      -- a later footer only leaves less behind it
      have hle : (pgpBegin ++ key).length ≤ e := by
        by_contra hlt
        exact hlast _ (Nat.lt_of_not_le hlt) hfooter
      have hpassed : (pgpBegin ++ key ++ pgpEnd).length ≤ e + pgpEnd.length := by
        have hlen : (pgpBegin ++ key ++ pgpEnd).length = (pgpBegin ++ key).length + pgpEnd.length :=
          List.length_append
        omega
      have hrest : (pgpBegin ++ key ++ pgpEnd ++ blanks).drop (e + pgpEnd.length) =
          blanks.drop (e + pgpEnd.length - (pgpBegin ++ key ++ pgpEnd).length) := by
        rw [List.drop_append, List.drop_eq_nil_of_le hpassed, List.nil_append]
      rw [hrest]
      intro c hc
      exact hblanks c (List.mem_of_mem_drop hc)
    · exact absurd hfooter (hnone _ hpast)
  · rintro ⟨hheader, e, heq, hblank⟩
    rw [not_or, not_not] at hheader
    rcases hsearch with ⟨e', hle, he, -, heq'⟩ | ⟨-, heq'⟩
    · obtain rfl : e' = e := Option.some.inj (heq'.symm.trans heq)
      have hkey : pgpBegin ++ (value.take e').drop pgpBegin.length = value.take e' := by
        have htake : (value.take e').take pgpBegin.length = pgpBegin := by
          rw [List.take_take, Nat.min_eq_left hle, hheader.2]
        conv_rhs => rw [← List.take_append_drop pgpBegin.length (value.take e'), htake]
      refine ⟨(value.take e').drop pgpBegin.length, _, ?_, hblank⟩
      rw [hkey]
      exact split_footer he
    · rw [heq'] at heq
      cases heq

section Tokens

variable {E : Evp} {value : List UInt8}

theorem inlineToken_armored (h : Armored value) :
    pkgxSignedByInlineToken E value = match pkgxSha256Hex E value with
      | none => .hashFailure
      | some hex => .token (.ofMem (inlinePrefix ++ hex.bytes)) := by
  obtain ⟨hheader, epos, hfound, hblank⟩ := armored_iff.mp h
  rw [pkgxSignedByInlineToken, if_neg hheader, hfound]
  dsimp only
  rw [if_pos (blank_iff.mpr hblank)]
  rfl

theorem inlineToken_other (h : ¬ Armored value) :
    pkgxSignedByInlineToken E value = .original := by
  rw [pkgxSignedByInlineToken]
  split
  · rfl
  rename_i hheader
  split
  · rfl
  rename_i epos hfound
  split
  · rename_i hblank
    exact absurd (armored_iff.mpr ⟨hheader, epos, hfound, blank_iff.mp hblank⟩) h
  · rfl

end Tokens

/-- The two digits of a byte. -/
def hexPair (b : UInt8) : List UInt8 := [hx.getD (b >>> 4).toNat 0, hx.getD (b &&& 0xf).toNat 0]

theorem hexDigit_table :
    ∀ a < 16, ∀ b < 16, hx.getD a 0 ≠ 0 ∧ (hx.getD a 0 = hx.getD b 0 → a = b) := by
  decide

theorem high_half (b : UInt8) : (b >>> 4).toNat = b.toNat / 16 := by
  rw [UInt8.toNat_shiftRight]
  exact Nat.shiftRight_eq_div_pow b.toNat 4

theorem low_half (b : UInt8) : (b &&& 0xf).toNat = b.toNat % 16 := by
  rw [UInt8.toNat_and]
  exact Nat.and_two_pow_sub_one_eq_mod b.toNat 4

theorem hexPair_injective {a b : UInt8} (h : hexPair a = hexPair b) : a = b := by
  have ha := a.toNat_lt
  have hb := b.toNat_lt
  obtain ⟨hhigh, htail⟩ := List.cons.inj h
  have hlow := (List.cons.inj htail).1
  rw [high_half, high_half] at hhigh
  rw [low_half, low_half] at hlow
  have hdiv := (hexDigit_table (a.toNat / 16) (by omega) (b.toNat / 16) (by omega)).2 hhigh
  have hmod := (hexDigit_table (a.toNat % 16) (by omega) (b.toNat % 16) (by omega)).2 hlow
  apply UInt8.toNat.inj
  omega

theorem flatMap_hexPair_injective {xs ys : List UInt8}
    (h : xs.flatMap hexPair = ys.flatMap hexPair) : xs = ys := by
  induction xs generalizing ys with
  | nil =>
    cases ys with
    | nil => rfl
    | cons y ys => cases h
  | cons x xs ih =>
    cases ys with
    | nil => cases h
    | cons y ys =>
      rw [List.flatMap_cons, List.flatMap_cons] at h
      obtain ⟨hhead, htail⟩ := List.append_inj h rfl
      rw [hexPair_injective hhead, ih htail]

theorem noNul_hex (xs : List UInt8) : (0 : UInt8) ∉ xs.flatMap hexPair := by
  intro hmem
  obtain ⟨b, -, hb⟩ := List.mem_flatMap.mp hmem
  have hlt := b.toNat_lt
  rw [hexPair, high_half, low_half, List.mem_cons, List.mem_singleton] at hb
  rcases hb with hb | hb
  · exact (hexDigit_table (b.toNat / 16) (by omega) 0 (by decide)).1 hb.symm
  · exact (hexDigit_table (b.toNat % 16) (by omega) 0 (by decide)).1 hb.symm

theorem sha256Hex_eq_some_iff {E : Evp} {data : List UInt8} {hex : CStr} :
    pkgxSha256Hex E data = some hex ↔
      ∃ md, E.sha256 data = some md ∧ hex.bytes = md.mem.flatMap hexPair := by
  rw [pkgxSha256Hex, Option.map_eq_some_iff]
  refine exists_congr fun md => and_congr_right fun _ => ?_
  rw [CStr.ext_iff, eq_comm]
  exact iff_of_eq (congrArg (hex.bytes = ·) (CStr.ofMem_of_noNul (noNul_hex md.mem)))

theorem length_hex (md : CharBuf 32) : (md.mem.flatMap hexPair).length = 64 := by
  have hlen (xs : List UInt8) : (xs.flatMap hexPair).length = 2 * xs.length := by
    induction xs with
    | nil => rfl
    | cons x xs ih =>
      rw [List.flatMap_cons, List.length_append, ih, List.length_cons]
      show 2 + 2 * xs.length = _
      omega
  rw [hlen, md.size_eq]

theorem token_bytes (hex : CStr) :
    (CStr.ofMem (inlinePrefix ++ hex.bytes)).bytes = inlinePrefix ++ hex.bytes := by
  apply CStr.ofMem_of_noNul
  intro hmem
  exact (List.mem_append.mp hmem).elim (CStr.lit "inline-sha256:").noNul hex.noNul

/-- A token fits its buffer. -/
theorem token_str {E : Evp} {value : List UInt8} {hex : CStr}
    (h : pkgxSha256Hex E value = some hex) :
    (CharBuf.ofStr (signedbyTokenLen + 1) (.ofMem (inlinePrefix ++ hex.bytes))).str.bytes =
      inlinePrefix ++ hex.bytes := by
  obtain ⟨md, -, hbytes⟩ := sha256Hex_eq_some_iff.mp h
  have hprefix : inlinePrefix.length = 14 := by decide
  have hfits : (CStr.ofMem (inlinePrefix ++ hex.bytes)).length < signedbyTokenLen + 1 := by
    rw [CStr.length, token_bytes, List.length_append, hprefix, hbytes, length_hex]
    decide
  rw [CharBuf.str_ofStr hfits, token_bytes]

/-- What a call does for a value and a buffer. -/
structure Recognised (E : Evp) (value : List UInt8) (token : CharBuf (signedbyTokenLen + 1)) :
    Prop where
  exact : (pkgxSignedByInlineTokenOut E (some value) token).1 = 1 ↔
    Armored value ∧ (E.sha256 value).isSome = true
  written : (pkgxSignedByInlineTokenOut E (some value) token).1 = 1 →
    ∃ hex, pkgxSha256Hex E value = some hex ∧
      (pkgxSignedByInlineTokenOut E (some value) token).2.str.bytes = inlinePrefix ++ hex.bytes
  untouched : (pkgxSignedByInlineTokenOut E (some value) token).1 ≠ 1 →
    (pkgxSignedByInlineTokenOut E (some value) token).2 = token

theorem recognised (E : Evp) (value : List UInt8) (token : CharBuf (signedbyTokenLen + 1)) :
    Recognised E value token := by
  have hsome : (E.sha256 value).isSome = (pkgxSha256Hex E value).isSome :=
    (Option.isSome_map ..).symm
  by_cases harmored : Armored value
  · have htoken := inlineToken_armored (E := E) harmored
    cases hhex : pkgxSha256Hex E value with
    | none =>
      rw [hhex] at htoken hsome
      have hout : pkgxSignedByInlineTokenOut E (some value) token = (-1, token) := by
        simp only [pkgxSignedByInlineTokenOut, htoken]
      constructor <;> simp [hout, hsome]
    | some hex =>
      rw [hhex] at htoken hsome
      have hout : pkgxSignedByInlineTokenOut E (some value) token =
          (1, .ofStr _ (.ofMem (inlinePrefix ++ hex.bytes))) := by
        simp only [pkgxSignedByInlineTokenOut, htoken]
      refine ⟨by simp [hout, hsome, harmored], fun _ => ⟨hex, hhex, ?_⟩, by simp [hout]⟩
      rw [hout]
      exact token_str hhex
  · have hout : pkgxSignedByInlineTokenOut E (some value) token = (0, token) := by
      simp only [pkgxSignedByInlineTokenOut, inlineToken_other harmored]
    constructor <;> simp [hout, harmored]

end Pkgexec.PlanDigest

namespace Pkgexec.Apt
open CStrings PlanDigest

section Values

variable {E : Evp}

theorem signedByValue_other {v : CStr} (h : ¬ Armored v.bytes) : signedByValue E v = v := by
  rw [signedByValue, inlineToken_other h]

theorem signedByValue_armored {v : CStr} (h : Armored v.bytes) :
    signedByValue E v = v ∨ ∃ md, E.sha256 v.bytes = some md ∧
      (signedByValue E v).bytes = inlinePrefix ++ md.mem.flatMap hexPair := by
  rw [signedByValue, inlineToken_armored h]
  cases hhex : pkgxSha256Hex E v.bytes with
  | none => exact .inl rfl
  | some hex =>
    obtain ⟨md, hmd, hbytes⟩ := sha256Hex_eq_some_iff.mp hhex
    refine .inr ⟨md, hmd, ?_⟩
    show (CStr.ofMem (inlinePrefix ++ hex.bytes)).bytes = _
    rw [token_bytes, hbytes]

/-- A value is kept, or it becomes the token of its hash. -/
theorem signedByValue_cases (E : Evp) (v : CStr) :
    signedByValue E v = v ∨ ∃ md, E.sha256 v.bytes = some md ∧
      (signedByValue E v).bytes = inlinePrefix ++ md.mem.flatMap hexPair := by
  by_cases h : Armored v.bytes
  · exact signedByValue_armored h
  · exact .inl (signedByValue_other h)

theorem signedByValue_ne {v w : CStr} (hne : v ≠ w) (hv : ¬ inlinePrefix <+: v.bytes)
    (hw : ¬ inlinePrefix <+: w.bytes)
    (hcollide : ∀ md, E.sha256 v.bytes = some md → E.sha256 w.bytes ≠ some md) :
    signedByValue E v ≠ signedByValue E w := by
  intro heq
  rcases signedByValue_cases E v with hv' | ⟨md, hmd, hv'⟩ <;>
    rcases signedByValue_cases E w with hw' | ⟨md', hmd', hw'⟩
  · exact hne (hv' ▸ hw' ▸ heq)
  · rw [hv'] at heq
    exact hv ⟨_, (heq ▸ hw').symm⟩
  · rw [hw'] at heq
    exact hw ⟨_, (heq ▸ hv').symm⟩
  · rw [heq, hw'] at hv'
    have hmem := flatMap_hexPair_injective (List.append_cancel_left hv')
    exact hcollide md hmd (hmd'.trans (congrArg some (CharBuf.ext hmem)))

end Values

/-- What the record of a source says about its signing key. -/
def signedByOption (r : SrcRecord) : Option (Option CStr) :=
  (r.opts.find? fun kv => kv.1 = some (.lit "signed-by")).map Prod.snd

theorem signedByOption_srcHolder (E : Evp) {mi : MetaIndex} (h : mi.signedBy ≠ .empty) :
    signedByOption (srcHolder E mi).record = some (some (signedByValue E mi.signedBy)) := by
  simp [signedByOption, PkgxSrcHolder.record, srcHolder, h]

/-- A value that is not a field makes the digest refuse the whole plan. -/
theorem update_refused {E : Evp} {list : List (Option MetaIndex)} {mi : MetaIndex}
    (hmem : some mi ∈ list) (hsigned : mi.signedBy ≠ .empty)
    (hfield : ¬ fieldOk (some (signedByValue E mi.signedBy)) = true) :
    pkgxDigestUpdate E (pkgxAptMapSources E list) = none := by
  cases hdigest : pkgxDigestUpdate E (pkgxAptMapSources E list) with
  | none => rfl
  | some d =>
    have hrecord : (srcHolder E mi).record ∈ pkgxAptMapSources E list :=
      List.mem_map_of_mem (List.mem_filterMap.mpr ⟨some mi, hmem, rfl⟩)
    have hok : SrcRecord.Ok (srcHolder E mi).record :=
      (pkgxDigestUpdate_eq_some_iff.mp hdigest).ok _ hrecord
    have hopt : (some (CStr.lit "signed-by"), some (signedByValue E mi.signedBy)) ∈
        (srcHolder E mi).record.opts := by
      simp [PkgxSrcHolder.record, srcHolder, hsigned]
    exact absurd (hok.opts.fields _ hopt).2 hfield

/-- Inline keys are recognised exactly, and are told apart from each other and from everything
else that a source may be signed by. -/
theorem signing_keys_identified (E : Evp) :
    (∀ value token, Recognised E value token) ∧
      (∀ mi mi' : MetaIndex, mi.signedBy ≠ .empty → mi'.signedBy ≠ .empty →
        mi.signedBy ≠ mi'.signedBy →
        ¬ inlinePrefix <+: mi.signedBy.bytes → ¬ inlinePrefix <+: mi'.signedBy.bytes →
        (∀ md, E.sha256 mi.signedBy.bytes = some md → E.sha256 mi'.signedBy.bytes ≠ some md) →
        signedByOption (srcHolder E mi).record ≠ signedByOption (srcHolder E mi').record) ∧
      ∀ mi : MetaIndex, mi.signedBy ≠ .empty → ¬ Armored mi.signedBy.bytes →
        signedByOption (srcHolder E mi).record = some (some mi.signedBy) ∧
          ∀ list, some mi ∈ list → (∃ c ∈ reserved, c ∈ mi.signedBy.bytes) →
            pkgxDigestUpdate E (pkgxAptMapSources E list) = none := by
  refine ⟨recognised E, ?_, ?_⟩
  · intro mi mi' hmi hmi' hne hprefix hprefix' hcollide
    rw [signedByOption_srcHolder E hmi, signedByOption_srcHolder E hmi']
    intro heq
    exact signedByValue_ne hne hprefix hprefix' hcollide (Option.some.inj (Option.some.inj heq))
  · intro mi hmi hplain
    have hkept : signedByValue E mi.signedBy = mi.signedBy := signedByValue_other hplain
    refine ⟨by rw [signedByOption_srcHolder E hmi, hkept], ?_⟩
    rintro list hmem ⟨c, hreserved, hc⟩
    refine update_refused hmem hmi ?_
    rw [hkept, fieldOk_iff]
    exact fun hok => hok.1 c hreserved hc

/-- Two armored keys with different hashes. -/
theorem signing_keys_identified_armored :
    let key (b : UInt8) : CStr := .ofMem (pgpBegin ++ [b] ++ pgpEnd)
    let E : Evp := .table [((key 0x41).bytes, .zero 32), ((key 0x42).bytes, .ofStr 32 (.lit "x"))]
    signedByOption (srcHolder E ⟨.lit "u", .lit "d", [], key 0x41, .unset⟩).record ≠
      signedByOption (srcHolder E ⟨.lit "u", .lit "d", [], key 0x42, .unset⟩).record := by
  intro key E
  refine (signing_keys_identified E).2.1 ⟨.lit "u", .lit "d", [], key 0x41, .unset⟩
    ⟨.lit "u", .lit "d", [], key 0x42, .unset⟩ (by decide) (by decide) (by decide) (by decide)
    (by decide) ?_
  rintro md hmd hmd'
  have hne : E.sha256 (key 0x41).bytes ≠ E.sha256 (key 0x42).bytes := by decide
  exact hne (hmd.trans hmd'.symm)

end Pkgexec.Apt
