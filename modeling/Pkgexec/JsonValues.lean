import Pkgexec.CStrings
import Pkgexec.Utf8Encoding
import Pkgexec.KeyedLists

/-!
# JSON trees and the interface of a JSON library

Object members keep their insertion order. A `json_t *` that may be `NULL` is an optional
value, and every type test is false of `NULL`. The library that parses and prints is a
parameter: `Jansson` lists what its documentation promises.
-/

namespace JsonValues
open CStrings

inductive Json where
  | null
  | boolean (b : Bool)
  | integer (n : ℤ)
  | real (text : List UInt8)
  | string (s : List UInt8)
  | array (vs : List Json)
  | object (ms : List (CStr × Json))

namespace Json

def isObject : Option Json → Bool
  | some (.object _) => true
  | _ => false

def isString : Option Json → Bool
  | some (.string _) => true
  | _ => false

def isBoolean : Option Json → Bool
  | some (.boolean _) => true
  | _ => false

def isTrue : Option Json → Bool
  | some (.boolean b) => b
  | _ => false

@[simp] theorem isTrue_boolean (b : Bool) : isTrue (some (.boolean b)) = b := rfl

theorem isTrue_iff {v : Option Json} : isTrue v = true ↔ v = some (.boolean true) := by
  cases v with
  | none => simp [isTrue]
  | some v => cases v <;> simp [isTrue]

/-- `json_string_value`: the bytes are read back as a C string. -/
def stringValue : Option Json → Option CStr
  | some (.string s) => some (.ofMem s)
  | _ => none

/-- What `json_object_foreach` runs over: nothing, on anything but an object. -/
def members : Json → List (CStr × Json)
  | .object ms => ms
  | _ => []

/-- `json_object_get`, `NULL` on anything but an object. -/
def objectGet : Json → CStr → Option Json
  | .object ms, key => KeyedLists.valueAt ms key
  | _, _ => none

/-- An object that lists the wanted members in any order is read like the wanted list. -/
theorem objectGet_of_perm {ms want : List (CStr × Json)} (hwant : (want.map Prod.fst).Nodup)
    (hperm : ms.Perm want) (k : CStr) :
    (object ms).objectGet k = KeyedLists.valueAt want k := by
  have hms : (ms.map Prod.fst).Nodup := (hperm.map Prod.fst).nodup_iff.mpr hwant
  exact congrFun ((KeyedLists.perm_iff_valueAt_eq hms hwant).mp hperm) k

/-- No object of the tree repeats a key and no string of it contains a NUL. -/
inductive Clean : Json → Prop where
  | null : Clean .null
  | boolean (b) : Clean (.boolean b)
  | integer (n) : Clean (.integer n)
  | real (text) : Clean (.real text)
  | string {s} (h : (0 : UInt8) ∉ s) : Clean (.string s)
  | array {vs} (h : ∀ v ∈ vs, Clean v) : Clean (.array vs)
  | object {ms} (hkeys : (ms.map Prod.fst).Nodup) (h : ∀ m ∈ ms, Clean m.2) :
      Clean (.object ms)

section Compact

private def ascii (s : String) : List UInt8 := s.toUTF8.data.toList

private def hexDigit (n : ℕ) : UInt8 := .ofNat (if n < 10 then 48 + n else 55 + n)

/-- The printed form of one string byte. -/
def escapeByte (b : UInt8) : List UInt8 :=
  if b = 0x22 then ascii "\\\""
  else if b = 0x5C then ascii "\\\\"
  else if b = 0x08 then ascii "\\b"
  else if b = 0x0C then ascii "\\f"
  else if b = 0x0A then ascii "\\n"
  else if b = 0x0D then ascii "\\r"
  else if b = 0x09 then ascii "\\t"
  else if b < 0x20 then ascii "\\u00" ++ [hexDigit (b.toNat / 16), hexDigit (b.toNat % 16)]
  else [b]

def quoted (s : List UInt8) : List UInt8 := 0x22 :: s.flatMap escapeByte ++ [0x22]

mutual

/-- The rendering without insignificant space, members in insertion order. -/
def compact : Json → List UInt8
  | .null => ascii "null"
  | .boolean b => if b then ascii "true" else ascii "false"
  | .integer n => ascii (toString n)
  | .real text => text
  | .string s => quoted s
  | .array vs => 0x5B :: compactElements vs ++ [0x5D]
  | .object ms => 0x7B :: compactMembers ms ++ [0x7D]

def compactElements : List Json → List UInt8
  | [] => []
  | [v] => compact v
  | v :: vs => compact v ++ 0x2C :: compactElements vs

def compactMembers : List (CStr × Json) → List UInt8
  | [] => []
  | [(k, v)] => quoted k.bytes ++ 0x3A :: compact v
  | (k, v) :: ms => quoted k.bytes ++ 0x3A :: (compact v ++ 0x2C :: compactMembers ms)

end

end Compact

end Json

/-- The JSON library. `loadb` is the parser with duplicate keys rejected, `dumps` the compact
printer, and `stringOk` tells which byte strings the string constructor accepts. -/
structure Jansson where
  loadb : List UInt8 → Option Json
  dumps : Json → CStr
  stringOk : List UInt8 → Bool
  loadb_clean : ∀ b v, loadb b = some v → v.Clean
  stringOk_iff : ∀ s, stringOk s = true ↔ Utf8Encoding.WellFormed s

namespace Jansson

variable (J : Jansson)

/-- `json_string`: `NULL` on a string that is not UTF-8. -/
def string (s : CStr) : Option Json := if J.stringOk s.bytes then some (.string s.bytes) else none

/-- `json_object_set_new`: fails on a `NULL` value or a key that is not UTF-8, replaces the
value of a key that is already present, and appends otherwise. -/
def setNew (ms : List (CStr × Json)) (key : CStr) : Option Json → Option (List (CStr × Json))
  | none => none
  | some v =>
    if J.stringOk key.bytes then
      if ms.any (fun m => m.1 = key) then
        some (ms.map fun m => if m.1 = key then (key, v) else m)
      else some (ms ++ [(key, v)])
    else none

theorem string_of_wellFormed {s : CStr} (h : Utf8Encoding.WellFormed s.bytes) :
    J.string s = some (.string s.bytes) := by
  rw [string, if_pos ((J.stringOk_iff _).mpr h)]

theorem setNew_of_new {ms : List (CStr × Json)} {key : CStr} (v : Json)
    (hkey : Utf8Encoding.WellFormed key.bytes) (hnew : key ∉ ms.map Prod.fst) :
    J.setNew ms key (some v) = some (ms ++ [(key, v)]) := by
  have habsent : ms.any (fun m => m.1 = key) = false := by
    rw [List.any_eq_false]
    intro m hm hmkey
    obtain rfl : m.1 = key := of_decide_eq_true hmkey
    exact hnew (List.mem_map_of_mem hm)
  rw [setNew, if_pos ((J.stringOk_iff _).mpr hkey), habsent]
  rfl

/-- Members set one after the other on an empty object, the results ignored: a failed call
leaves the object as it was. -/
def setAll (kvs : List (CStr × Option Json)) : List (CStr × Json) :=
  kvs.foldl (fun ms kv => (J.setNew ms kv.1 kv.2).getD ms) []

/-- A member whose value may be `NULL`. -/
def member (kv : CStr × Option Json) : Option (CStr × Json) := kv.2.map fun v => (kv.1, v)

@[simp] theorem member_some (k : CStr) (v : Json) : member (k, some v) = some (k, v) := rfl

@[simp] theorem member_none (k : CStr) : member (k, none) = none := rfl

/-- With distinct keys the object lists exactly the members that have a value. -/
theorem setAll_eq {kvs : List (CStr × Option Json)} (hkeys : (kvs.map Prod.fst).Nodup)
    (hutf8 : ∀ kv ∈ kvs, Utf8Encoding.WellFormed kv.1.bytes) :
    J.setAll kvs = kvs.filterMap member := by
  have hfold : ∀ done : List (CStr × Json), (∀ m ∈ done, m.1 ∉ kvs.map Prod.fst) →
      kvs.foldl (fun ms kv => (J.setNew ms kv.1 kv.2).getD ms) done =
        done ++ kvs.filterMap member := by
    induction kvs with
    | nil => simp
    | cons kv kvs ih =>
      intro done hdone
      obtain ⟨hnew, hrest⟩ := List.nodup_cons.mp hkeys
      obtain ⟨key, value⟩ := kv
      have hkey : key ∉ done.map Prod.fst := by
        intro hmem
        obtain ⟨m, hm, rfl⟩ := List.mem_map.mp hmem
        exact hdone m hm (by simp)
      have hdone' : ∀ m ∈ done, m.1 ∉ kvs.map Prod.fst := fun m hm hmem =>
        hdone m hm (List.mem_cons_of_mem _ hmem)
      have hstep := ih hrest fun kv hkv => hutf8 kv (by simp [hkv])
      cases value with
      | none =>
        rw [List.foldl_cons, List.filterMap_cons_none (member_none key)]
        exact hstep done hdone'
      | some v =>
        rw [List.foldl_cons, J.setNew_of_new v (hutf8 (key, some v) (by simp)) hkey,
          Option.getD_some, List.filterMap_cons_some (member_some key v), hstep, List.append_assoc,
          List.singleton_append]
        intro m hm
        rcases List.mem_append.mp hm with hm | hm
        · exact hdone' m hm
        · rw [List.mem_singleton.mp hm]
          exact hnew
  exact hfold [] (by simp)

/-- With distinct keys and no failure the object lists exactly the given members. -/
theorem setAll_map {ι : Type*} {xs : List ι} {key : ι → CStr} (val : ι → Json)
    (hkeys : (xs.map key).Nodup) (hutf8 : ∀ x ∈ xs, Utf8Encoding.WellFormed (key x).bytes) :
    J.setAll (xs.map fun x => (key x, some (val x))) = xs.map fun x => (key x, val x) := by
  rw [J.setAll_eq (by simpa [Function.comp_def] using hkeys) (by simpa using hutf8),
    List.filterMap_map]
  simp [Function.comp_def]

/-- Members set one after the other on an empty object, stopped at the first failure. -/
def setEach (kvs : List (CStr × Option Json)) : Option (List (CStr × Json)) :=
  kvs.foldlM (fun ms kv => J.setNew ms kv.1 kv.2) []

/-- With distinct keys the only failures are the missing values. -/
theorem setEach_eq {kvs : List (CStr × Option Json)} (hkeys : (kvs.map Prod.fst).Nodup)
    (hutf8 : ∀ kv ∈ kvs, Utf8Encoding.WellFormed kv.1.bytes) :
    J.setEach kvs = kvs.mapM member := by
  have hfold : ∀ done : List (CStr × Json), (∀ m ∈ done, m.1 ∉ kvs.map Prod.fst) →
      kvs.foldlM (fun ms kv => J.setNew ms kv.1 kv.2) done =
        (kvs.mapM member).map (done ++ ·) := by
    induction kvs with
    | nil => simp
    | cons kv kvs ih =>
      intro done hdone
      obtain ⟨hnew, hrest⟩ := List.nodup_cons.mp hkeys
      obtain ⟨key, value⟩ := kv
      cases value with
      | none => simp [List.mapM_cons, setNew]
      | some v =>
        have hkey : key ∉ done.map Prod.fst := by
          intro hmem
          obtain ⟨m, hm, rfl⟩ := List.mem_map.mp hmem
          exact hdone m hm (by simp)
        have hdone' : ∀ m ∈ done ++ [(key, v)], m.1 ∉ kvs.map Prod.fst := by
          intro m hm
          rcases List.mem_append.mp hm with hm | hm
          · exact fun hmem => hdone m hm (List.mem_cons_of_mem _ hmem)
          · rw [List.mem_singleton.mp hm]
            exact hnew
        have htail := ih hrest (fun kv hkv => hutf8 kv (by simp [hkv])) _ hdone'
        rw [List.foldlM_cons, J.setNew_of_new v (hutf8 (key, some v) (by simp)) hkey,
          List.mapM_cons]
        simp only [Option.bind_eq_bind, Option.bind_some, member_some, Option.pure_def, htail]
        cases kvs.mapM member <;> simp
  rw [setEach, hfold [] (by simp)]
  simp

/-- Plain ASCII, as every literal of a program is. -/
def Ascii (s : CStr) : Prop := ∀ b ∈ s.bytes, b.toNat < 0x80

instance (s : CStr) : Decidable (Ascii s) :=
  List.decidableBAll (fun b : UInt8 => b.toNat < 0x80) s.bytes

theorem Ascii.wellFormed {s : CStr} (h : Ascii s) : Utf8Encoding.WellFormed s.bytes :=
  Utf8Encoding.wellFormed_of_ascii h

theorem string_of_ascii {s : CStr} (h : Ascii s) : J.string s = some (.string s.bytes) :=
  J.string_of_wellFormed h.wellFormed

/-- Distinct plain names, as the member names a program writes out are. -/
def Names (keys : List CStr) : Prop := keys.Nodup ∧ ∀ k ∈ keys, Ascii k

instance (keys : List CStr) : Decidable (Names keys) :=
  @instDecidableAnd _ _ (List.nodupDecidable keys) (List.decidableBAll Ascii keys)

theorem setAll_of_names {ms : List (CStr × Json)} (h : Names (ms.map Prod.fst)) :
    J.setAll (ms.map fun m => (m.1, some m.2)) = ms := by
  rw [J.setAll_map _ h.1 fun m hm => (h.2 m.1 (List.mem_map_of_mem hm)).wellFormed]
  simp

/-- What is set under a key is what is found there, `NULL` included. -/
theorem valueAt_setAll {kvs : List (CStr × Option Json)} (h : Names (kvs.map Prod.fst)) {k : CStr}
    {v : Option Json} (hmem : (k, v) ∈ kvs) : KeyedLists.valueAt (J.setAll kvs) k = v := by
  rw [J.setAll_eq h.1 fun kv hkv => (h.2 kv.1 (List.mem_map_of_mem hkv)).wellFormed]
  replace h := h.1
  induction kvs with
  | nil => simp at hmem
  | cons kv kvs ih =>
    obtain ⟨key, value⟩ := kv
    obtain ⟨hnew, hrest⟩ := List.nodup_cons.mp h
    rcases List.mem_cons.mp hmem with heq | htail
    · obtain ⟨rfl, rfl⟩ := Prod.mk.inj heq
      cases v with
      | some x => simp [List.filterMap_cons_some (member_some k x), KeyedLists.valueAt_cons]
      | none =>
        rw [List.filterMap_cons_none (member_none k), Option.eq_none_iff_forall_ne_some]
        intro x hx
        obtain ⟨⟨k', v'⟩, hkv, hx'⟩ := List.mem_filterMap.mp (KeyedLists.mem_of_valueAt hx)
        obtain ⟨y, -, hy⟩ := Option.map_eq_some_iff.mp hx'
        obtain ⟨rfl, -⟩ := Prod.mk.inj hy
        exact hnew (List.mem_map.mpr ⟨_, hkv, rfl⟩)
    · have hne : key ≠ k := by
        rintro rfl
        exact hnew (List.mem_map.mpr ⟨_, htail, rfl⟩)
      cases value with
      | some x =>
        rw [List.filterMap_cons_some (member_some key x), KeyedLists.valueAt_cons, if_neg hne]
        exact ih htail hrest
      | none =>
        rw [List.filterMap_cons_none (member_none key)]
        exact ih htail hrest

theorem setEach_of_names {kvs : List (CStr × Option Json)} (h : Names (kvs.map Prod.fst)) :
    J.setEach kvs = kvs.mapM member :=
  J.setEach_eq h.1 fun kv hkv => (h.2 kv.1 (List.mem_map_of_mem hkv)).wellFormed

end Jansson

end JsonValues
