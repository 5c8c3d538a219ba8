/-
Texts as bytes, bytes in hexadecimal, maps of texts as JSON objects, the splitting of
texts at a separator, and texts in quotes.
-/
import Mathlib.Data.List.Basic
import Mathlib.Data.List.TakeDrop

namespace Oikos

open List

/-- The characters with the Unicode property `White_Space`. -/
def isWhitespace (c : Char) : Bool :=
  let n := c.toNat
  (9 ≤ n && n ≤ 13) || (8192 ≤ n && n ≤ 8202) ||
    [32, 133, 160, 5760, 8232, 8233, 8239, 8287, 12288].contains n

def bytesOf (s : String) : List UInt8 :=
  s.toList.flatMap String.utf8EncodeChar

theorem bytesOf_eq (s : String) : bytesOf s = s.toByteArray.data.toList := by
  rw [← String.utf8Encode_toList, utf8Encode]
  simp [bytesOf]

theorem bytesOf_injective {s t : String} (h : bytesOf s = bytesOf t) : s = t := by
  rw [bytesOf_eq, bytesOf_eq] at h
  apply String.toByteArray_inj.mp
  exact ByteArray.ext (Array.ext' h)

def hexDigit (n : Nat) : Char :=
  "0123456789abcdef".toList[n]?.getD '0'

def hexEncode (bytes : List UInt8) : String :=
  String.ofList (bytes.flatMap fun b => [hexDigit (b.toNat / 16), hexDigit (b.toNat % 16)])

theorem hexEncode_ne_empty {bytes : List UInt8} (h : bytes ≠ []) : hexEncode bytes ≠ "" := by
  intro hempty
  have hchars := congrArg String.toList hempty
  rw [hexEncode, String.toList_ofList] at hchars
  cases bytes with
  | nil => exact h rfl
  | cons b bytes => cases hchars

theorem hexDigit_injective {m n : Nat} (hm : m < 16) (hn : n < 16) (h : hexDigit m = hexDigit n) :
    m = n := by
  have hall : ∀ m n : Fin 16, hexDigit m = hexDigit n → m = n := by decide
  exact congrArg Fin.val (hall ⟨m, hm⟩ ⟨n, hn⟩ h)

theorem hexEncode_injective {a b : List UInt8} (h : hexEncode a = hexEncode b) : a = b := by
  have hchars := congrArg String.toList h
  rw [hexEncode, hexEncode, String.toList_ofList, String.toList_ofList] at hchars
  clear h
  induction a generalizing b with
  | nil =>
    cases b with
    | nil => rfl
    | cons y b => cases hchars
  | cons x a ih =>
    cases b with
    | nil => cases hchars
    | cons y b =>
      obtain ⟨hhigh, hrest⟩ := cons_eq_cons.mp hchars
      obtain ⟨hlow, hrest⟩ := cons_eq_cons.mp hrest
      have hx := x.toNat_lt
      have hy := y.toNat_lt
      have hdiv := hexDigit_injective (by omega) (by omega) hhigh
      have hmod := hexDigit_injective (by omega) (by omega) hlow
      have hxy : x = y := UInt8.toNat_inj.mp (by omega)
      rw [hxy, ih hrest]

theorem mem_hexEncode {bytes : List UInt8} {c : Char} (h : c ∈ (hexEncode bytes).toList) :
    c ∈ "0123456789abcdef".toList := by
  have hzero : '0' ∈ "0123456789abcdef".toList := by decide
  have hdigit (n : Nat) : hexDigit n ∈ "0123456789abcdef".toList := by
    unfold hexDigit
    generalize "0123456789abcdef".toList = digits at hzero ⊢
    cases hn : digits[n]? with
    | none => exact hzero
    | some d => exact mem_of_getElem? hn
  rw [hexEncode, String.toList_ofList] at h
  obtain ⟨b, _, hc⟩ := mem_flatMap.mp h
  rcases mem_pair.mp hc with rfl | rfl
  · exact hdigit _
  · exact hdigit _

/-- A character of a JSON string. -/
def jsonChar (c : Char) : List Char :=
  if c = '"' then ['\\', '"']
  else if c = '\\' then ['\\', '\\']
  else if c = '\x08' then ['\\', 'b']
  else if c = '\x0c' then ['\\', 'f']
  else if c = '\n' then ['\\', 'n']
  else if c = '\r' then ['\\', 'r']
  else if c = '\t' then ['\\', 't']
  else if c.toNat < 32 ∨ c = '<' ∨ c = '>' ∨ c = '&' ∨ c.toNat = 0x2028 ∨ c.toNat = 0x2029 then
    ['\\', 'u', hexDigit (c.toNat / 4096), hexDigit (c.toNat / 256 % 16),
      hexDigit (c.toNat / 16 % 16), hexDigit (c.toNat % 16)]
  else [c]

def jsonQuote (s : String) : String :=
  String.ofList ('"' :: s.toList.flatMap jsonChar ++ ['"'])

def jsonObject (fields : List (String × String)) : String :=
  "\x7b" ++ ",".intercalate
    (fields.map fun (key, value) => jsonQuote key ++ ":" ++ jsonQuote value) ++
    "\x7d"

/-- `strings.Split` at a separator of one character. -/
def splitString (sep : Char) (s : String) : List String :=
  (s.toList.splitOn sep).map String.ofList

/-- `strings.SplitN`: at most `n` parts, the last one is not split. -/
def splitN (sep : Char) : Nat → List Char → List (List Char)
  | 0, _ => []
  | 1, cs => [cs]
  | n + 2, cs =>
    match cs.span (· ≠ sep) with
    | (part, []) => [part]
    | (part, _ :: rest) => part :: splitN sep (n + 1) rest

/-- `strings.TrimSuffix`. -/
def trimSuffix (s suffix : String) : String :=
  if suffix.toList.isSuffixOf s.toList then
    String.ofList (s.toList.take (s.toList.length - suffix.toList.length))
  else s

theorem splitString_intercalate {sep : Char} {parts : List String} (hne : parts ≠ [])
    (h : ∀ part ∈ parts, sep ∉ part.toList) :
    splitString sep ((String.singleton sep).intercalate parts) = parts := by
  have hparts : ∀ cs ∈ parts.map String.toList, sep ∉ cs := by
    intro cs hcs
    obtain ⟨part, hpart, rfl⟩ := mem_map.mp hcs
    exact h part hpart
  rw [splitString, String.toList_intercalate, String.toList_singleton,
    splitOn_intercalate sep hparts (by simpa using hne), map_map]
  simp [Function.comp_def]

theorem splitN_cons {sep : Char} {part : List Char} (h : sep ∉ part) (n : Nat) (rest : List Char) :
    splitN sep (n + 2) (part ++ sep :: rest) = part :: splitN sep (n + 1) rest := by
  have hspan : (part ++ sep :: rest).span (· ≠ sep) = (part, sep :: rest) := by
    rw [span_eq_takeWhile_dropWhile]
    have hpart : ∀ c ∈ part, decide (c ≠ sep) = true := by
      intro c hc
      exact decide_eq_true fun heq => h (heq ▸ hc)
    rw [takeWhile_append_of_pos hpart, dropWhile_append_of_pos hpart]
    simp
  rw [splitN, hspan]

theorem trimSuffix_append (s suffix : String) : trimSuffix (s ++ suffix) suffix = s := by
  have hsuffix : suffix.toList.isSuffixOf (s ++ suffix).toList = true := by
    rw [isSuffixOf_iff_suffix, String.toList_append]
    exact suffix_append _ _
  rw [trimSuffix, if_pos hsuffix, String.toList_append, length_append, Nat.add_sub_cancel,
    take_left, String.ofList_toList]

/-- The characters that `strconv.IsPrint` calls printable, a table of Go's. -/
class PrintTable where
  isPrint : Char → Bool

def escapedRune [PrintTable] (c : Char) : String :=
  let hex width := String.ofList ((Nat.toDigits 16 c.toNat).leftpad width '0')
  if c = '"' ∨ c = '\\' then String.ofList ['\\', c]
  else if PrintTable.isPrint c then c.toString
  else
    match c with
    | '\x07' => "\\a"
    | '\x08' => "\\b"
    | '\x0c' => "\\f"
    | '\n' => "\\n"
    | '\r' => "\\r"
    | '\t' => "\\t"
    | '\x0b' => "\\v"
    | _ =>
      if c < ' ' ∨ c = '\x7f' then "\\x" ++ hex 2
      else if c.toNat < 0x10000 then "\\u" ++ hex 4
      else "\\U" ++ hex 8

/-- `strconv.Quote`, the verb `%q`. -/
def quote [PrintTable] (s : String) : String :=
  "\"" ++ String.join (s.toList.map escapedRune) ++ "\""

end Oikos
