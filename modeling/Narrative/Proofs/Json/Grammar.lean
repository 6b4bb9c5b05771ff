import Mathlib.Tactic.SplitIfs
import Narrative.Proofs.Json.Rendering

/-!
# The grammar of JSON texts

The grammar as the standard gives it: blanks around the structural characters,
numbers without leading zeros, all forms of escapes, arrays and objects of any
depth, with keys that may repeat. Lists grow at their end, which is how a writer
makes them; the texts are the same as those of the standard's repetitions.

The grammar knows nothing of how this library writes or reads. The second half
shows which of its classes the written inside of a string falls into.
-/

namespace Narrative.Json

namespace Grammar

def Blanks (text : List Char) : Prop := ∀ c ∈ text, c ∈ [' ', '\t', '\n', '\r']

/-! ## Numbers -/

def Digits (text : List Char) : Prop := ∀ c ∈ text, c.isDigit = true

def Sign (text : List Char) : Prop := text = [] ∨ text = ['-']

/-- An integer part: a single zero, or digits that do not start with one. -/
inductive Whole : List Char → Prop where
  | zero : Whole ['0']
  | digits {d : Char} {rest : List Char} : d.isDigit = true → d ≠ '0' → Digits rest →
      Whole (d :: rest)

inductive Fraction : List Char → Prop where
  | absent : Fraction []
  | present {digits : List Char} : digits ≠ [] → Digits digits → Fraction ('.' :: digits)

inductive Exponent : List Char → Prop where
  | absent : Exponent []
  | present {mark : Char} {sign digits : List Char} : mark ∈ ['e', 'E'] →
      Sign sign ∨ sign = ['+'] → digits ≠ [] → Digits digits → Exponent (mark :: (sign ++ digits))

inductive Number : List Char → Prop where
  | mk {sign whole fraction exponent : List Char} : Sign sign → Whole whole → Fraction fraction →
      Exponent exponent → Number (sign ++ (whole ++ (fraction ++ exponent)))

/-! ## Strings -/

def isHexDigit (c : Char) : Prop := c.isDigit = true ∨ 'a' ≤ c ∧ c ≤ 'f' ∨ 'A' ≤ c ∧ c ≤ 'F'

/-- What may stand between the quotes of a string. -/
inductive Inside : List Char → Prop where
  | nil : Inside []
  | plain {c : Char} {rest : List Char} : ' ' ≤ c → c ≠ '"' → c ≠ '\\' → Inside rest →
      Inside (c :: rest)
  | escape {c : Char} {rest : List Char} : c ∈ ['"', '\\', '/', 'b', 'f', 'n', 'r', 't'] →
      Inside rest → Inside ('\\' :: c :: rest)
  | code {a b c d : Char} {rest : List Char} : isHexDigit a → isHexDigit b → isHexDigit c →
      isHexDigit d → Inside rest → Inside ('\\' :: 'u' :: a :: b :: c :: d :: rest)

inductive Quoted : List Char → Prop where
  | mk {inside : List Char} : Inside inside → Quoted ('"' :: (inside ++ ['"']))

/-! ## Values -/

mutual

inductive Value : List Char → Prop where
  | null : Value ['n', 'u', 'l', 'l']
  | true : Value ['t', 'r', 'u', 'e']
  | false : Value ['f', 'a', 'l', 's', 'e']
  | number {text : List Char} : Number text → Value text
  | string {text : List Char} : Quoted text → Value text
  | emptyArray {blanks : List Char} : Blanks blanks → Value ('[' :: (blanks ++ [']']))
  | array {items : List Char} : Elements items → Value ('[' :: (items ++ [']']))
  | emptyObject {blanks : List Char} : Blanks blanks → Value ('{' :: (blanks ++ ['}']))
  | object {members : List Char} : Members members → Value ('{' :: (members ++ ['}']))

/-- A value between blanks. -/
inductive Element : List Char → Prop where
  | mk {before value after : List Char} : Blanks before → Value value → Blanks after →
      Element (before ++ (value ++ after))

/-- One value or more, with commas between them. -/
inductive Elements : List Char → Prop where
  | one {item : List Char} : Element item → Elements item
  | more {items item : List Char} : Elements items → Element item → Elements (items ++ (',' :: item))

/-- A key and its value. -/
inductive Member : List Char → Prop where
  | mk {before key after value : List Char} : Blanks before → Quoted key → Blanks after →
      Element value → Member (before ++ (key ++ (after ++ (':' :: value))))

/-- One member or more, with commas between them. -/
inductive Members : List Char → Prop where
  | one {member : List Char} : Member member → Members member
  | more {members member : List Char} : Members members → Member member →
      Members (members ++ (',' :: member))

end

theorem blanks_nil : Blanks [] := by
  intro c hc
  cases hc

theorem Value.element {text : List Char} (h : Value text) : Element text := by
  simpa using Element.mk blanks_nil h blanks_nil

theorem Quoted.member {key value : List Char} (hkey : Quoted key) (hvalue : Value value) :
    Member (key ++ (':' :: value)) := by
  simpa using Member.mk blanks_nil hkey blanks_nil hvalue.element

theorem Inside.append {first second : List Char} (hfirst : Inside first) (hsecond : Inside second) :
    Inside (first ++ second) := by
  induction hfirst with
  | nil => exact hsecond
  | plain hspace hquote hslash _ ih => exact .plain hspace hquote hslash ih
  | escape hc _ ih => exact .escape hc ih
  | code ha hb hc hd _ ih => exact .code ha hb hc hd ih

end Grammar

/-! ## Escaped text -/

theorem inside_escapedChar (c : Char) : Grammar.Inside (escapedChar c) := by
  rw [escapedChar, replacement?]
  split_ifs with hslash hquote hnewline htab hcontrol
  · exact .escape (by decide) .nil
  · exact .escape (by decide) .nil
  · exact .escape (by decide) .nil
  · exact .escape (by decide) .nil
  · exact .nil
  · exact .plain (Char.not_lt.mp hcontrol) hquote hslash .nil

theorem inside_escaped (text : String) : Grammar.Inside (escaped text).toList := by
  rw [toList_escaped]
  induction text.toList with
  | nil => exact .nil
  | cons c rest ih => exact (inside_escapedChar c).append ih

theorem quoted_escaped (text : String) :
    Grammar.Quoted ('"' :: ((escaped text).toList ++ ['"'])) :=
  .mk (inside_escaped text)

end Narrative.Json
