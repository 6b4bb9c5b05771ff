import Narrative.Json.Reader
import Narrative.Proofs.Json.Grammar

/-!
# Reading strings that were written

The octets of an escaped text, up to the closing quote, are read as the octets of
the text without the characters that writing leaves out, and these spell that
text in UTF-8. A character of several octets is read octet by octet; none of them
looks like a quote, a backslash or a control character.
-/

namespace Narrative.Json

/-! ## Texts as octets -/

namespace Octets

/-- Characters as they are stored. -/
def ofChars (chars : List Char) : Octets := chars.flatMap String.utf8EncodeChar

@[simp] theorem ofChars_nil : ofChars [] = [] := rfl

@[simp] theorem ofChars_append (first second : List Char) :
    ofChars (first ++ second) = ofChars first ++ ofChars second :=
  List.flatMap_append

theorem ofChars_cons (c : Char) (rest : List Char) :
    ofChars (c :: rest) = String.utf8EncodeChar c ++ ofChars rest :=
  List.flatMap_cons

theorem toList_byteArray (bytes : ByteArray) : bytes.toList = bytes.data.toList := by
  have hloop : ∀ (n i : Nat) (read : List UInt8), bytes.size - i = n →
      ByteArray.toList.loop bytes i read = read.reverse ++ bytes.data.toList.drop i := by
    intro n
    induction n with
    | zero =>
      intro i read hn
      rw [ByteArray.toList.loop, if_neg (by omega), List.drop_eq_nil_of_le]
      · simp
      · simpa using Nat.le_of_sub_eq_zero hn
    | succ n ih =>
      intro i read hn
      have hlt : i < bytes.data.toList.length := by
        change i < bytes.size
        omega
      have hget : bytes.get! i = bytes.data.toList[i] := by
        change bytes.data[i]! = _
        rw [getElem!_pos bytes.data i hlt, Array.getElem_toList]
      rw [ByteArray.toList.loop, if_pos (show i < bytes.size by omega), ih (i + 1) _ (by omega), hget,
        List.drop_eq_getElem_cons hlt]
      simp
  rw [ByteArray.toList, hloop _ 0 [] rfl]
  rfl

theorem ofString_eq (text : String) : ofString text = ofChars text.toList := by
  rw [ofString, String.toUTF8_eq_toByteArray, ← String.utf8Encode_toList, toList_byteArray,
    List.utf8Encode, List.toList_data_toByteArray, ofChars]

@[simp] theorem ofString_append (first second : String) :
    ofString (first ++ second) = ofString first ++ ofString second := by
  simp [ofString_eq]

/-- Octets of characters spell these characters. -/
theorem toString?_ofChars (chars : List Char) :
    (ofChars chars).toString? = some (String.ofList chars) := by
  have hbytes : (ofChars chars).toByteArray = chars.utf8Encode := rfl
  rw [toString?, hbytes, String.fromUTF8?, dif_pos ByteArray.isValidUTF8_utf8Encode]
  rfl

end Octets

theorem utf8EncodeChar_ascii {c : Char} (h : c.toNat < 128) :
    String.utf8EncodeChar c = [Octet.ofChar c] := by
  have hval : c.val.toNat ≤ 127 := Nat.le_of_lt_succ h
  rw [String.utf8EncodeChar.eq_1, if_pos hval]
  rfl

/-! ## Characters between quotes -/

/-- The octet stands for itself between quotes. -/
def PlainOctet (b : UInt8) : Prop := b ≠ Octet.quote ∧ b ≠ Octet.backslash ∧ ¬ b < 0x20

theorem plainOctet_of_toNat {b : UInt8} (hquote : b.toNat ≠ 34) (hslash : b.toNat ≠ 92)
    (hcontrol : 32 ≤ b.toNat) : PlainOctet b := by
  refine ⟨?_, ?_, ?_⟩
  · rintro rfl
    exact hquote rfl
  · rintro rfl
    exact hslash rfl
  · rw [UInt8.lt_iff_toNat_lt]
    exact Nat.not_lt.mpr hcontrol

theorem plainOctet_of_high {n : Nat} (hlow : 128 ≤ n) (hhigh : n < 256) :
    PlainOctet (UInt8.ofNat n) := by
  have hnat : (UInt8.ofNat n).toNat = n := by simp [Nat.mod_eq_of_lt hhigh]
  apply plainOctet_of_toNat <;> omega

/-- Every octet of a character that stands for itself does so too. -/
theorem plainOctet_of_mem {c : Char} (hcontrol : ¬ c < ' ') (hquote : c ≠ '"') (hslash : c ≠ '\\')
    {b : UInt8} (hb : b ∈ String.utf8EncodeChar c) : PlainOctet b := by
  have hspace : 32 ≤ c.val.toNat := Nat.not_lt.mp fun hlt => hcontrol (UInt32.lt_iff_toNat_lt.mpr hlt)
  have hquote' : c.val.toNat ≠ 34 := fun h => hquote (Char.toNat_inj.mp h)
  have hslash' : c.val.toNat ≠ 92 := fun h => hslash (Char.toNat_inj.mp h)
  rw [String.utf8EncodeChar.eq_1] at hb
  split_ifs at hb with hone htwo hthree
  · obtain rfl : b = UInt8.ofNat c.val.toNat := by simpa using hb
    have hnat : (UInt8.ofNat c.val.toNat).toNat = c.val.toNat := by
      simp only [UInt8.toNat_ofNat', Nat.reducePow]
      omega
    apply plainOctet_of_toNat <;> omega
  · simp only [List.mem_cons, List.not_mem_nil, or_false] at hb
    rcases hb with rfl | rfl <;> exact plainOctet_of_high (by omega) (by omega)
  · simp only [List.mem_cons, List.not_mem_nil, or_false] at hb
    rcases hb with rfl | rfl | rfl <;> exact plainOctet_of_high (by omega) (by omega)
  · simp only [List.mem_cons, List.not_mem_nil, or_false] at hb
    rcases hb with rfl | rfl | rfl | rfl <;> exact plainOctet_of_high (by omega) (by omega)

theorem stringOctets_plain {octets input more rest : Octets} (hplain : ∀ b ∈ octets, PlainOctet b)
    (h : stringOctets .plain input = .ok (more, rest)) :
    stringOctets .plain (octets ++ input) = .ok (octets ++ more, rest) := by
  induction octets with
  | nil => exact h
  | cons b others ih =>
    obtain ⟨hquote, hslash, hcontrol⟩ := hplain b List.mem_cons_self
    have hrest := ih fun c hc => hplain c (List.mem_cons_of_mem _ hc)
    have hstep : StringState.plain.step b = .push [b] .plain := by
      simp only [StringState.step, if_neg hquote, if_neg hslash, if_neg hcontrol]
    rw [List.cons_append, stringOctets, hstep]
    simp only [hrest]
    rfl

/-- An escape of one letter stands for one octet. -/
theorem stringOctets_escape (letter : UInt8) {octet : UInt8} {input more rest : Octets}
    (hletter : StringState.escaped? letter = some octet)
    (h : stringOctets .plain input = .ok (more, rest)) :
    stringOctets .plain (Octet.backslash :: letter :: input) = .ok (octet :: more, rest) := by
  have hslash : StringState.plain.step Octet.backslash = .push [] .escape := rfl
  have hstep : StringState.escape.step letter = .push [octet] .plain := by
    simp only [StringState.step, hletter]
  rw [stringOctets, hslash]
  simp only
  rw [stringOctets, hstep]
  simp only [h]
  rfl

/-- The characters that writing keeps. -/
def isKept (c : Char) : Bool := !decide (c < ' ') || c == '\n' || c == '\t'

/-- A text without the characters that writing leaves out. -/
def cleanText (text : String) : String := String.ofList (text.toList.filter isKept)

/-- One character, as it is written, is read as itself or not at all. -/
theorem stringOctets_escapedChar {input more rest : Octets} (c : Char)
    (h : stringOctets .plain input = .ok (more, rest)) :
    stringOctets .plain (Octets.ofChars (escapedChar c) ++ input) =
      .ok (Octets.ofChars ([c].filter isKept) ++ more, rest) := by
  rw [escapedChar, replacement?]
  split_ifs with hslash hquote hnewline htab hcontrol
  · subst hslash
    exact stringOctets_escape Octet.backslash rfl h
  · subst hquote
    exact stringOctets_escape Octet.quote rfl h
  · subst hnewline
    exact stringOctets_escape (Octet.ofChar 'n') rfl h
  · subst htab
    exact stringOctets_escape (Octet.ofChar 't') rfl h
  · have hdropped : isKept c = false := by simp [isKept, hcontrol, hnewline, htab]
    simpa [hdropped] using h
  · have hkept : isKept c = true := by simp [isKept, hcontrol]
    have hone : Octets.ofChars [c] = String.utf8EncodeChar c := by simp [Octets.ofChars]
    simp only [List.filter_cons, hkept, if_true, List.filter_nil, hone]
    exact stringOctets_plain (fun b hb => plainOctet_of_mem hcontrol hquote hslash hb) h

theorem stringOctets_escaped (chars : List Char) (rest : Octets) :
    stringOctets .plain (Octets.ofChars (chars.flatMap escapedChar) ++ Octet.quote :: rest) =
      .ok (Octets.ofChars (chars.filter isKept), rest) := by
  induction chars with
  | nil => rfl
  | cons c others ih =>
    have hfilter : (c :: others).filter isKept = [c].filter isKept ++ others.filter isKept := by
      rw [← List.filter_append, List.singleton_append]
    rw [List.flatMap_cons, Octets.ofChars_append, List.append_assoc,
      stringOctets_escapedChar c ih, hfilter, Octets.ofChars_append]

/-- A string is read back without the characters that writing leaves out. -/
theorem readString_escaped (text : String) (rest : Octets) :
    readString (Octets.ofString (escaped text) ++ Octet.quote :: rest) =
      .ok (cleanText text, rest) := by
  rw [readString, Octets.ofString_eq, toList_escaped, stringOctets_escaped]
  simp only [bind, Except.bind, Octets.toString?_ofChars]
  rfl

end Narrative.Json
