import Narrative.Proofs.Json.NumberTexts
import Narrative.Proofs.Json.ReadingStrings

/-!
# Reading numbers that were written

The digits of an integer below the bound are read as that integer. A number with
a fraction or an exponent is read to its end and gives a float, or is refused as
malformed; which float it gives is not followed up. In both cases what comes after
the number must not look like more of it.
-/

namespace Narrative.Json

open Grammar

/-- The result of reading something that is followed by `rest`; what is not read is malformed. -/
def answer {α : Type} (result : Option α) (rest : Octets) : Except ReadError (Front α) :=
  match result with
  | some value => .ok (value, rest)
  | none => .error .malformed

namespace Numeral

/-- A text does not go on with a digit. -/
def NoDigit (rest : Octets) : Prop := ∀ b ∈ rest.head?, Octet.isDigit b = false

/-- A text does not go on with anything that belongs to a number. -/
def EndsNumber (rest : Octets) : Prop :=
  ∀ b ∈ rest.head?, Octet.isDigit b = false ∧ b ≠ Octet.point ∧ isExponentMark b = false

theorem endsNumber_nil : EndsNumber [] := fun _ hb => nomatch hb

theorem EndsNumber.noDigit {rest : Octets} (h : EndsNumber rest) : NoDigit rest :=
  fun b hb => (h b hb).1

/-! ## Runs of digits -/

theorem exists_digit {c : Char} (h : c.isDigit = true) :
    48 ≤ c.toNat ∧ c.toNat ≤ 57 :=
  Char.isDigit_iff_toNat.mp h

theorem toNat_ofChar {c : Char} (h : c.toNat < 256) : (Octet.ofChar c).toNat = c.toNat := by
  simp only [Octet.ofChar, UInt8.toNat_ofNat', Nat.reducePow]
  omega

theorem isDigit_ofChar {c : Char} (h : c.isDigit = true) : Octet.isDigit (Octet.ofChar c) = true := by
  obtain ⟨hlow, hhigh⟩ := exists_digit h
  have hnat := toNat_ofChar (show c.toNat < 256 by omega)
  simp only [Octet.isDigit, Bool.and_eq_true, decide_eq_true_eq, UInt8.le_iff_toNat_le, hnat]
  exact ⟨hlow, hhigh⟩

theorem ofChar_ne {c : Char} (h : c.isDigit = true) {b : UInt8} (hb : Octet.isDigit b = false) :
    Octet.ofChar c ≠ b := by
  rintro rfl
  exact Bool.noConfusion ((isDigit_ofChar h).symm.trans hb)

theorem digit_ofChar {c : Char} (h : c.isDigit = true) :
    Octet.digit (Octet.ofChar c) = c.toNat - '0'.toNat := by
  obtain ⟨hlow, hhigh⟩ := exists_digit h
  rw [Octet.digit, toNat_ofChar (show c.toNat < 256 by omega)]
  rfl

theorem ofChars_digits {digits : List Char} (h : Digits digits) :
    Octets.ofChars digits = digits.map Octet.ofChar := by
  induction digits with
  | nil => rfl
  | cons c rest ih =>
    obtain ⟨-, hhigh⟩ := exists_digit (h c List.mem_cons_self)
    rw [Octets.ofChars_cons, utf8EncodeChar_ascii (by omega),
      ih fun d hd => h d (List.mem_cons_of_mem _ hd)]
    rfl

theorem isDigit_of_mem {digits : List Char} (h : Digits digits) {b : UInt8}
    (hb : b ∈ Octets.ofChars digits) : Octet.isDigit b = true := by
  rw [ofChars_digits h] at hb
  obtain ⟨c, hc, rfl⟩ := List.mem_map.mp hb
  exact isDigit_ofChar (h c hc)

theorem takeWhile_digits {digits : List Char} (h : Digits digits) {rest : Octets}
    (hrest : NoDigit rest) :
    (Octets.ofChars digits ++ rest).takeWhile Octet.isDigit = Octets.ofChars digits := by
  rw [List.takeWhile_append_of_pos fun b hb => isDigit_of_mem h hb]
  cases rest with
  | nil => simp
  | cons b rest => simp [hrest b rfl]

theorem dropWhile_digits {digits : List Char} (h : Digits digits) {rest : Octets}
    (hrest : NoDigit rest) :
    (Octets.ofChars digits ++ rest).dropWhile Octet.isDigit = rest := by
  rw [List.dropWhile_append_of_pos fun b hb => isDigit_of_mem h hb]
  cases rest with
  | nil => rfl
  | cons b rest => simp [hrest b rfl]

theorem wholeDigits_whole {whole : List Char} (h : Whole whole) {rest : Octets}
    (hrest : NoDigit rest) :
    wholeDigits (Octets.ofChars whole ++ rest) = .ok (Octets.ofChars whole, rest) := by
  cases h with
  | zero =>
    have hzero : Octets.ofChars ['0'] = [Octet.zero] := rfl
    rw [hzero, List.singleton_append]
    cases rest with
    | nil => rfl
    | cons b rest => simp [wholeDigits, hrest b rfl]
  | @digits d others hd hne hothers =>
    obtain ⟨hlow, hhigh⟩ := exists_digit hd
    have hfirst : Octet.ofChar d ≠ Octet.zero := by
      intro heq
      have hnat := congrArg UInt8.toNat heq
      rw [toNat_ofChar (by omega)] at hnat
      exact hne (Char.toNat_inj.mp hnat)
    rw [Octets.ofChars_cons, utf8EncodeChar_ascii (by omega), List.append_assoc,
      List.singleton_append]
    simp only [wholeDigits, hfirst, isDigit_ofChar hd, if_false, if_true,
      takeWhile_digits hothers hrest, dropWhile_digits hothers hrest, List.singleton_append]

theorem someDigits_digits {digits : List Char} (hne : digits ≠ []) (h : Digits digits)
    {rest : Octets} (hrest : NoDigit rest) :
    someDigits (Octets.ofChars digits ++ rest) = .ok (Octets.ofChars digits, rest) := by
  have htake := takeWhile_digits h hrest
  have hdrop := dropWhile_digits h hrest
  cases hinput : Octets.ofChars digits ++ rest with
  | nil =>
    rw [ofChars_digits h] at hinput
    simp [hne] at hinput
  | cons b others =>
    have hdigit : Octet.isDigit b = true := by
      have hmem : b ∈ Octets.ofChars digits := by
        cases hoctets : Octets.ofChars digits with
        | nil =>
          rw [ofChars_digits h] at hoctets
          simp [hne] at hoctets
        | cons c others =>
          rw [hoctets] at hinput
          exact (List.cons.inj hinput).1 ▸ List.mem_cons_self
      exact isDigit_of_mem h hmem
    rw [hinput] at htake hdrop
    simp only [someDigits, hdigit, if_true, htake, hdrop]

/-! ## Integers -/

/-- Digits are taken one by one as long as the number they spell stays below the bound, which it does
if the whole number does. -/
theorem absorb_digits {digits : List Char} (h : Digits digits) {n : Nat}
    (hbound : Nat.ofDigitChars 10 digits n < wordBound) :
    absorb n (Octets.ofChars digits) = (Nat.ofDigitChars 10 digits n, []) := by
  rw [ofChars_digits h]
  induction digits generalizing n with
  | nil => simp [absorb]
  | cons c rest ih =>
    have hstep : n * 10 + Octet.digit (Octet.ofChar c) = 10 * n + (c.toNat - '0'.toNat) := by
      rw [digit_ofChar (h c List.mem_cons_self), Nat.mul_comm]
    have hvalue : Nat.ofDigitChars 10 (c :: rest) n =
        Nat.ofDigitChars 10 rest (10 * n + (c.toNat - '0'.toNat)) := by
      simp only [Nat.ofDigitChars_eq_foldl, List.foldl_cons]
    have hprefix : 10 * n + (c.toNat - '0'.toNat) < wordBound := by
      rw [hvalue, Nat.ofDigitChars_eq_ofDigitChars_zero] at hbound
      have hpow : 0 < 10 ^ rest.length := Nat.pow_pos (by decide)
      have hle := Nat.le_mul_of_pos_left (10 * n + (c.toNat - '0'.toNat)) hpow
      omega
    rw [hvalue] at hbound ⊢
    rw [List.map_cons, absorb, hstep, if_pos hprefix]
    exact ih (fun d hd => h d (List.mem_cons_of_mem _ hd)) hbound

/-- The digits of an integer are read as that integer. -/
theorem read_integer {n : Nat} (hbound : n < wordBound) (negative : Bool) {rest : Octets}
    (hrest : EndsNumber rest) :
    read negative (Octets.ofChars (Nat.toDigits 10 n) ++ rest) =
      (ofInteger negative n).map fun value => (value, rest) := by
  have hdigits := digits_toDigits n
  have habsorb : absorb 0 (Octets.ofChars (Nat.toDigits 10 n)) = (n, []) := by
    have habsorb := absorb_digits hdigits (n := 0)
    rw [Nat.ofDigitChars_ten_toDigits] at habsorb
    exact habsorb hbound
  rw [read, wholeDigits_whole (whole_toDigits n) hrest.noDigit]
  simp only [bind, Except.bind, habsorb]
  cases rest with
  | nil =>
    simp only [List.isEmpty_nil, if_true]
    cases ofInteger negative n <;> rfl
  | cons b after =>
    obtain ⟨-, hpoint, hmark⟩ := hrest b rfl
    simp only [if_neg hpoint, hmark, List.isEmpty_nil, Bool.not_true, Bool.or_self,
      Bool.false_eq_true, if_false]
    cases ofInteger negative n <;> rfl

theorem ofInteger_int32 (value : Int32) :
    ofInteger (decide (value.toInt < 0)) value.toInt.natAbs = .ok (.int value) := by
  have hlow := value.le_toInt
  have hhigh := value.toInt_lt
  rw [ofInteger]
  by_cases hneg : value.toInt < 0
  · have hint : -(value.toInt.natAbs : Int) = value.toInt := by omega
    simp only [hneg, decide_true, if_true, hint, Int32.ofInt_toInt]
    rw [if_neg (by omega), if_pos (by omega)]
  · have hint : (value.toInt.natAbs : Int) = value.toInt := by omega
    have hword : Int32.ofNat value.toInt.natAbs = value := by
      rw [← Int32.ofInt_eq_ofNat, hint, Int32.ofInt_toInt]
    simp only [hneg, decide_false, Bool.false_eq_true, if_false, hword]
    rw [if_pos (by omega)]

/-! ## Floats -/

theorem exponentPart_digits {sign digits : List Char} (hsign : Sign sign ∨ sign = ['+'])
    (hne : digits ≠ []) (h : Digits digits) :
    ∃ shift, ∀ rest, NoDigit rest →
      exponentPart (Octets.ofChars (sign ++ digits) ++ rest) = .ok (shift, rest) := by
  have hsome := fun rest (hrest : NoDigit rest) => someDigits_digits hne h hrest
  rcases hsign with (rfl | rfl) | rfl
  · refine ⟨(valueOf (Octets.ofChars digits) : Int), fun rest hrest => ?_⟩
    cases digits with
    | nil => exact absurd rfl hne
    | cons d others =>
      have hdigit := h d List.mem_cons_self
      obtain ⟨hlow, hhigh⟩ := exists_digit hdigit
      have hminus : Octet.ofChar d ≠ Octet.minus := ofChar_ne hdigit rfl
      have hplus : Octet.ofChar d ≠ Octet.plus := ofChar_ne hdigit rfl
      have hoctets : Octets.ofChars ([] ++ d :: others) ++ rest =
          Octet.ofChar d :: (Octets.ofChars others ++ rest) := by
        rw [List.nil_append, Octets.ofChars_cons, utf8EncodeChar_ascii (by omega)]
        rfl
      have hread := hsome rest hrest
      rw [List.nil_append] at hoctets
      rw [hoctets] at hread
      rw [List.nil_append, hoctets, exponentPart, if_neg hminus, if_neg hplus, hread]
      rfl
  · refine ⟨-(valueOf (Octets.ofChars digits) : Int), fun rest hrest => ?_⟩
    change exponentPart (Octet.minus :: (Octets.ofChars digits ++ rest)) = _
    rw [exponentPart, if_pos rfl, hsome rest hrest]
    rfl
  · refine ⟨(valueOf (Octets.ofChars digits) : Int), fun rest hrest => ?_⟩
    change exponentPart (Octet.plus :: (Octets.ofChars digits ++ rest)) = _
    rw [exponentPart, if_neg (by decide), if_pos rfl, hsome rest hrest]
    rfl

/-- A float gives an answer, whatever its value. -/
theorem exists_ofFloat (negative : Bool) (significand : Nat) (exponent : Int) :
    ∃ result, ∀ rest : Octets,
      (ofFloat negative significand exponent >>= fun value => .ok (value, rest)) =
        answer result rest := by
  rw [ofFloat]
  cases toSingle? negative significand exponent with
  | some value => exact ⟨some (.float value), fun _ => rfl⟩
  | none => exact ⟨none, fun _ => rfl⟩

theorem exists_withExponent {text : List Char} (h : Exponent text) (negative : Bool)
    (significand : Nat) (exponent : Int) :
    ∃ result, ∀ rest, EndsNumber rest →
      withExponent negative significand exponent (Octets.ofChars text ++ rest) =
        answer result rest := by
  cases h with
  | absent =>
    obtain ⟨result, hresult⟩ := exists_ofFloat negative significand exponent
    refine ⟨result, fun rest hrest => ?_⟩
    rw [← hresult]
    cases rest with
    | nil => rfl
    | cons b after =>
      obtain ⟨-, -, hmark⟩ := hrest b rfl
      simp only [Octets.ofChars_nil, List.nil_append, withExponent, hmark, Bool.false_eq_true,
        if_false]
  | @present mark sign digits hmark hsign hne hdigits =>
    obtain ⟨shift, hshift⟩ := exponentPart_digits hsign hne hdigits
    obtain ⟨result, hresult⟩ := exists_ofFloat negative significand (exponent + shift)
    refine ⟨result, fun rest hrest => ?_⟩
    have hoctet : String.utf8EncodeChar mark = [Octet.ofChar mark] ∧
        isExponentMark (Octet.ofChar mark) = true := by
      simp only [List.mem_cons, List.not_mem_nil, or_false] at hmark
      rcases hmark with rfl | rfl <;> exact ⟨rfl, rfl⟩
    rw [Octets.ofChars_cons, hoctet.1, List.append_assoc, List.singleton_append, withExponent,
      if_pos hoctet.2, hshift rest hrest.noDigit, ← hresult]
    rfl

theorem noDigit_exponent {text : List Char} (h : Exponent text) {rest : Octets}
    (hrest : EndsNumber rest) : NoDigit (Octets.ofChars text ++ rest) := by
  cases h with
  | absent => exact hrest.noDigit
  | @present mark sign digits hmark =>
    simp only [List.mem_cons, List.not_mem_nil, or_false] at hmark
    rcases hmark with rfl | rfl <;>
      · intro b hb
        cases hb
        rfl

/-- A number with a fraction or an exponent gives one answer wherever it is followed by something
else. -/
theorem exists_read_float {text : List Char} (h : FloatDigits text) (negative : Bool) :
    ∃ result, ∀ rest, EndsNumber rest →
      read negative (Octets.ofChars text ++ rest) = answer result rest := by
  obtain ⟨hwhole, hfraction, hexponent, hshown⟩ := h
  rename_i whole fraction exponent
  cases hfraction with
  | absent =>
    obtain ⟨result, hresult⟩ := exists_withExponent hexponent negative
      (absorb 0 (Octets.ofChars whole)).1 (absorb 0 (Octets.ofChars whole)).2.length
    refine ⟨result, fun rest hrest => ?_⟩
    have hnext := hresult rest hrest
    simp only [List.nil_append, Octets.ofChars_append, List.append_assoc] at hnext ⊢
    rw [read, wholeDigits_whole hwhole (noDigit_exponent hexponent hrest)]
    simp only [bind, Except.bind]
    cases hexponent with
    | absent => simp at hshown
    | @present mark sign digits hmark =>
      simp only [List.mem_cons, List.not_mem_nil, or_false] at hmark
      rcases hmark with rfl | rfl <;> exact hnext
  | @present digits hne hdigits =>
    obtain ⟨result, hresult⟩ := exists_withExponent hexponent negative
      (absorb (absorb 0 (Octets.ofChars whole)).1 (Octets.ofChars digits)).1
      (((absorb 0 (Octets.ofChars whole)).2.length : Int) -
        (((Octets.ofChars digits).length -
          (absorb (absorb 0 (Octets.ofChars whole)).1 (Octets.ofChars digits)).2.length : Nat) :
          Int))
    refine ⟨result, fun rest hrest => ?_⟩
    have hnext := hresult rest hrest
    have hoctets : Octets.ofChars (whole ++ ('.' :: digits ++ exponent)) ++ rest =
        Octets.ofChars whole ++ Octet.point ::
          (Octets.ofChars digits ++ (Octets.ofChars exponent ++ rest)) := by
      rw [Octets.ofChars_append, Octets.ofChars_append, List.append_assoc, List.append_assoc]
      rfl
    have hafter : NoDigit (Octet.point ::
        (Octets.ofChars digits ++ (Octets.ofChars exponent ++ rest))) := by
      intro b hb
      cases hb
      rfl
    rw [hoctets, read, wholeDigits_whole hwhole hafter]
    simp only [bind, Except.bind, if_true]
    rw [someDigits_digits hne hdigits (noDigit_exponent hexponent hrest)]
    exact hnext

end Numeral

end Narrative.Json
