import Narrative.Proofs.Json.Grammar

/-!
# Texts of numbers

An integer is written as an optional sign and its decimal digits. A float is
written with a fraction or an exponent, whatever its bits: the digits of its
shortest decimal do not start with a zero, so that no integer part has a leading
zero. That the digits round back to the float is not needed here.
-/

namespace Narrative

open Json

namespace Json.Grammar

theorem digits_toDigits (n : Nat) : Digits (Nat.toDigits 10 n) :=
  fun _ hc => Nat.isDigit_of_mem_toDigits (by decide) (by decide) hc

theorem digits_replicate (n : Nat) : Digits (List.replicate n '0') := by
  intro c hc
  rw [List.eq_of_mem_replicate hc]
  decide

theorem Digits.append {first second : List Char} (hfirst : Digits first) (hsecond : Digits second) :
    Digits (first ++ second) := by
  intro c hc
  rcases List.mem_append.mp hc with hc | hc
  · exact hfirst c hc
  · exact hsecond c hc

theorem digitChar_ne_zero {n : Nat} (hpos : 0 < n) (hlt : n < 10) : n.digitChar ≠ '0' := by
  have hall : ∀ n : Fin 10, 0 < n.val → n.val.digitChar ≠ '0' := by decide
  exact hall ⟨n, hlt⟩ hpos

/-- The digits of a positive number start with a digit other than zero. -/
theorem exists_toDigits_of_pos {n : Nat} (h : 0 < n) :
    ∃ d rest, Nat.toDigits 10 n = d :: rest ∧ d.isDigit = true ∧ d ≠ '0' ∧ Digits rest := by
  induction n using Nat.strongRecOn with
  | ind n ih =>
    by_cases hlt : n < 10
    · have hone := Nat.toDigits_of_lt_base hlt
      exact ⟨n.digitChar, [], hone, digits_toDigits n _ (by simp [hone]), digitChar_ne_zero h hlt,
        fun c hc => nomatch hc⟩
    · obtain ⟨d, rest, hdigits, hd, hne, hrest⟩ := ih (n / 10) (by omega) (by omega)
      refine ⟨d, rest ++ [(n % 10).digitChar], ?_, hd, hne, hrest.append ?_⟩
      · rw [Nat.toDigits_of_base_le (by decide) (by omega), hdigits, List.cons_append]
      · have hlast := digits_toDigits (n % 10)
        rwa [Nat.toDigits_of_lt_base (Nat.mod_lt n (by decide))] at hlast

theorem whole_toDigits (n : Nat) : Whole (Nat.toDigits 10 n) := by
  rcases Nat.eq_zero_or_pos n with rfl | hpos
  · exact .zero
  · obtain ⟨d, rest, hdigits, hd, hne, hrest⟩ := exists_toDigits_of_pos hpos
    rw [hdigits]
    exact .digits hd hne hrest

/-- A single digit is an integer part. -/
theorem Whole.of_digit {d : Char} (h : d.isDigit = true) : Whole [d] := by
  by_cases hzero : d = '0'
  · rw [hzero]
    exact .zero
  · exact .digits h hzero fun c hc => nomatch hc

/-- The text of an integer: a sign and digits without leading zeros. -/
theorem exists_repr_int (n : Int) :
    ∃ sign, Sign sign ∧ n.repr.toList = sign ++ Nat.toDigits 10 n.natAbs ∧
      (sign = [] ↔ 0 ≤ n) := by
  rw [Int.repr_eq_if]
  by_cases hneg : 0 ≤ n
  · refine ⟨[], Or.inl rfl, ?_, by simp [hneg]⟩
    rw [if_pos hneg, Nat.toList_repr, show n.toNat = n.natAbs by omega, List.nil_append]
  · refine ⟨['-'], Or.inr rfl, ?_, by simp [hneg]⟩
    rw [if_neg hneg, String.toList_append, Nat.toList_repr, show (-n).toNat = n.natAbs by omega]
    rfl

theorem number_repr_int (n : Int) : Number n.repr.toList := by
  obtain ⟨sign, hsign, hrepr, -⟩ := exists_repr_int n
  rw [hrepr]
  simpa using Number.mk hsign (whole_toDigits n.natAbs) .absent .absent

/-- A number after its sign that shows a fraction or an exponent. -/
inductive FloatDigits : List Char → Prop where
  | mk {whole fraction exponent : List Char} : Whole whole → Fraction fraction →
      Exponent exponent → fraction ≠ [] ∨ exponent ≠ [] →
      FloatDigits (whole ++ (fraction ++ exponent))

theorem FloatDigits.number {sign text : List Char} (h : FloatDigits text) (hsign : Sign sign) :
    Number (sign ++ text) := by
  obtain ⟨hwhole, hfraction, hexponent, -⟩ := h
  exact .mk hsign hwhole hfraction hexponent

theorem fraction_zero : Fraction ['.', '0'] := .present (by simp) (by simp [Digits])

theorem floatDigits_zero : FloatDigits ['0', '.', '0'] :=
  .mk .zero fraction_zero .absent (Or.inl (by simp))

end Json.Grammar

open Json.Grammar Number

/-! ## Decimals as texts -/

namespace Number.Layout

theorem exponent_of_repr (e : Int) : Exponent ('e' :: e.repr.toList) := by
  obtain ⟨sign, hsign, hrepr, -⟩ := exists_repr_int e
  rw [hrepr]
  exact .present (by decide) (Or.inl hsign) Nat.toDigits_ne_nil (digits_toDigits _)

/-- Digits in scientific form show an exponent. -/
theorem floatDigits_scientific {digits : String} (hne : digits.toList ≠ [])
    (hdigits : Digits digits.toList) (e : Int) : FloatDigits (scientific digits e).toList := by
  rw [scientific]
  cases htext : digits.toList with
  | nil => exact absurd htext hne
  | cons first rest =>
    rw [htext] at hdigits
    have hwhole : Whole [first] := .of_digit (hdigits first List.mem_cons_self)
    have hexponent := exponent_of_repr e
    cases rest with
    | nil =>
      simpa using FloatDigits.mk hwhole .absent hexponent (Or.inr (by simp))
    | cons second rest =>
      have hfraction : Fraction ('.' :: second :: rest) :=
        .present (by simp) fun c hc => hdigits c (List.mem_cons_of_mem _ hc)
      simpa using FloatDigits.mk hwhole hfraction hexponent (Or.inl (by simp))

/-- A decimal is written with a fraction or an exponent in documents. Zeros are put after its digits
only when the exponent is not negative, and then the digits must not be zero. -/
theorem floatDigits_render {x : Decimal} (h : 0 < x.digits ∨ x.exponent < 0) :
    FloatDigits (wire.render x).toList := by
  have hdigits := digits_toDigits x.digits
  have hne : Nat.toDigits 10 x.digits ≠ [] := Nat.toDigits_ne_nil
  have hlength : x.digits.repr.length = (Nat.toDigits 10 x.digits).length := by
    rw [← String.length_toList, Nat.toList_repr]
  simp only [render]
  split_ifs with hinteger hinside hsmall
  · obtain ⟨d, rest, htext, hd, hnonzero, hrest⟩ := exists_toDigits_of_pos
      (h.resolve_right (Int.not_lt.mpr hinteger.1))
    have hwhole : Whole (d :: (rest ++ List.replicate x.exponent.toNat '0')) :=
      .digits hd hnonzero (hrest.append (digits_replicate _))
    simpa [zeros, wire, Nat.toList_repr, htext] using
      FloatDigits.mk hwhole fraction_zero .absent (Or.inl (by simp))
  · -- The point stands inside the digits, so they are more than one and start with no zero.
    have hpos : 0 < x.digits := by
      rcases Nat.eq_zero_or_pos x.digits with hd | hd
      · rw [hd] at hlength hinside
        simp only [Nat.toDigits_zero, List.length_singleton] at hlength
        omega
      · exact hd
    obtain ⟨d, rest, htext, hd, hnonzero, hrest⟩ := exists_toDigits_of_pos hpos
    obtain ⟨places, hplaces⟩ : ∃ n, ((x.digits.repr.length : Int) + x.exponent).toNat = n + 1 :=
      ⟨((x.digits.repr.length : Int) + x.exponent).toNat - 1, by omega⟩
    rw [htext, List.length_cons] at hlength
    have hwhole : Whole (d :: rest.take places) :=
      .digits hd hnonzero fun c hc => hrest c (List.mem_of_mem_take hc)
    have hfraction : Fraction ('.' :: rest.drop places) := by
      refine .present ?_ fun c hc => hrest c (List.mem_of_mem_drop hc)
      rw [Ne, List.drop_eq_nil_iff]
      omega
    simpa [Nat.toList_repr, htext, hplaces] using
      FloatDigits.mk hwhole hfraction .absent (Or.inl (by simp))
  · have hfraction : Fraction ('.' ::
        (List.replicate (-((x.digits.repr.length : Int) + x.exponent)).toNat '0' ++
          Nat.toDigits 10 x.digits)) :=
      .present (by simp [hne]) ((digits_replicate _).append hdigits)
    simpa [zeros, Nat.toList_repr] using
      FloatDigits.mk .zero hfraction .absent (Or.inl (by simp))
  · exact floatDigits_scientific (by rwa [Nat.toList_repr]) (by rwa [Nat.toList_repr]) _

end Number.Layout

/-! ## Floats as texts -/

namespace Number.Interval

theorem pos_of_contains {interval : Interval} (hlow : 0 < interval.low) {grid : Int} {digits : Nat}
    (h : interval.contains grid digits = true) : 0 < digits := by
  have hup : 0 < (interval.scale grid).1 :=
    Nat.mul_pos (Nat.pow_pos (by decide)) (Nat.pow_pos (by decide))
  have hleast : 0 < interval.low * (interval.scale grid).1 := Nat.mul_pos hlow hup
  have hpoint : 0 < digits * (interval.scale grid).2 := by
    simp only [contains] at h
    split at h <;> simp only [Bool.and_eq_true, decide_eq_true_eq] at h <;> omega
  exact Nat.pos_of_mul_pos_right hpoint

theorem pos_of_point? {interval : Interval} (hlow : 0 < interval.low) {tie : Tie} {grid : Int}
    {digits : Nat} (h : interval.point? tie grid = some digits) : 0 < digits := by
  simp only [point?] at h
  split at h
  · cases h
  · next hbelow _ =>
    cases h
    exact pos_of_contains hlow hbelow
  · cases h
    exact Nat.succ_pos _
  · next hbelow _ =>
    have hpos := pos_of_contains hlow hbelow
    split at h
    · cases h
      exact hpos
    · split at h
      · cases h
        exact Nat.succ_pos _
      · split at h <;> cases h <;> omega

theorem firstPoint_spec {interval : Interval} (hlow : 0 < interval.low) (tie : Tie) {finest : Int}
    (hfinest : finest < 0) (n : Nat) :
    0 < (interval.firstPoint tie finest n).digits ∨
      (interval.firstPoint tie finest n).exponent < 0 := by
  induction n with
  | zero => exact Or.inr hfinest
  | succ n ih =>
    rw [firstPoint]
    split
    · next digits hpoint => exact Or.inl (pos_of_point? hlow hpoint)
    · exact ih

end Number.Interval

namespace Single

theorem significand_pos {x : Single} (h : x.isZero = false) : 0 < x.toBinary.significand := by
  have hmagnitude : x.magnitude.toNat ≠ 0 := by
    intro hzero
    have hword : x.magnitude = 0 := UInt32.toNat_inj.mp hzero
    simp [isZero, hword] at h
  have hfraction : (x.magnitude &&& 0x7fffff).toNat = x.magnitude.toNat % 2 ^ 23 := by
    rw [UInt32.toNat_and]
    exact Nat.and_two_pow_sub_one_eq_mod _ 23
  have hexponent : (x.magnitude >>> 23).toNat = x.magnitude.toNat / 2 ^ 23 := by
    rw [UInt32.toNat_shiftRight, Nat.shiftRight_eq_div_pow]
    rfl
  simp only [toBinary, hfraction, hexponent]
  split
  · simp only
    omega
  · simp only
    omega

theorem low_pos {x : Single} (h : x.isZero = false) : 0 < (Interval.ofSingle x).low := by
  have hpos := significand_pos h
  simp only [Interval.ofSingle]
  split <;> omega

theorem floatDigits_magnitudeText (x : Single) : FloatDigits (x.magnitudeText .wire).toList := by
  rw [magnitudeText]
  cases hzero : x.isZero with
  | true => simpa [Layout.wire] using floatDigits_zero
  | false =>
    exact Layout.floatDigits_render (Interval.firstPoint_spec (low_pos hzero) _ (by decide) 85)

theorem exists_finiteText (x : Single) :
    ∃ sign digits, Sign sign ∧ FloatDigits digits ∧ (x.finiteText .wire).toList = sign ++ digits := by
  refine ⟨(if x.isNegative then "-" else "").toList, _, ?_, floatDigits_magnitudeText x,
    String.toList_append⟩
  cases x.isNegative with
  | true => exact Or.inr rfl
  | false => exact Or.inl rfl

/-- A float is written as a sign and digits with a fraction or an exponent. -/
theorem exists_wireText (x : Single) :
    ∃ sign digits, Sign sign ∧ FloatDigits digits ∧ x.wireText.toList = sign ++ digits := by
  rw [wireText]
  split_ifs
  · exact ⟨[], _, Or.inl rfl, floatDigits_zero, rfl⟩
  · exact exists_finiteText _
  · exact exists_finiteText _
  · exact exists_finiteText _

theorem number_wireText (x : Single) : Json.Grammar.Number x.wireText.toList := by
  obtain ⟨sign, digits, hsign, hdigits, htext⟩ := x.exists_wireText
  rw [htext]
  exact hdigits.number hsign

end Single

end Narrative
