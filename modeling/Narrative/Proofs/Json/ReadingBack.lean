import Narrative.Proofs.Json.ReadingNumbers

/-!
# Reading back what was written

The text of a value without floats is read as that value, cleaned: characters that
writing leaves out are gone from every string and key, and the entries of each
object are inserted in their order under their cleaned keys, so that keys that have
become equal share one entry. This holds as long as arrays and objects nest no
deeper than the reader allows; the text of a deeper value is refused as malformed.

`reread?` says what reading the text of a value gives under a limit on the depth.
One induction over values shows that reading does give that, and two more show
where `reread?` is the cleaned value and where it is nothing.
-/

namespace Narrative.Json

open Grammar Numeral

/-! ## What is kept of a value -/

mutual

/-- No float occurs in a value. -/
def isFloatFree : Json → Bool
  | float _ => false
  | arr items => areFloatFree items
  | obj fields => areFieldsFloatFree fields
  | _ => true

def areFloatFree : List Json → Bool
  | [] => true
  | item :: rest => isFloatFree item && areFloatFree rest

def areFieldsFloatFree : List (String × Json) → Bool
  | [] => true
  | (_, item) :: rest => isFloatFree item && areFieldsFloatFree rest

end

mutual

/-- How many arrays and objects stand inside each other. -/
def nesting : Json → Nat
  | arr items => nestingItems items + 1
  | obj fields => nestingFields fields + 1
  | _ => 0

def nestingItems : List Json → Nat
  | [] => 0
  | item :: rest => max (nesting item) (nestingItems rest)

def nestingFields : List (String × Json) → Nat
  | [] => 0
  | (_, item) :: rest => max (nesting item) (nestingFields rest)

end

mutual

/-- A value with its strings and keys cleaned. -/
def clean : Json → Json
  | str text => str (cleanText text)
  | arr items => arr (cleanItems items)
  | obj fields => obj (Dict.ofList (cleanFields fields))
  | token => token

def cleanItems : List Json → List Json
  | [] => []
  | item :: rest => clean item :: cleanItems rest

def cleanFields : List (String × Json) → List (String × Json)
  | [] => []
  | (key, item) :: rest => (cleanText key, clean item) :: cleanFields rest

end

mutual

/-- What reading the text of a value gives if arrays and objects may be nested `depth` deep. -/
def reread? : Json → (depth : Nat) → Option Json
  | float value, _ => (parse value.wireText).toOption
  | arr _, 0 => none
  | arr items, depth + 1 => (rereadItems? items depth).map arr
  | obj _, 0 => none
  | obj fields, depth + 1 => (rereadFields? fields depth).map (obj ∘ Dict.ofList)
  | token, _ => some token.clean

def rereadItems? : List Json → (depth : Nat) → Option (List Json)
  | [], _ => some []
  | item :: rest, depth =>
    (reread? item depth).bind fun value => (rereadItems? rest depth).map (value :: ·)

def rereadFields? : List (String × Json) → (depth : Nat) → Option (List (String × Json))
  | [], _ => some []
  | (key, item) :: rest, depth =>
    (reread? item depth).bind fun value =>
      (rereadFields? rest depth).map ((cleanText key, value) :: ·)

end

mutual

theorem reread?_of_floatFree : ∀ {token : Json} {depth : Nat}, token.isFloatFree = true →
    token.nesting ≤ depth → reread? token depth = some token.clean
  | null, _, _, _ => rfl
  | bool _, _, _, _ => rfl
  | int _, _, _, _ => rfl
  | str _, _, _, _ => rfl
  | arr items, depth + 1, hfree, hdepth => by
    rw [isFloatFree] at hfree
    rw [nesting] at hdepth
    rw [reread?, rereadItems?_of_floatFree hfree (Nat.le_of_succ_le_succ hdepth), clean]
    rfl
  | obj fields, depth + 1, hfree, hdepth => by
    rw [isFloatFree] at hfree
    rw [nesting] at hdepth
    rw [reread?, rereadFields?_of_floatFree hfree (Nat.le_of_succ_le_succ hdepth), clean]
    rfl

theorem rereadItems?_of_floatFree : ∀ {items : List Json} {depth : Nat},
    areFloatFree items = true → nestingItems items ≤ depth →
    rereadItems? items depth = some (cleanItems items)
  | [], _, _, _ => rfl
  | item :: rest, depth, hfree, hdepth => by
    rw [areFloatFree, Bool.and_eq_true] at hfree
    rw [nestingItems, Nat.max_le] at hdepth
    rw [rereadItems?, reread?_of_floatFree hfree.1 hdepth.1,
      rereadItems?_of_floatFree hfree.2 hdepth.2]
    rfl

theorem rereadFields?_of_floatFree : ∀ {fields : List (String × Json)} {depth : Nat},
    areFieldsFloatFree fields = true → nestingFields fields ≤ depth →
    rereadFields? fields depth = some (cleanFields fields)
  | [], _, _, _ => rfl
  | (key, item) :: rest, depth, hfree, hdepth => by
    rw [areFieldsFloatFree, Bool.and_eq_true] at hfree
    rw [nestingFields, Nat.max_le] at hdepth
    rw [rereadFields?, reread?_of_floatFree hfree.1 hdepth.1,
      rereadFields?_of_floatFree hfree.2 hdepth.2]
    rfl

end

mutual

theorem reread?_of_deep : ∀ {token : Json} {depth : Nat}, depth < token.nesting →
    reread? token depth = none
  | arr _, 0, _ => rfl
  | arr items, depth + 1, hdeep => by
    rw [nesting] at hdeep
    rw [reread?, rereadItems?_of_deep (Nat.lt_of_succ_lt_succ hdeep), Option.map_none]
  | obj _, 0, _ => rfl
  | obj fields, depth + 1, hdeep => by
    rw [nesting] at hdeep
    rw [reread?, rereadFields?_of_deep (Nat.lt_of_succ_lt_succ hdeep), Option.map_none]

theorem rereadItems?_of_deep : ∀ {items : List Json} {depth : Nat}, depth < nestingItems items →
    rereadItems? items depth = none
  | item :: rest, depth, hdeep => by
    rw [nestingItems] at hdeep
    have hdeeper : depth < item.nesting ∨ depth < nestingItems rest := by omega
    rw [rereadItems?]
    rcases hdeeper with hitem | hrest
    · rw [reread?_of_deep hitem, Option.bind_none]
    · rw [rereadItems?_of_deep hrest]
      simp

theorem rereadFields?_of_deep : ∀ {fields : List (String × Json)} {depth : Nat},
    depth < nestingFields fields → rereadFields? fields depth = none
  | (key, item) :: rest, depth, hdeep => by
    rw [nestingFields] at hdeep
    have hdeeper : depth < item.nesting ∨ depth < nestingFields rest := by omega
    rw [rereadFields?]
    rcases hdeeper with hitem | hrest
    · rw [reread?_of_deep hitem, Option.bind_none]
    · rw [rereadFields?_of_deep hrest]
      simp

end

/-! ## Reading one text after another -/

/-- A text starts with an octet that begins a value: no blank and no closing bracket. -/
def StartsValue (text : String) : Prop :=
  ∃ b rest, Octets.ofString text = b :: rest ∧ Octet.isBlank b = false ∧ b ≠ Octet.closeBracket

/-- The text is read with one result, wherever it is followed by no more of a number. -/
def Reads (reader : ValueReader) (text : String) (result : Option Json) : Prop :=
  ∀ rest, EndsNumber rest → reader (Octets.ofString text ++ rest) = answer result rest

theorem skipBlanks_cons {b : UInt8} (hb : Octet.isBlank b = false) (rest : Octets) :
    Octets.skipBlanks (b :: rest) = b :: rest := by
  simp [Octets.skipBlanks, hb]

theorem endsNumber_cons {b : UInt8} (hdigit : Octet.isDigit b = false) (hpoint : b ≠ Octet.point)
    (hmark : isExponentMark b = false) (rest : Octets) : EndsNumber (b :: rest) := by
  intro c hc
  cases hc
  exact ⟨hdigit, hpoint, hmark⟩

theorem endsNumber_comma (rest : Octets) : EndsNumber (Octet.comma :: rest) :=
  endsNumber_cons rfl (by decide) rfl rest

theorem readItems_last {reader : ValueReader} {text : String} {result : Option Json}
    (h : Reads reader text result) (fuel : Nat) (rest : Octets) :
    readItems reader (fuel + 1) (Octets.ofString text ++ Octet.closeBracket :: rest) =
      answer (result.map ([·])) rest := by
  rw [readItems, h _ (endsNumber_cons rfl (by decide) rfl rest)]
  cases result <;> rfl

theorem readItems_more {reader : ValueReader} {text : String} {result : Option Json}
    (h : Reads reader text result) {fuel : Nat} {more rest : Octets} {results : Option (List Json)}
    (hmore : readItems reader fuel more = answer results rest) :
    readItems reader (fuel + 1) (Octets.ofString text ++ Octet.comma :: more) =
      answer (result.bind fun value => results.map (value :: ·)) rest := by
  rw [readItems, h _ (endsNumber_comma more)]
  cases result with
  | none => rfl
  | some value =>
    change (readItems reader fuel more >>= _) = _
    rw [hmore]
    cases results <;> rfl

theorem ofString_quote : Octets.ofString "\"" = [Octet.quote] := by
  rw [Octets.ofString_eq]
  rfl

theorem ofString_quoted (text : String) :
    Octets.ofString ("\"" ++ escaped text ++ "\"") =
      Octet.quote :: (Octets.ofString (escaped text) ++ [Octet.quote]) := by
  rw [Octets.ofString_append, Octets.ofString_append, ofString_quote]
  rfl

theorem ofString_labelled (key text : String) :
    Octets.ofString (labelled key text) =
      Octet.quote :: (Octets.ofString (escaped key) ++
        Octet.quote :: Octet.colon :: Octets.ofString text) := by
  have hcolon : Octets.ofString "\":" = [Octet.quote, Octet.colon] := by
    rw [Octets.ofString_eq]
    rfl
  simp only [labelled, Octets.ofString_append, ofString_quote, hcolon, List.append_assoc]
  rfl

theorem readKey_labelled (key text : String) (rest : Octets) :
    readKey (Octets.ofString (labelled key text) ++ rest) =
      .ok (cleanText key, Octets.ofString text ++ rest) := by
  rw [ofString_labelled, readKey, List.cons_append, skipBlanks_cons rfl, List.append_assoc]
  simp only [if_true, List.cons_append, readString_escaped]
  rfl

theorem readEntries_last {reader : ValueReader} {text : String} {result : Option Json}
    (h : Reads reader text result) (key : String) (fuel : Nat) (rest : Octets) :
    readEntries reader (fuel + 1)
        (Octets.ofString (labelled key text) ++ Octet.closeBrace :: rest) =
      answer (result.map fun value => [(cleanText key, value)]) rest := by
  rw [readEntries, readKey_labelled]
  change (reader (_ ++ _) >>= _) = _
  rw [h _ (endsNumber_cons rfl (by decide) rfl rest)]
  cases result <;> rfl

theorem readEntries_more {reader : ValueReader} {text : String} {result : Option Json}
    (h : Reads reader text result) (key : String) {fuel : Nat} {more rest : Octets}
    {results : Option (List (String × Json))}
    (hmore : readEntries reader fuel more = answer results rest) :
    readEntries reader (fuel + 1) (Octets.ofString (labelled key text) ++ Octet.comma :: more) =
      answer (result.bind fun value => results.map ((cleanText key, value) :: ·)) rest := by
  rw [readEntries, readKey_labelled]
  change (reader (_ ++ _) >>= _) = _
  rw [h _ (endsNumber_comma more)]
  cases result with
  | none => rfl
  | some value =>
    change (readEntries reader fuel more >>= _) = _
    rw [hmore]
    cases results <;> rfl

/-! ## Scalars -/

/-- The value that a first octet announces is read the same way under every limit, except for what
stands inside brackets and braces. -/
theorem exists_readValue (depth : Nat) :
    ∃ array object, ∀ {b : UInt8} {rest : Octets}, Octet.isBlank b = false →
      readValue depth (b :: rest) = readFrom array object b rest := by
  cases depth with
  | zero =>
    refine ⟨fun _ => .error .malformed, fun _ => .error .malformed, fun {b rest} hb => ?_⟩
    rw [readValue, skipBlanks_cons hb]
  | succ depth =>
    refine ⟨readArray (readValue depth), readObject (readValue depth), fun {b rest} hb => ?_⟩
    rw [readValue, skipBlanks_cons hb]

theorem reads_str (text : String) (depth : Nat) :
    Reads (readValue depth) ("\"" ++ escaped text ++ "\"") (some (str (cleanText text))) := by
  intro rest _
  obtain ⟨array, object, hstart⟩ := exists_readValue depth
  rw [ofString_quoted, List.cons_append, List.append_assoc, hstart rfl, readFrom, if_pos rfl,
    List.singleton_append, readString_escaped]
  rfl

theorem ne_of_isDigit {b c : UInt8} (hb : Octet.isDigit b = true) (hc : Octet.isDigit c = false) :
    b ≠ c := by
  rintro rfl
  exact Bool.noConfusion (hb.symm.trans hc)

theorem isBlank_of_isDigit {b : UInt8} (hb : Octet.isDigit b = true) : Octet.isBlank b = false := by
  simp only [Octet.isBlank, Bool.or_eq_false_iff, beq_eq_false_iff_ne]
  exact ⟨⟨⟨ne_of_isDigit hb rfl, ne_of_isDigit hb rfl⟩, ne_of_isDigit hb rfl⟩, ne_of_isDigit hb rfl⟩

theorem readFrom_digit {b : UInt8} (hb : Octet.isDigit b = true) (array object : ValueReader)
    (rest : Octets) : readFrom array object b rest = Numeral.read false (b :: rest) := by
  rw [readFrom, if_neg (ne_of_isDigit hb rfl), if_neg (ne_of_isDigit hb rfl),
    if_neg (ne_of_isDigit hb rfl), if_neg (ne_of_isDigit hb rfl), if_pos hb]

theorem exists_octet_of_whole {whole : List Char} (h : Whole whole) (more : List Char) :
    ∃ b rest, Octets.ofChars (whole ++ more) = b :: rest ∧ Octet.isDigit b = true := by
  obtain ⟨d, others, rfl, hd⟩ : ∃ d others, whole = d :: others ∧ d.isDigit = true := by
    cases h with
    | zero => exact ⟨_, _, rfl, rfl⟩
    | digits hd _ _ => exact ⟨_, _, rfl, hd⟩
  obtain ⟨-, hhigh⟩ := exists_digit hd
  refine ⟨Octet.ofChar d, Octets.ofChars (others ++ more), ?_, isDigit_ofChar hd⟩
  rw [List.cons_append, Octets.ofChars_cons, utf8EncodeChar_ascii (by omega)]
  rfl

/-- A sign and the digits after it are read as the number that the digits give under that sign. -/
theorem reads_number {text : String} {sign whole more : List Char} (hsign : Sign sign)
    (hwhole : Whole whole) (htext : text.toList = sign ++ (whole ++ more)) {result : Option Json}
    (hread : ∀ rest, EndsNumber rest →
      Numeral.read (decide (sign ≠ [])) (Octets.ofChars (whole ++ more) ++ rest) =
        answer result rest) (depth : Nat) :
    Reads (readValue depth) text result := by
  intro rest hrest
  obtain ⟨array, object, hstart⟩ := exists_readValue depth
  have hnext := hread rest hrest
  obtain ⟨b, others, hoctets, hb⟩ := exists_octet_of_whole hwhole more
  rw [Octets.ofString_eq, htext]
  rcases hsign with rfl | rfl
  · rw [List.nil_append]
    rw [hoctets, List.cons_append] at hnext ⊢
    rw [hstart (isBlank_of_isDigit hb), readFrom_digit hb]
    exact hnext
  · change readValue depth (Octet.minus :: (Octets.ofChars (whole ++ more) ++ rest)) = _
    rw [hstart rfl]
    exact hnext

theorem reads_int (value : Int32) (depth : Nat) :
    Reads (readValue depth) value.toInt.repr (some (int value)) := by
  obtain ⟨sign, hsign, htext, hnonneg⟩ := exists_repr_int value.toInt
  have hnegative : decide (sign ≠ []) = decide (value.toInt < 0) := by
    rw [decide_eq_decide, ne_eq, hnonneg, Int.not_le]
  rw [← List.append_nil (Nat.toDigits 10 _)] at htext
  refine reads_number hsign (whole_toDigits _) htext (fun rest hrest => ?_) depth
  have hlow := value.le_toInt
  have hhigh := value.toInt_lt
  have hbound : value.toInt.natAbs < wordBound := by
    rw [wordBound]
    omega
  rw [List.append_nil, read_integer hbound _ hrest, hnegative, ofInteger_int32]
  rfl

theorem reads_float (value : Single) (depth : Nat) :
    Reads (readValue depth) value.wireText (parse value.wireText).toOption := by
  obtain ⟨sign, digits, hsign, hdigits, htext⟩ := value.exists_wireText
  obtain ⟨result, hresult⟩ := exists_read_float hdigits (decide (sign ≠ []))
  obtain ⟨hwhole, hfraction, hexponent, hshown⟩ := hdigits
  have hreads := reads_number hsign hwhole htext hresult
  have hparse : parse value.wireText = (answer result []).map Prod.fst := by
    have hread := hreads depthLimit [] endsNumber_nil
    rw [List.append_nil] at hread
    rw [parse, ofOctets, hread]
    cases result <;> rfl
  have hanswer : (parse value.wireText).toOption = result := by
    rw [hparse]
    cases result <;> rfl
  rw [hanswer]
  exact hreads depth

/-! ## Values -/

theorem startsValue_number {text : String} {sign whole more : List Char} (hsign : Sign sign)
    (hwhole : Whole whole) (htext : text.toList = sign ++ (whole ++ more)) : StartsValue text := by
  obtain ⟨b, others, hoctets, hb⟩ := exists_octet_of_whole hwhole more
  rw [StartsValue, Octets.ofString_eq, htext]
  rcases hsign with rfl | rfl
  · exact ⟨b, others, hoctets, isBlank_of_isDigit hb, ne_of_isDigit hb rfl⟩
  · exact ⟨Octet.minus, _, rfl, rfl, by decide⟩

theorem startsValue_append {text : String} (h : StartsValue text) (more : String) :
    StartsValue (text ++ more) := by
  obtain ⟨b, rest, htext, hb⟩ := h
  exact ⟨b, rest ++ Octets.ofString more, by rw [Octets.ofString_append, htext]; rfl, hb⟩

theorem startsValue_of_toList {text : String} {c : Char} {rest : List Char}
    (htext : text.toList = c :: rest) (hascii : c.toNat < 128)
    (hblank : Octet.isBlank (Octet.ofChar c) = false)
    (hclose : Octet.ofChar c ≠ Octet.closeBracket) : StartsValue text := by
  refine ⟨Octet.ofChar c, Octets.ofChars rest, ?_, hblank, hclose⟩
  rw [Octets.ofString_eq, htext, Octets.ofChars_cons, utf8EncodeChar_ascii hascii]
  rfl

theorem startsValue_compact (token : Json) : StartsValue token.compact := by
  cases token with
  | null => exact startsValue_of_toList (c := 'n') rfl (by decide) rfl (by decide)
  | bool value =>
    cases value with
    | true => exact startsValue_of_toList (c := 't') rfl (by decide) rfl (by decide)
    | false => exact startsValue_of_toList (c := 'f') rfl (by decide) rfl (by decide)
  | int value =>
    obtain ⟨sign, hsign, htext, -⟩ := exists_repr_int value.toInt
    rw [← List.append_nil (Nat.toDigits 10 _)] at htext
    rw [compact]
    exact startsValue_number hsign (whole_toDigits _) htext
  | float value =>
    obtain ⟨sign, digits, hsign, hdigits, htext⟩ := value.exists_wireText
    obtain ⟨hwhole, -, -, -⟩ := hdigits
    rw [compact]
    exact startsValue_number hsign hwhole htext
  | str text =>
    rw [compact, String.append_assoc]
    exact startsValue_append (startsValue_of_toList (c := '"') rfl (by decide) rfl (by decide)) _
  | arr items =>
    rw [compact, String.append_assoc]
    exact startsValue_append (startsValue_of_toList (c := '[') rfl (by decide) rfl (by decide)) _
  | obj fields =>
    rw [compact, String.append_assoc]
    exact startsValue_append (startsValue_of_toList (c := '{') rfl (by decide) rfl (by decide)) _

/-! ### Arrays and objects -/

theorem ofString_empty : Octets.ofString "" = [] := by
  rw [Octets.ofString_eq]
  rfl

theorem ofString_separated_cons (text : String) (texts : List String) :
    Octets.ofString (separated true (text :: texts)) =
      Octets.ofString text ++ Octets.ofString (separated false texts) := by
  simp [separated]

theorem ofString_separated_false (text : String) (texts : List String) :
    Octets.ofString (separated false (text :: texts)) =
      Octet.comma :: Octets.ofString (separated true (text :: texts)) := by
  have hcomma : Octets.ofString "," = [Octet.comma] := by
    rw [Octets.ofString_eq]
    rfl
  rw [ofString_separated_cons, separated]
  simp [hcomma]

theorem length_le_separated {texts : List String} (h : ∀ text ∈ texts, Octets.ofString text ≠ [])
    (first : Bool) : texts.length ≤ (Octets.ofString (separated first texts)).length := by
  induction texts generalizing first with
  | nil => exact Nat.zero_le _
  | cons text rest ih =>
    have hrest := ih (fun other hother => h other (List.mem_cons_of_mem _ hother)) false
    have htext := List.length_pos_iff.mpr (h text List.mem_cons_self)
    simp only [separated, Octets.ofString_append, List.length_append, List.length_cons]
    omega

theorem length_compactItems (items : List Json) : (compactItems items).length = items.length := by
  induction items with
  | nil => rfl
  | cons item rest ih => rw [compactItems, List.length_cons, ih, List.length_cons]

theorem length_compactFields (fields : List (String × Json)) :
    (compactFields fields).length = fields.length := by
  induction fields with
  | nil => rfl
  | cons field rest ih => rw [compactFields, List.length_cons, ih, List.length_cons]

theorem ofString_ne_nil_of_mem_items : ∀ {items : List Json} {text : String},
    text ∈ compactItems items → Octets.ofString text ≠ []
  | item :: rest, text, htext => by
    rw [compactItems, List.mem_cons] at htext
    rcases htext with rfl | htext
    · obtain ⟨b, others, hoctets, -⟩ := startsValue_compact item
      simp [hoctets]
    · exact ofString_ne_nil_of_mem_items htext

theorem ofString_ne_nil_of_mem_fields : ∀ {fields : List (String × Json)} {text : String},
    text ∈ compactFields fields → Octets.ofString text ≠ []
  | (key, item) :: rest, text, htext => by
    rw [compactFields, List.mem_cons] at htext
    rcases htext with rfl | htext
    · simp [ofString_labelled]
    · exact ofString_ne_nil_of_mem_fields htext

/-- Items make an array; the text is long enough for their number. -/
theorem readArray_cons {reader : ValueReader} {item : Json} {items : List Json} {rest : Octets}
    {results : Option (List Json)}
    (hitems : ∀ {fuel : Nat}, (item :: items).length ≤ fuel →
      readItems reader fuel (Octets.ofString (separated true (compactItems (item :: items))) ++
        Octet.closeBracket :: rest) = answer results rest) :
    readArray reader (Octets.ofString (separated true (compactItems (item :: items))) ++
        Octet.closeBracket :: rest) = answer (results.map arr) rest := by
  obtain ⟨b, others, hoctets, hblank, hclose⟩ := startsValue_compact item
  have hlength : (item :: items).length ≤
      (Octets.ofString (separated true (compactItems (item :: items)))).length := by
    rw [← length_compactItems]
    exact length_le_separated (fun _ => ofString_ne_nil_of_mem_items) true
  have hread := hitems (Nat.le_trans hlength (Nat.le_add_right _ (Octet.closeBracket :: rest).length))
  rw [← List.length_append] at hread
  rw [compactItems, ofString_separated_cons, hoctets, List.cons_append, List.cons_append] at hread ⊢
  rw [readArray, skipBlanks_cons hblank]
  simp only [if_neg hclose, hread]
  cases results <;> rfl

/-- Entries make an object; the text is long enough for their number. -/
theorem readObject_cons {reader : ValueReader} {key : String} {item : Json}
    {fields : List (String × Json)} {rest : Octets} {results : Option (List (String × Json))}
    (hfields : ∀ {fuel : Nat}, ((key, item) :: fields).length ≤ fuel →
      readEntries reader fuel
        (Octets.ofString (separated true (compactFields ((key, item) :: fields))) ++
          Octet.closeBrace :: rest) = answer results rest) :
    readObject reader (Octets.ofString (separated true (compactFields ((key, item) :: fields))) ++
        Octet.closeBrace :: rest) = answer (results.map (obj ∘ Dict.ofList)) rest := by
  have hlength : ((key, item) :: fields).length ≤
      (Octets.ofString (separated true (compactFields ((key, item) :: fields)))).length := by
    rw [← length_compactFields]
    exact length_le_separated (fun _ => ofString_ne_nil_of_mem_fields) true
  have hread := hfields (Nat.le_trans hlength (Nat.le_add_right _ (Octet.closeBrace :: rest).length))
  rw [← List.length_append] at hread
  rw [compactFields, ofString_separated_cons, ofString_labelled, List.cons_append,
    List.cons_append] at hread ⊢
  rw [readObject, skipBlanks_cons rfl]
  simp only [show Octet.quote ≠ Octet.closeBrace by decide, if_false, hread]
  cases results <;> rfl

/-- An array is read by `readArray` if it may be nested at all. -/
theorem readValue_array (text : String) (depth : Nat) (rest : Octets) :
    readValue depth (Octets.ofString ("[" ++ text ++ "]") ++ rest) =
      match depth with
      | 0 => .error .malformed
      | depth + 1 =>
        readArray (readValue depth) (Octets.ofString text ++ Octet.closeBracket :: rest) := by
  have hopen : Octets.ofString "[" = [Octet.openBracket] := by
    rw [Octets.ofString_eq]
    rfl
  have hclose : Octets.ofString "]" = [Octet.closeBracket] := by
    rw [Octets.ofString_eq]
    rfl
  rw [Octets.ofString_append, Octets.ofString_append, hopen, hclose, List.append_assoc,
    List.append_assoc]
  cases depth <;> rfl

/-- An object is read by `readObject` if it may be nested at all. -/
theorem readValue_object (text : String) (depth : Nat) (rest : Octets) :
    readValue depth (Octets.ofString ("\x7b" ++ text ++ "\x7d") ++ rest) =
      match depth with
      | 0 => .error .malformed
      | depth + 1 =>
        readObject (readValue depth) (Octets.ofString text ++ Octet.closeBrace :: rest) := by
  have hopen : Octets.ofString "\x7b" = [Octet.openBrace] := by
    rw [Octets.ofString_eq]
    rfl
  have hclose : Octets.ofString "\x7d" = [Octet.closeBrace] := by
    rw [Octets.ofString_eq]
    rfl
  rw [Octets.ofString_append, Octets.ofString_append, hopen, hclose, List.append_assoc,
    List.append_assoc]
  cases depth <;> rfl

mutual

/-- The text of a value is read as `reread?` says. -/
theorem reads_compact : ∀ (token : Json) (depth : Nat),
    Reads (readValue depth) token.compact (reread? token depth)
  | null, depth => by
    intro rest _
    obtain ⟨array, object, hstart⟩ := exists_readValue depth
    have hoctets : Octets.ofString "null" = [0x6e, 0x75, 0x6c, 0x6c] := by
      rw [Octets.ofString_eq]
      rfl
    rw [compact, hoctets, List.cons_append, hstart rfl]
    rfl
  | bool value, depth => by
    intro rest _
    obtain ⟨array, object, hstart⟩ := exists_readValue depth
    have htrue : Octets.ofString "true" = [0x74, 0x72, 0x75, 0x65] := by
      rw [Octets.ofString_eq]
      rfl
    have hfalse : Octets.ofString "false" = [0x66, 0x61, 0x6c, 0x73, 0x65] := by
      rw [Octets.ofString_eq]
      rfl
    cases value with
    | true =>
      rw [compact, if_pos rfl, htrue, List.cons_append, hstart rfl]
      rfl
    | false =>
      rw [compact, if_neg Bool.false_ne_true, hfalse, List.cons_append, hstart rfl]
      rfl
  | int value, depth => reads_int value depth
  | float value, depth => reads_float value depth
  | str text, depth => reads_str text depth
  | arr items, 0 => fun rest _ => readValue_array _ 0 rest
  | arr [], depth + 1 => fun rest _ => by
    rw [compact, compactItems, readValue_array, separated, ofString_empty]
    rfl
  | arr (item :: items), depth + 1 => fun rest _ => by
    rw [compact, readValue_array]
    exact readArray_cons (readItems_compact (item :: items) depth rest (List.cons_ne_nil _ _))
  | obj fields, 0 => fun rest _ => readValue_object _ 0 rest
  | obj [], depth + 1 => fun rest _ => by
    rw [compact, compactFields, readValue_object, separated, ofString_empty]
    rfl
  | obj ((key, item) :: fields), depth + 1 => fun rest _ => by
    rw [compact, readValue_object]
    exact readObject_cons
      (readEntries_compact ((key, item) :: fields) depth rest (List.cons_ne_nil _ _))

theorem readItems_compact : ∀ (items : List Json) (depth : Nat) (rest : Octets) {fuel : Nat},
    items ≠ [] → items.length ≤ fuel →
    readItems (readValue depth) fuel
        (Octets.ofString (separated true (compactItems items)) ++ Octet.closeBracket :: rest) =
      answer (rereadItems? items depth) rest
  | [item], depth, rest, fuel + 1, _, _ => by
    have hread := readItems_last (reads_compact item depth) fuel rest
    rw [Option.map_eq_bind] at hread
    rw [compactItems, compactItems, ofString_separated_cons, separated, ofString_empty,
      List.append_nil]
    exact hread
  | item :: next :: items, depth, rest, fuel + 1, _, hfuel => by
    have hmore := readItems_compact (next :: items) depth rest (List.cons_ne_nil _ _)
      (Nat.le_of_succ_le_succ hfuel)
    have hread := readItems_more (reads_compact item depth) hmore
    rw [compactItems] at hread
    rw [compactItems, ofString_separated_cons, compactItems, ofString_separated_false,
      List.append_assoc]
    exact hread

theorem readEntries_compact : ∀ (fields : List (String × Json)) (depth : Nat) (rest : Octets)
    {fuel : Nat}, fields ≠ [] → fields.length ≤ fuel →
    readEntries (readValue depth) fuel
        (Octets.ofString (separated true (compactFields fields)) ++ Octet.closeBrace :: rest) =
      answer (rereadFields? fields depth) rest
  | [(key, item)], depth, rest, fuel + 1, _, _ => by
    have hread := readEntries_last (reads_compact item depth) key fuel rest
    rw [Option.map_eq_bind] at hread
    rw [compactFields, compactFields, ofString_separated_cons, separated, ofString_empty,
      List.append_nil]
    exact hread
  | (key, item) :: (next, value) :: fields, depth, rest, fuel + 1, _, hfuel => by
    have hmore := readEntries_compact ((next, value) :: fields) depth rest (List.cons_ne_nil _ _)
      (Nat.le_of_succ_le_succ hfuel)
    have hread := readEntries_more (reads_compact item depth) key hmore
    rw [compactFields] at hread
    rw [compactFields, ofString_separated_cons, compactFields, ofString_separated_false,
      List.append_assoc]
    exact hread

end

/-- Reading a written value gives what `reread?` says under the limit of the reader. -/
theorem parse_text (token : Json) :
    parse token.text = (answer (reread? token depthLimit) []).map Prod.fst := by
  have hread := reads_compact token depthLimit [] endsNumber_nil
  rw [List.append_nil] at hread
  rw [text_eq_compact, parse, ofOctets, hread]
  cases reread? token depthLimit <;> rfl

/-- A written value without floats is read back cleaned if it nests at most 127 deep; a value that
nests deeper, with floats or without, is not read at all. -/
theorem text_reads_back (token : Json) :
    (token.isFloatFree = true → token.nesting ≤ 127 → parse token.text = .ok token.clean) ∧
      (127 < token.nesting → parse token.text = .error .malformed) := by
  rw [parse_text, depthLimit]
  refine ⟨fun hfree hdepth => ?_, fun hdeep => ?_⟩
  · rw [reread?_of_floatFree hfree hdepth]
    rfl
  · rw [reread?_of_deep hdeep]
    rfl

/-- `null` inside the given number of arrays. -/
def buried : Nat → Json
  | 0 => null
  | depth + 1 => arr [buried depth]

theorem nesting_buried (depth : Nat) : (buried depth).nesting = depth := by
  induction depth with
  | zero => rfl
  | succ depth ih => rw [buried, nesting, nestingItems, nestingItems, ih, Nat.max_zero]

/-- Two keys that differ in a control character become one entry, and one array more than the limit
allows is refused. -/
theorem text_reads_back_collision :
    parse (obj [("key", int 1), ("mood", int (-2)), ("k\x01ey", str "line\n\x7f\x1f")]).text =
        .ok (obj [("key", str "line\n\x7f"), ("mood", int (-2))]) ∧
      parse (buried 128).text = .error .malformed := by
  refine ⟨(text_reads_back _).1 rfl (by decide), (text_reads_back (buried 128)).2 ?_⟩
  rw [nesting_buried]
  decide

end Narrative.Json
