import SolarTakeoff.Proofs.Decimal.Positional
import SolarTakeoff.Proofs.Json.Tokens
import Mathlib.Tactic

/-!
# Writing JSON

The compact form of a datum, for any way of writing numbers and strings that
the reader takes back.  What is written is delimited wherever it stands inside
a document, so its tokens can be looked at one value at a time; a document is
read back as long as its integers fit sixty-four bits and its values do not
nest beyond the limit of the reader.
-/

namespace SolarTakeoff

/-- How numbers and strings are written. -/
structure Json.Printer where
  number : Binary64 → List Char
  string : String → List Char

mutual

/-- The compact text of a datum. -/
def Datum.jsonChars (printer : Json.Printer) : Datum → List Char
  | .null => ['n', 'u', 'l', 'l']
  | .bool true => ['t', 'r', 'u', 'e']
  | .bool false => ['f', 'a', 'l', 's', 'e']
  | .integer value => (toString value).toList
  | .number value => printer.number value
  | .string value => printer.string value
  | .array [] => ['[', ']']
  | .array (item :: items) =>
    '[' :: (item.jsonChars printer ++ Json.itemsChars printer items)
  | .record [] => ['\x7b', '\x7d']
  | .record ((name, value) :: fields) =>
    '\x7b' :: (printer.string name ++ ':' :: (value.jsonChars printer ++
      Json.fieldsChars printer fields))
  | .unreadable => []

/-- The items after the first one, up to the closing bracket. -/
def Json.itemsChars (printer : Json.Printer) : List Datum → List Char
  | [] => [']']
  | item :: items => ',' :: (item.jsonChars printer ++ Json.itemsChars printer items)

/-- The fields after the first one, up to the closing bracket. -/
def Json.fieldsChars (printer : Json.Printer) : List (String × Datum) → List Char
  | [] => ['\x7d']
  | (name, value) :: fields =>
    ',' :: (printer.string name ++ ':' :: (value.jsonChars printer ++
      Json.fieldsChars printer fields))

end

def Datum.json (printer : Json.Printer) (datum : Datum) : String :=
  .ofList (datum.jsonChars printer)

namespace Json

/-! ## Values from tokens -/

section Values

variable {depth : ℕ} {tokens rest : List Token} {datum : Datum}

/-- The value of a token that is a value by itself. -/
def Token.datum? : Token → Option Datum
  | .null => some .null
  | .bool value => some (.bool value)
  | .number literal => some literal.datum
  | .string (some value) => some (.string value)
  | .string none => some .unreadable
  | _ => none

theorem finds_value_of_datum? {token : Token} (h : token.datum? = some datum) :
    Finds (value? depth (token :: rest)) datum rest := by
  cases token with
  | string value =>
      cases value <;> obtain rfl := Option.some.inj h <;> rw [value?] <;>
        exact finds_some_iff.mpr ⟨rfl, rfl⟩
  | null | bool | number =>
      obtain rfl := Option.some.inj h
      rw [value?]
      exact finds_some_iff.mpr ⟨rfl, rfl⟩
  | _ => cases h

theorem finds_items_last {item : Datum}
    (h : Finds (value? depth tokens) item (.closeArray :: rest)) :
    Finds (items? depth tokens) [item] rest := by
  obtain ⟨⟨value, left, hlength⟩, hreading, rfl, rfl⟩ := h
  rw [items?, finds_bind_iff]
  exact ⟨_, hreading, finds_some_iff.mpr ⟨rfl, rfl⟩⟩

theorem finds_items_more {item : Datum} {items : List Datum} {more : List Token}
    (h : Finds (value? depth tokens) item (.comma :: more))
    (hmore : Finds (items? depth more) items rest) :
    Finds (items? depth tokens) (item :: items) rest := by
  obtain ⟨⟨value, left, hlength⟩, hreading, rfl, rfl⟩ := h
  obtain ⟨reading, hitems, rfl, rfl⟩ := hmore
  rw [items?, finds_bind_iff]
  exact ⟨_, hreading, finds_bind_iff.mpr ⟨reading, hitems, finds_some_iff.mpr ⟨rfl, rfl⟩⟩⟩

theorem finds_fields_last {name : Option String} {value : Datum}
    (h : Finds (value? depth tokens) value (.closeRecord :: rest)) :
    Finds (fields? depth (.string name :: .colon :: tokens)) [(name, value)] rest := by
  obtain ⟨⟨value, left, hlength⟩, hreading, rfl, rfl⟩ := h
  rw [fields?, finds_bind_iff]
  exact ⟨_, hreading, finds_some_iff.mpr ⟨rfl, rfl⟩⟩

theorem finds_fields_more {name : Option String} {value : Datum}
    {fields : List (Option String × Datum)} {more : List Token}
    (h : Finds (value? depth tokens) value (.comma :: more))
    (hmore : Finds (fields? depth more) fields rest) :
    Finds (fields? depth (.string name :: .colon :: tokens)) ((name, value) :: fields) rest := by
  obtain ⟨⟨value, left, hlength⟩, hreading, rfl, rfl⟩ := h
  obtain ⟨reading, hfields, rfl, rfl⟩ := hmore
  rw [fields?, finds_bind_iff]
  exact ⟨_, hreading, finds_bind_iff.mpr ⟨reading, hfields, finds_some_iff.mpr ⟨rfl, rfl⟩⟩⟩

theorem items?_closeArray (depth : ℕ) (rest : List Token) :
    items? depth (.closeArray :: rest) = none := by
  rw [items?, value?]
  · rfl
  all_goals simp

theorem finds_value_array {items : List Datum} (hdepth : depth < nestingLimit)
    (h : Finds (items? (depth + 1) tokens) items rest) :
    Finds (value? depth (.openArray :: tokens)) (.array items) rest := by
  obtain ⟨reading, hitems, rfl, rfl⟩ := h
  rw [value?, finds_bind_iff]
  · refine ⟨reading, hitems, finds_some_iff.mpr ⟨?_, rfl⟩⟩
    exact if_pos hdepth
  · rintro others rfl
    rw [items?_closeArray] at hitems
    cases hitems

theorem recordOf_named (fields : List (String × Datum)) :
    recordOf (fields.map fun field => (some field.1, field.2)) = .record fields := by
  have hnames : (fields.map fun field => (some field.1, field.2)).mapM
      (fun field : Option String × Datum => field.1.map (·, field.2)) = some fields := by
    induction fields with
    | nil => rfl
    | cons field fields ih =>
        rw [List.map_cons, List.mapM_cons, ih]
        rfl
  unfold recordOf
  rw [hnames]

theorem finds_value_record {fields : List (String × Datum)} (hdepth : depth < nestingLimit)
    (h : Finds (fields? (depth + 1) tokens)
      (fields.map fun field => (some field.1, field.2)) rest) :
    Finds (value? depth (.openRecord :: tokens)) (.record fields) rest := by
  obtain ⟨reading, hfields, hvalue, rfl⟩ := h
  rw [value?, finds_bind_iff]
  · refine ⟨reading, hfields, finds_some_iff.mpr ⟨?_, rfl⟩⟩
    rw [Reading.value_after, Reading.value_map, hvalue, recordOf_named]
    exact if_pos hdepth
  · rintro others rfl
    rw [fields?] at hfields
    · cases hfields
    · simp

/-- A datum that is not made of others, such as a number or a string. -/
def IsScalar (datum : Datum) : Prop :=
  (∃ value, datum = .number value) ∨ ∃ value, datum = .string value

theorem not_isScalar_nested (depth : ℕ) (h : ¬ IsScalar datum) :
    ¬ IsScalar (nested depth datum) := by
  unfold nested
  split
  · exact h
  · simp [IsScalar]

theorem not_isScalar_recordOf (fields : List (Option String × Datum)) :
    ¬ IsScalar (recordOf fields) := by
  unfold recordOf
  split <;> simp [IsScalar]

/-- Arrays and records may be unreadable, but they are never scalar. -/
theorem exists_token_of_scalar (hscalar : IsScalar datum)
    (h : Finds (value? depth tokens) datum []) :
    ∃ token, tokens = [token] ∧ token.datum? = some datum := by
  have harray : ∀ items, ¬ IsScalar (.array items) := by simp [IsScalar]
  have hrecord : ∀ fields, ¬ IsScalar (.record fields) := by simp [IsScalar]
  unfold value? at h
  split at h
  case h_6 =>
    obtain ⟨rfl, -⟩ := finds_some_iff.mp h
    exact absurd hscalar (not_isScalar_nested depth (harray []))
  case h_7 =>
    obtain ⟨reading, -, hreading⟩ := finds_bind_iff.mp h
    obtain ⟨rfl, -⟩ := finds_some_iff.mp hreading
    exact absurd hscalar (not_isScalar_nested depth (harray _))
  case h_8 =>
    obtain ⟨rfl, -⟩ := finds_some_iff.mp h
    exact absurd hscalar (not_isScalar_nested depth (hrecord []))
  case h_9 =>
    obtain ⟨reading, -, hreading⟩ := finds_bind_iff.mp h
    obtain ⟨rfl, -⟩ := finds_some_iff.mp hreading
    exact absurd hscalar (not_isScalar_nested depth (not_isScalar_recordOf _))
  case h_10 => simp [Finds] at h
  all_goals
    obtain ⟨rfl, rfl⟩ := finds_some_iff.mp h
    exact ⟨_, rfl, rfl⟩

end Values

theorem finds_value_of_ofJson? {text : String} {datum : Datum}
    (h : Datum.ofJson? text = some datum) :
    ∃ tokens, tokens? text.toList = some tokens ∧ Finds (value? 0 tokens) datum [] := by
  obtain ⟨tokens, htokens, h⟩ := Option.bind_eq_some_iff.mp h
  obtain ⟨reading, hreading, h⟩ := Option.bind_eq_some_iff.mp h
  refine ⟨tokens, htokens, reading, hreading, ?_⟩
  obtain ⟨value, left, hlength⟩ := reading
  cases left with
  | nil => exact ⟨Option.some.inj h, rfl⟩
  | cons token others => cases h

theorem ofJson?_of_finds_value {text : String} {datum : Datum} {tokens : List Token}
    (htokens : tokens? text.toList = some tokens) (h : Finds (value? 0 tokens) datum []) :
    Datum.ofJson? text = some datum := by
  obtain ⟨⟨value, left, hlength⟩, hreading, rfl, rfl⟩ := h
  rw [Datum.ofJson?, htokens]
  simp [hreading]

/-! ## Data that are read back -/

/-- The reader takes the datum alone back from what is written for it. -/
def Printer.ReadsBack (printer : Printer) (json? : String → Option Datum) (datum : Datum) :
    Prop :=
  json? (datum.json printer) = some datum

/-- What can be written with so many levels of nesting to spare, if the reader
takes back the numbers and the strings in it. -/
inductive Writable (json? : String → Option Datum) (printer : Printer) : ℕ → Datum → Prop
  | null {room : ℕ} : Writable json? printer room .null
  | bool {room : ℕ} {value : Bool} : Writable json? printer room (.bool value)
  | integer {room : ℕ} {value : ℤ} (hleast : -9223372036854775808 ≤ value)
      (hgreatest : value < 18446744073709551616) : Writable json? printer room (.integer value)
  | number {room : ℕ} {value : Binary64} (h : printer.ReadsBack json? (.number value)) :
      Writable json? printer room (.number value)
  | string {room : ℕ} {value : String} (h : printer.ReadsBack json? (.string value)) :
      Writable json? printer room (.string value)
  | array {room : ℕ} {items : List Datum}
      (h : ∀ item ∈ items, Writable json? printer room item) :
      Writable json? printer (room + 1) (.array items)
  | record {room : ℕ} {fields : List (String × Datum)}
      (hname : ∀ field ∈ fields, printer.ReadsBack json? (.string field.1))
      (hvalue : ∀ field ∈ fields, Writable json? printer room field.2) :
      Writable json? printer (room + 1) (.record fields)

/-- What is relied on of a reader of JSON.  Strings are read back, and so is
what is put together of strings and numbers that are, as long as its integers
fit sixty-four bits and it does not nest beyond the limit. -/
structure Printer.RoundTrips (printer : Printer) (json? : String → Option Datum) : Prop where
  strings : ∀ text, printer.ReadsBack json? (.string text)
  documents : ∀ {room : ℕ} {datum : Datum}, Writable json? printer room datum →
    room ≤ nestingLimit → printer.ReadsBack json? datum

variable {printer : Printer} {room : ℕ} {datum : Datum}

/-- The text has tokens that are read as the datum wherever they stand with
so many levels to spare. -/
def Stands (printer : Printer) (room : ℕ) (datum : Datum) : Prop :=
  ∃ tokens, tokens? (datum.jsonChars printer) = some tokens ∧
    ∀ depth rest, depth + room ≤ nestingLimit → Finds (value? depth (tokens ++ rest)) datum rest

theorem stands_of_token {token : Token}
    (htokens : tokens? (datum.jsonChars printer) = some [token])
    (htoken : token.datum? = some datum) : Stands printer room datum :=
  ⟨[token], htokens, fun _ _ _ => finds_value_of_datum? htoken⟩

theorem stands_of_readsBack (hscalar : IsScalar datum) (h : printer.ReadsBack Datum.ofJson? datum) :
    Stands printer room datum := by
  obtain ⟨tokens, htokens, hvalue⟩ := finds_value_of_ofJson? h
  obtain ⟨token, rfl, htoken⟩ := exists_token_of_scalar hscalar hvalue
  rw [Datum.json, String.toList_ofList] at htokens
  exact stands_of_token htokens htoken

theorem Token.eq_string_of_datum? {token : Token} {text : String}
    (h : token.datum? = some (.string text)) : token = .string (some text) := by
  cases token with
  | number literal =>
      have hnumber : literal.datum ≠ .string text := by
        unfold Literal.datum
        dsimp only
        repeat' split
        all_goals simp
      exact absurd (Option.some.inj h) hnumber
  | string value =>
      cases value with
      | none => cases h
      | some value =>
          injection Option.some.inj h with htext
          rw [htext]
  | _ => cases h

theorem tokens?_string {text : String} (h : printer.ReadsBack Datum.ofJson? (.string text)) :
    tokens? (printer.string text) = some [.string (some text)] := by
  obtain ⟨tokens, htokens, hvalue⟩ := finds_value_of_ofJson? h
  obtain ⟨token, rfl, htoken⟩ := exists_token_of_scalar (.inr ⟨text, rfl⟩) hvalue
  rw [Token.eq_string_of_datum? htoken, Datum.json, String.toList_ofList,
    Datum.jsonChars] at htokens
  exact htokens

/-! ## Integers -/

theorem head?_toDigits_ne_zero {value : ℕ} (h : 0 < value) :
    (Nat.toDigits 10 value).head? ≠ some '0' := by
  induction value using Nat.strongRecOn with
  | ind value ih =>
      rcases Nat.lt_or_ge value 10 with hsmall | hlarge
      · rw [Nat.toDigits_of_lt_base hsmall]
        interval_cases value <;> decide
      · have hne : Nat.toDigits 10 (value / 10) ≠ [] := Nat.toDigits_ne_nil
        rw [Nat.toDigits_of_base_le (by decide) hlarge, List.head?_append_of_ne_nil _ hne]
        exact ih (value / 10) (by omega) (by omega)

/-- No digits start with a zero that others follow. -/
theorem toDigits_ne_zero_cons (value : ℕ) (digit : Char) (others : List Char) :
    Nat.toDigits 10 value ≠ '0' :: digit :: others := by
  intro heq
  rcases Nat.eq_zero_or_pos value with rfl | hpos
  · rw [Nat.toDigits_zero] at heq
    cases heq
  · exact head?_toDigits_ne_zero hpos (by rw [heq]; rfl)

def integerLiteral (value : ℤ) : Literal where
  negative := decide (value < 0)
  whole := Nat.toDigits 10 value.natAbs
  fraction := none
  power := none

theorem finds_integerLiteral (value : ℤ) :
    Finds (literal? (toString value).toList) (integerLiteral value) [] := by
  have hdigits : ∀ char ∈ Nat.toDigits 10 value.natAbs, char.isDigit = true :=
    fun _ => isDigit_of_mem_toDigits
  have hne : Nat.toDigits 10 value.natAbs ≠ [] := Nat.toDigits_ne_nil
  have hwhole : Finds (whole? (Nat.toDigits 10 value.natAbs)) (Nat.toDigits 10 value.natAbs) [] :=
    finds_whole_iff.mpr ⟨finds_digits_iff.mpr ⟨hne, List.takeWhile_eq_self_iff.mpr hdigits,
      List.dropWhile_eq_nil_iff.mpr hdigits⟩, toDigits_ne_zero_cons _⟩
  have hunsigned : Finds (unsignedLiteral? (decide (value < 0)) (Nat.toDigits 10 value.natAbs))
      (integerLiteral value) [] :=
    finds_unsignedLiteral_iff.mpr ⟨_, [], none, [], none, hwhole,
      (finds_fraction_iff (by simp)).mpr ⟨rfl, rfl⟩,
      (finds_power_iff (by simp) (by simp)).mpr ⟨rfl, rfl⟩, rfl⟩
  rw [toString_eq_ofList, String.toList_ofList]
  cases hsign : decide (value < 0) with
  | true =>
      rw [hsign] at hunsigned
      exact finds_literal_minus_iff.mpr hunsigned
  | false =>
      have hminus : (Nat.toDigits 10 value.natAbs).head? ≠ some '-' := by
        intro hhead
        have hdigit := hdigits '-' (List.mem_of_mem_head? hhead)
        simp at hdigit
      rw [hsign] at hunsigned
      exact (finds_literal_iff hminus).mpr hunsigned

theorem datum_integerLiteral {value : ℤ} (hleast : -9223372036854775808 ≤ value)
    (hgreatest : value < 18446744073709551616) :
    (integerLiteral value).datum = .integer value := by
  unfold Literal.datum
  dsimp only [integerLiteral, Literal.isWhole, Option.isNone]
  rw [digitsValue_toDigits]
  by_cases hsign : value < 0
  · have hsmall : 0 < value.natAbs ∧ value.natAbs ≤ 9223372036854775808 := by omega
    simp [hsign, hsmall, abs_of_neg hsign]
  · have hsmall : value.natAbs < 18446744073709551616 := by omega
    have hvalue : (value.natAbs : ℤ) = value := by omega
    simp [hsign, hsmall, hvalue]

theorem scale?_neg {significand places : ℕ} (hpos : 0 < places) (hplaces : places ≤ 308) :
    scale? significand (-places) = some (.ofNat significand / powerOfTen places) := by
  have hneg : (-places : ℤ) < 0 := by omega
  have hsmall : ¬ 308 < places := by omega
  rw [scale?, if_pos hneg, neg_neg, Int.toNat_natCast, divideByPower, if_neg hsmall]

theorem tokens?_single {char : Char} {chars : List Char} {token : Token}
    (hspace : isSpace char = false) (h : Finds (token? (char :: chars)) token []) :
    tokens? (char :: chars) = some [token] := by
  rw [tokens?_of_token hspace h, tokens?]
  rfl

theorem tokens?_of_literal {chars : List Char} {literal : Literal}
    (h : Finds (literal? chars) literal []) : tokens? chars = some [.number literal] := by
  obtain ⟨char, others, rfl, hchar⟩ := exists_head_of_literal h
  have hspace : isSpace char = false := by
    rcases hchar with rfl | hdigit
    · decide
    · have hblank : char ≠ ' ' := ne_of_isDigit hdigit (by decide)
      have htab : char ≠ '\t' := ne_of_isDigit hdigit (by decide)
      have hline : char ≠ '\n' := ne_of_isDigit hdigit (by decide)
      have hreturn : char ≠ '\r' := ne_of_isDigit hdigit (by decide)
      simp [isSpace, hblank, htab, hline, hreturn]
  exact tokens?_single hspace ((finds_token_literal_iff hchar).mpr ⟨literal, rfl, h⟩)

theorem stands_integer {value : ℤ} (hleast : -9223372036854775808 ≤ value)
    (hgreatest : value < 18446744073709551616) : Stands printer room (.integer value) := by
  have htokens := tokens?_of_literal (finds_integerLiteral value)
  have hdatum := datum_integerLiteral hleast hgreatest
  exact stands_of_token htokens (congrArg some hdatum)

/-- A number is read back from a fraction of digits that all fit if it is one
division away from them. -/
theorem readsBack_fraction {number : Binary64} {chars whole fraction : List Char}
    {leading significand : ℕ} (hchars : printer.number number = chars)
    (h : Finds (literal? chars) ⟨false, whole, some fraction, none⟩ [])
    (hwhole : absorb 0 whole = (leading, []))
    (hfraction : absorb leading fraction = (significand, [])) (hpos : 0 < fraction.length)
    (hplaces : fraction.length ≤ 308)
    (hvalue : .ofNat significand / powerOfTen fraction.length = number) :
    printer.ReadsBack Datum.ofJson? (.number number) := by
  have hscale : scale? significand (-fraction.length) = some number :=
    (scale?_neg hpos hplaces).trans (congrArg some hvalue)
  have hdatum : (Literal.mk false whole (some fraction) none).datum = .number number := by
    unfold Literal.datum Literal.binary64?
    simp [Literal.isWhole, hwhole, hfraction, hscale]
  have htokens : tokens? ((Datum.number number).json printer).toList =
      some [.number ⟨false, whole, some fraction, none⟩] := by
    rw [Datum.json, String.toList_ofList, Datum.jsonChars, hchars]
    exact tokens?_of_literal h
  exact ofJson?_of_finds_value htokens (finds_value_of_datum? (congrArg some hdatum))

/-! ## Arrays and records -/

/-- The character of a token that is one character. -/
def Token.mark? : Token → Option Char
  | .openArray => some '['
  | .closeArray => some ']'
  | .openRecord => some '\x7b'
  | .closeRecord => some '\x7d'
  | .comma => some ','
  | .colon => some ':'
  | _ => none

theorem tokens?_mark {char : Char} (token : Token) (h : token.mark? = some char)
    (chars : List Char) : tokens? (char :: chars) = (tokens? chars).map (token :: ·) := by
  cases token <;> cases h <;>
    exact tokens?_of_token (by decide) (finds_some_iff.mpr ⟨rfl, rfl⟩)

theorem tokens?_last_mark {char : Char} (token : Token) (h : token.mark? = some char) :
    tokens? [char] = some [token] := by
  rw [tokens?_mark token h, tokens?]
  rfl

theorem delimited_itemsChars (printer : Printer) (items : List Datum) :
    Delimited (itemsChars printer items) := by
  cases items <;> simp [Delimited, itemsChars]

/-- With the items after it, an item is the first of a list. -/
theorem exists_tokens_items {items : List Datum}
    (h : ∀ item ∈ items, Stands printer room item) :
    ∃ tokens, tokens? (itemsChars printer items) = some tokens ∧
      ∀ depth front item rest, depth + room ≤ nestingLimit →
        Finds (value? depth front) item (tokens ++ rest) →
          Finds (items? depth front) (item :: items) rest := by
  induction items with
  | nil =>
      rw [itemsChars]
      exact ⟨[.closeArray], tokens?_last_mark .closeArray rfl, fun _ _ _ _ _ => finds_items_last⟩
  | cons next items ih =>
      obtain ⟨others, hothers, htail⟩ := ih fun item hitem => h item (List.mem_cons_of_mem _ hitem)
      obtain ⟨own, hown, hvalue⟩ := h next List.mem_cons_self
      refine ⟨.comma :: (own ++ others), ?_, ?_⟩
      · rw [itemsChars, tokens?_mark .comma rfl,
          tokens?_append hown (delimited_itemsChars printer items), hothers]
        rfl
      · intro depth front item rest hdepth hitem
        have hnext : Finds (value? depth (own ++ (others ++ rest))) next (others ++ rest) :=
          hvalue depth _ hdepth
        rw [List.cons_append, List.append_assoc] at hitem
        exact finds_items_more hitem (htail depth _ next rest hdepth hnext)

theorem finds_empty {depth : ℕ} (hdepth : depth < nestingLimit) (rest : List Token) :
    Finds (value? depth (.openArray :: .closeArray :: rest)) (.array []) rest ∧
      Finds (value? depth (.openRecord :: .closeRecord :: rest)) (.record []) rest := by
  rw [value?, value?]
  exact ⟨finds_some_iff.mpr ⟨if_pos hdepth, rfl⟩, finds_some_iff.mpr ⟨if_pos hdepth, rfl⟩⟩

theorem stands_array {items : List Datum} (h : ∀ item ∈ items, Stands printer room item) :
    Stands printer (room + 1) (.array items) := by
  cases items with
  | nil =>
      refine ⟨[.openArray, .closeArray], ?_, fun depth rest hdepth => ?_⟩
      · rw [Datum.jsonChars, tokens?_mark .openArray rfl, tokens?_last_mark .closeArray rfl]
        rfl
      · exact (finds_empty (by omega) rest).1
  | cons item items =>
      obtain ⟨others, hothers, htail⟩ :=
        exists_tokens_items fun item hitem => h item (List.mem_cons_of_mem _ hitem)
      obtain ⟨own, hown, hvalue⟩ := h item List.mem_cons_self
      refine ⟨.openArray :: (own ++ others), ?_, ?_⟩
      · rw [Datum.jsonChars, tokens?_mark .openArray rfl,
          tokens?_append hown (delimited_itemsChars printer items), hothers]
        rfl
      · intro depth rest hdepth
        have hitem : Finds (value? (depth + 1) (own ++ (others ++ rest))) item (others ++ rest) :=
          hvalue (depth + 1) _ (by omega)
        rw [List.cons_append, List.append_assoc]
        exact finds_value_array (by omega) (htail (depth + 1) _ item rest (by omega) hitem)

theorem delimited_fieldsChars (printer : Printer) (fields : List (String × Datum)) :
    Delimited (fieldsChars printer fields) := by
  cases fields <;> simp [Delimited, fieldsChars]

/-- The tokens of a field that other text follows. -/
theorem tokens?_field {name : String} {value : Datum} {own others : List Token}
    {rest : List Char} (hname : printer.ReadsBack Datum.ofJson? (.string name))
    (hown : tokens? (value.jsonChars printer) = some own) (hrest : Delimited rest)
    (hothers : tokens? rest = some others) :
    tokens? (printer.string name ++ ':' :: (value.jsonChars printer ++ rest)) =
      some (.string (some name) :: .colon :: (own ++ others)) := by
  have hcolon : Delimited (':' :: (value.jsonChars printer ++ rest)) := by simp [Delimited]
  rw [tokens?_append (tokens?_string hname) hcolon, tokens?_mark .colon rfl,
    tokens?_append hown hrest, hothers]
  rfl

/-- With the fields after it, a field is the first of a record. -/
theorem exists_tokens_fields {fields : List (String × Datum)}
    (hname : ∀ field ∈ fields, printer.ReadsBack Datum.ofJson? (.string field.1))
    (hvalue : ∀ field ∈ fields, Stands printer room field.2) :
    ∃ tokens, tokens? (fieldsChars printer fields) = some tokens ∧
      ∀ depth front name value rest, depth + room ≤ nestingLimit →
        Finds (value? depth front) value (tokens ++ rest) →
          Finds (fields? depth (.string (some name) :: .colon :: front))
            (((name, value) :: fields).map fun field => (some field.1, field.2)) rest := by
  induction fields with
  | nil =>
      rw [fieldsChars]
      exact ⟨[.closeRecord], tokens?_last_mark .closeRecord rfl,
        fun _ _ _ _ _ _ => finds_fields_last⟩
  | cons field fields ih =>
      obtain ⟨next, nextValue⟩ := field
      obtain ⟨others, hothers, htail⟩ := ih
        (fun field hfield => hname field (List.mem_cons_of_mem _ hfield))
        (fun field hfield => hvalue field (List.mem_cons_of_mem _ hfield))
      obtain ⟨own, hown, hnext⟩ := hvalue (next, nextValue) List.mem_cons_self
      refine ⟨.comma :: .string (some next) :: .colon :: (own ++ others), ?_, ?_⟩
      · rw [fieldsChars, tokens?_mark .comma rfl, tokens?_field
          (hname (next, nextValue) List.mem_cons_self) hown
          (delimited_fieldsChars printer fields) hothers]
        rfl
      · intro depth front name value rest hdepth hfirst
        have hrest : Finds (value? depth (own ++ (others ++ rest))) nextValue (others ++ rest) :=
          hnext depth _ hdepth
        have hfields := htail depth _ next nextValue rest hdepth hrest
        rw [← List.append_assoc] at hfields
        exact finds_fields_more hfirst hfields

theorem stands_record {fields : List (String × Datum)}
    (hname : ∀ field ∈ fields, printer.ReadsBack Datum.ofJson? (.string field.1))
    (hvalue : ∀ field ∈ fields, Stands printer room field.2) :
    Stands printer (room + 1) (.record fields) := by
  cases fields with
  | nil =>
      refine ⟨[.openRecord, .closeRecord], ?_, fun depth rest hdepth => ?_⟩
      · rw [Datum.jsonChars, tokens?_mark .openRecord rfl, tokens?_last_mark .closeRecord rfl]
        rfl
      · exact (finds_empty (by omega) rest).2
  | cons field fields =>
      obtain ⟨first, firstValue⟩ := field
      obtain ⟨others, hothers, htail⟩ := exists_tokens_fields
        (fun field hfield => hname field (List.mem_cons_of_mem _ hfield))
        (fun field hfield => hvalue field (List.mem_cons_of_mem _ hfield))
      obtain ⟨own, hown, hfirst⟩ := hvalue (first, firstValue) List.mem_cons_self
      refine ⟨.openRecord :: .string (some first) :: .colon :: (own ++ others), ?_, ?_⟩
      · rw [Datum.jsonChars, tokens?_mark .openRecord rfl, tokens?_field
          (hname (first, firstValue) List.mem_cons_self) hown
          (delimited_fieldsChars printer fields) hothers]
        rfl
      · intro depth rest hdepth
        have hrest : Finds (value? (depth + 1) (own ++ (others ++ rest))) firstValue
            (others ++ rest) := hfirst (depth + 1) _ (by omega)
        have hfields := htail (depth + 1) _ first firstValue rest (by omega) hrest
        rw [← List.append_assoc] at hfields
        exact finds_value_record (by omega) hfields

/-! ## Documents -/

theorem Writable.stands (h : Writable Datum.ofJson? printer room datum) :
    Stands printer room datum := by
  induction h with
  | null =>
      have htoken : Finds (token? ['n', 'u', 'l', 'l']) .null [] := finds_some_iff.mpr ⟨rfl, rfl⟩
      exact stands_of_token (tokens?_single (by decide) htoken) rfl
  | @bool _ value =>
      cases value with
      | true =>
          have htoken : Finds (token? ['t', 'r', 'u', 'e']) (.bool true) [] :=
            finds_some_iff.mpr ⟨rfl, rfl⟩
          exact stands_of_token (tokens?_single (by decide) htoken) rfl
      | false =>
          have htoken : Finds (token? ['f', 'a', 'l', 's', 'e']) (.bool false) [] :=
            finds_some_iff.mpr ⟨rfl, rfl⟩
          exact stands_of_token (tokens?_single (by decide) htoken) rfl
  | integer hleast hgreatest => exact stands_integer hleast hgreatest
  | number h => exact stands_of_readsBack (.inl ⟨_, rfl⟩) h
  | string h => exact stands_of_readsBack (.inr ⟨_, rfl⟩) h
  | array _ ih => exact stands_array ih
  | record hname _ ih => exact stands_record hname ih

/-- A document is read back from its text. -/
theorem Writable.readsBack (h : Writable Datum.ofJson? printer room datum)
    (hroom : room ≤ nestingLimit) :
    printer.ReadsBack Datum.ofJson? datum := by
  obtain ⟨tokens, htokens, hvalue⟩ := h.stands
  have hfinds := hvalue 0 [] (by omega)
  rw [List.append_nil] at hfinds
  exact ofJson?_of_finds_value (by rw [Datum.json, String.toList_ofList, htokens]) hfinds

theorem Printer.roundTrips_ofJson?
    (hstring : ∀ text, printer.ReadsBack Datum.ofJson? (.string text)) :
    printer.RoundTrips Datum.ofJson? where
  strings := hstring
  documents := Writable.readsBack

end Json

end SolarTakeoff
