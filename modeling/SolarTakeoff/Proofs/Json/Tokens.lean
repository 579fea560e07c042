import SolarTakeoff.Json.Reader
import SolarTakeoff.Proofs.Text.Runs
import Mathlib.Data.List.TakeWhile
import Mathlib.Tactic

/-!
# Tokens of joined texts

A token is as long as its characters allow, but commas, colons and closing
brackets continue none.  A text followed by one of these, or by nothing,
therefore has the tokens it has alone, and those of what follows come after
them.
-/

namespace SolarTakeoff

/-! ## Results that are readings -/

section Finds

variable {σ α β : Type} {inner bound : ℕ} {value : α} {rest : List σ}

/-- The result is a reading of the value that leaves the rest. -/
def Finds (result : Option (Reading σ α bound)) (value : α) (rest : List σ) : Prop :=
  ∃ reading, result = some reading ∧ reading.value = value ∧ reading.rest = rest

theorem finds_some_iff {reading : Reading σ α bound} :
    Finds (some reading) value rest ↔ reading.value = value ∧ reading.rest = rest := by
  simp [Finds]

theorem finds_bind_iff {result : Option (Reading σ β inner)}
    {next : Reading σ β inner → Option (Reading σ α bound)} :
    Finds (result >>= next) value rest ↔
      ∃ reading, result = some reading ∧ Finds (next reading) value rest := by
  cases result <;> simp [Finds]

/-- A reading that is only passed on with another value. -/
theorem finds_pass_iff {result : Option (Reading σ β inner)}
    {pass : Reading σ β inner → Reading σ α bound} {f : β → α}
    (hvalue : ∀ reading, (pass reading).value = f reading.value)
    (hrest : ∀ reading, (pass reading).rest = reading.rest) :
    Finds (result >>= fun reading => pure (pass reading)) value rest ↔
      ∃ found, f found = value ∧ Finds result found rest := by
  rw [finds_bind_iff]
  constructor
  · rintro ⟨reading, hreading, h⟩
    obtain ⟨hpass, hleft⟩ := finds_some_iff.mp h
    exact ⟨reading.value, (hvalue reading).symm.trans hpass, reading, hreading, rfl,
      (hrest reading).symm.trans hleft⟩
  · rintro ⟨found, hfound, reading, hreading, rfl, rfl⟩
    exact ⟨reading, hreading, finds_some_iff.mpr ⟨(hvalue reading).trans hfound, hrest reading⟩⟩

end Finds

namespace Json

variable {chars rest further : List Char}

/-- The text is over or goes on with a comma, a colon or a closing bracket. -/
def Delimited (rest : List Char) : Prop :=
  ∀ char ∈ rest.head?, char ∈ [',', ':', ']', '\x7d']

theorem Delimited.not_isDigit (h : Delimited rest) :
    ∀ char ∈ rest.head?, char.isDigit = false := by
  have hall : ∀ char ∈ [',', ':', ']', '\x7d'], char.isDigit = false := by simp
  exact fun char hchar => hall char (h char hchar)

/-! ## Literals -/

theorem finds_digits_iff {digits : List Char} :
    Finds (digits? chars) digits further ↔
      digits ≠ [] ∧ chars.takeWhile Char.isDigit = digits ∧
        chars.dropWhile Char.isDigit = further := by
  cases chars with
  | nil =>
      have hnone : ¬ Finds (digits? []) digits further := by simp [digits?, Reading.run?, Finds]
      constructor
      · exact fun h => absurd h hnone
      · rintro ⟨hne, rfl, -⟩
        exact absurd rfl hne
  | cons char chars =>
      simp only [digits?, Reading.run?]
      split
      next hdigit =>
        rw [finds_some_iff, List.takeWhile_cons_of_pos hdigit, List.dropWhile_cons_of_pos hdigit]
        constructor
        · rintro ⟨rfl, rfl⟩
          exact ⟨List.cons_ne_nil _ _, rfl, rfl⟩
        · exact fun h => h.2
      next hdigit =>
        rw [List.takeWhile_cons_of_neg hdigit]
        constructor
        · rintro ⟨reading, hreading, -⟩
          cases hreading
        · rintro ⟨hne, rfl, -⟩
          exact absurd rfl hne

theorem finds_digits_append {digits : List Char} (h : Finds (digits? chars) digits further)
    (hrest : Delimited rest) : Finds (digits? (chars ++ rest)) digits (further ++ rest) := by
  obtain ⟨hne, hdigits, hfurther⟩ := finds_digits_iff.mp h
  obtain ⟨htake, hdrop⟩ := @takeWhile_append_of_head _ chars rest hrest.not_isDigit
  exact finds_digits_iff.mpr ⟨hne, htake.trans hdigits, by rw [hdrop, hfurther]⟩

theorem finds_whole_iff {digits : List Char} :
    Finds (whole? chars) digits further ↔
      Finds (digits? chars) digits further ∧ ∀ digit others, digits ≠ '0' :: digit :: others := by
  unfold whole?
  rw [finds_bind_iff]
  constructor
  · rintro ⟨reading, hreading, h⟩
    split at h
    · simp [Finds] at h
    · next hzero =>
      obtain ⟨rfl, rfl⟩ := finds_some_iff.mp h
      exact ⟨⟨reading, hreading, rfl, rfl⟩, fun digit others heq => hzero digit others heq⟩
  · rintro ⟨⟨reading, hreading, rfl, rfl⟩, hzero⟩
    refine ⟨reading, hreading, ?_⟩
    split
    · next heq => exact absurd heq (hzero _ _)
    · exact finds_some_iff.mpr ⟨rfl, rfl⟩

theorem finds_fraction_point_iff {fraction : Option (List Char)} :
    Finds (fraction? ('.' :: chars)) fraction further ↔
      ∃ digits, some digits = fraction ∧ Finds (digits? chars) digits further := by
  rw [fraction?]
  exact finds_pass_iff (fun _ => rfl) (fun _ => rfl)

theorem finds_fraction_iff {fraction : Option (List Char)} (h : chars.head? ≠ some '.') :
    Finds (fraction? chars) fraction further ↔ none = fraction ∧ chars = further := by
  unfold fraction?
  split
  · simp at h
  · exact finds_some_iff

theorem head?_append_ne {char : Char} (hchars : chars.head? ≠ some char)
    (hrest : Delimited rest) (hchar : char ∉ [',', ':', ']', '\x7d']) :
    (chars ++ rest).head? ≠ some char := by
  cases chars with
  | nil => exact fun heq => hchar (hrest char heq)
  | cons first others => simpa using hchars

theorem finds_fraction_append {fraction : Option (List Char)}
    (h : Finds (fraction? chars) fraction further) (hrest : Delimited rest) :
    Finds (fraction? (chars ++ rest)) fraction (further ++ rest) := by
  by_cases hpoint : chars.head? = some '.'
  · obtain ⟨others, rfl⟩ := List.head?_eq_some_iff.mp hpoint
    obtain ⟨digits, hfraction, hdigits⟩ := finds_fraction_point_iff.mp h
    exact finds_fraction_point_iff.mpr ⟨digits, hfraction, finds_digits_append hdigits hrest⟩
  · obtain ⟨hnone, rfl⟩ := (finds_fraction_iff hpoint).mp h
    exact (finds_fraction_iff (head?_append_ne hpoint hrest (by decide))).mpr ⟨hnone, rfl⟩

theorem finds_signedPower_minus_iff {power : ℤ} :
    Finds (signedPower? ('-' :: chars)) power further ↔
      ∃ digits, -(digitsValue digits : ℤ) = power ∧ Finds (digits? chars) digits further := by
  rw [signedPower?]
  exact finds_pass_iff (fun _ => rfl) (fun _ => rfl)

theorem finds_signedPower_plus_iff {power : ℤ} :
    Finds (signedPower? ('+' :: chars)) power further ↔
      ∃ digits, (digitsValue digits : ℤ) = power ∧ Finds (digits? chars) digits further := by
  rw [signedPower?]
  exact finds_pass_iff (fun _ => rfl) (fun _ => rfl)

theorem finds_signedPower_iff {power : ℤ} (hminus : chars.head? ≠ some '-')
    (hplus : chars.head? ≠ some '+') :
    Finds (signedPower? chars) power further ↔
      ∃ digits, (digitsValue digits : ℤ) = power ∧ Finds (digits? chars) digits further := by
  unfold signedPower?
  split
  · simp at hminus
  · simp at hplus
  · exact finds_pass_iff (fun _ => rfl) (fun _ => rfl)

theorem finds_signedPower_append {power : ℤ} (h : Finds (signedPower? chars) power further)
    (hrest : Delimited rest) : Finds (signedPower? (chars ++ rest)) power (further ++ rest) := by
  by_cases hminus : chars.head? = some '-'
  · obtain ⟨others, rfl⟩ := List.head?_eq_some_iff.mp hminus
    obtain ⟨digits, hpower, hdigits⟩ := finds_signedPower_minus_iff.mp h
    exact finds_signedPower_minus_iff.mpr ⟨digits, hpower, finds_digits_append hdigits hrest⟩
  by_cases hplus : chars.head? = some '+'
  · obtain ⟨others, rfl⟩ := List.head?_eq_some_iff.mp hplus
    obtain ⟨digits, hpower, hdigits⟩ := finds_signedPower_plus_iff.mp h
    exact finds_signedPower_plus_iff.mpr ⟨digits, hpower, finds_digits_append hdigits hrest⟩
  obtain ⟨digits, hpower, hdigits⟩ := (finds_signedPower_iff hminus hplus).mp h
  exact (finds_signedPower_iff (head?_append_ne hminus hrest (by decide))
    (head?_append_ne hplus hrest (by decide))).mpr
      ⟨digits, hpower, finds_digits_append hdigits hrest⟩

theorem finds_power_mark_iff {mark : Char} {power : Option ℤ} (hmark : mark = 'e' ∨ mark = 'E') :
    Finds (power? (mark :: chars)) power further ↔
      ∃ value, some value = power ∧ Finds (signedPower? chars) value further := by
  rcases hmark with rfl | rfl <;> rw [power?] <;>
    exact finds_pass_iff (fun _ => rfl) (fun _ => rfl)

theorem finds_power_iff {power : Option ℤ} (hsmall : chars.head? ≠ some 'e')
    (hcapital : chars.head? ≠ some 'E') :
    Finds (power? chars) power further ↔ none = power ∧ chars = further := by
  unfold power?
  split
  · simp at hsmall
  · simp at hcapital
  · exact finds_some_iff

theorem finds_power_append {power : Option ℤ} (h : Finds (power? chars) power further)
    (hrest : Delimited rest) : Finds (power? (chars ++ rest)) power (further ++ rest) := by
  by_cases hmark : ∃ mark, (mark = 'e' ∨ mark = 'E') ∧ chars.head? = some mark
  · obtain ⟨mark, hmark, hhead⟩ := hmark
    obtain ⟨others, rfl⟩ := List.head?_eq_some_iff.mp hhead
    obtain ⟨value, hpower, hvalue⟩ := (finds_power_mark_iff hmark).mp h
    exact (finds_power_mark_iff hmark).mpr ⟨value, hpower, finds_signedPower_append hvalue hrest⟩
  · have hsmall : chars.head? ≠ some 'e' := fun heq => hmark ⟨'e', .inl rfl, heq⟩
    have hcapital : chars.head? ≠ some 'E' := fun heq => hmark ⟨'E', .inr rfl, heq⟩
    obtain ⟨hnone, rfl⟩ := (finds_power_iff hsmall hcapital).mp h
    exact (finds_power_iff (head?_append_ne hsmall hrest (by decide))
      (head?_append_ne hcapital hrest (by decide))).mpr ⟨hnone, rfl⟩

theorem finds_unsignedLiteral_iff {negative : Bool} {literal : Literal} :
    Finds (unsignedLiteral? negative chars) literal further ↔
      ∃ whole afterWhole fraction afterFraction power,
        Finds (whole? chars) whole afterWhole ∧
        Finds (fraction? afterWhole) fraction afterFraction ∧
        Finds (power? afterFraction) power further ∧
        { negative, whole, fraction, power } = literal := by
  unfold unsignedLiteral?
  rw [finds_bind_iff]
  constructor
  · rintro ⟨⟨whole, afterWhole, hw⟩, hwhole, h⟩
    obtain ⟨⟨fraction, afterFraction, hf⟩, hfraction, h⟩ := finds_bind_iff.mp h
    obtain ⟨power, hpower, h⟩ := finds_bind_iff.mp h
    obtain ⟨hliteral, hleft⟩ := finds_some_iff.mp h
    exact ⟨whole, afterWhole, fraction, afterFraction, power.value, ⟨_, hwhole, rfl, rfl⟩,
      ⟨_, hfraction, rfl, rfl⟩, ⟨power, hpower, rfl, hleft⟩, hliteral⟩
  · rintro ⟨whole, afterWhole, fraction, afterFraction, power, ⟨first, hwhole, rfl, rfl⟩,
      ⟨second, hfraction, rfl, rfl⟩, ⟨third, hpower, rfl, rfl⟩, rfl⟩
    refine ⟨first, hwhole, finds_bind_iff.mpr ⟨second, hfraction, finds_bind_iff.mpr
      ⟨third, hpower, finds_some_iff.mpr ⟨rfl, rfl⟩⟩⟩⟩

theorem finds_unsignedLiteral_append {negative : Bool} {literal : Literal}
    (h : Finds (unsignedLiteral? negative chars) literal further) (hrest : Delimited rest) :
    Finds (unsignedLiteral? negative (chars ++ rest)) literal (further ++ rest) := by
  obtain ⟨whole, afterWhole, fraction, afterFraction, power, hwhole, hfraction, hpower, hliteral⟩ :=
    finds_unsignedLiteral_iff.mp h
  obtain ⟨hdigits, hzero⟩ := finds_whole_iff.mp hwhole
  exact finds_unsignedLiteral_iff.mpr ⟨whole, _, fraction, _, power,
    finds_whole_iff.mpr ⟨finds_digits_append hdigits hrest, hzero⟩,
    finds_fraction_append hfraction hrest, finds_power_append hpower hrest, hliteral⟩

theorem finds_literal_minus_iff {literal : Literal} :
    Finds (literal? ('-' :: chars)) literal further ↔
      Finds (unsignedLiteral? true chars) literal further := by
  have hpass : Finds (literal? ('-' :: chars)) literal further ↔
      ∃ found, id found = literal ∧ Finds (unsignedLiteral? true chars) found further := by
    rw [literal?]
    exact finds_pass_iff (fun _ => rfl) (fun _ => rfl)
  simpa using hpass

theorem finds_literal_iff {literal : Literal} (h : chars.head? ≠ some '-') :
    Finds (literal? chars) literal further ↔
      Finds (unsignedLiteral? false chars) literal further := by
  unfold literal?
  split
  · simp at h
  · rfl

theorem finds_literal_append {literal : Literal} (h : Finds (literal? chars) literal further)
    (hrest : Delimited rest) : Finds (literal? (chars ++ rest)) literal (further ++ rest) := by
  by_cases hminus : chars.head? = some '-'
  · obtain ⟨others, rfl⟩ := List.head?_eq_some_iff.mp hminus
    exact finds_literal_minus_iff.mpr
      (finds_unsignedLiteral_append (finds_literal_minus_iff.mp h) hrest)
  · exact (finds_literal_iff (head?_append_ne hminus hrest (by decide))).mpr
      (finds_unsignedLiteral_append ((finds_literal_iff hminus).mp h) hrest)

/-! ## Strings -/

theorem finds_pieces_quote_iff {pieces : List Piece} :
    Finds (pieces? ('"' :: chars)) pieces further ↔ [] = pieces ∧ chars = further := by
  rw [pieces?]
  exact finds_some_iff

theorem finds_pieces_unit_iff {a b c d : Char} {pieces : List Piece} :
    Finds (pieces? ('\\' :: 'u' :: a :: b :: c :: d :: chars)) pieces further ↔
      ∃ unit, hexValue? [a, b, c, d] = some unit ∧
        ∃ more, .unit unit :: more = pieces ∧ Finds (pieces? chars) more further := by
  rw [pieces?]
  cases hexValue? [a, b, c, d] with
  | none => simp [Finds]
  | some unit =>
      simp only [Option.some.injEq, exists_eq_left']
      exact finds_pass_iff (fun _ => rfl) (fun _ => rfl)

theorem finds_pieces_escape_iff {mark : Char} {pieces : List Piece} (h : mark ≠ 'u') :
    Finds (pieces? ('\\' :: mark :: chars)) pieces further ↔
      ∃ char, escape? mark = some char ∧
        ∃ more, .char char :: more = pieces ∧ Finds (pieces? chars) more further := by
  rw [pieces?]
  · cases escape? mark with
    | none => simp [Finds]
    | some char =>
        simp only [Option.some.injEq, exists_eq_left']
        exact finds_pass_iff (fun _ => rfl) (fun _ => rfl)
  · intro a b c d others hmark
    exact absurd hmark h

theorem finds_pieces_char_iff {char : Char} {pieces : List Piece} (hquote : char ≠ '"')
    (hslash : char ≠ '\\') (hcontrol : 32 ≤ char.toNat) :
    Finds (pieces? (char :: chars)) pieces further ↔
      ∃ more, .char char :: more = pieces ∧ Finds (pieces? chars) more further := by
  have hplain : ¬ (decide (char.toNat < 32) || char == '\\') = true := by
    simp [hslash]
    omega
  rw [pieces?, if_neg hplain]
  · exact finds_pass_iff (fun _ => rfl) (fun _ => rfl)
  · exact hquote
  · exact fun a b c d others heq => absurd heq hslash
  · exact fun mark others heq => absurd heq hslash

/-- A string ends at its closing quote, whatever follows. -/
theorem finds_pieces_append {pieces : List Piece} (h : Finds (pieces? chars) pieces further)
    (rest : List Char) : Finds (pieces? (chars ++ rest)) pieces (further ++ rest) := by
  induction chars using pieces?.induct generalizing pieces further with
  | case1 => simp [pieces?, Finds] at h
  | case2 others =>
      obtain ⟨rfl, rfl⟩ := finds_pieces_quote_iff.mp h
      exact finds_pieces_quote_iff.mpr ⟨rfl, rfl⟩
  | case3 a b c d others ih =>
      obtain ⟨unit, hunit, more, hmore, hothers⟩ := finds_pieces_unit_iff.mp h
      exact finds_pieces_unit_iff.mpr ⟨unit, hunit, more, hmore, ih hothers⟩
  | case4 mark others hunit ih =>
      have hmark : mark ≠ 'u' := by
        rintro rfl
        rw [pieces?] at h
        · simp [escape?, Finds] at h
        · exact hunit
      obtain ⟨char, hchar, more, hmore, hothers⟩ := (finds_pieces_escape_iff hmark).mp h
      exact (finds_pieces_escape_iff hmark).mpr ⟨char, hchar, more, hmore, ih hothers⟩
  | case5 char others hquote hunit hescape hcontrol =>
      rw [pieces?, if_pos hcontrol] at h
      · simp [Finds] at h
      all_goals assumption
  | case6 char others hquote _ _ hplain ih =>
      simp only [Bool.or_eq_true, decide_eq_true_eq, beq_iff_eq, not_or, not_lt] at hplain
      obtain ⟨more, hmore, hothers⟩ := (finds_pieces_char_iff hquote hplain.2 hplain.1).mp h
      exact (finds_pieces_char_iff hquote hplain.2 hplain.1).mpr ⟨more, hmore, ih hothers⟩

/-! ## Tokens -/

theorem exists_head_of_literal {literal : Literal} (h : Finds (literal? chars) literal further) :
    ∃ char others, chars = char :: others ∧ (char = '-' ∨ char.isDigit = true) := by
  by_cases hminus : chars.head? = some '-'
  · obtain ⟨others, rfl⟩ := List.head?_eq_some_iff.mp hminus
    exact ⟨'-', others, rfl, .inl rfl⟩
  · obtain ⟨whole, afterWhole, -, -, -, hwhole, -⟩ :=
      finds_unsignedLiteral_iff.mp ((finds_literal_iff hminus).mp h)
    obtain ⟨hne, hdigits, -⟩ := finds_digits_iff.mp (finds_whole_iff.mp hwhole).1
    cases chars with
    | nil => exact absurd hdigits.symm hne
    | cons char others =>
        refine ⟨char, others, rfl, .inr ?_⟩
        by_contra hdigit
        rw [List.takeWhile_cons_of_neg hdigit] at hdigits
        exact hne hdigits.symm

theorem finds_token_literal_iff {char : Char} {token : Token}
    (hchar : char = '-' ∨ char.isDigit = true) :
    Finds (token? (char :: chars)) token further ↔
      ∃ literal, .number literal = token ∧ Finds (literal? (char :: chars)) literal further := by
  have hne : ∀ other ∈ ['[', ']', '\x7b', '\x7d', ',', ':', 'n', 't', 'f', '"'], char ≠ other := by
    rintro other hother rfl
    rcases hchar with rfl | hdigit
    · simp at hother
    · simp only [List.mem_cons, List.not_mem_nil, or_false] at hother
      rcases hother with rfl | rfl | rfl | rfl | rfl | rfl | rfl | rfl | rfl | rfl <;> cases hdigit
  rw [token?]
  · exact finds_pass_iff (fun _ => rfl) (fun _ => rfl)
  all_goals
    intro others heq
    exact hne _ (by decide) (List.cons.inj heq).1

theorem finds_token_string_iff {token : Token} :
    Finds (token? ('"' :: chars)) token further ↔
      ∃ pieces, .string ((joinPieces? pieces).map String.ofList) = token ∧
        Finds (pieces? chars) pieces further := by
  rw [token?]
  exact finds_pass_iff (fun _ => rfl) (fun _ => rfl)

theorem finds_token_append {token : Token} (h : Finds (token? chars) token further)
    (hrest : Delimited rest) : Finds (token? (chars ++ rest)) token (further ++ rest) := by
  have hshape := h
  unfold token? at hshape
  split at hshape
  case h_10 others =>
    obtain ⟨pieces, htoken, hpieces⟩ := finds_token_string_iff.mp h
    exact finds_token_string_iff.mpr ⟨pieces, htoken, finds_pieces_append hpieces rest⟩
  case h_11 =>
    obtain ⟨reading, hreading, -⟩ := finds_bind_iff.mp hshape
    obtain ⟨char, others, rfl, hchar⟩ := exists_head_of_literal ⟨reading, hreading, rfl, rfl⟩
    obtain ⟨literal, htoken, hliteral⟩ := (finds_token_literal_iff hchar).mp h
    exact (finds_token_literal_iff hchar).mpr ⟨literal, htoken, finds_literal_append hliteral hrest⟩
  all_goals
    obtain ⟨rfl, rfl⟩ := finds_some_iff.mp hshape
    exact finds_some_iff.mpr ⟨rfl, rfl⟩

theorem tokens?_space {char : Char} (h : isSpace char = true) :
    tokens? (char :: chars) = tokens? chars := by
  rw [tokens?, if_pos h]

theorem tokens?_of_token {char : Char} {token : Token} (hspace : isSpace char = false)
    (h : Finds (token? (char :: chars)) token further) :
    tokens? (char :: chars) = (tokens? further).map (token :: ·) := by
  obtain ⟨⟨value, left, hlength⟩, hreading, rfl, rfl⟩ := h
  rw [tokens?, if_neg (by simp [hspace]), hreading]
  cases htokens : tokens? left <;> simp [htokens]

theorem exists_token_of_tokens? {char : Char} {tokens : List Token}
    (hspace : isSpace char = false) (h : tokens? (char :: chars) = some tokens) :
    ∃ token further more, Finds (token? (char :: chars)) token further ∧
      further.length < (char :: chars).length ∧ tokens? further = some more ∧
      token :: more = tokens := by
  rw [tokens?, if_neg (by simp [hspace])] at h
  obtain ⟨⟨token, further, hlength⟩, hreading, h⟩ := Option.bind_eq_some_iff.mp h
  obtain ⟨more, hmore, h⟩ := Option.bind_eq_some_iff.mp h
  exact ⟨token, further, more, ⟨_, hreading, rfl, rfl⟩, hlength, hmore, Option.some.inj h⟩

/-- A delimited text has its own tokens first. -/
theorem tokens?_append {tokens : List Token} (h : tokens? chars = some tokens)
    (hrest : Delimited rest) : tokens? (chars ++ rest) = (tokens? rest).map (tokens ++ ·) := by
  induction chars using tokens?.induct generalizing tokens with
  | case1 =>
      rw [tokens?] at h
      obtain rfl := Option.some.inj h
      simp
  | case2 char others hspace ih =>
      rw [tokens?_space hspace] at h
      rw [List.cons_append, tokens?_space hspace, ih h]
  | case3 char others hspace ih =>
      have hnot : isSpace char = false := Bool.eq_false_iff.mpr hspace
      obtain ⟨token, further, more, htoken, hlength, hmore, rfl⟩ := exists_token_of_tokens? hnot h
      have hlonger := finds_token_append htoken hrest
      rw [List.cons_append] at hlonger ⊢
      rw [tokens?_of_token hnot hlonger, ih further hlength hmore, Option.map_map]
      rfl

end Json

end SolarTakeoff
