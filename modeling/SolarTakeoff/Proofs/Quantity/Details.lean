import SolarTakeoff.Proofs.Binary64.Text
import SolarTakeoff.Proofs.Line.Bounds
import Mathlib.Data.List.DropRight
import Mathlib.Tactic

/-!
# Details tell the quantity

Details are read word by word; blanks and commas end a word.  Every step that
sets the quantity writes a marker and then the new figure, and what it writes
after the figure has no marker.  So the quantity is the figure after the last
marker, whatever an expression or a tag contributed before it.  What stops is
told by the first word alone.
-/

namespace SolarTakeoff

namespace Details

def isGap (char : Char) : Bool :=
  char == ' ' || char == ','

def words (text : String) : List String :=
  (text.toList.splitOnP isGap).map String.ofList

/-- The words that stand right before a quantity. -/
def markers : List String :=
  ["quantity:", "=", "to", "(min", "(max"]

/-- The first words of the details of what stops. -/
def stopWords : List String :=
  ["No", "Formula", "Unknown"]

def figure? (words : List String) : Option String :=
  (words.rtakeWhile (· ∉ markers)).head?

/-- The quantity that details tell. -/
def quantity? (details : String) : Option Binary64 :=
  if ∃ word ∈ (words details).head?, word ∈ stopWords then some .zero
  else (figure? (words details)).bind Binary64.ofText?

/-! ## Words -/

theorem words_append_gap {gap : Char} (h : isGap gap = true) (first second : String) :
    words (first ++ (String.ofList [gap] ++ second)) = words first ++ words second := by
  unfold words
  rw [← List.map_append, String.toList_append, String.toList_append, String.toList_ofList]
  exact congrArg _ (List.splitOnP_append_cons _ _ h)

theorem words_append_blank (first second : String) :
    words (first ++ (" " ++ second)) = words first ++ words second :=
  words_append_gap (by decide) first second

theorem words_ne_nil (text : String) : words text ≠ [] := by
  simp [words, List.splitOnP_ne_nil]

theorem isGap_of_any {chars : List Char} (h : chars.any isGap = false) :
    ∀ char ∈ chars, isGap char = false := by
  simpa using h

theorem isGap_of_mem_brief {x : Binary64} {char : Char} (h : char ∈ x.brief.toList) :
    isGap char = false := by
  have hfigure := Binary64.isFigureChar_of_mem_brief h
  rw [isGap, Bool.or_eq_false_iff, beq_eq_false_iff_ne, beq_eq_false_iff_ne]
  constructor <;> rintro rfl <;> revert hfigure <;> decide

theorem splitOnP_brief (x : Binary64) : x.brief.toList.splitOnP isGap = [x.brief.toList] :=
  List.splitOnP_eq_singleton fun _ => isGap_of_mem_brief

theorem splitOnP_brief_append {x : Binary64} {unit : List Char}
    (h : ∀ char ∈ unit, isGap char = false) :
    (x.brief.toList ++ unit).splitOnP isGap = [x.brief.toList ++ unit] := by
  apply List.splitOnP_eq_singleton
  intro char hchar
  rcases List.mem_append.mp hchar with hfigure | hunit
  · exact isGap_of_mem_brief hfigure
  · exact h char hunit

theorem brief_not_marker (x : Binary64) : x.brief ∉ markers := by
  intro hmem
  have hfigure : ∀ marker ∈ markers, marker.toList.all Binary64.isFigureChar = false := by decide
  have hall : x.brief.toList.all Binary64.isFigureChar = true :=
    List.all_eq_true.mpr fun _ => Binary64.isFigureChar_of_mem_brief
  simp [hfigure _ hmem] at hall

/-! ## Reading a quantity -/

/-- Details whose last marker stands before a figure for the quantity. -/
structure Tells (details : String) (quantity : Binary64) : Prop where
  start : ∀ word ∈ (words details).head?, word ∉ stopWords
  ending : ∃ (before : List String) (marker : String) (figure : Binary64) (after : List String),
    words details = before ++ marker :: figure.brief :: after ∧
      marker ∈ markers ∧ (∀ word ∈ after, word ∉ markers) ∧
      figure.position? = quantity.position?

theorem figure?_of_marker {before after : List String} {marker figure : String}
    (hmarker : marker ∈ markers) (hafter : ∀ word ∈ figure :: after, word ∉ markers) :
    figure? (before ++ marker :: figure :: after) = some figure := by
  have htake : ((before ++ marker :: figure :: after).rtakeWhile (· ∉ markers)) =
      figure :: after := by
    have hplain : ∀ word ∈ (figure :: after).reverse, decide (word ∉ markers) = true := by
      intro word hword
      exact decide_eq_true (hafter word (List.mem_reverse.mp hword))
    rw [List.rtakeWhile, List.reverse_append, List.reverse_cons, List.append_assoc,
      List.takeWhile_append_of_pos hplain, List.singleton_append,
      List.takeWhile_cons_of_neg (by simpa using hmarker), List.append_nil, List.reverse_reverse]
  rw [figure?, htake, List.head?_cons]

theorem Tells.exists_read {details : String} {quantity : Binary64} (h : Tells details quantity) :
    ∃ read, Details.quantity? details = some read ∧ read.position? = quantity.position? := by
  obtain ⟨before, marker, figure, after, hwords, hmarker, hafter, hposition⟩ := h.ending
  obtain ⟨read, hread, hsame⟩ := Binary64.exists_read_brief figure
  have hplain : ∀ word ∈ figure.brief :: after, word ∉ markers :=
    List.forall_mem_cons.mpr ⟨brief_not_marker figure, hafter⟩
  have hstart : ¬ ∃ word ∈ (words details).head?, word ∈ stopWords := by
    rintro ⟨word, hword, hstop⟩
    exact h.start word hword hstop
  refine ⟨read, ?_, hsame.trans hposition⟩
  rw [Details.quantity?, if_neg hstart, hwords, figure?_of_marker hmarker hplain]
  exact hread

theorem Tells.congr {details : String} {quantity other : Binary64} (h : Tells details quantity)
    (hposition : quantity.position? = other.position?) : Tells details other where
  start := h.start
  ending := by
    obtain ⟨before, marker, figure, after, hwords, hmarker, hafter, hsame⟩ := h.ending
    exact ⟨before, marker, figure, after, hwords, hmarker, hafter, hsame.trans hposition⟩

/-- A note that sets the quantity anew; what was told before it no longer matters. -/
theorem Tells.note {details note : String} {quantity figure : Binary64}
    {before after : List String} {marker : String} (h : Tells details quantity)
    (hnote : words (details ++ note) =
      words details ++ (before ++ marker :: figure.brief :: after))
    (hmarker : marker ∈ markers) (hafter : ∀ word ∈ after, word ∉ markers) :
    Tells (details ++ note) figure where
  start := by
    obtain ⟨first, rest, hfirst⟩ := List.exists_cons_of_ne_nil (words_ne_nil details)
    have hstart := h.start
    rw [hfirst] at hstart
    rwa [hnote, hfirst]
  ending := by
    refine ⟨words details ++ before, marker, figure, after, ?_, hmarker, hafter, rfl⟩
    rw [hnote, List.append_assoc]

end Details

/-! ## Rounding and bounds -/

namespace Resolution

open Details

variable {resolution : Resolution}

theorem words_rounded (details : String) (up : Bool) (rounded : Binary64) :
    words (details ++ ((if up then ", rounded up to " else ", rounded to ") ++ rounded.brief)) =
      words details ++
        ((if up then ["", "rounded", "up"] else ["", "rounded"]) ++ "to" :: rounded.brief :: []) := by
  cases up <;>
    simp [words, List.splitOnP_append_cons, List.splitOnP_cons_eq_if_modifyHead, isGap,
      splitOnP_brief]

theorem tells_round (h : Tells resolution.details resolution.quantity) (roundUp : Bool) :
    Tells (resolution.round roundUp).details (resolution.round roundUp).quantity := by
  unfold round
  dsimp only
  generalize hup : (roundUp && Binary64.zero.lt resolution.quantity) = up
  generalize (if up then resolution.quantity.ceil else resolution.quantity.roundHalfUp) = rounded
  split
  next heq =>
    obtain ⟨a, hrounded, hraw⟩ := Binary64.eq_eq_true_iff.mp heq
    rw [String.append_empty]
    exact h.congr (hraw.trans hrounded.symm)
  next => exact h.note (words_rounded _ up rounded) (by decide) (by simp)

/-- The note on a bound opens with the marker of the bound. -/
theorem tells_bound {details opening marker : String} {quantity : Binary64}
    (h : Tells details quantity) (hmarker : marker ∈ markers)
    (hopening : opening = " " ++ (marker ++ " ")) (bound : Binary64) :
    Tells (details ++ opening ++ bound.brief ++ " applied, was " ++ quantity.brief ++ ")")
      bound := by
  have hplain : ∀ other ∈ markers, other.toList.splitOnP isGap = [other.toList] := by decide
  have hclose := @splitOnP_brief_append quantity [')'] (isGap_of_any (by decide))
  have hnote : words (details ++ (opening ++ bound.brief ++ " applied, was " ++
      quantity.brief ++ ")")) = words details ++
        ([] ++ marker :: bound.brief :: ["applied", "", "was", quantity.brief ++ ")"]) := by
    simp [words, List.splitOnP_append_cons, List.splitOnP_cons_eq_if_modifyHead, isGap,
      splitOnP_brief, hopening, hplain marker hmarker, hclose]
  have hafter : ∀ word ∈ ["applied", "", "was", quantity.brief ++ ")"], word ∉ markers := by
    have hnone : ∀ other ∈ markers, ')' ∉ other.toList := by decide
    have hlast : quantity.brief ++ ")" ∉ markers := fun hmem => hnone _ hmem (by simp)
    simp only [List.forall_mem_cons, hlast]
    decide
  have htells := h.note hnote hmarker hafter
  simpa only [String.append_assoc] using htells

theorem tells_raise (h : Tells resolution.details resolution.quantity) (minimum : Binary64) :
    Tells (resolution.raise minimum).details (resolution.raise minimum).quantity := by
  unfold raise
  split
  next => exact tells_bound h (by decide : "(min" ∈ markers) (by decide) minimum
  next => exact h

theorem tells_cut (h : Tells resolution.details resolution.quantity)
    (maximum : Option Binary64) :
    Tells (resolution.cut maximum).details (resolution.cut maximum).quantity := by
  cases maximum with
  | none => exact h
  | some maximum =>
      simp only [cut]
      split
      next => exact tells_bound h (by decide : "(max" ∈ markers) (by decide) maximum
      next => exact h

end Resolution

/-! ## Strategies -/

namespace Details

theorem tells_linear {amountText first : String} {rest : List String}
    (hwords : words amountText = first :: rest) (hfirst : first ∉ stopWords)
    (multiplier base value : Binary64) :
    Tells (amountText ++ " × " ++ multiplier.brief ++ " + " ++ base.brief ++ " = " ++ value.brief)
      value := by
  have hall : words (amountText ++ " × " ++ multiplier.brief ++ " + " ++ base.brief ++ " = " ++
      value.brief) = (words amountText ++ ["×", multiplier.brief, "+", base.brief]) ++
        "=" :: value.brief :: [] := by
    simp [words, List.splitOnP_append_cons, List.splitOnP_cons_eq_if_modifyHead, isGap,
      splitOnP_brief]
  constructor
  · intro word hword
    rw [hall, hwords] at hword
    obtain rfl : first = word := by simpa using hword
    exact hfirst
  · exact ⟨_, "=", value, [], hall, by decide, by simp, rfl⟩

theorem tells_fixed (base : Binary64) : Tells ("Fixed quantity: " ++ base.brief) base := by
  have hall : words ("Fixed quantity: " ++ base.brief) =
      ["Fixed"] ++ "quantity:" :: base.brief :: [] := by
    simp [words, List.splitOnP_cons_eq_if_modifyHead, isGap, splitOnP_brief]
  constructor
  · simp [hall, stopWords]
  · exact ⟨_, "quantity:", base, [], hall, by decide, by simp, rfl⟩

/-- A binding is told from a marker by its equals sign, which is not all of it. -/
def IsBinding (word : List Char) : Prop :=
  '=' ∈ word ∧ word ≠ ['=']

theorem IsBinding.not_marker {word : List Char} (h : IsBinding word) :
    String.ofList word ∉ markers := by
  intro hmem
  have hsign : ∀ marker ∈ markers, '=' ∈ marker.toList → marker.toList = ['='] := by decide
  have hall := hsign _ hmem
  rw [String.toList_ofList] at hall
  exact h.2 (hall h.1)

theorem isBinding_binding (opening closing : List Char) (input : Input) (value : Binary64) :
    IsBinding (opening ++ (input.name ++ "=" ++ value.brief).toList ++ closing) := by
  constructor
  · simp
  · have hname : 0 < input.name.toList.length := by cases input <;> decide
    intro heq
    have hlength := congrArg List.length heq
    simp only [List.length_append, String.toList_append, List.length_singleton] at hlength
    have hsign : "=".toList.length = 1 := by decide
    omega

theorem isGap_of_mem_binding {opening closing : List Char} {input : Input} {value : Binary64}
    (hopening : ∀ char ∈ opening, isGap char = false)
    (hclosing : ∀ char ∈ closing, isGap char = false) :
    ∀ char ∈ opening ++ (input.name ++ "=" ++ value.brief).toList ++ closing,
      isGap char = false := by
  have hname : ∀ char ∈ (input.name ++ "=").toList, isGap char = false := by
    apply isGap_of_any
    cases input <;> decide
  intro char hchar
  rw [String.toList_append, List.mem_append, List.mem_append, List.mem_append] at hchar
  rcases hchar with (h | h | h) | h
  · exact hopening char h
  · exact hname char h
  · exact isGap_of_mem_brief h
  · exact hclosing char h

def bindingsChars (inputs : Inputs) (mentioned : List Input) : List Char :=
  [',', ' '].intercalate
    (mentioned.map fun input => (input.name ++ "=" ++ (inputs input).brief).toList)

theorem isBinding_of_mem_bindings (inputs : Inputs) (input : Input) (mentioned : List Input)
    {opening : List Char} (hopening : ∀ char ∈ opening, isGap char = false) :
    ∀ word ∈ (opening ++ bindingsChars inputs (input :: mentioned) ++ [')']).splitOnP isGap,
      word = [] ∨ IsBinding word := by
  induction mentioned generalizing input opening with
  | nil =>
      have hclosing : ∀ char ∈ [')'], isGap char = false := isGap_of_any (by decide)
      have hplain := @isGap_of_mem_binding opening [')'] input (inputs input) hopening hclosing
      have hsingle := List.splitOnP_eq_singleton hplain
      simp only [bindingsChars, List.map_cons, List.map_nil, List.intercalate_singleton, hsingle,
        List.mem_singleton, forall_eq]
      exact .inr (isBinding_binding opening [')'] input (inputs input))
  | cons next rest ih =>
      have hempty : ∀ char ∈ [], isGap char = false := isGap_of_any (by decide)
      have hplain := @isGap_of_mem_binding opening [] input (inputs input) hopening hempty
      have hbinding := isBinding_binding opening [] input (inputs input)
      have hrest := @ih next [] hempty
      rw [List.append_nil] at hplain hbinding
      have hshape : opening ++ bindingsChars inputs (input :: next :: rest) ++ [')'] =
          (opening ++ (input.name ++ "=" ++ (inputs input).brief).toList) ++
            ',' :: ([] ++ ' ' :: ([] ++ bindingsChars inputs (next :: rest) ++ [')'])) := by
        simp [bindingsChars]
      rw [hshape, List.splitOnP_append_cons_of_forall_mem hplain ',' (by decide),
        List.splitOnP_append_cons [] _ (by decide)]
      intro word hword
      rcases List.mem_cons.mp hword with rfl | hword
      · exact .inr hbinding
      rcases List.mem_append.mp hword with hempty | hword
      · exact .inl (by simpa using hempty)
      · exact hrest word hword

theorem exists_words_bindings (value : Binary64) (inputs : Inputs) (mentioned : List Input) :
    ∃ after, words (value.brief ++ bindingsText inputs mentioned) = value.brief :: after ∧
      ∀ word ∈ after, word ∉ markers := by
  cases mentioned with
  | nil =>
      refine ⟨[], ?_, by simp⟩
      simp [bindingsText, words, splitOnP_brief]
  | cons input rest =>
      have htext : (value.brief ++ bindingsText inputs (input :: rest)).toList =
          value.brief.toList ++
            ' ' :: (['('] ++ bindingsChars inputs (input :: rest) ++ [')']) := by
        have hbindings : (", ".intercalate ((input :: rest).map fun input =>
            input.name ++ "=" ++ (inputs input).brief)).toList =
              bindingsChars inputs (input :: rest) := by
          rw [String.toList_intercalate, List.map_map]
          rfl
        have hbrackets : bindingsText inputs (input :: rest) = " (" ++ ", ".intercalate
            ((input :: rest).map fun input => input.name ++ "=" ++ (inputs input).brief) ++ ")" :=
          rfl
        rw [hbrackets, String.toList_append, String.toList_append, String.toList_append, hbindings]
        simp
      refine ⟨((['('] ++ bindingsChars inputs (input :: rest) ++ [')']).splitOnP isGap).map
        String.ofList, ?_, ?_⟩
      · rw [words, htext, List.splitOnP_append_cons _ _ (by decide), splitOnP_brief]
        simp
      · intro word hword
        obtain ⟨chars, hchars, rfl⟩ := List.mem_map.mp hword
        rcases isBinding_of_mem_bindings inputs input rest (isGap_of_any (by decide)) chars
          hchars with rfl | hbinding
        · decide
        · exact hbinding.not_marker

theorem tells_formula (expression : String) (value : Binary64) (inputs : Inputs)
    (mentioned : List Input) :
    Tells ("Formula: " ++ expression ++ " = " ++ value.brief ++ bindingsText inputs mentioned)
      value := by
  obtain ⟨after, hafter, hplain⟩ := exists_words_bindings value inputs mentioned
  have hall : words ("Formula: " ++ expression ++ " = " ++ value.brief ++
      bindingsText inputs mentioned) =
        ("Formula:" :: words expression) ++ "=" :: value.brief :: after := by
    rw [← hafter, String.append_assoc]
    generalize value.brief ++ bindingsText inputs mentioned = ending
    simp [words, List.splitOnP_append_cons, List.splitOnP_cons_eq_if_modifyHead, isGap]
  constructor
  · simp [hall, stopWords]
  · exact ⟨_, "=", value, after, hall, by decide, hplain, rfl⟩

/-! ## What stops -/

theorem quantity?_of_stopWord {details first rest : String} (hfirst : first ∈ stopWords)
    (h : details = first ++ (" " ++ rest)) : Details.quantity? details = some .zero := by
  have hplain : ∀ word ∈ stopWords, words word = [word] := by decide
  have hwords : words details = first :: words rest := by
    rw [h, words_append_blank, hplain first hfirst, List.singleton_append]
  have hstart : ∃ word ∈ (words details).head?, word ∈ stopWords := by
    rw [hwords]
    exact ⟨first, rfl, hfirst⟩
  rw [Details.quantity?, if_pos hstart]

/-- No first word of a stop has a digit or a capital W in it. -/
theorem not_stopWord {word : String} {char : Char} (hmem : char ∈ word.toList)
    (hchar : char.isDigit = true ∨ char = 'W') : word ∉ stopWords := by
  intro hstop
  have hnone : ∀ other ∈ stopWords,
      other.toList.any (fun letter => letter.isDigit || letter == 'W') = false := by decide
  have hletter : (char.isDigit || char == 'W') = false := by
    simpa using List.any_eq_false.mp (hnone word hstop) char hmem
  rcases hchar with h | h <;> simp [h] at hletter

theorem words_panels (count : ℕ) :
    words (toString count ++ " panels") = [toString count, "panels"] := by
  have hcount : (Nat.toDigits 10 count).splitOnP isGap = [Nat.toDigits 10 count] := by
    apply List.splitOnP_eq_singleton
    intro char hchar
    have hdigit := isDigit_of_mem_toDigits hchar
    rw [isGap, Bool.or_eq_false_iff, beq_eq_false_iff_ne, beq_eq_false_iff_ne]
    exact ⟨ne_of_isDigit hdigit (by decide), ne_of_isDigit hdigit (by decide)⟩
  rw [Nat.toString_eq_ofList_toDigits]
  simp [words, List.splitOnP_append_cons, List.splitOnP_cons_eq_if_modifyHead, isGap, hcount]

theorem tells_panels (count : ℕ) (multiplier base value : Binary64) :
    Tells (s!"{count} panels" ++ " × " ++ multiplier.brief ++ " + " ++ base.brief ++ " = " ++
      value.brief) value := by
  have hne : Nat.toDigits 10 count ≠ [] := Nat.toDigits_ne_nil
  obtain ⟨digit, rest, hdigits⟩ := List.exists_cons_of_ne_nil hne
  have hmem : digit ∈ Nat.toDigits 10 count := by simp [hdigits]
  have htext : (toString count).toList = Nat.toDigits 10 count := by
    rw [Nat.toString_eq_ofList_toDigits, String.toList_ofList]
  exact tells_linear (words_panels count)
    (not_stopWord (htext ▸ hmem) (.inl (isDigit_of_mem_toDigits hmem))) multiplier base value

theorem tells_measure {unit : String} (hunit : ∀ char ∈ unit.toList, isGap char = false)
    (hletter : 'W' ∈ unit.toList) (amount multiplier base value : Binary64) :
    Tells (amount.brief ++ unit ++ " × " ++ multiplier.brief ++ " + " ++ base.brief ++ " = " ++
      value.brief) value := by
  have hword : words (amount.brief ++ unit) = [amount.brief ++ unit] := by
    have hsingle := @splitOnP_brief_append amount _ hunit
    rw [words, String.toList_append, hsingle, List.map_singleton, ← String.toList_append,
      String.ofList_toList]
  have hmem : 'W' ∈ (amount.brief ++ unit).toList := by simp [hletter]
  exact tells_linear hword (not_stopWord hmem (.inr rfl)) multiplier base value

end Details

open Details

/-- The details tell what the derivation comes to. -/
def Derivation.Told : Derivation → Prop
  | .raw value details => Tells details value
  | .stopped details _ => Details.quantity? details = some .zero

theorem Derivation.told_ofFormula (ruleId expression : String) (inputs : Inputs) :
    (ofFormula ruleId expression inputs).Told := by
  have hformula : "Formula" ∈ stopWords := by decide
  unfold ofFormula
  split
  next =>
    have hmissing : "Formula missing, quantity 0" =
        "Formula" ++ (" " ++ "missing, quantity 0") := by decide
    exact quantity?_of_stopWord hformula hmissing
  next =>
    dsimp only
    split
    next value mentioned _ => exact tells_formula expression value inputs mentioned
    next error _ =>
      have herror : "Formula error in '" ++ expression ++ "': " ++ error.message ++
          ", quantity 0" = "Formula" ++ (" " ++ ("error in '" ++ expression ++ "': " ++
            error.message ++ ", quantity 0")) := by
        have hstart : "Formula error in '" = "Formula" ++ (" " ++ "error in '") := by decide
        rw [hstart]
        simp only [String.append_assoc]
      exact quantity?_of_stopWord hformula herror

namespace Rule

variable {rule other : Rule} {job otherJob : Job}

theorem told_derive (rule : Rule) (job : Job) : (rule.derive job).Told := by
  unfold derive
  split
  next => exact tells_fixed rule.base
  next multiplier _ => exact tells_panels _ multiplier rule.base _
  next multiplier _ => exact tells_measure (isGap_of_any (by decide)) (by decide) _ multiplier rule.base _
  next multiplier _ =>
    split
    next capacity _ => exact tells_measure (isGap_of_any (by decide)) (by decide) _ multiplier rule.base _
    next =>
      have hnone : "No battery in system" = "No" ++ (" " ++ "battery in system") := by decide
      exact quantity?_of_stopWord (by decide) hnone
  next expression _ => exact Derivation.told_ofFormula rule.id expression job.inputs
  next tag _ =>
    have hunknown : "Unknown calculation type: " ++ tag =
        "Unknown" ++ (" " ++ ("calculation type: " ++ tag)) := by
      have hstart : "Unknown calculation type: " =
          "Unknown" ++ (" " ++ "calculation type: ") := by decide
      rw [hstart]
      simp only [String.append_assoc]
    exact quantity?_of_stopWord (by decide) hunknown

/-- What the details of a resolution tell is its quantity but for the sign of zero. -/
theorem exists_read_details (rule : Rule) (job : Job) :
    ∃ read, Details.quantity? (rule.resolve job).details = some read ∧
      read.position? = (rule.resolve job).quantity.position? := by
  have htold := told_derive rule job
  unfold resolve
  cases hderive : rule.derive job with
  | stopped details warning =>
      rw [hderive] at htold
      exact ⟨.zero, htold, rfl⟩
  | raw value details =>
      rw [hderive] at htold
      have hround := @Resolution.tells_round { quantity := value, details } htold rule.roundUp
      have hraise := Resolution.tells_raise hround rule.minimum
      exact (Resolution.tells_cut hraise rule.maximum).exists_read

/-- Resolutions with the same details have the same quantity. -/
theorem quantity_eq_of_details (h : (rule.resolve job).details = (other.resolve otherJob).details) :
    (rule.resolve job).quantity.eq (other.resolve otherJob).quantity = true ∨
      (rule.resolve job).quantity.isNaN = true ∧
        (other.resolve otherJob).quantity.isNaN = true := by
  obtain ⟨read, hread, hposition⟩ := exists_read_details rule job
  obtain ⟨otherRead, hotherRead, hotherPosition⟩ := exists_read_details other otherJob
  rw [h, hotherRead] at hread
  obtain rfl : otherRead = read := Option.some.inj hread
  exact Binary64.eq_or_isNaN (hposition.symm.trans hotherPosition)

/-- One piece too many is on hand, and nothing is to be ordered. -/
def surplusRule : Rule :=
  { crossedRule with
    base := .neg (.ofNat 1)
    minimum := .zero
    maximum := none }

/-- Both minima are written as the same zero. -/
theorem quantity_eq_surplusRule :
    (surplusRule.resolve bareJob).details =
        ({ surplusRule with minimum := .neg .zero }.resolve bareJob).details ∧
      ((surplusRule.resolve bareJob).quantity.eq
          ({ surplusRule with minimum := .neg .zero }.resolve bareJob).quantity = true ∨
        (surplusRule.resolve bareJob).quantity.isNaN = true ∧
          ({ surplusRule with minimum := .neg .zero }.resolve bareJob).quantity.isNaN = true) := by
  have hdetails : (surplusRule.resolve bareJob).details =
      ({ surplusRule with minimum := .neg .zero }.resolve bareJob).details := by decide +kernel
  exact ⟨hdetails, quantity_eq_of_details hdetails⟩

end Rule

end SolarTakeoff
