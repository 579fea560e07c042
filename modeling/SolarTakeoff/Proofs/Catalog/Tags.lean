import SolarTakeoff.Proofs.Line.PartialRuns
import SolarTakeoff.Proofs.Quantity.Stops
import SolarTakeoff.Proofs.Validation.Accepted
import SolarTakeoff.Rule
import Mathlib.Tactic

/-!
# Which tags are read as which strategies

A tag is meant to be one of five words, in small letters or capitals and with
hyphens or underscores.  It is compared by its full capital form, and that form
is ASCII for some characters outside of ASCII too.  Of these only two have a
place in one of the five words: the dotless i has the capital I, and the
ligature of f and i has the capitals F and I.  So FIXED can be spelled in ways
that are not plain, and no other word can.

Tags that name no strategy are kept as they are; rules with one are refused and
never give a line.
-/

namespace SolarTakeoff

/-! ## Capital forms -/

def underscoreForHyphen (char : Char) : Char :=
  if char == '-' then '_' else char

/-- The capital of an ASCII letter, an underscore for a hyphen, and any other
character itself. -/
def plainForm (char : Char) : Char :=
  underscoreForHyphen char.toUpper

/-- What a tag is compared by. -/
def capitalForm (chars : List Char) : List Char :=
  (chars.flatMap asciiCapitals).map underscoreForHyphen

section Characters

variable {char : Char} {chars : List Char}

theorem toNat_lt_of_toUpper (h : char.toUpper.toNat < 128) : char.toNat < 128 := by
  unfold Char.toUpper at h
  split at h
  next hsmall =>
    have hz : char.toNat ≤ 'z'.toNat := hsmall.2
    exact hz.trans_lt (by decide)
  next => exact h

theorem toNat_lt_of_underscoreForHyphen (h : (underscoreForHyphen char).toNat < 128) :
    char.toNat < 128 := by
  unfold underscoreForHyphen at h
  split at h
  next hhyphen =>
    rw [beq_iff_eq.mp hhyphen]
    decide
  next => exact h

theorem toNat_lt_of_plainForm (h : (plainForm char).toNat < 128) : char.toNat < 128 :=
  toNat_lt_of_toUpper (toNat_lt_of_underscoreForHyphen h)

theorem asciiCapitals_of_ascii (h : char.toNat < 128) : asciiCapitals char = [char.toUpper] := by
  unfold asciiCapitals
  split
  case h_11 => rfl
  all_goals exact absurd h (by decide)

theorem asciiCapitals_cases (char : Char) :
    asciiCapitals char = [char.toUpper] ∨ char = 'ı' ∨ char = 'ﬁ' ∨
      'S' ∈ asciiCapitals char ∨ ['F', 'F'] <+: asciiCapitals char ∨
        ['F', 'L'] <+: asciiCapitals char := by
  unfold asciiCapitals
  split <;> simp

theorem capitalForm_cons :
    capitalForm (char :: chars) =
      (asciiCapitals char).map underscoreForHyphen ++ capitalForm chars := by
  simp [capitalForm]

end Characters

/-! ## Spellings -/

/-- The dotless i stands for I and the ligature for F and I; every other
character stands for its plain form. -/
inductive Spells : List Char → List Char → Prop where
  | nil : Spells [] []
  | plain {char letter : Char} {chars word : List Char} (hletter : plainForm char = letter)
    (h : Spells chars word) : Spells (char :: chars) (letter :: word)
  | dotless {chars word : List Char} (h : Spells chars word) :
    Spells ('ı' :: chars) ('I' :: word)
  | ligature {chars word : List Char} (h : Spells chars word) :
    Spells ('ﬁ' :: chars) ('F' :: 'I' :: word)

/-- ASCII without the other capitals, alone or in pairs, of characters outside
of ASCII. -/
structure IsPlainWord (word : List Char) : Prop where
  ascii : ∀ letter ∈ word, letter.toNat < 128
  s : 'S' ∉ word
  ff : ¬ ['F', 'F'] <:+: word
  fl : ¬ ['F', 'L'] <:+: word

section Spellings

variable {chars word part : List Char}

theorem IsPlainWord.of_infix (h : IsPlainWord word) (hpart : part <:+: word) :
    IsPlainWord part where
  ascii := fun letter hletter => h.ascii letter (hpart.subset hletter)
  s := fun hmem => h.s (hpart.subset hmem)
  ff := fun hpair => h.ff (hpair.trans hpart)
  fl := fun hpair => h.fl (hpair.trans hpart)

theorem spells_map_plainForm (chars : List Char) : Spells chars (chars.map plainForm) := by
  induction chars with
  | nil => exact .nil
  | cons char chars ih => exact .plain rfl ih

theorem Spells.map_plainForm (h : Spells chars word) (hdotless : 'I' ∉ word) :
    chars.map plainForm = word := by
  induction h with
  | nil => rfl
  | plain hletter _ ih =>
      rw [List.map_cons, hletter, ih fun hmem => hdotless (List.mem_cons_of_mem _ hmem)]
  | dotless => simp at hdotless
  | ligature => simp at hdotless

theorem Spells.capitalForm_eq (h : Spells chars word)
    (hascii : ∀ letter ∈ word, letter.toNat < 128) : capitalForm chars = word := by
  induction h with
  | nil => rfl
  | plain hletter _ ih =>
      obtain ⟨hchar, hword⟩ := List.forall_mem_cons.mp hascii
      rw [← hletter] at hchar
      rw [capitalForm_cons, asciiCapitals_of_ascii (toNat_lt_of_plainForm hchar), ih hword,
        ← hletter]
      rfl
  | dotless _ ih =>
      rw [capitalForm_cons, ih (List.forall_mem_cons.mp hascii).2]
      rfl
  | ligature _ ih =>
      rw [capitalForm_cons, ih (List.forall_mem_cons.mp (List.forall_mem_cons.mp hascii).2).2]
      rfl

theorem spells_capitalForm (h : IsPlainWord (capitalForm chars)) :
    Spells chars (capitalForm chars) := by
  induction chars with
  | nil => exact .nil
  | cons char chars ih =>
      rw [capitalForm_cons] at h ⊢
      have hspells := ih (h.of_infix (List.suffix_append _ _).isInfix)
      have hcapitals := h.of_infix (List.prefix_append _ _).isInfix
      rcases asciiCapitals_cases char with hplain | rfl | rfl | hs | hff | hfl
      · rw [hplain]
        exact .plain rfl hspells
      · exact .dotless hspells
      · exact .ligature hspells
      · exact (hcapitals.s (List.mem_map_of_mem hs)).elim
      · exact (hcapitals.ff (hff.map underscoreForHyphen).isInfix).elim
      · exact (hcapitals.fl (hfl.map underscoreForHyphen).isInfix).elim

theorem capitalForm_eq_iff_spells (h : IsPlainWord word) :
    capitalForm chars = word ↔ Spells chars word := by
  constructor
  · rintro rfl
    exact spells_capitalForm h
  · exact fun hspells => hspells.capitalForm_eq h.ascii

/-- FIXED with a dotless i for its I, or with the ligature for its F and I. -/
inductive IsForeignFixed : List Char → Prop where
  | dotless {first : Char} {others : List Char} (hfirst : plainForm first = 'F')
    (hothers : others.map plainForm = ['X', 'E', 'D']) : IsForeignFixed (first :: 'ı' :: others)
  | ligature {others : List Char} (hothers : others.map plainForm = ['X', 'E', 'D']) :
    IsForeignFixed ('ﬁ' :: others)

theorem spells_fixed_iff :
    Spells chars ['F', 'I', 'X', 'E', 'D'] ↔
      chars.map plainForm = ['F', 'I', 'X', 'E', 'D'] ∨ IsForeignFixed chars := by
  constructor
  · intro h
    cases h with
    | plain hfirst h =>
        cases h with
        | plain hsecond h =>
            have hothers := h.map_plainForm (by decide)
            exact .inl (by rw [List.map_cons, List.map_cons, hfirst, hsecond, hothers])
        | dotless h => exact .inr (.dotless hfirst (h.map_plainForm (by decide)))
    | ligature h => exact .inr (.ligature (h.map_plainForm (by decide)))
  · rintro (h | ⟨hfirst, hothers⟩ | ⟨hothers⟩)
    · exact h ▸ spells_map_plainForm chars
    · exact .plain hfirst (.dotless (hothers ▸ spells_map_plainForm _))
    · exact .ligature (hothers ▸ spells_map_plainForm _)

end Spellings

/-! ## What a tag names -/

namespace StrategyKind

variable {tag : String} {kind : StrategyKind}

/-- The tag is the word for the kind, blanks at its ends aside, in small letters
or capitals and with hyphens or underscores. -/
def NamedPlainly (tag : String) (kind : StrategyKind) : Prop :=
  (trimBlanks tag.toList).map plainForm = kind.tag.toList

/-- The tag names the kind plainly, or it is a foreign spelling of FIXED. -/
def Named (tag : String) (kind : StrategyKind) : Prop :=
  NamedPlainly tag kind ∨ kind = .fixed ∧ IsForeignFixed (trimBlanks tag.toList)

theorem isPlainWord_tag (kind : StrategyKind) : IsPlainWord kind.tag.toList where
  ascii := by cases kind <;> simp [StrategyKind.tag]
  s := by cases kind <;> decide
  ff := by cases kind <;> decide
  fl := by cases kind <;> decide

theorem NamedPlainly.ascii (h : NamedPlainly tag kind) :
    ∀ char ∈ trimBlanks tag.toList, char.toNat < 128 := by
  intro char hmem
  have hform : plainForm char ∈ kind.tag.toList := h ▸ List.mem_map_of_mem hmem
  exact toNat_lt_of_plainForm ((isPlainWord_tag kind).ascii _ hform)

theorem spells_tag_iff_named : Spells (trimBlanks tag.toList) kind.tag.toList ↔ Named tag kind := by
  unfold Named NamedPlainly
  cases kind with
  | fixed =>
      have hword : fixed.tag.toList = ['F', 'I', 'X', 'E', 'D'] := rfl
      simpa [hword] using spells_fixed_iff
  | perPanel | perKilowatt | perBattery | formula =>
      constructor
      · exact fun h => .inl (h.map_plainForm (by decide))
      · rintro (h | ⟨hkind, -⟩)
        · exact h ▸ spells_map_plainForm _
        · cases hkind

theorem ofTag?_eq_some_iff_named : ofTag? tag = some kind ↔ Named tag kind := by
  have hcanonical : canonicalTag tag = .ofList (capitalForm (trimBlanks tag.toList)) := rfl
  rw [← spells_tag_iff_named, ← capitalForm_eq_iff_spells (isPlainWord_tag kind)]
  constructor
  · intro h
    rw [ofTag?, hcanonical] at h
    have hfound := List.find?_some h
    rw [beq_iff_eq] at hfound
    rw [hfound, String.toList_ofList]
  · intro h
    rw [h, String.ofList_toList] at hcanonical
    rw [ofTag?, hcanonical]
    cases kind <;> decide

/-- The strategy of the kind with its own part of the payload. -/
def strategy (multiplier : Binary64) (formula : Option String) : StrategyKind → Strategy
  | .fixed => .fixed
  | .perPanel => .perPanel multiplier
  | .perKilowatt => .perKilowatt multiplier
  | .perBattery => .perBattery multiplier
  | .formula => .formula (formula.getD "")

end StrategyKind

/-! ## Rules of unknown strategies -/

namespace Rule

/-- The rule is refused, comes to no line for any job, and every run would give
the same lines without it. -/
structure Idle (rule : Rule) : Prop where
  refused : rule.validate ≠ .ok ()
  line : ∀ job, (rule.line? job).value = none
  run : ∀ job rules selection,
    (calculate job (rules.filter (· ≠ rule)) selection).value =
      (calculate job rules selection).value

theorem idle_of_unrecognized {rule : Rule} {tag : String}
    (h : rule.strategy = .unrecognized tag) : rule.Idle := by
  have hline : ∀ job, (rule.line? job).value = none := by
    intro job
    obtain ⟨details, warning, hstopped⟩ := derive_of_unrecognized job h
    exact (comesToNothing_of_stopped hstopped).line
  refine ⟨?_, hline, ?_⟩
  · intro hvalidate
    have hstrategy := (validate_eq_ok_iff.mp hvalidate).strategy
    rw [h] at hstrategy
    exact hstrategy
  · intro job rules selection
    apply calculate_of_filter
    intro other _ hother hcontributes
    obtain rfl : other = rule := by simpa using hother
    obtain ⟨line, hsome⟩ := (contributes_iff.mp hcontributes).2
    rw [hline job] at hsome
    cases hsome

end Rule

namespace Strategy

variable {tag : String} {kind : StrategyKind} (multiplier : Binary64) (formula : Option String)

theorem ofTag_of_named (h : StrategyKind.Named tag kind) :
    ofTag tag multiplier formula = kind.strategy multiplier formula := by
  rw [ofTag, StrategyKind.ofTag?_eq_some_iff_named.mpr h]
  cases kind <;> rfl

theorem ofTag_of_not_named (h : ∀ kind, ¬ StrategyKind.Named tag kind) :
    ofTag tag multiplier formula = .unrecognized tag := by
  have hnone : StrategyKind.ofTag? tag = none := by
    rw [Option.eq_none_iff_forall_ne_some]
    exact fun kind hkind => h kind (StrategyKind.ofTag?_eq_some_iff_named.mp hkind)
  rw [ofTag, hnone]

/-- The tag is read as the kind that it names in this sense.  Where it names none
it is kept as it is, and every rule with it is idle. -/
structure ReadAs (tag : String) (Names : StrategyKind → Prop) : Prop where
  known : ∀ kind, Names kind → ∀ multiplier formula,
    ofTag tag multiplier formula = kind.strategy multiplier formula
  unknown : (∀ kind, ¬ Names kind) → ∀ multiplier formula,
    ofTag tag multiplier formula = .unrecognized tag
  idle : (∀ kind, ¬ Names kind) → ∀ multiplier formula, ∀ rule : Rule,
    rule.strategy = ofTag tag multiplier formula → rule.Idle

/-- A tag is read as the kind whose word it is, or as fixed if it is a foreign
spelling of FIXED, and kept as unknown otherwise.  Tags with a character outside
of ASCII are known in the foreign spellings of FIXED only. -/
theorem ofTag_readAs_named (tag : String) :
    ReadAs tag (StrategyKind.Named tag) ∧
      ∀ kind, StrategyKind.Named tag kind →
        (∃ char ∈ trimBlanks tag.toList, 128 ≤ char.toNat) →
          kind = .fixed ∧ IsForeignFixed (trimBlanks tag.toList) := by
  refine ⟨⟨?_, ?_, ?_⟩, ?_⟩
  · exact fun kind h multiplier formula => ofTag_of_named multiplier formula h
  · exact fun h multiplier formula => ofTag_of_not_named multiplier formula h
  · intro h multiplier formula rule hstrategy
    rw [ofTag_of_not_named multiplier formula h] at hstrategy
    exact Rule.idle_of_unrecognized hstrategy
  · rintro kind (hplain | hforeign) ⟨char, hmem, hchar⟩
    · exact absurd (hplain.ascii char hmem) (Nat.not_lt.mpr hchar)
    · exact hforeign

example (multiplier : Binary64) :
    ofTag " per-kw" multiplier none = .perKilowatt multiplier := by rfl

/-- With the ligature a tag is read as fixed that is not plainly the word. -/
theorem not_readAs_namedPlainly_ligature :
    ¬ ReadAs "ﬁxed" (StrategyKind.NamedPlainly "ﬁxed") := by
  intro h
  have hnone : ∀ kind, ¬ StrategyKind.NamedPlainly "ﬁxed" kind := by
    intro kind
    unfold StrategyKind.NamedPlainly
    cases kind <;> decide
  have hunknown := h.unknown hnone .zero none
  have hfixed : ofTag "ﬁxed" .zero none = .fixed := by decide
  rw [hfixed] at hunknown
  cases hunknown

end Strategy

end SolarTakeoff
