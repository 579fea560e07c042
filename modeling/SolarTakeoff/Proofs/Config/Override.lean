import SolarTakeoff.Proofs.Config.Load
import SolarTakeoff.Proofs.Text.Runs
import Mathlib.Tactic

/-!
# One variable, one setting

Overriding a configuration settles each of the four settings by its own variable
and by what it was before, so the settings do not see each other and overriding
once more changes nothing.

A list of categories is read part by part, a part being what stands between two
commas.  A blank part names nothing and any other one names what it holds between
its blanks, so a name that comes from the environment is never one that validation
refuses.
-/

namespace SolarTakeoff

/-! ## Names in a list with commas -/

/-- Something without a comma that neither starts nor ends with a blank. -/
structure IsCategoryName (name : String) : Prop where
  filled : isBlankText name = false
  first : ∀ char ∈ name.toList.head?, isBlank char = false
  last : ∀ char ∈ name.toList.getLast?, isBlank char = false
  noComma : ',' ∉ name.toList

/-- The parts of a list, from left to right, and the names in them. -/
inductive PartsName : List (List Char) → List String → Prop
  | nil : PartsName [] []
  | blank {part : List Char} {parts : List (List Char)} {names : List String}
    (hpart : part.all isBlank = true) (h : PartsName parts names) :
    PartsName (part :: parts) names
  | name {before after : List Char} {name : String} {parts : List (List Char)}
    {names : List String} (hbefore : before.all isBlank = true) (hafter : after.all isBlank = true)
    (hname : IsCategoryName name) (h : PartsName parts names) :
    PartsName ((before ++ name.toList ++ after) :: parts) (name :: names)

/-- A text lists the names that its parts between commas name. -/
def ListsNames (text : String) (names : List String) : Prop :=
  ∃ parts : List (List Char), [','].intercalate parts = text.toList ∧
    (∀ part ∈ parts, ',' ∉ part) ∧ PartsName parts names

theorem not_mem_of_mem_splitOn {chars part : List Char} {separator : Char}
    (h : part ∈ chars.splitOn separator) : separator ∉ part := by
  induction chars generalizing part with
  | nil =>
      obtain rfl : part = [] := by simpa using h
      exact List.not_mem_nil
  | cons char chars ih =>
      obtain ⟨first, rest, hsplit⟩ :=
        List.exists_cons_of_ne_nil (List.splitOnP_ne_nil (· == separator) chars)
      change chars.splitOn separator = first :: rest at hsplit
      rw [List.splitOn_cons_eq_if_modifyHead] at h
      split at h
      next =>
        rcases List.mem_cons.mp h with rfl | h
        · exact List.not_mem_nil
        · exact ih h
      next hchar =>
        rw [hsplit, List.modifyHead_cons] at h
        rcases List.mem_cons.mp h with rfl | h
        · rw [List.mem_cons, not_or]
          refine ⟨?_, ih (hsplit ▸ List.mem_cons_self)⟩
          rintro rfl
          exact hchar (beq_self_eq_true _)
        · exact ih (hsplit ▸ List.mem_cons_of_mem _ h)

theorem isCategoryName_trimBlanks {part : List Char} (hpart : ',' ∉ part)
    (h : trimBlanks part ≠ []) : IsCategoryName (String.ofList (trimBlanks part)) := by
  have hfirst := isBlank_head_trimBlanks h
  have hlast := isBlank_getLast_trimBlanks h
  refine ⟨?_, ?_, ?_, ?_⟩
  · rw [isBlankText, String.toList_ofList, List.all_eq_false]
    exact ⟨_, List.head_mem h, by simp [hfirst]⟩
  · rw [String.toList_ofList, List.head?_eq_some_head h]
    intro char hchar
    obtain rfl := Option.mem_some.mp hchar
    exact hfirst
  · rw [String.toList_ofList, List.getLast?_eq_some_getLast h]
    intro char hchar
    obtain rfl := Option.mem_some.mp hchar
    exact hlast
  · obtain ⟨before, after, -, -, hsplit⟩ := exists_blanks_around part
    rw [String.toList_ofList]
    intro hcomma
    rw [hsplit] at hpart
    exact hpart (List.mem_append_left _ (List.mem_append_right _ hcomma))

theorem partsName_trimBlanks {parts : List (List Char)} (h : ∀ part ∈ parts, ',' ∉ part) :
    PartsName parts (((parts.map trimBlanks).filter (!·.isEmpty)).map String.ofList) := by
  induction parts with
  | nil => exact .nil
  | cons part parts ih =>
      obtain ⟨hpart, hparts⟩ := List.forall_mem_cons.mp h
      obtain ⟨before, after, hbefore, hafter, hsplit⟩ := exists_blanks_around part
      by_cases htrim : trimBlanks part = []
      · have hblank : part.all isBlank = true := by
          rw [hsplit, htrim, List.append_nil, List.all_append, hbefore, hafter]
          rfl
        simpa [htrim] using PartsName.blank hblank (ih hparts)
      · have hname := isCategoryName_trimBlanks hpart htrim
        have hnames := PartsName.name hbefore hafter hname (ih hparts)
        rw [String.toList_ofList, ← hsplit] at hnames
        simpa [htrim] using hnames

theorem listsNames_categoryNames (text : String) : ListsNames text (categoryNames text) := by
  have hcomma : ∀ part ∈ text.toList.splitOn ',', ',' ∉ part := fun _ => not_mem_of_mem_splitOn
  exact ⟨_, List.intercalate_splitOn ',', hcomma, partsName_trimBlanks hcomma⟩

theorem PartsName.isCategoryName {parts : List (List Char)} {names : List String}
    (h : PartsName parts names) : ∀ name ∈ names, IsCategoryName name := by
  induction h with
  | nil => simp
  | blank _ _ ih => exact ih
  | name _ _ hname _ ih => exact List.forall_mem_cons.mpr ⟨hname, ih⟩

theorem ListsNames.isCategoryName {text : String} {names : List String}
    (h : ListsNames text names) : ∀ name ∈ names, IsCategoryName name := by
  obtain ⟨parts, -, -, hnames⟩ := h
  exact hnames.isCategoryName

/-! ## Settings one by one -/

/-- Each setting is settled by its own variable and by what it was before. -/
structure Config.Overridden (config : Config) (value? : String → Option String)
    (before : Config) : Prop where
  catalogPath : Settles (value? "HELIOS_CATALOG_PATH") IsPathText (some before.catalogPath) none
    config.catalogPath
  includeOptional : Settles (value? "HELIOS_INCLUDE_OPTIONAL") IsFlagText
    (some before.includeOptional) false config.includeOptional
  categories : Settles (value? "HELIOS_CATEGORIES") IsCategoryText (some before.categories) none
    config.categories
  taxRate : Settles (value? "HELIOS_TAX_RATE_BPS") IsRateText (some before.taxRate) .standard
    config.taxRate

inductive Setting where
  | catalogPath
  | includeOptional
  | categories
  | taxRate

namespace Setting

def variableName : Setting → String
  | .catalogPath => "HELIOS_CATALOG_PATH"
  | .includeOptional => "HELIOS_INCLUDE_OPTIONAL"
  | .categories => "HELIOS_CATEGORIES"
  | .taxRate => "HELIOS_TAX_RATE_BPS"

/-- Two configurations have this setting in common. -/
def Same (config other : Config) : Setting → Prop
  | .catalogPath => config.catalogPath = other.catalogPath
  | .includeOptional => config.includeOptional = other.includeOptional
  | .categories => config.categories = other.categories
  | .taxRate => config.taxRate = other.taxRate

end Setting

namespace Environment

variable (value? : String → Option String) (config : Config)

theorem overridden_override : ((ofVariables value?).override config).Overridden value? config := by
  have hlayered := (@Config.layered_iff (ofVariables value?) _
    ⟨some config.catalogPath, some config.includeOptional, some config.categories,
      some config.taxRate⟩).mpr rfl
  exact ⟨hlayered.catalogPath, hlayered.includeOptional, hlayered.categories, hlayered.taxRate⟩

theorem same_override {other? : String → Option String} {other : Config} (setting : Setting)
    (hvariable : value? setting.variableName = other? setting.variableName)
    (hbefore : setting.Same config other) :
    setting.Same ((ofVariables value?).override config) ((ofVariables other?).override other) := by
  cases setting <;>
    simp_all [Setting.variableName, Setting.Same, ofVariables, override]

theorem override_override (environment : Environment) (config : Config) :
    environment.override (environment.override config) = environment.override config := by
  unfold override
  congr 1
  · cases environment.catalogPath <;> rfl
  · cases environment.includeOptional.bind flag? <;> rfl
  · cases environment.categories <;> rfl
  · cases environment.taxRate.bind TaxRate.ofText? <;> rfl

theorem categories_override {environment : Environment} {text : String}
    (htext : environment.categories = some text) :
    (environment.override config).categories =
      if categoryNames text = [] then none else some (categoryNames text) := by
  simp only [override, htext, Option.map_some, Option.getD_some]
  exact categoryFilter_eq_iff.mp rfl

theorem isCategoryName_of_categories_override {environment : Environment} {text : String}
    (htext : environment.categories = some text) {names : List String}
    (hnames : (environment.override config).categories = some names) :
    names ≠ [] ∧ ∀ name ∈ names, IsCategoryName name := by
  rw [categories_override config htext] at hnames
  split at hnames
  · cases hnames
  next hne =>
    obtain rfl := Option.some.inj hnames
    exact ⟨hne, (listsNames_categoryNames text).isCategoryName⟩

end Environment

theorem Config.validate_ne_blankCategory {config : Config}
    (h : ∀ names, config.categories = some names → ∀ name ∈ names, isBlankText name = false) :
    config.validate ≠ .error .blankCategory := by
  have hany : (config.categories.getD []).any isBlankText = false := by
    cases hcategories : config.categories with
    | none => rfl
    | some names => simpa using h names hcategories
  unfold validate
  rw [hany]
  cases config.taxRate.validate with
  | error error => simp [throw, throwThe, MonadExceptOf.throw, bind, Except.bind]
  | ok =>
      by_cases hpath : config.catalogPath = some "" <;>
        simp [hpath, throw, throwThe, MonadExceptOf.throw]

open Environment in
/-- The environment settles the settings one by one and once for all, and names in it
are always fit to be categories. -/
theorem override_by_setting (value? : String → Option String) (config : Config) :
    ((ofVariables value?).override config).Overridden value? config ∧
      (∀ (other? : String → Option String) (other : Config) (setting : Setting),
        value? setting.variableName = other? setting.variableName → setting.Same config other →
          setting.Same ((ofVariables value?).override config)
            ((ofVariables other?).override other)) ∧
      (ofVariables value?).override ((ofVariables value?).override config) =
        (ofVariables value?).override config ∧
      ∀ text, value? "HELIOS_CATEGORIES" = some text →
        (∃ names, ListsNames text names ∧ ((ofVariables value?).override config).categories =
          if names = [] then none else some names) ∧
        (∀ names, ((ofVariables value?).override config).categories = some names →
          names ≠ [] ∧ ∀ name ∈ names, IsCategoryName name) ∧
        ((ofVariables value?).override config).validate ≠ .error .blankCategory := by
  refine ⟨overridden_override value? config, ?_, override_override _ _, ?_⟩
  · intro other? other setting
    exact same_override value? config setting
  · intro text htext
    have hnames : ∀ names, ((ofVariables value?).override config).categories = some names →
        names ≠ [] ∧ ∀ name ∈ names, IsCategoryName name := by
      intro names
      exact isCategoryName_of_categories_override config htext
    refine ⟨⟨_, listsNames_categoryNames text, categories_override config htext⟩, hnames, ?_⟩
    apply Config.validate_ne_blankCategory
    intro names hsome name hname
    exact ((hnames names hsome).2 name hname).filled

/-- Variables of which only the one for categories is set. -/
def spacedVariables (name : String) : Option String :=
  if name = "HELIOS_CATEGORIES" then some " MOUNTING, ,ELECTRICAL " else none

theorem override_by_setting_spaced :
    (spacedVariables Setting.taxRate.variableName = none ∧
        ((Environment.ofVariables spacedVariables).override {}).taxRate = .standard) ∧
      spacedVariables "HELIOS_CATEGORIES" = some " MOUNTING, ,ELECTRICAL " ∧
      ((Environment.ofVariables spacedVariables).override {}).categories =
        some ["MOUNTING", "ELECTRICAL"] ∧
      (∀ name ∈ ["MOUNTING", "ELECTRICAL"], IsCategoryName name) ∧
      ((Environment.ofVariables spacedVariables).override {}).validate ≠ .error .blankCategory := by
  have hcategories : ((Environment.ofVariables spacedVariables).override {}).categories =
      some ["MOUNTING", "ELECTRICAL"] := by decide +kernel
  obtain ⟨-, hframe, -, hlist⟩ := override_by_setting spacedVariables {}
  obtain ⟨-, hnames, hvalid⟩ := hlist _ rfl
  exact ⟨⟨rfl, hframe (fun _ => none) {} .taxRate rfl rfl⟩, rfl, hcategories,
    (hnames _ hcategories).2, hvalid⟩

end SolarTakeoff
