import SolarTakeoff.Config.Load
import SolarTakeoff.Proofs.Config.Document
import SolarTakeoff.Proofs.Config.Environment
import SolarTakeoff.Proofs.Sequences
import SolarTakeoff.Proofs.Validation.Accepted
import Mathlib.Tactic

/-!
# What loading a configuration gives

Each of the four settings is settled by itself: by its variable, else by the
file, else by default.  A file is absent and gives nothing, or is the text of a
document.  Loading succeeds exactly when the file is one of these and the
settled configuration is valid; everything else is an error of the
configuration, in place of which a caller may take the default one.  All this
holds for every reader of documents.
-/

namespace SolarTakeoff

/-! ## Valid configurations -/

structure Config.Valid (config : Config) : Prop where
  taxRate : config.taxRate.bps.toNat ≤ 10000
  categories : ∀ categories, config.categories = some categories →
    ∀ category ∈ categories, isBlankText category = false
  catalogPath : config.catalogPath ≠ some ""

theorem Config.validate_eq_ok_iff {config : Config} : config.validate = .ok () ↔ config.Valid := by
  have hcategories : ¬ (config.categories.getD []).any isBlankText = true ↔
      ∀ categories, config.categories = some categories →
        ∀ category ∈ categories, isBlankText category = false := by
    cases config.categories <;> simp
  have hvalid : config.Valid ↔ config.taxRate.validate = .ok () ∧
      ¬ (config.categories.getD []).any isBlankText = true ∧ ¬ config.catalogPath = some "" := by
    rw [TaxRate.validate_eq_ok_iff, hcategories]
    exact ⟨fun h => ⟨h.1, h.2, h.3⟩, fun ⟨hrate, hnames, hpath⟩ => ⟨hrate, hnames, hpath⟩⟩
  rw [hvalid]
  unfold validate
  cases config.taxRate.validate with
  | error error => simp [throw, throwThe, MonadExceptOf.throw, bind, Except.bind]
  | ok =>
      by_cases hnames : (config.categories.getD []).any isBlankText = true
      · simp [hnames, throw, throwThe, MonadExceptOf.throw, bind, Except.bind]
      · by_cases hpath : config.catalogPath = some ""
        · simp [hnames, hpath, throw, throwThe, MonadExceptOf.throw]
        · simp [hnames, hpath]

/-! ## Files and settings -/

/-- A file gives nothing by being absent, or what its document gives. -/
inductive StoredFile.Gives (toml? : String → Option Datum) : StoredFile → Given → Prop
  | absent : Gives toml? .absent {}
  | document {file : StoredFile} {text : String} {datum : Datum} {given : Given}
    (htext : file.text = .ok text) (hdatum : toml? text = some datum)
    (h : datum.Gives given) : Gives toml? file given

/-- The settings of a configuration are settled one by one. -/
structure Config.Layered (config : Config) (environment : Environment) (given : Given) : Prop where
  catalogPath : Settles environment.catalogPath IsPathText given.catalogPath none
    config.catalogPath
  includeOptional : Settles environment.includeOptional IsFlagText given.includeOptional false
    config.includeOptional
  categories : Settles environment.categories IsCategoryText given.categories none
    config.categories
  taxRate : Settles environment.taxRate IsRateText given.taxRate .standard config.taxRate

theorem StoredFile.eq_absent_of_text {file : StoredFile} (h : file.text = .error .absent) :
    file = .absent := by
  cases file with
  | absent => rfl
  | content bytes =>
      unfold text at h
      dsimp only at h
      split at h <;> cases h
  | _ => cases h

/-! ## Loading -/

namespace Config

variable {toml? : String → Option Datum} {file : StoredFile} {environment : Environment}
  {config : Config}

theorem ofFile_eq_ok_iff :
    ofFile file toml? = .ok config ↔ ∃ given, file.Gives toml? given ∧ given.config = config := by
  constructor
  · intro h
    unfold ofFile at h
    cases htext : file.text with
    | ok text =>
        rw [htext] at h
        dsimp only at h
        unfold ofText at h
        cases hconfig : ofToml? text toml? with
        | none =>
            rw [hconfig] at h
            cases h
        | some read =>
            rw [hconfig] at h
            obtain rfl := Except.ok.inj h
            obtain ⟨datum, hdatum, hread⟩ := Option.bind_eq_some_iff.mp hconfig
            obtain ⟨given, hgiven, rfl⟩ := ofRecords?_eq_some_iff.mp hread
            exact ⟨given, .document htext hdatum hgiven, rfl⟩
    | error problem =>
        rw [htext] at h
        cases problem with
        | absent =>
            obtain rfl := Except.ok.inj h
            obtain rfl := StoredFile.eq_absent_of_text htext
            exact ⟨{}, .absent, rfl⟩
        | _ => cases h
  · rintro ⟨given, hgives, rfl⟩
    cases hgives with
    | absent => rfl
    | document htext hdatum hgiven =>
        have hread := ofRecords?_eq_some_iff.mpr ⟨given, hgiven, rfl⟩
        have hconfig : ofToml? _ toml? = some given.config :=
          Option.bind_eq_some_iff.mpr ⟨_, hdatum, hread⟩
        rw [ofFile, htext]
        dsimp only
        rw [ofText, hconfig]

theorem layered_iff {given : Given} :
    config.Layered environment given ↔ environment.override given.config = config := by
  have hpath : Settles environment.catalogPath IsPathText given.catalogPath none
      config.catalogPath ↔
      environment.catalogPath.or (given.catalogPath.getD none) = config.catalogPath := by
    have hread : ∀ text path, some (some text) = some path ↔ IsPathText path text := by
      simp [IsPathText, eq_comm]
    rw [settles_iff hread]
    cases environment.catalogPath <;> rfl
  have hcategories : Settles environment.categories IsCategoryText given.categories none
      config.categories ↔
      (environment.categories.map categoryFilter).getD (given.categories.getD none) =
        config.categories := by
    have hread : ∀ text categories,
        some (categoryFilter text) = some categories ↔ IsCategoryText categories text := by
      simp [categoryFilter_eq_iff]
    rw [settles_iff hread]
    cases environment.categories <;> rfl
  have hconfig : environment.override given.config = config ↔
      environment.catalogPath.or (given.catalogPath.getD none) = config.catalogPath ∧
      (environment.includeOptional.bind flag?).getD (given.includeOptional.getD false) =
        config.includeOptional ∧
      (environment.categories.map categoryFilter).getD (given.categories.getD none) =
        config.categories ∧
      (environment.taxRate.bind TaxRate.ofText?).getD (given.taxRate.getD .standard) =
        config.taxRate := by
    cases config
    simp [Environment.override, Given.config]
  rw [hconfig, ← hpath, ← hcategories, ← settles_iff fun _ _ => flag?_eq_some_iff,
    ← settles_iff fun _ _ => TaxRate.ofText?_eq_some_iff]
  exact ⟨fun h => ⟨h.1, h.2, h.3, h.4⟩, fun ⟨h₁, h₂, h₃, h₄⟩ => ⟨h₁, h₂, h₃, h₄⟩⟩

theorem validated_eq_ok_iff {result : Config} :
    config.validated = .ok result ↔ config = result ∧ config.Valid := by
  rw [← validate_eq_ok_iff]
  unfold validated
  cases config.validate <;> simp

theorem load_eq_ok_iff :
    (load file environment toml?).value = .ok config ↔
      ∃ given, file.Gives toml? given ∧ config.Layered environment given ∧ config.Valid := by
  unfold load
  cases hfile : ofFile file toml? with
  | ok read =>
      obtain ⟨given, hgives, hgiven⟩ := ofFile_eq_ok_iff.mp hfile
      dsimp only
      rw [validated_eq_ok_iff]
      constructor
      · rintro ⟨hconfig, hvalid⟩
        exact ⟨given, hgives, layered_iff.mpr (hgiven ▸ hconfig), hconfig ▸ hvalid⟩
      · rintro ⟨other, hother, hlayered, hvalid⟩
        have hread : other.config = read := by
          have hok := hfile.symm.trans (ofFile_eq_ok_iff.mpr ⟨other, hother, rfl⟩)
          exact (Except.ok.inj hok).symm
        have hconfig := layered_iff.mp hlayered
        rw [hread] at hconfig
        exact ⟨hconfig, hconfig.symm ▸ hvalid⟩
  | error error =>
      constructor
      · intro h
        cases h
      · rintro ⟨given, hgives, -⟩
        rw [ofFile_eq_ok_iff.mpr ⟨given, hgives, rfl⟩] at hfile
        cases hfile

theorem isConfigError_of_validated {error : SetupError} (h : config.validated = .error error) :
    error.isConfigError = true := by
  unfold validated at h
  split at h
  · cases h
  · obtain rfl := Except.error.inj h
    rfl

theorem isConfigError_of_ofFile {error : SetupError} (h : ofFile file toml? = .error error) :
    error.isConfigError = true := by
  unfold ofFile ofText at h
  cases htext : file.text with
  | ok text =>
      rw [htext] at h
      dsimp only at h
      split at h
      · cases h
      · obtain rfl := Except.error.inj h
        rfl
  | error problem =>
      rw [htext] at h
      cases problem with
      | absent => cases h
      | _ =>
          obtain rfl := Except.error.inj h
          rfl

theorem isConfigError_of_load {error : SetupError}
    (h : (load file environment toml?).value = .error error) : error.isConfigError = true := by
  unfold load at h
  cases hfile : ofFile file toml? with
  | ok read =>
      rw [hfile] at h
      exact isConfigError_of_validated h
  | error problem =>
      rw [hfile] at h
      obtain rfl := Except.error.inj h
      exact isConfigError_of_ofFile hfile

theorem value_loadOrDefault_of_ok (h : (load file environment toml?).value = .ok config) :
    (loadOrDefault file environment toml?).value = config := by
  unfold loadOrDefault
  dsimp only
  rw [h]

theorem value_loadOrDefault_of_error {error : SetupError}
    (h : (load file environment toml?).value = .error error) :
    (loadOrDefault file environment toml?).value = {} := by
  unfold loadOrDefault
  dsimp only
  rw [h]

theorem validate_default : validate {} = .ok () :=
  rfl

/-- Whatever reads the documents, loading gives a configuration exactly where
the file is absent or good and the settled configuration is valid, and an error
of the configuration otherwise; with the default in place of an error, what is
loaded always passes validation. -/
theorem load_layered (toml? : String → Option Datum) (file : StoredFile)
    (environment : Environment) :
    (∀ config, (load file environment toml?).value = .ok config ↔
      ∃ given, file.Gives toml? given ∧ config.Layered environment given ∧ config.Valid) ∧
    ((∃ config, (load file environment toml?).value = .ok config ∧ config.validate = .ok () ∧
        (loadOrDefault file environment toml?).value = config) ∨
      ∃ error, (load file environment toml?).value = .error error ∧
        error.isConfigError = true ∧ (loadOrDefault file environment toml?).value = {}) ∧
    (loadOrDefault file environment toml?).value.validate = .ok () := by
  refine ⟨fun config => load_eq_ok_iff, ?_⟩
  cases hload : (load file environment toml?).value with
  | ok config =>
      obtain ⟨given, -, -, hvalid⟩ := load_eq_ok_iff.mp hload
      have hvalidate := validate_eq_ok_iff.mpr hvalid
      have hvalue := value_loadOrDefault_of_ok hload
      exact ⟨.inl ⟨config, rfl, hvalidate, hvalue⟩, hvalue ▸ hvalidate⟩
  | error error =>
      have hvalue := value_loadOrDefault_of_error hload
      refine ⟨.inr ⟨error, rfl, isConfigError_of_load hload, hvalue⟩, ?_⟩
      rw [hvalue]
      exact validate_default

/-- A rate that the file has too high is mended by the environment. -/
example :
    (loadOrDefault
      (.ofText "[calculation]\ninclude_optional = true\n[tax]\nrate_bps = 20000\n")
      { taxRate := some " +1500 ", includeOptional := some "maybe" }).value =
      { includeOptional := true, taxRate := ⟨1500⟩ } := by
  decide +kernel

end Config

end SolarTakeoff
