import SolarTakeoff.Config.Basic
import SolarTakeoff.Event

/-!
# Settings from the environment

Each of the four settings of a configuration has a variable of its own, which
takes precedence when it is set and can be read.  A flag or a rate that cannot
be read is reported and changes nothing.  A list without any name lifts the
restriction to categories.
-/

namespace SolarTakeoff

/-- The texts of the variables that are set. -/
structure Environment where
  catalogPath : Option String := none
  includeOptional : Option String := none
  categories : Option String := none
  taxRate : Option String := none

/-- The environment of all variables, by their names. -/
def Environment.ofVariables (value? : String → Option String) : Environment where
  catalogPath := value? "HELIOS_CATALOG_PATH"
  includeOptional := value? "HELIOS_INCLUDE_OPTIONAL"
  categories := value? "HELIOS_CATEGORIES"
  taxRate := value? "HELIOS_TAX_RATE_BPS"

/-- Reads a flag, in any case of letters. -/
def flag? (text : String) : Option Bool :=
  match String.ofList ((trimBlanks text.toList).map Char.toLower) with
  | "1" | "true" | "yes" => some true
  | "0" | "false" | "no" => some false
  | _ => none

/-- The names of a list with commas; blank ones do not count. -/
def categoryNames (text : String) : List String :=
  (((text.toList.splitOn ',').map trimBlanks).filter (!·.isEmpty)).map String.ofList

/-- The categories of a list with commas, unless it names none. -/
def categoryFilter (text : String) : Option (List String) :=
  match categoryNames text with
  | [] => none
  | names => some names

/-- Reads a rate in basis points: digits, with a plus sign allowed. -/
def TaxRate.ofText? (text : String) : Option TaxRate :=
  let digits :=
    match trimBlanks text.toList with
    | '+' :: digits => digits
    | digits => digits
  if digits.all Char.isDigit && !digits.isEmpty && digitsValue digits ≤ 4294967295 then
    some ⟨.ofNat (digitsValue digits)⟩
  else
    none

namespace Environment

def catalogPathEvents (environment : Environment) : List Event :=
  match environment.catalogPath with
  | some _ => [.catalogPathOverridden]
  | none => []

def includeOptionalEvents (environment : Environment) : List Event :=
  match environment.includeOptional with
  | some text => if (flag? text).isNone then [.includeOptionalUnknown text] else []
  | none => []

def taxRateEvents (environment : Environment) : List Event :=
  match environment.taxRate with
  | some text =>
    match TaxRate.ofText? text with
    | some rate => [.taxRateOverridden rate]
    | none => [.taxRateInvalid text]
  | none => []

/-- The configuration with the settings of the environment in place of its
own. -/
def override (environment : Environment) (config : Config) : Config where
  catalogPath := environment.catalogPath.or config.catalogPath
  includeOptional := (environment.includeOptional.bind flag?).getD config.includeOptional
  categories := (environment.categories.map categoryFilter).getD config.categories
  taxRate := (environment.taxRate.bind TaxRate.ofText?).getD config.taxRate

/-- What overriding reports. -/
def events (environment : Environment) : List Event :=
  environment.catalogPathEvents ++ environment.includeOptionalEvents ++
    environment.taxRateEvents

end Environment

end SolarTakeoff
