import SolarTakeoff.Config.Basic
import SolarTakeoff.StoredFile

/-!
# What can go wrong before a run

Problems of the configuration, and problems of the catalog it names.
-/

namespace SolarTakeoff

inductive SetupError where
  | invalidConfig (problem : ConfigProblem)
  | unreadableConfig (problem : FileProblem)
  | malformedConfig
  | missingCatalog
  | unreadableCatalog (problem : FileProblem)
  | malformedCatalog
deriving DecidableEq

namespace SetupError

def message : SetupError → String
  | .invalidConfig problem => "Invalid engine configuration: " ++ problem.message
  | .unreadableConfig problem => "Failed to load config: " ++ problem.message
  | .malformedConfig => "Failed to load config: the document is malformed"
  | .missingCatalog =>
    "No catalog snapshot configured. Set [catalog] path or HELIOS_CATALOG_PATH."
  | .unreadableCatalog problem => "Failed to read catalog snapshot: " ++ problem.message
  | .malformedCatalog => "Catalog unavailable: the document is malformed"

/-- The configuration is to be mended, not the catalog. -/
def isConfigError : SetupError → Bool
  | .invalidConfig _ | .unreadableConfig _ | .malformedConfig | .missingCatalog => true
  | .unreadableCatalog _ | .malformedCatalog => false

end SetupError

end SolarTakeoff
