import SolarTakeoff.Config.Environment
import SolarTakeoff.Records.Config
import SolarTakeoff.SetupError
import SolarTakeoff.Toml.Document

/-!
# Loading a configuration

A configuration comes from its file, or is the default where there is no file;
settings of the environment take precedence over both, and the outcome is
validated.  A caller that cannot do without a configuration takes the default
one in place of an error.

What a text says is for a reader of TOML to tell, and any reader will do; where
none is named it is the one of this library.
-/

namespace SolarTakeoff

namespace Config

/-- The configuration in a text. -/
def ofText (text : String) (toml? : String → Option Datum := Datum.ofToml?) :
    Except SetupError Config :=
  match ofToml? text toml? with
  | some config => .ok config
  | none => .error .malformedConfig

/-- The configuration of a file. -/
def ofFile (file : StoredFile) (toml? : String → Option Datum) : Except SetupError Config :=
  match file.text with
  | .ok text => ofText text toml?
  | .error .absent => .ok {}
  | .error problem => .error (.unreadableConfig problem)

/-- A configuration that has passed validation. -/
def validated (config : Config) : Except SetupError Config :=
  match config.validate with
  | .ok () => .ok config
  | .error problem => .error (.invalidConfig problem)

def fileEvent : StoredFile → Event
  | .absent => .configAbsent
  | _ => .configRead

def load (file : StoredFile) (environment : Environment)
    (toml? : String → Option Datum := Datum.ofToml?) : Traced (Except SetupError Config) :=
  match ofFile file toml? with
  | .ok config => {
      value := (environment.override config).validated
      events := fileEvent file :: environment.events }
  | .error error => {
      value := .error error
      events := [fileEvent file] }

/-- Loads a configuration and puts the default one in place of an error. -/
def loadOrDefault (file : StoredFile) (environment : Environment)
    (toml? : String → Option Datum := Datum.ofToml?) : Traced Config :=
  let loaded := load file environment toml?
  match loaded.value with
  | .ok config => { value := config, events := loaded.events }
  | .error error => {
      value := {}
      events := loaded.events ++ [.configReplaced error.message] }

end Config

end SolarTakeoff
