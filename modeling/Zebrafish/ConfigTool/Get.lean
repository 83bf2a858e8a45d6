import Zebrafish.ConfigTool.Path

/-!
# Zebrafish.ConfigTool.Get

`zebrafish-config get <key>` (`get.rs`).
-/

namespace Zebrafish.ConfigTool

open Toml

/-- How the toml crate and Rust print what no field of a configuration holds:
dates, floats, arrays and tables. -/
structure Display where
  float : UInt64 → String
  value : Value → String

/-- `true` or `false`. -/
def boolText (b : Bool) : String := if b then "true" else "false"

/-- `Display for toml::Value`. -/
def Display.toml (D : Display) : Value → String
  | .integer i => toString i
  | .boolean b => boolText b
  | v => D.value v

structure GetArgs where
  key : String
  default : Option String
  bool : Bool

inductive GetError
  | invalidKeyPath (key : String)
  | unreadable
  | notBoolean (key value : String)

def GetError.message : GetError → String
  | .invalidKeyPath key => "invalid key path: " ++ key
  | .unreadable => "the file is not a configuration"
  | .notBoolean key value => "value at " ++ key ++ " is not a boolean: " ++ value

/-- What a command printed, and its exit code. -/
structure Output where
  text : String
  code : Nat
deriving DecidableEq

/-- What `get` prints of a value. -/
def printed (D : Display) : Value → String
  | .string s => s
  | .integer i => toString i
  | .float f => D.float f
  | .boolean b => boolText b
  | .datetime text => text
  | .array items => D.value (.array items)
  | .table entries => D.value (.table entries)

/-- Answer a parsed key from a configuration. -/
def getKey (D : Display) (cfg : Config) (key : KeyPath) (args : GetArgs) :
    Except GetError Output :=
  match key.lookup cfg with
  | none =>
      match args.default with
      | some d => .ok ⟨d, 0⟩
      | none => if args.bool then .ok ⟨"", 2⟩ else .ok ⟨"", 1⟩
  | some value =>
      if args.bool then
        match value with
        | .boolean b => .ok ⟨boolText b, 0⟩
        | value => .error (.notBoolean args.key (D.toml value))
      else .ok ⟨printed D value, 0⟩

/-- `zebrafish-config get`, on a file that holds `file`. -/
def get (D : Display) (file : Value) (args : GetArgs) : Except GetError Output :=
  match KeyPath.parse args.key with
  | none => .error (.invalidKeyPath args.key)
  | some key =>
      match Config.fromToml file with
      | none => .error .unreadable
      | some cfg => getKey D cfg key args

end Zebrafish.ConfigTool
