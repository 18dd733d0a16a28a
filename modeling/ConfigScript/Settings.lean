import ConfigScript.Table
/-!
# Execution settings

What a script sees of the world around it: the platform, the environment and the variables that
are bound before it starts.
-/

namespace ConfigScript

inductive Platform where
  | windows
  | linux
  | macos
deriving Repr, DecidableEq, Inhabited

namespace Platform

def all : List Platform := [windows, linux, macos]

def name : Platform → String
  | windows => "windows"
  | linux => "linux"
  | macos => "macos"

/-- The character between the parts of a path. -/
def separator : Platform → Char
  | windows => '\\'
  | linux | macos => '/'

end Platform

structure Settings where
  platform : Platform := .linux
  environment : Table Text := []
  /-- Whether the process environment is seen behind `environment`. -/
  inheritEnvironment : Bool := false
  /-- Variables bound before a script starts, each by the text of its value. -/
  presets : Table Text := []
deriving Repr, Inhabited

/-- The value of an environment variable, given the environment of the process. -/
def Settings.lookupEnvironment (s : Settings) (process : Table Text) (key : Text) : Option Text :=
  match s.environment.lookup key with
  | some value => some value
  | none => if s.inheritEnvironment then process.lookup key else none

end ConfigScript
