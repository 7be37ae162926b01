/-! # Failures of a command -/

namespace Wasm.CommandLine

/-- What could not be done, and why. -/
structure Failure where
  message : String
  cause : Option String
deriving DecidableEq, Inhabited

def indented (cause : String) : String :=
  String.intercalate "\n" ((cause.splitOn "\n").map ("    " ++ ·))

def Failure.render (failure : Failure) : String :=
  let why := match failure.cause with
    | some cause => "\n\nCaused by:\n" ++ indented cause
    | none => ""
  "Error: " ++ failure.message ++ why ++ "\n"

end Wasm.CommandLine
