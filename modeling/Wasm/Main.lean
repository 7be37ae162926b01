import Wasm.CommandLine.Options

/-! # The program -/

open Wasm.CommandLine

def stepLimit : Nat := Nat.pow 2 62

def runFile (file : String) (request : Request) : IO UInt32 := do
  let binary ← IO.FS.readBinFile file
  let report := run stepLimit request binary
  IO.print report.stdout
  IO.eprint report.stderr
  return UInt32.ofNat report.exit

def main (words : List String) : IO UInt32 := do
  match Options.read words .empty with
  | .error failure =>
    IO.eprint failure.render
    return 2
  | .ok options =>
    match options.file with
    | none =>
      IO.eprintln "usage: wasm [OPTIONS] <FILE> [ARGS]..."
      return 2
    | some file =>
      try runFile file options.request
      catch e =>
        IO.eprint (Failure.render ⟨s!"failed to read {file}", some (toString e)⟩)
        return 1
