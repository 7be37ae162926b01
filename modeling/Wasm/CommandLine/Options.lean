import Wasm.CommandLine.Run

/-! # Options of the command

Everything behind a double dash is an argument. -/

namespace Wasm.CommandLine

/-- A request and the file it is about. -/
structure Options where
  file : Option String
  request : Request
deriving Inhabited

namespace Options

def empty : Options := ⟨none, .standard⟩

def number (name text : String) : Except Failure Nat :=
  match Text.natBelow (Nat.pow 2 32) text.toList with
  | .ok n => .ok n
  | .error fault =>
    .error ⟨s!"invalid value '{text}' for '{name}'", some fault.message⟩

def set (o : Options) (name value : String) : Except Failure Options :=
  match name with
  | "--invoke" => .ok { o with request := { o.request with invoke := some value } }
  | "--max-call-depth" => do
    return { o with request := { o.request with maxCallDepth := ← number name value } }
  | "--max-pages" => do
    let maxPages ← number name value
    return { o with
      request := { o.request with compile := { o.request.compile with maxPages } } }
  | _ => .error ⟨s!"unexpected argument '{name}' found", none⟩

def flag? (o : Options) : String → Option Options
  | "--dump" => some { o with request := { o.request with dump := true } }
  | "--no-accessors" =>
    some { o with
      request := { o.request with compile := { o.request.compile with accessors := false } } }
  | "-q" | "--quiet" | "-v" | "--verbose" => some o
  | _ => none

def read : List String → Options → Except Failure Options
  | [], o => .ok o
  | word :: words, o =>
    match o.flag? word with
    | some o => read words o
    | none =>
      if word = "--" then
        match o.file, words with
        | some _, _ => .ok { o with request := { o.request with args := words } }
        | none, file :: args =>
          .ok { o with file := some file, request := { o.request with args } }
        | none, [] => .ok o
      else if word.startsWith "--" then
        match word.splitOn "=" with
        | name :: value :: rest => do
          read words (← o.set name (String.intercalate "=" (value :: rest)))
        | _ =>
          match words with
          | value :: words => do read words (← o.set word value)
          | [] => .error ⟨s!"a value is required for '{word}'", none⟩
      else
        match o.file with
        | none => read words { o with file := some word }
        | some _ => .ok { o with request := { o.request with args := word :: words } }

end Options

end Wasm.CommandLine
