import Wasm.Text.Visible

/-! # Quoted text and hexadecimal numbers -/

namespace Wasm.Text

def hexDigits (n : Nat) : String := String.ofList (Nat.toDigits 16 n)

def padLeft (fill : Char) (width : Nat) (text : String) : String :=
  String.ofList (List.replicate (width - text.length) fill) ++ text

def hex (n : Nat) : String := "0x" ++ hexDigits n

def hexByte (byte : UInt8) : String := "0x" ++ padLeft '0' 2 (hexDigits byte.toNat)

def escapeChar (c : Char) : String :=
  if c = '"' then "\\\""
  else if c = '\\' then "\\\\"
  else if c = '\n' then "\\n"
  else if c = '\r' then "\\r"
  else if c = '\t' then "\\t"
  else if c.toNat = 0 then "\\0"
  else if isVisible c then c.toString
  else "\\u\x7b" ++ hexDigits c.toNat ++ "\x7d"

def quoted (text : String) : String :=
  "\"" ++ String.join (text.toList.map escapeChar) ++ "\""

end Wasm.Text
