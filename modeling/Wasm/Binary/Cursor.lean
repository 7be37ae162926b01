import Wasm.Fault

/-! # A cursor over the bytes of a binary

What a `Decode` step consumed before it failed stays consumed. -/

namespace Wasm

/-- A place in a range of bytes. -/
structure Cursor where
  bytes : ByteArray
  base : Nat
  pos : Nat
  stop : Nat
  pos_le : pos ≤ stop
  stop_le : stop ≤ bytes.size

namespace Cursor

def ofBytes (bytes : ByteArray) (base : Nat) : Cursor where
  bytes := bytes
  base := base
  pos := 0
  stop := bytes.size
  pos_le := Nat.zero_le _
  stop_le := Nat.le_refl _

def position (c : Cursor) : Nat := c.base + c.pos

def remaining (c : Cursor) : Nat := c.stop - c.pos

def isEmpty (c : Cursor) : Bool := c.pos == c.stop

def rest (c : Cursor) : ByteArray := c.bytes.extract c.pos c.stop

def endError (c : Cursor) : CompileError := ⟨.unexpectedEnd, c.base + c.stop⟩

theorem pos_add_le (c : Cursor) {n : Nat} (h : n ≤ c.remaining) : c.pos + n ≤ c.stop := by
  have := c.pos_le
  unfold remaining at h
  omega

def advance (c : Cursor) (n : Nat) (h : n ≤ c.remaining) : Cursor :=
  { c with pos := c.pos + n, pos_le := c.pos_add_le h }

def narrow (c : Cursor) (n : Nat) (h : n ≤ c.remaining) : Cursor :=
  { c with
    stop := c.pos + n
    pos_le := Nat.le_add_right _ _
    stop_le := Nat.le_trans (c.pos_add_le h) c.stop_le }

end Cursor

abbrev Decode := EStateM CompileError Cursor

namespace Decode

def fail {α : Type} (fault : Fault) (offset : Nat) : Decode α := throw ⟨fault, offset⟩

def charge {α : Type} (offset : Nat) : Except Fault α → Decode α
  | .ok a => pure a
  | .error fault => fail fault offset

def position : Decode Nat := return (← get).position

def isEmpty : Decode Bool := return (← get).isEmpty

def byte : Decode UInt8 := fun c =>
  if h : c.pos < c.stop then
    have : c.pos < c.bytes.size := Nat.lt_of_lt_of_le h c.stop_le
    .ok c.bytes[c.pos] { c with pos := c.pos + 1, pos_le := h }
  else
    .error c.endError c

def bytes (n : Nat) : Decode ByteArray := fun c =>
  if h : n ≤ c.remaining then
    .ok (c.bytes.extract c.pos (c.pos + n)) (c.advance n h)
  else
    .error c.endError c

def skip (n : Nat) : Decode Unit := fun c =>
  if h : n ≤ c.remaining then .ok () (c.advance n h) else .error c.endError c

def sub (n : Nat) : Decode Cursor := fun c =>
  if h : n ≤ c.remaining then .ok (c.narrow n h) (c.advance n h) else .error c.endError c

def within {α : Type} (range : Cursor) (step : Decode α) : Decode α := fun c =>
  match step range with
  | .ok a _ => .ok a c
  | .error e _ => .error e c

def fold {σ : Type} (step : σ → Decode σ) : Nat → σ → Decode σ
  | 0, s => pure s
  | n + 1, s => do fold step n (← step s)

def many {α : Type} (n : Nat) (step : Decode α) : Decode (List α) := do
  return (← fold (fun acc => return (← step) :: acc) n []).reverse

end Decode

end Wasm
