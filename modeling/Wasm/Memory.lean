import Wasm.Trap
import Wasm.Numeric.LittleEndian

/-! # Linear memory

An access that fails leaves the memory as it was. -/

namespace Wasm

def pageSize : Nat := 65536

def maxPages : Nat := 65536

/-- A page: exactly `pageSize` bytes. -/
structure Page where
  bytes : ByteArray
  size_eq : bytes.size = pageSize

namespace Page

instance : DecidableEq Page := fun p q =>
  match ByteArray.instDecidableEq p.bytes q.bytes with
  | isTrue h => isTrue (by cases p; cases q; cases h; rfl)
  | isFalse h => isFalse fun e => h (congrArg bytes e)

def zero : Page where
  bytes := ⟨Array.replicate pageSize 0⟩
  size_eq := by simp [ByteArray.size]

instance : Inhabited Page := ⟨zero⟩

def get (p : Page) (i : Nat) (h : i < pageSize) : UInt8 :=
  have : i < p.bytes.size := p.size_eq ▸ h
  p.bytes[i]

def set (p : Page) (i : Nat) (b : UInt8) (h : i < pageSize) : Page where
  bytes := p.bytes.set i b (p.size_eq ▸ h)
  size_eq := Array.size_set _ |>.trans p.size_eq

end Page

/-- A linear memory. -/
structure Memory where
  pages : Array Page
  maximum : Option Nat
  pageCap : Nat
deriving DecidableEq, Inhabited

abbrev MemoryM := EStateM Trap Memory

namespace Memory

def initialLimit (maximum : Option Nat) : Nat := min (maximum.getD maxPages) maxPages

def create (initial : Nat) (maximum : Option Nat) : Except ConstructionError Memory :=
  if initial ≤ initialLimit maximum then
    .ok ⟨Array.replicate initial Page.zero, maximum, maxPages⟩
  else
    .error (.memoryInitialExceedsMax initial (initialLimit maximum))

def withPageCap (m : Memory) (cap : Nat) : Memory := { m with pageCap := min cap maxPages }

/-- The number of pages. -/
def pageCount (m : Memory) : Nat := m.pages.size

/-- The number of bytes. -/
def byteLength (m : Memory) : Nat := m.pageCount * pageSize

def growthLimit (m : Memory) : Nat := min (m.maximum.getD maxPages) m.pageCap

def inBounds (m : Memory) (addr len : Nat) : Bool := decide (addr + len ≤ m.byteLength)

theorem mod_pageSize_lt (addr : Nat) : addr % pageSize < pageSize := Nat.mod_lt _ (by decide)

def byteAt (m : Memory) (addr : Nat) : UInt8 :=
  match m.pages[addr / pageSize]? with
  | some page => page.get (addr % pageSize) (mod_pageSize_lt addr)
  | none => 0

def setByte (m : Memory) (addr : Nat) (b : UInt8) : Memory :=
  { m with
    pages := m.pages.modify (addr / pageSize)
      fun page => page.set (addr % pageSize) b (mod_pageSize_lt addr) }

def slice (m : Memory) (addr len : Nat) : List UInt8 := (List.range' addr len).map m.byteAt

def overwrite (m : Memory) (addr : Nat) : List UInt8 → Memory
  | [] => m
  | b :: bs => (m.setByte addr b).overwrite (addr + 1) bs

/-! ## Accesses -/

def read (m : Memory) (addr len : Nat) : Except Trap (List UInt8) :=
  if m.inBounds addr len then .ok (m.slice addr len) else .error .outOfBounds

def load (m : Memory) (addr len : Nat) : Except Trap Nat :=
  if m.inBounds addr len then .ok (LittleEndian.toNat (m.slice addr len)) else .error .outOfBounds

@[inline]
def guarded (addr len : Nat) (change : Memory → Memory) : MemoryM Unit := fun m =>
  if m.inBounds addr len then .ok () (change m) else .error .outOfBounds m

def write (addr : Nat) (bytes : List UInt8) : MemoryM Unit :=
  guarded addr bytes.length (·.overwrite addr bytes)

def store (addr len value : Nat) : MemoryM Unit :=
  guarded addr len (·.overwrite addr (LittleEndian.ofNat len value))

def fill (dst : Nat) (b : UInt8) (len : Nat) : MemoryM Unit :=
  guarded dst len (·.overwrite dst (List.replicate len b))

def copy (dst src len : Nat) : MemoryM Unit := fun m =>
  if m.inBounds src len then
    guarded dst len (fun m => m.overwrite dst (m.slice src len)) m
  else
    .error .outOfBounds m

def copyFrom (source : Memory) (dst src len : Nat) : MemoryM Unit := fun m =>
  if source.inBounds src len then
    guarded dst len (fun m => m.overwrite dst (source.slice src len)) m
  else
    .error .outOfBounds m

def init (dst : Nat) (data : ByteArray) (src len : Nat) : MemoryM Unit := fun m =>
  if src + len ≤ data.size then
    guarded dst len (fun m => m.overwrite dst (data.extract src (src + len)).toList) m
  else
    .error .outOfBounds m

def grow (delta : Nat) : MemoryM Int := fun m =>
  let old := m.pageCount
  if old + delta ≤ m.growthLimit then
    .ok old { m with pages := m.pages ++ Array.replicate delta Page.zero }
  else
    .ok (-1) m

/-! ## Inspection -/

def peek (m : Memory) (addr len : Nat) : List UInt8 :=
  let start := min addr m.byteLength
  m.slice start (min len (m.byteLength - start))

def poke (addr : Nat) (b : UInt8) : MemoryM Bool := fun m =>
  if m.inBounds addr 1 then .ok true (m.setByte addr b) else .ok false m

def nonzeroRuns (m : Memory) : List (Nat × List UInt8) :=
  (List.range m.byteLength).foldr (fun addr runs =>
      let b := m.byteAt addr
      if b = 0 then runs
      else
        match runs with
        | (start, bytes) :: rest =>
          if start = addr + 1 then (addr, b :: bytes) :: rest else (addr, [b]) :: runs
        | [] => [(addr, [b])])
    []

end Memory

end Wasm
