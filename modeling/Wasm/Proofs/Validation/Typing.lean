import Wasm.Proofs.Code
import Wasm.Proofs.Validation.Innermost

/-! # Typing rules for function bodies

The declarative counterpart of the checks, in which `Operand.unknown` is any operand. -/

namespace Wasm

/-! ## Index spaces -/

namespace IndexSpaces

theorem lookup_eq_ok {α : Type} {items : Array α} {index : Nat} {fault : Nat → Fault}
    {item : α} : lookup items index fault = .ok item ↔ items[index]? = some item := by
  unfold lookup
  cases items[index]? with
  | none =>
    constructor
    · intro h; cases h
    · intro h; cases h
  | some found => rw [Except.ok.injEq, Option.some.injEq]

theorem funcType_eq_ok {spaces : IndexSpaces} {func : Nat} {type : FuncType} :
    spaces.funcType func = .ok type ↔
      ∃ index, spaces.funcs[func]? = some index ∧ spaces.types[index]? = some type := by
  unfold funcType
  rw [except_bind_eq_ok]
  constructor
  · rintro ⟨index, hindex, htype⟩
    exact ⟨index, lookup_eq_ok.mp hindex, lookup_eq_ok.mp htype⟩
  · rintro ⟨index, hindex, htype⟩
    exact ⟨index, lookup_eq_ok.mpr hindex, lookup_eq_ok.mpr htype⟩

end IndexSpaces

/-! ## Operands -/

/-- An operand may stand for another. -/
def Operand.Sub (o p : Operand) : Prop := o = .unknown ∨ o = p

/-- Operands may stand for others, one for one. -/
inductive Operand.Subs : List Operand → List Operand → Prop
  | nil : Subs [] []
  | cons {o p : Operand} {os ps : List Operand} : o.Sub p → Subs os ps → Subs (o :: os) (p :: ps)

/-! ## Rules -/

/-- Instructions whose type follows from the context. -/
inductive Instr.Fixed (ctx : BodyContext) : Instr → List ValueType → List ValueType → Prop
  | nop : Fixed ctx .nop [] []
  | call {func type} (h : ctx.spaces.funcType func = .ok type) :
      Fixed ctx (.call func) type.params type.results
  | callIndirect {typeIndex table type} (ht : ctx.spaces.typeAt typeIndex = .ok type)
      (he : ctx.tableElement table = .ok .funcRef) :
      Fixed ctx (.callIndirect typeIndex table) (type.params ++ [.i32]) type.results
  | selectTyped {t} : Fixed ctx (.selectTyped t) [t, t, .i32] [t]
  | localGet {index slot} (h : ctx.localAt index = .ok slot) :
      Fixed ctx (.localGet index) [] [slot.type]
  | localSet {index slot} (h : ctx.localAt index = .ok slot) :
      Fixed ctx (.localSet index) [slot.type] []
  | localTee {index slot} (h : ctx.localAt index = .ok slot) :
      Fixed ctx (.localTee index) [slot.type] [slot.type]
  | globalGet {index global} (h : ctx.spaces.global index = .ok global) :
      Fixed ctx (.globalGet index) [] [global.content]
  | globalSet {index global} (h : ctx.spaces.global index = .ok global)
      (hm : global.mutable = true) : Fixed ctx (.globalSet index) [global.content] []
  | tableGet {table element} (h : ctx.tableElement table = .ok element) :
      Fixed ctx (.tableGet table) [.i32] [element]
  | tableSet {table element} (h : ctx.tableElement table = .ok element) :
      Fixed ctx (.tableSet table) [.i32, element] []
  | load {access arg limits} (ha : arg.align ≤ access.naturalAlignment)
      (hm : ctx.spaces.memory arg.memory = .ok limits) :
      Fixed ctx (.load access arg) [.i32] [access.type]
  | store {access arg limits} (ha : arg.align ≤ access.naturalAlignment)
      (hm : ctx.spaces.memory arg.memory = .ok limits) :
      Fixed ctx (.store access arg) [.i32, access.type] []
  | memorySize {memory limits} (hm : ctx.spaces.memory memory = .ok limits) :
      Fixed ctx (.memorySize memory) [] [.i32]
  | memoryGrow {memory limits} (hm : ctx.spaces.memory memory = .ok limits) :
      Fixed ctx (.memoryGrow memory) [.i32] [.i32]
  | i32Const {value} : Fixed ctx (.i32Const value) [] [.i32]
  | i64Const {value} : Fixed ctx (.i64Const value) [] [.i64]
  | f32Const {bits} : Fixed ctx (.f32Const bits) [] [.f32]
  | f64Const {bits} : Fixed ctx (.f64Const bits) [] [.f64]
  | unary {op} : Fixed ctx (.unary op) [op.operandType] [op.resultType]
  | binary {op} : Fixed ctx (.binary op) [op.operandType, op.operandType] [op.resultType]
  | refNull {t} : Fixed ctx (.refNull t) [] [t]
  | refFunc {func type} (h : ctx.spaces.funcType func = .ok type) :
      Fixed ctx (.refFunc func) [] [.funcRef]
  | memoryInit {data memory limits} (hm : ctx.spaces.memory memory = .ok limits)
      (hd : ∀ count, ctx.dataCount = some count → data < count) :
      Fixed ctx (.memoryInit data memory) [.i32, .i32, .i32] []
  | dataDrop {data} (hd : ∀ count, ctx.dataCount = some count → data < count) :
      Fixed ctx (.dataDrop data) [] []
  | memoryCopy {dst src limits limits'} (hd : ctx.spaces.memory dst = .ok limits)
      (hs : ctx.spaces.memory src = .ok limits') :
      Fixed ctx (.memoryCopy dst src) [.i32, .i32, .i32] []
  | memoryFill {memory limits} (hm : ctx.spaces.memory memory = .ok limits) :
      Fixed ctx (.memoryFill memory) [.i32, .i32, .i32] []
  | tableInit {elem table element} (he : ctx.elemType elem = .ok element)
      (ht : ctx.tableElement table = .ok element) :
      Fixed ctx (.tableInit elem table) [.i32, .i32, .i32] []
  | elemDrop {elem element} (he : ctx.elemType elem = .ok element) :
      Fixed ctx (.elemDrop elem) [] []
  | tableCopy {dst src element} (hd : ctx.tableElement dst = .ok element)
      (hs : ctx.tableElement src = .ok element) :
      Fixed ctx (.tableCopy dst src) [.i32, .i32, .i32] []
  | tableGrow {table element} (h : ctx.tableElement table = .ok element) :
      Fixed ctx (.tableGrow table) [element, .i32] [.i32]
  | tableSize {table element} (h : ctx.tableElement table = .ok element) :
      Fixed ctx (.tableSize table) [] [.i32]
  | tableFill {table element} (h : ctx.tableElement table = .ok element) :
      Fixed ctx (.tableFill table) [.i32, element, .i32] []

/-- Instructions of no scope, in a function with these results and scopes that carry `labels`. -/
inductive Instr.HasType (ctx : BodyContext) (results : List ValueType)
    (labels : List (List ValueType)) : Instr → List Operand → List Operand → Prop
  | fixed {i ps rs} (h : Instr.Fixed ctx i ps rs) :
    HasType ctx results labels i (known ps) (known rs)
  | unreachable {ins outs} : HasType ctx results labels .unreachable ins outs
  | br {depth types below outs} (h : labels[depth]? = some types) :
      HasType ctx results labels (.br depth) (below ++ known types) outs
  | brIf {depth types} (h : labels[depth]? = some types) :
      HasType ctx results labels (.brIf depth) (known (types ++ [.i32])) (known types)
  | brTable {depths default carried below outs} (h : ∀ depth ∈ depths ++ [default], ∃ types,
        labels[depth]? = some types ∧ Operand.Subs carried (known types)) :
      HasType ctx results labels (.brTable depths default) (below ++ carried ++ known [.i32]) outs
  | ret {below outs} : HasType ctx results labels .ret (below ++ known results) outs
  | drop {o} : HasType ctx results labels .drop [o] []
  | select {o t} (ho : o.Sub (.known t)) (ht : t.isNum = true) :
      HasType ctx results labels .select [o, o, .known .i32] [o]
  | refIsNull {t} (ht : t.isRef = true) :
      HasType ctx results labels .refIsNull (known [t]) (known [.i32])

/-- Sequences, in a function with results `results`. -/
inductive Code.HasType (ctx : BodyContext) (results : List ValueType) :
    List (List ValueType) → Code → List Operand → List Operand → Prop
  | done {labels ts us} (h : Operand.Subs ts us) : HasType ctx results labels .done ts us
  | plain {labels i hi next ins outs below top final}
      (h : Instr.HasType ctx results labels i ins outs) (htop : Operand.Subs top ins)
      (hn : HasType ctx results labels next (below ++ outs) final) :
      HasType ctx results labels (.plain i hi next) (below ++ top) final
  | block {labels bt type body next below top final} (ht : ctx.spaces.blockType bt = .ok type)
      (hb : HasType ctx results (type.results :: labels) body (known type.params)
        (known type.results))
      (htop : Operand.Subs top (known type.params))
      (hn : HasType ctx results labels next (below ++ known type.results) final) :
      HasType ctx results labels (.block bt body next) (below ++ top) final
  | loop {labels bt type body next below top final} (ht : ctx.spaces.blockType bt = .ok type)
      (hb : HasType ctx results (type.params :: labels) body (known type.params)
        (known type.results))
      (htop : Operand.Subs top (known type.params))
      (hn : HasType ctx results labels next (below ++ known type.results) final) :
      HasType ctx results labels (.loop bt body next) (below ++ top) final
  | ifThen {labels bt type yes next below top final}
      (ht : ctx.spaces.blockType bt = .ok type) (hsame : type.params = type.results)
      (hy : HasType ctx results (type.results :: labels) yes (known type.params)
        (known type.results))
      (htop : Operand.Subs top (known (type.params ++ [.i32])))
      (hn : HasType ctx results labels next (below ++ known type.results) final) :
      HasType ctx results labels (.ifThen bt yes next) (below ++ top) final
  | ifElse {labels bt type yes no next below top final} (ht : ctx.spaces.blockType bt = .ok type)
      (hy : HasType ctx results (type.results :: labels) yes (known type.params)
        (known type.results))
      (hno : HasType ctx results (type.results :: labels) no (known type.params)
        (known type.results))
      (htop : Operand.Subs top (known (type.params ++ [.i32])))
      (hn : HasType ctx results labels next (below ++ known type.results) final) :
      HasType ctx results labels (.ifElse bt yes no next) (below ++ top) final

end Wasm
