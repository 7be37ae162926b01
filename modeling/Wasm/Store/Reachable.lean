import Wasm.Store

/-! # Instances that can still be reached

An instance is kept by its holders and by holders of a global that it defines. -/

namespace Wasm

def Store.ownerOf? (s : Store) (addr : GlobalAddr) : Option InstanceAddr :=
  s.globals[addr.index]?.bind GlobalInst.owner

def Instance.keeps (inst : Instance) (s : Store) : List InstanceAddr :=
  inst.importedGlobals.toList.filterMap s.ownerOf?

namespace Store

def reached (s : Store) : Nat → List InstanceAddr → List InstanceAddr
  | 0, kept => kept
  | n + 1, kept =>
    match s.instance? ⟨n⟩ with
    | some inst => s.reached n (if ⟨n⟩ ∈ kept then inst.keeps s ++ kept else kept)
    | none => s.reached n kept

def retain (s : Store) (roots : List InstanceAddr) : Store :=
  let kept := s.reached s.instances.size roots
  { s with
    instances := s.instances.mapIdx fun i inst => if ⟨i⟩ ∈ kept then inst else none }

end Store

end Wasm
