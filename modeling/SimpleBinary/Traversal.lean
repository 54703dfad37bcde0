import SimpleBinary.Field.Entry

namespace SimpleBinary

mutual

def Field.skip : Field → Action Window Unit
  | f@⟨_, _, _, .group g, _, _, _⟩ => do
    let view ← GroupView.bind f g (f.inVersion (← get).version)
    Iteration.run view (Iteration.forRemaining fun _ => skipFields g.fields)
  | f@⟨_, _, _, .data d, _, _, _⟩ => do
    discard <| DataView.skip ⟨f, d, f.inVersion (← get).version⟩
  | _ => return

def skipFields : List Field → Action Window Unit
  | [] => return
  | f :: rest => do
    f.skip
    skipFields rest

end

def Iteration.skip : Action Iteration Unit := do
  let g := (← get).group
  Iteration.forRemaining fun _ => skipFields g.definition.fields

end SimpleBinary
