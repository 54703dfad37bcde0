import SimpleBinary.Json.Basic
import SimpleBinary.Walk

namespace SimpleBinary

variable {J : Type} [JsonValues J]

def Value.toJson : Value → J
  | scalar value => JsonValues.ofScalar value
  | text characters => JsonValues.string (Utf8.decodeLossy characters)
  | array elements => JsonValues.array (elements.toList.map JsonValues.ofScalar)

namespace Binding

def exportType (b : Binding) (w : Window) : Except Error J := do
  if ← b.present w then return (← b.value w).toJson
  return JsonValues.null

def exportEnum (b : Binding) (w : Window) : Except Error J := do
  if ← b.present w then
    match ← b.enumName? w with
    | some name => return JsonValues.string name
    | none => return JsonValues.ofUInt64 (← b.enumRaw w)
  return JsonValues.null

def exportSet (b : Binding) (w : Window) : Except Error J := do
  let chosen := (← b.choices w).filter (·.2)
  return JsonValues.array (chosen.map fun (name, _) => JsonValues.string name)

end Binding

namespace Iteration

def collect {α : Type} (visit : Nat → Action Window α) : Nat → Action Iteration (List α)
  | 0 => return []
  | n + 1 => do
    let base ← next
    let first ← onWindow (visit base)
    return first :: (← collect visit n)

end Iteration

mutual

def Field.toJson (base : Nat) (enclosed : Bool) : Field → Action Window J
  | f@⟨_, _, _, .type _, _, _, _⟩ => do
    let w ← get
    (f.bindAt base enclosed w.version).exportType w
  | f@⟨_, _, _, .enum _, _, _, _⟩ => do
    let w ← get
    (f.bindAt base enclosed w.version).exportEnum w
  | f@⟨_, _, _, .set _, _, _, _⟩ => do
    let w ← get
    (f.bindAt base enclosed w.version).exportSet w
  | f@⟨_, _, _, .composite c, _, _, _⟩ => do
    let b := f.bindAt base enclosed (← get).version
    return JsonValues.object (← fieldsToJson b.offset b.visible c.fields)
  | f@⟨_, _, _, .group g, _, _, _⟩ => do
    let view ← GroupView.bind f g (f.bindAt base enclosed (← get).version).visible
    let elements ← Iteration.run view <|
      Iteration.collect (fun base => fieldsToJson base true g.fields) view.count
    return JsonValues.array (elements.map JsonValues.object)
  | f@⟨_, _, _, .data d, _, _, _⟩ => do
    let view : DataView := ⟨f, d, (f.bindAt base enclosed (← get).version).visible⟩
    return JsonValues.string (Utf8.decodeLossy (← view.value))

def fieldsToJson (base : Nat) (enclosed : Bool) :
    List Field → Action Window (List (String × J))
  | [] => return []
  | f :: rest => do
    let value ← f.toJson base enclosed
    return (f.name, value) :: (← fieldsToJson base enclosed rest)

end

def Message.toJson : Action Message J := do
  let m ← get
  let fields ← Message.onWindow (fieldsToJson m.offset true m.definition.fields)
  return JsonValues.object [("template", JsonValues.string m.definition.name),
    ("fields", JsonValues.object fields)]

end SimpleBinary
