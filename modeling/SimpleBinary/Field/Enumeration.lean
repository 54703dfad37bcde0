import SimpleBinary.Field.Binding

namespace SimpleBinary.Binding

def enumDef (b : Binding) : Except Error EnumDef :=
  match b.field.kind with
  | .enum e => .ok e
  | _ => .error b.kindMismatch

def constantRaw? (b : Binding) : Except Error (Option UInt64) := do
  match ← b.constant? with
  | some (.scalar value) => return some value.toUInt64
  | some (.text characters) =>
    match utf8 characters with
    | [byte] => return some byte.toUInt64
    | _ => throw b.kindMismatch
  | none => return none

def enumRaw (b : Binding) (w : Window) : Except Error UInt64 := do
  let e ← b.enumDef
  match ← b.constantRaw? with
  | some raw => return raw
  | none =>
    if b.visible then return (← w.readScalar b.offset e.encoding).toUInt64
    else return e.null

def enumName? (b : Binding) (w : Window) : Except Error (Option String) := do
  let e ← b.enumDef
  return e.nameOf? (← b.enumRaw w)

def setEnumRaw (b : Binding) (raw : UInt64) : Action Window Unit := do
  let e ← b.enumDef
  match ← b.constantRaw? with
  | some expected => if expected ≠ raw then throw b.constantMismatch
  | none =>
    b.requireVisible
    Window.writeScalar b.offset e.encoding (.uint raw)

def setEnumName (b : Binding) (name : String) : Action Window Unit := do
  let e ← b.enumDef
  match e.valueOf? name with
  | some raw => b.setEnumRaw raw
  | none => throw (.unknownEnumName e.name)

end SimpleBinary.Binding
