import SimpleBinary.Json.Export
import SimpleBinary.Text.Quoted

/-!
Messages from JSON. The fields are written in the order of their table, so that after a failure the
window holds what the fields before it wrote. `null` makes a field absent; the elements of a group
and the choices of a set that is no array are none; data that is no string is empty.
-/

namespace SimpleBinary

inductive ImportError where
  | codec (reason : Error)
  | notNumber (p : Primitive) (got : String)
  | unknownTemplate (name : String)

def ImportError.message : ImportError → String
  | codec reason => reason.message
  | notNumber p got => "expected " ++ p.name ++ " number, got " ++ got
  | unknownTemplate name => "unknown template " ++ Text.quoted name

/-- A computation on a state that a failure does not undo, for whatever reason it fails. -/
abbrev ImportAction (σ α : Type) := ExceptT ImportError (StateM σ) α

namespace ImportAction

variable {σ α : Type}

def ofAction (action : Action σ α) : ImportAction σ α :=
  ExceptT.adapt ImportError.codec action

instance : MonadLift (Action σ) (ImportAction σ) := ⟨ofAction⟩

def onPart {τ : Type} (get : σ → τ) (set : τ → σ → σ) (action : ImportAction τ α) :
    ImportAction σ α :=
  fun state =>
    let (result, part) := action (get state)
    (result, set part state)

end ImportAction

variable {J : Type} [JsonValues J]

def JsonValues.toScalar (json : J) (p : Primitive) : Except ImportError Scalar :=
  let scalar :=
    if p.isFloat then (toBinary64? json).map .float
    else if p.isUnsigned then (toUInt64? json).map .uint
    else (toInt64? json).map .int
  match scalar with
  | some value => .ok value
  | none => .error (.notNumber p (compact json))

open JsonValues

namespace Binding

def importType (b : Binding) (json : J) : ImportAction Window Unit := do
  match b.typeDef with
  | .error reason => throw (.codec reason)
  | .ok t =>
    match view json with
    | .null => b.reset
    | .string characters => b.setValue (.text (utf8 characters))
    | .array items =>
      let bytes ← items.mapM fun item => (toScalar item t.primitive).map t.primitive.encode
      b.setValue (.array (.ofBytes bytes.flatten t.primitive))
    | .other => b.setValue (.scalar (← toScalar json t.primitive))

def importEnum (b : Binding) (json : J) : ImportAction Window Unit := do
  match view json with
  | .null => b.reset
  | .string name => b.setEnumName name
  | _ => b.setEnumRaw (← toScalar json .uint64).toUInt64

def chosen (s : SetDef) (names : List J) : Except Error BitSet :=
  names.foldlM (fun set name =>
    match (toString? name).bind s.choice? with
    | some choice => set.insert? choice.bit
    | none => .error .fieldNotFound) (.empty s.encoding)

def importSet (b : Binding) (json : J) : ImportAction Window Unit :=
  ImportAction.ofAction do
    let s ← b.setDef
    b.setBits (← chosen s ((toList? json).getD []))

end Binding

namespace Iteration

def importItems (write : Nat → J → ImportAction Window Unit) :
    List J → ImportAction Iteration Unit
  | [] => return
  | item :: rest => do
    let base ← ImportAction.ofAction next
    ImportAction.onPart window (fun w it => { it with window := w }) (write base item)
    importItems write rest

end Iteration

mutual

def Field.ofJson (base : Nat) (enclosed : Bool) : Field → J → ImportAction Window Unit
  | f@⟨_, _, _, .type _, _, _, _⟩, json => do
    (f.bindAt base enclosed (← get).version).importType json
  | f@⟨_, _, _, .enum _, _, _, _⟩, json => do
    (f.bindAt base enclosed (← get).version).importEnum json
  | f@⟨_, _, _, .set _, _, _, _⟩, json => do
    (f.bindAt base enclosed (← get).version).importSet json
  | f@⟨_, _, _, .composite c, _, _, _⟩, json => do
    let b := f.bindAt base enclosed (← get).version
    fieldsOfJson b.offset b.visible c.fields json
  | f@⟨_, _, _, .group g, _, _, _⟩, json => do
    let visible := (f.bindAt base enclosed (← get).version).visible
    let view ← ImportAction.ofAction (GroupView.bind f g visible)
    let items := (toList? json).getD []
    let steps : ImportAction Iteration Unit := do
      ImportAction.ofAction (Iteration.resetCount items.length)
      Iteration.importItems (fun base item => fieldsOfJson base true g.fields item) items
    fun w =>
      let (result, it) := steps ⟨view, w⟩
      (result, it.window)
  | f@⟨_, _, _, .data d, _, _, _⟩, json => do
    let view : DataView := ⟨f, d, (f.bindAt base enclosed (← get).version).visible⟩
    view.setValue (utf8 ((toString? json).getD ""))

def fieldsOfJson (base : Nat) (enclosed : Bool) : List Field → J → ImportAction Window Unit
  | [], _ => return
  | f :: rest, json => do
    f.ofJson base enclosed (member json f.name)
    fieldsOfJson base enclosed rest json

end

def MessageDef.importJson (templates : List MessageDef) (json : J) : ImportAction Bytes Nat := do
  let name := (toString? (member json "template")).getD ""
  match templates.find? (·.name == name) with
  | none => throw (.unknownTemplate name)
  | some definition =>
    let bytes ← get
    let m ← ImportAction.ofAction (Message.writeFrame 0 bytes.length definition)
    let write : ImportAction Window Unit :=
      fieldsOfJson m.offset true definition.fields (member json "fields")
    ImportAction.onPart (fun bytes => { m.window with bytes }) (fun w _ => w.bytes) do
      write
      return MessageHeader.size + ((← get).position - m.offset)

end SimpleBinary
