import SimpleBinary.Field.Array
import SimpleBinary.Field.Choices
import SimpleBinary.Field.Composite
import SimpleBinary.Field.Dynamic
import SimpleBinary.Field.Enumeration
import SimpleBinary.Field.Scalar
import SimpleBinary.Field.Text
import SimpleBinary.Message.Basic

/-!
Everything that can be done to a message once it is wrapped, as sequences of operations with the
results that they leave. An operation names the field it is about by the way to it: in the body, the
header, the element that a group is at, or a composite reached so. Groups are kept as they are bound
and are named by their number.
-/

namespace SimpleBinary

inductive FieldOperation : Type → Type 1
  | present : FieldOperation Bool
  | reset : FieldOperation Unit
  | value : FieldOperation Value
  | setValue (value : Value) : FieldOperation Unit
  | scalar (α : Type) [Element α] : FieldOperation α
  | scalarNull (α : Type) [Element α] : FieldOperation α
  | scalarLeast (α : Type) [Element α] : FieldOperation α
  | scalarGreatest (α : Type) [Element α] : FieldOperation α
  | scalar? (α : Type) [Element α] : FieldOperation (Option α)
  | setScalar {α : Type} [Element α] (value : α) : FieldOperation Unit
  | setScalar? {α : Type} [Element α] (value? : Option α) : FieldOperation Unit
  | textCapacity : FieldOperation Nat
  | text : FieldOperation Bytes
  | textString : FieldOperation String
  | setText (characters : Bytes) : FieldOperation Unit
  | arrayLength (α : Type) [Element α] : FieldOperation Nat
  | array (α : Type) [Element α] : FieldOperation (List α)
  | arrayElement (α : Type) [Element α] (index : Nat) : FieldOperation α
  | setArray {α : Type} [Element α] (values : List α) : FieldOperation Unit
  | setArrayElement {α : Type} [Element α] (index : Nat) (value : α) : FieldOperation Unit
  | enumRaw : FieldOperation UInt64
  | enumName? : FieldOperation (Option String)
  | setEnumRaw (raw : UInt64) : FieldOperation Unit
  | setEnumName (name : String) : FieldOperation Unit
  | bits : FieldOperation BitSet
  | testBit (bit : Nat) : FieldOperation Bool
  | testChoice (name : String) : FieldOperation Bool
  | choices : FieldOperation (List (String × Bool))
  | setBits (set : BitSet) : FieldOperation Unit
  | setBit (bit : Nat) (on : Bool) : FieldOperation Unit
  | setChoice (name : String) (on : Bool) : FieldOperation Unit

def FieldOperation.run {α : Type} : FieldOperation α → Binding → Action Window α
  | .present, b => Action.query b.present
  | .reset, b => b.reset
  | .value, b => Action.query b.value
  | .setValue v, b => b.setValue v
  | @scalar α _, b => Action.query (b.scalar α)
  | @scalarNull α _, b => b.scalarNull α
  | @scalarLeast α _, b => b.scalarLeast α
  | @scalarGreatest α _, b => b.scalarGreatest α
  | @scalar? α _, b => Action.query (b.scalar? α)
  | @setScalar _ _ v, b => b.setScalar v
  | @setScalar? _ _ v?, b => b.setScalar? v?
  | .textCapacity, b => b.textCapacity
  | .text, b => Action.query b.text
  | .textString, b => Action.query b.textString
  | .setText characters, b => b.setText characters
  | @arrayLength α _, b => b.arrayLength α
  | @array α _, b => Action.query (b.array α)
  | @arrayElement α _ index, b => Action.query (b.arrayElement α index)
  | @setArray _ _ values, b => b.setArray values
  | @setArrayElement _ _ index v, b => b.setArrayElement index v
  | .enumRaw, b => Action.query b.enumRaw
  | .enumName?, b => Action.query b.enumName?
  | .setEnumRaw raw, b => b.setEnumRaw raw
  | .setEnumName name, b => b.setEnumName name
  | .bits, b => Action.query b.bits
  | .testBit bit, b => Action.query (b.testBit bit)
  | .testChoice name, b => Action.query (b.testChoice name)
  | .choices, b => Action.query b.choices
  | .setBits set, b => b.setBits set
  | .setBit bit on, b => b.setBit bit on
  | .setChoice name on, b => b.setChoice name on

inductive DataOperation : Type → Type 1
  | length : DataOperation Nat
  | skip : DataOperation Nat
  | value : DataOperation Bytes
  | valueArray : DataOperation ScalarArray
  | values (α : Type) [Element α] : DataOperation (List α)
  | valueString : DataOperation String
  | setValue (bytes : Bytes) : DataOperation Unit
  | setValues {α : Type} [Element α] (elements : List α) : DataOperation Unit

def DataOperation.run {α : Type} : DataOperation α → DataView → Action Window α
  | .length, d => Action.query d.length
  | .skip, d => d.skip
  | .value, d => d.value
  | .valueArray, d => d.valueArray
  | @values α _, d => d.values α
  | .valueString, d => d.valueString
  | .setValue bytes, d => d.setValue bytes
  | @setValues _ _ elements, d => d.setValues elements

inductive Selector where
  | field (f : Field)
  | index (index : Nat)
  | name (name : String)

def Selector.fieldOf (selector : Selector) (block : Block) : Except Error Field :=
  match selector with
  | .field f => .ok f
  | .index i => block.fieldAt i
  | .name text => block.fieldNamed text

mutual

inductive Place where
  | body
  | element (group : Nat)
  | members (spot : Spot)

inductive Spot where
  | header
  | field (place : Place) (selector : Selector)

end

inductive Operation : Type → Type 1
  | field {α : Type} (spot : Spot) (operation : FieldOperation α) : Operation α
  | data {α : Type} (spot : Spot) (operation : DataOperation α) : Operation α
  | entry (spot : Spot) : Operation Entry
  | group (spot : Spot) : Operation GroupView
  | state (group : Nat) : Operation GroupView
  | next (group : Nat) : Operation Nat
  | resetCount (group count : Nat) : Operation Unit
  | skipGroup (group : Nat) : Operation Unit
  | rewind : Operation Unit
  | skip : Operation Nat

structure Session where
  message : Message
  groups : List GroupView

namespace Session

def window (s : Session) : Window :=
  s.message.window

def withWindow (s : Session) (w : Window) : Session :=
  { s with message := { s.message with window := w } }

def groupAt (s : Session) (group : Nat) : Except Error GroupView :=
  match s.groups[group]? with
  | some view => .ok view
  | none => .error .fieldNotFound

mutual

def block (s : Session) : Place → Except Error Block
  | .body => .ok s.message.body
  | .element group => do (← s.groupAt group).element
  | .members spot => do return (← CompositeView.ofBinding (← s.bind spot)).members

def bind (s : Session) : Spot → Except Error Binding
  | .header => do return (← s.message.header).binding
  | .field place selector => do
    let block ← s.block place
    return block.bind s.message.version (← selector.fieldOf block)

end

def onWindow {α : Type} (action : Action Window α) : Action Session α :=
  Action.onPart window (fun w s => s.withWindow w) action

def iterate {α : Type} (group : Nat) (steps : Action Iteration α) : Action Session α := do
  let view ← (← get).groupAt group
  Action.onPart (fun s => ⟨view, s.window⟩)
    (fun it s => { s.withWindow it.window with groups := s.groups.set group it.group }) steps

end Session

def Operation.run {α : Type} : Operation α → Action Session α
  | .field spot operation => do
    let b ← (← get).bind spot
    Session.onWindow (operation.run b)
  | .data spot operation => do
    let view ← DataView.ofBinding (← (← get).bind spot)
    Session.onWindow (operation.run view)
  | .entry spot => do
    let b ← (← get).bind spot
    Session.onWindow b.entry
  | .group spot => do
    let b ← (← get).bind spot
    let view ← Session.onWindow (GroupView.ofBinding b)
    modify fun s => { s with groups := s.groups ++ [view] }
    return view
  | .state g => do (← get).groupAt g
  | .next g => Session.iterate g Iteration.next
  | .resetCount g count => Session.iterate g (Iteration.resetCount count)
  | .skipGroup g => Session.iterate g Iteration.skip
  | .rewind => modify fun s => { s with message := s.message.rewind }
  | .skip => Action.onPart Session.message (fun m s => { s with message := m }) Message.skip

abbrev Step := (α : Type) × Operation α

structure Observation where
  type : Type
  result : Except Error type
  position : Nat

def Session.runSteps : List Step → Session → List Observation × Session
  | [], s => ([], s)
  | ⟨α, operation⟩ :: rest, s =>
    let (result, t) := operation.run s
    let (observations, u) := runSteps rest t
    (⟨α, result, t.message.position⟩ :: observations, u)

theorem Session.runSteps_cons {α : Type} (operation : Operation α) (rest : List Step)
    (s : Session) :
    runSteps (⟨α, operation⟩ :: rest) s =
      (⟨α, (operation.run s).1, (operation.run s).2.message.position⟩ ::
        (runSteps rest (operation.run s).2).1, (runSteps rest (operation.run s).2).2) := rfl

inductive Wrapping where
  | decode (offset limit blockLength : Nat) (version : UInt16)
  | encode (offset limit : Nat)
  | readFrame (offset limit : Nat)
  | writeFrame (offset limit : Nat)

namespace Wrapping

def offset : Wrapping → Nat
  | decode offset _ _ _ | encode offset _ | readFrame offset _ | writeFrame offset _ => offset

def limit : Wrapping → Nat
  | decode _ limit _ _ | encode _ limit | readFrame _ limit | writeFrame _ limit => limit

def wrap (definition : MessageDef) : Wrapping → Action Bytes Message
  | decode offset limit blockLength version => Action.query fun bytes =>
    Message.wrapForDecode bytes offset limit blockLength version definition
  | encode offset limit => Action.query fun bytes =>
    Message.wrapForEncode bytes offset limit definition
  | readFrame offset limit => Action.query fun bytes =>
    Message.readFrame bytes offset limit definition
  | writeFrame offset limit => Message.writeFrame offset limit definition

/-- Wraps a message and does the operations; what is seen of them comes after the position of the
wrapped message. -/
def use (wrapping : Wrapping) (definition : MessageDef) (steps : List Step) :
    Bytes → Except Error (Nat × List Observation) × Bytes := fun bytes =>
  match wrapping.wrap definition bytes with
  | (.error e, bytes') => (.error e, bytes')
  | (.ok m, _) =>
    let (observations, s) := Session.runSteps steps ⟨m, []⟩
    (.ok (m.position, observations), s.message.window.bytes)

end Wrapping

end SimpleBinary
