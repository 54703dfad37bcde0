import SimpleBinary.Number.Shortest
import SimpleBinary.Text.Quoted
import SimpleBinary.Walk

namespace SimpleBinary

structure Report where
  window : Window
  lines : List String

namespace Report

def onWindow {α : Type} (action : Action Window α) : Action Report α :=
  Action.onPart window (fun w report => { report with window := w }) action

def line (depth : Nat) (text : String) : Action Report Unit :=
  let indented := String.ofList (List.replicate (2 * depth) ' ') ++ text
  modify fun report => { report with lines := indented :: report.lines }

def text (report : Report) : String :=
  String.join (report.lines.reverse.map (· ++ "\n"))

/-- Doubles are written without an exponent from 0.0001 up to 10 to the 16th, only a negative
exponent has a sign, and half way between two decimals the greater one is taken. -/
def decimalStyle : DecimalStyle := ⟨-3, 16, [], .up⟩

def natural (n : Nat) : String :=
  String.ofList (Nat.toDigits 10 n)

def integer (n : Int) : String :=
  if n < 0 then "-" ++ natural n.natAbs else natural n.natAbs

def double (x : Binary64) : String :=
  match x.classify with
  | .nan _ _ => "NaN"
  | .infinite negative => if negative then "-inf" else "inf"
  | .finite negative significand exponent =>
    Binary64.spellFinite decimalStyle negative significand exponent

def scalar : Scalar → String
  | .int value => "Int(" ++ integer value.toInt ++ ")"
  | .uint value => "UInt(" ++ natural value.toNat ++ ")"
  | .float value => "Float(" ++ double value ++ ")"

def list (parts : List String) : String :=
  "[" ++ ", ".intercalate parts ++ "]"

def value : Value → String
  | .scalar s => scalar s
  | .text characters => Text.quoted (Utf8.decodeLossy characters)
  | .array elements => list (elements.toList.map scalar)

def type (depth : Nat) (b : Binding) : Action Report Unit := do
  let w := (← get).window
  let present ← b.present w
  let stored ← b.value w
  line depth (b.field.name ++ ": " ++ if present then value stored else "<null>")

def enum (depth : Nat) (b : Binding) : Action Report Unit := do
  let w := (← get).window
  let symbol ← match ← b.enumName? w with
    | some name => pure name
    | none => pure ("<raw " ++ natural (← b.enumRaw w).toNat ++ ">")
  line depth (b.field.name ++ ": " ++ symbol)

def set (depth : Nat) (b : Binding) : Action Report Unit := do
  let chosen := (← b.choices (← get).window).filter (·.2)
  let names := ", ".intercalate (chosen.map (·.1))
  line depth (b.field.name ++ ": \x7b" ++ names ++ "\x7d")

def elements (depth : Nat) (print : Nat → Action Report Unit) :
    Nat → GroupView → Action Report Unit
  | 0, _ => return
  | n + 1, g => do
    let g ← onWindow (Iteration.visited g)
    line (depth + 1) ("#" ++ natural g.index)
    print (← g.element).base
    elements depth print n g

end Report

mutual

def Field.report (depth base : Nat) (enclosed : Bool) : Field → Action Report Unit
  | f@⟨_, _, _, .type _, _, _, _⟩ => do
    Report.type depth (f.bindAt base enclosed (← get).window.version)
  | f@⟨_, _, _, .enum _, _, _, _⟩ => do
    Report.enum depth (f.bindAt base enclosed (← get).window.version)
  | f@⟨_, _, _, .set _, _, _, _⟩ => do
    Report.set depth (f.bindAt base enclosed (← get).window.version)
  | f@⟨name, _, _, .composite c, _, _, _⟩ => do
    let b := f.bindAt base enclosed (← get).window.version
    Report.line depth (name ++ ":")
    reportFields (depth + 1) b.offset b.visible c.fields
  | f@⟨name, _, _, .group g, _, _, _⟩ => do
    let visible := (f.bindAt base enclosed (← get).window.version).visible
    let view ← Report.onWindow (GroupView.bind f g visible)
    Report.line depth (name ++ " [" ++ Report.natural view.count ++ "]:")
    Report.elements depth (fun base => reportFields (depth + 2) base true g.fields) view.count view
  | f@⟨name, _, _, .data d, _, _, _⟩ => do
    let view : DataView := ⟨f, d, (f.bindAt base enclosed (← get).window.version).visible⟩
    let payload ← Report.onWindow view.value
    Report.line depth (name ++ ": " ++ Text.quoted (Utf8.decodeLossy payload))

def reportFields (depth base : Nat) (enclosed : Bool) : List Field → Action Report Unit
  | [] => return
  | f :: rest => do
    f.report depth base enclosed
    reportFields depth base enclosed rest

end

def Message.report (m : Message) : Message × String × Except Error Unit :=
  let print : Action Report Unit := do
    Report.line 0 (m.definition.name ++ " (template " ++ Report.natural m.definition.id.toNat ++
      ", version " ++ Report.natural m.version.toNat ++ ", block " ++
      Report.natural m.blockLength ++ ")")
    reportFields 1 m.offset true m.definition.fields
  let (result, report) := print ⟨m.window, []⟩
  ({ m with window := report.window }, report.text, result)

end SimpleBinary
