import SimpleBinary.Json.Tree
import SimpleBinary.Market.Transcript

namespace SimpleBinary.Market

def Transcript.named? : String → Option (Except String String)
  | "basic_usage" => some (basicUsage.mapError (·.message))
  | "json_bridge" => some ((jsonBridge JsonTree).mapError (·.message))
  | "print_message" => some (printMessage.mapError (·.message))
  | _ => none

end SimpleBinary.Market

def main (arguments : List String) : IO UInt32 := do
  match arguments.map SimpleBinary.Market.Transcript.named? with
  | [some (.ok text)] =>
    IO.print text
    return 0
  | [some (.error reason)] =>
    IO.eprintln reason
    return 1
  | _ =>
    IO.eprintln "usage: basic_usage | json_bridge | print_message"
    return 2
