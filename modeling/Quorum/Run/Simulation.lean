/-
The options of the command line, and the wording of its report.
-/
import Quorum.Run.Network

namespace Quorum

/-- What a simulation is asked for. -/
structure Simulation where
  /-- How many validators there are. -/
  validators : Nat := 4
  /-- How many of them never start. -/
  offline : Nat := 0
  /-- How many heights to decide. -/
  heights : Nat := 5
  /-- How many transactions are submitted before each height. -/
  transactions : Nat := 8
  /-- How many seconds a height may take. -/
  timeout : Nat := 60
  /-- The file with the settings. -/
  settingsFile : Option String := none

namespace Simulation

/-- The options' names, as the usage line shows them. -/
def usage : String :=
  "[--validators N] [--offline N] [--heights N] [--txs-per-height N] "
    ++ "[--height-timeout-secs N] [--config FILE]"

/-- A number written with digits only. -/
def count? (text : String) : Option Nat := if text.all Char.isDigit then text.toNat? else none

/-- Take options from the command line, the last one of a name winning. -/
def ofArguments? : Simulation → List String → Except String Simulation
  | s, [] => .ok s
  | s, name :: value :: rest =>
    if name = "--config" then ofArguments? { s with settingsFile := some value } rest
    else
      match count? value with
      | none => .error ("not a number for " ++ name ++ ": " ++ value)
      | some n =>
        match name with
        | "--validators" => ofArguments? { s with validators := n } rest
        | "--offline" => ofArguments? { s with offline := n } rest
        | "--heights" => ofArguments? { s with heights := n } rest
        | "--txs-per-height" => ofArguments? { s with transactions := n } rest
        | "--height-timeout-secs" => ofArguments? { s with timeout := n } rest
        | _ => .error ("no such option: " ++ name)
  | _, [name] => .error ("no value for " ++ name)

/-- The transactions submitted before a height. -/
def transactionsFor (s : Simulation) (height : Height) (now : Millis) : List Bytes :=
  (List.range s.transactions).map fun i =>
    ("tx-" ++ decimal height ++ "-" ++ toString i ++ "-" ++ toString now.toInt).toUTF8.toList

/-- The line about a decided height. -/
def reportLine [Crypto] (report : HeightReport) : String :=
  "Height " ++ decimal report.height ++ " decided: block " ++ report.block.hash.text
    ++ " in round " ++ roundText report.round ++ " with "
    ++ toString report.block.transactions.length ++ " txs"

/-- The line at the end: how far the chain came, and whether anybody was
convicted. -/
def lastLine [Crypto] (n : Network) : String :=
  "Simulator stopped at height " ++ decimal n.tipHeight ++ " (" ++ toString n.evidenceCount
    ++ " evidence records)"

end Simulation

end Quorum
