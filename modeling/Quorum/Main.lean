/-
The command line: validators in one process decide height after height,
and every decided block is reported.
-/
import Quorum.Run.Simulation

namespace Quorum.Simulation

/-- The time that never goes back, in milliseconds. -/
def readClock : IO Millis := do
  return Int64.ofInt (← IO.monoMsNow)

/-- The settings of the file, or the defaults without one. -/
def readSettings (s : Simulation) : IO Settings := do
  match s.settingsFile with
  | none => return {}
  | some file =>
    match Settings.ofBytes? (← IO.FS.readBinFile file).toList with
    | some settings => return settings
    | none => throw (IO.userError ("no settings in " ++ file))

/-- Signers from random seeds. -/
def freshSigners (count : Nat) : IO (List Signer) :=
  (List.range count).mapM fun _ => do
    return Signer.ofSeed (← IO.getRandomBytes 32).toList

/-- Decide the heights asked for, reporting each. -/
def decideHeights [Crypto] (s : Simulation) (network : Network) : IO Network :=
  (List.range s.heights).foldlM (fun network _ => do
    let now ← readClock
    let txs := s.transactionsFor (network.tipHeight + 1) now
    let (result, network) :=
      (txs.foldl Network.submit network).runHeight 1000000 now (1000 * s.timeout)
    match result with
    | .error fault => throw (IO.userError fault.message)
    | .ok report =>
      IO.println (reportLine report)
      return network) network

/-- Run a simulation from its options to its last line. -/
def run (s : Simulation) : IO Unit := do
  let _ : Crypto := Crypto.standard
  let settings ← readSettings s
  match Network.ofSigners? (← freshSigners s.validators) s.offline settings with
  | .error fault => throw (IO.userError fault.message)
  | .ok network => IO.println (lastLine (← decideHeights s network))

end Quorum.Simulation

/-- The options decide what is run; what cannot be read as options is answered with
the usage. -/
def main (arguments : List String) : IO UInt32 := do
  match Quorum.Simulation.ofArguments? {} arguments with
  | .error why =>
    IO.eprintln (why ++ "\n" ++ Quorum.Simulation.usage)
    return 2
  | .ok simulation =>
    simulation.run
    return 0
