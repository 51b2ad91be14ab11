/-
The delays and limits a machine runs with, and how they are read from a
file.

A delay grows with the round, by the base plus a step for every round
before it, and saturates. The file is a JSON object of any of the ten
fields, or an array of the first few of them in order; what is absent
takes its default, and names that are not fields are passed over. A field
given twice, or with anything but a plain whole number, spoils the file.
-/
import Quorum.Text.Json

namespace Quorum

/-- Delays in milliseconds, and two limits, with their defaults. -/
structure Settings where
  proposeBase : UInt64 := 8000
  proposeStep : UInt64 := 4000
  prevoteBase : UInt64 := 1000
  prevoteStep : UInt64 := 1000
  precommitBase : UInt64 := 1000
  precommitStep : UInt64 := 1000
  /-- From a majority of prevotes to one's precommit. -/
  precommitWait : UInt64 := 0
  /-- From a decision to the end of the height. -/
  endCommitWait : UInt64 := 0
  /-- How many verdicts on blocks are remembered. -/
  verdictCapacity : UInt64 := 128
  /-- How many passes over the rules an input may cause. -/
  maxPasses : UInt64 := 64
deriving DecidableEq

namespace Settings

-- =========================================================== delays

/-- The delay of a round. -/
def linear (base step : UInt64) (round : Round) : UInt64 :=
  satAdd base (satMul step round.toUInt64)

/-- How long a proposal is waited for. -/
def proposeDelay (s : Settings) (round : Round) : UInt64 := linear s.proposeBase s.proposeStep round

/-- How long a majority of prevotes is waited for. -/
def prevoteDelay (s : Settings) (round : Round) : UInt64 := linear s.prevoteBase s.prevoteStep round

/-- How long a majority of precommits is waited for. -/
def precommitDelay (s : Settings) (round : Round) : UInt64 :=
  linear s.precommitBase s.precommitStep round

-- =========================================================== reading

/-- The names of the ten fields, in the order of an array. -/
def names : List String := [
  "propose_timeout_base_ms", "propose_timeout_delta_ms",
  "prevote_timeout_base_ms", "prevote_timeout_delta_ms",
  "precommit_timeout_base_ms", "precommit_timeout_delta_ms",
  "precommit_wait_ms", "endcommit_wait_ms",
  "validity_cache_capacity", "max_fixpoint_iterations"]

/-- The ten fields in that order. -/
def values (s : Settings) : List UInt64 := [
  s.proposeBase, s.proposeStep, s.prevoteBase, s.prevoteStep, s.precommitBase,
  s.precommitStep, s.precommitWait, s.endCommitWait, s.verdictCapacity, s.maxPasses]

/-- Settings from what is given for each field in order; a field that is
not given takes its default. -/
def ofValues (given : List (Option UInt64)) : Settings :=
  let field (index : Nat) (fallback : Settings → UInt64) : UInt64 :=
    ((given[index]?).getD none).getD (fallback {})
  { proposeBase := field 0 proposeBase
    proposeStep := field 1 proposeStep
    prevoteBase := field 2 prevoteBase
    prevoteStep := field 3 prevoteStep
    precommitBase := field 4 precommitBase
    precommitStep := field 5 precommitStep
    precommitWait := field 6 precommitWait
    endCommitWait := field 7 endCommitWait
    verdictCapacity := field 8 verdictCapacity
    maxPasses := field 9 maxPasses }

/-- What is given for one field: at most one member of its name, which
has to be a word. -/
def fieldOf? (members : List (String × Json)) (name : String) : Option (Option UInt64) :=
  match members.filter (fun member => member.1 == name) with
  | [] => some none
  | [(_, value)] => value.word?.map some
  | _ => none

/-- Settings from an object by names, or from an array by position. Of anything
else, none. -/
def ofJson? : Json → Option Settings
  | .object members => do
    let members ← members.mapM fun (name, value) => name.map fun name => (name, value)
    let given ← names.mapM (fieldOf? members)
    return ofValues given
  | .array items =>
    if items.length ≤ names.length then
      (items.mapM Json.word?).map fun given => ofValues (given.map some)
    else none
  | _ => none

/-- Settings from the content of a file. -/
def ofBytes? (content : Bytes) : Option Settings := (Json.ofBytes? content).bind ofJson?

end Settings

end Quorum
