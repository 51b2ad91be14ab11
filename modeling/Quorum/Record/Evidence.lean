/-
Evidence against a validator: two of its votes that no honest validator
signs both of.
-/
import Quorum.Statement.Vote

namespace Quorum

/-- Two votes of one validator for one round and kind and two hashes. -/
structure Evidence where
  /-- The vote that was recorded. -/
  first : Vote
  /-- The vote that was refused. -/
  second : Vote
  /-- When the conflict was seen. -/
  seenAt : Millis
deriving DecidableEq

namespace Evidence

/-- Who is convicted. Both votes name the same one. -/
def validator (e : Evidence) : Address := e.first.body.validator

/-- The height of the two votes. -/
def height (e : Evidence) : Height := e.first.body.height

/-- The round of the two votes. -/
def round (e : Evidence) : Round := e.first.body.round

/-- The kind of the two votes. -/
def kind (e : Evidence) : VoteKind := e.first.body.kind

end Evidence

end Quorum
