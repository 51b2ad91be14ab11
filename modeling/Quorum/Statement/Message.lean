/-
Everything that travels between validators: one of four signed
statements, laid out as one byte for which of them it is and then the
statement.
-/
import Quorum.Statement.Proposal
import Quorum.Statement.Gossip

namespace Quorum

/-- One of the four signed statements. -/
inductive Message where
  | proposal (proposal : Proposal)
  | vote (vote : Vote)
  | claim (claim : Claim)
  | holdings (holdings : Holdings)
deriving DecidableEq

namespace Message

/-- The height a message is about. -/
def height : Message → Height
  | .proposal m => m.body.height
  | .vote m => m.body.height
  | .claim m => m.body.height
  | .holdings m => m.body.height

/-- The round a message is about. -/
def round : Message → Round
  | .proposal m => m.body.round
  | .vote m => m.body.round
  | .claim m => m.body.round
  | .holdings m => m.body.round

/-- Who the message says it is from. -/
def author : Message → Address
  | .proposal m => m.author
  | .vote m => m.author
  | .claim m => m.author
  | .holdings m => m.author

/-- Whether the named author made the signature. -/
def verify [Crypto] : Message → Bool
  | .proposal m => m.verify
  | .vote m => m.verify
  | .claim m => m.verify
  | .holdings m => m.verify

/-- Whether this is a proposal or vote of `me`: what a validator sends
out and also has to take in itself. -/
def isOwnInput (me : Address) : Message → Bool
  | .proposal m => m.author == me
  | .vote m => m.author == me
  | .claim _ => false
  | .holdings _ => false

/-- One byte for which of the four it is, then the statement. -/
def layout : Wire.Layout Message where
  write
    | .proposal m => 0 :: Signed.layout.write m
    | .vote m => 1 :: Signed.layout.write m
    | .claim m => 2 :: Signed.layout.write m
    | .holdings m => 3 :: Signed.layout.write m
  read
    | [] => .error .endOfInput
    | b :: rest =>
      if b = 0 then Wire.Reader.map proposal Signed.layout.read rest
      else if b = 1 then Wire.Reader.map vote Signed.layout.read rest
      else if b = 2 then Wire.Reader.map claim Signed.layout.read rest
      else if b = 3 then Wire.Reader.map holdings Signed.layout.read rest
      else .error (.unknownTag b)

end Message

end Quorum
