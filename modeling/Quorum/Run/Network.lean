/-
Validators of equal power in one process, deciding height after height.

Every validator has a ledger of its own. For each height every online one
gets a fresh node, and what a node publishes is posted to all the others.
A proposal that comes before its round is refused, so proposals are also
logged and posted again to a node when it enters their round. Time stands
still while anything is left to do; then it jumps to the next timer.
-/
import Quorum.Run.Node

namespace Quorum

/-- One validator of the network, with the chain as it has it. -/
structure Member where
  signer : Signer
  ledger : Ledger
  online : Bool
  /-- Against anybody, at any height. -/
  evidence : List Evidence := []

/-- The members and what they all run with. -/
structure Network where
  members : List Member
  settings : Settings

/-- Why a network cannot be built, or a height not decided. -/
inductive NetworkFault where
  | noValidators
  | noneOnline
  | node (fault : Fault)
  | ledger (fault : BlockFault)
  | undecided (height : Height) (timeout completed online : Nat)
  | diverged (member : Nat) (other : BlockHash) (height : Height) (expected : BlockHash)
deriving DecidableEq

/-- A length of time in milliseconds, in seconds where there are any, and
with no more digits than it has. -/
def durationText (millis : Nat) : String :=
  if millis = 0 then "0ns"
  else if millis < 1000 then toString millis ++ "ms"
  else
    let fraction := millis % 1000
    let digits := (toString (1000 + fraction)).toList.drop 1
    let kept := (digits.reverse.dropWhile (· == '0')).reverse
    toString (millis / 1000)
      ++ (if kept.isEmpty then "" else "." ++ String.ofList kept) ++ "s"

/-- The wording of each cause. -/
def NetworkFault.message : NetworkFault → String
  | .noValidators => "need at least one validator"
  | .noneOnline => "at least one validator must be online"
  | .node fault => fault.text
  | .ledger fault => fault.message
  | .undecided height timeout completed online =>
    "height " ++ decimal height ++ " not decided within " ++ durationText timeout ++ " ("
      ++ toString completed ++ "/" ++ toString online ++ " validators completed)"
  | .diverged member other height expected =>
    "validator " ++ toString member ++ " decided " ++ other.text ++ " at height "
      ++ decimal height ++ ", expected " ++ expected.text

/-- What a height ended with. -/
structure HeightReport where
  height : Height
  round : Round
  block : Block

-- ============================================================= floor

/-- The nodes of one height at work: those online, what they published
of proposals, and the blocks they completed, by position. -/
structure Floor where
  nodes : List Node
  proposals : List Message := []
  completed : List (Nat × Block × Certificate) := []

namespace Floor

variable [Crypto] (worlds : Nat → World)

/-- Change the node at one position and leave the others. -/
def onNode (f : Floor) (index : Nat) (change : Node → Node) : Floor :=
  { f with nodes := f.nodes.modify index change }

/-- Post a message to a node; one that has ended takes no more. -/
def post (f : Floor) (message : Message) (index : Nat) : Floor :=
  f.onNode index fun n =>
    match n.post message with
    | .ok n => n
    | .error _ => n

/-- What the others make of a node's event. -/
def relay (index : Nat) (f : Floor) : Event → Floor
  | .messagePublished message =>
    let f :=
      match message with
      | .proposal _ => { f with proposals := f.proposals ++ [message] }
      | _ => f
    ((List.range f.nodes.length).filter (· != index)).foldl (fun f peer => f.post message peer) f
  | .roundStarted _ round =>
    (f.proposals.filter (fun message => message.round == round)).foldl
      (fun f message => f.post message index) f
  | .completed block certificate =>
    { f with completed := f.completed ++ [(index, block, certificate)] }
  | _ => f

/-- Let nodes work, one input of one node at a time, until all are
quiet. -/
def settle : Nat → Floor → Floor
  | 0, f => f
  | budget + 1, f =>
    match f.nodes.findIdx? (fun n => n.phase == .running && !n.queue.isEmpty) with
    | none => f
    | some index =>
      match f.nodes[index]? with
      | none => f
      | some n =>
        let (events, n) := n.drain (worlds index) 1
        settle budget (events.foldl (relay index) (f.onNode index fun _ => n))

/-- The time the next timer is due. -/
def nextDue? (f : Floor) : Option Nat := (f.nodes.flatMap (fun n => n.timers.map (·.1))).min?

/-- Set all clocks to a time and queue the timers due then. -/
def setClock (f : Floor) (time : Nat) : Floor :=
  { f with
    nodes := f.nodes.map fun n =>
      let (due, later) := n.timers.partition fun timer => timer.1 ≤ time
      { n with
        clock := time
        timers := later
        queue := n.queue ++ due.map fun timer => Input.timer timer.2 } }

/-- Let time pass until every node has completed, or until the timeout;
whether every node has completed. -/
def run (budget timeout : Nat) : Nat → Floor → Floor × Bool
  | 0, f => (f, false)
  | jumps + 1, f =>
    let f := f.settle worlds budget
    if f.nodes.length ≤ f.completed.length then (f, true)
    else
      match f.nextDue? with
      | none => (f, false)
      | some due => if due < timeout then run budget timeout jumps (f.setClock due) else (f, false)

end Floor

-- =========================================================== network

namespace Network

variable [Crypto]

/-- A network of these signers, all of power 1, the last `offline` of
whom never start. -/
def ofSigners? (signers : List Signer) (offline : Nat) (settings : Settings) :
    Except NetworkFault Network :=
  if signers.isEmpty then .error .noValidators
  else if signers.length ≤ offline then .error .noneOnline
  else
    match ValidatorSet.ofList? (signers.map fun signer => ⟨signer.address, 1⟩) with
    | .error fault => .error (.node (.validatorSet fault))
    | .ok validators =>
      let online := signers.length - offline
      .ok ⟨signers.mapIdx fun index signer =>
        ⟨signer, { validators := validators }, decide (index < online), []⟩, settings⟩

/-- Let the same transaction wait at every member. -/
def submit (n : Network) (tx : Bytes) : Network :=
  { n with members := n.members.map fun m => { m with ledger := m.ledger.addTransaction tx } }

/-- The height of the first member's last block. -/
def tipHeight (n : Network) : Height := ((n.members.head?).map (·.ledger.tipHeight)).getD 0

/-- How much evidence the members have seen. -/
def evidenceCount (n : Network) : Nat := 
  n.members.foldl (fun count m => count + m.evidence.length) 0

/-- Append a decided block at every member. -/
def appendAll (block : Block) (certificate : Certificate) :
    List Member → Except BlockFault (List Member)
  | [] => .ok []
  | m :: ms =>
    match m.ledger.append block certificate with
    | .error fault => .error fault
    | .ok ledger =>
      match appendAll block certificate ms with
      | .error fault => .error fault
      | .ok ms => .ok ({ m with ledger := ledger } :: ms)

/-- A node of a member for a height, already started. -/
def nodeOf (settings : Settings) (height : Height) (m : Member) : Except Fault Node :=
  match Setup.ofLedger? m.ledger height m.signer settings with
  | .error fault => .error fault
  | .ok setup =>
    let machine := { Machine.initial setup with evidence := m.evidence }
    ({ setup := setup, machine := machine } : Node).start

/-- Put the evidence of the online members' nodes back, in order. -/
def collectEvidence : List Member → List Node → List Member
  | [], _ => []
  | m :: ms, nodes =>
    if m.online then
      match nodes with
      | n :: nodes => { m with evidence := n.machine.evidence } :: collectEvidence ms nodes
      | [] => m :: ms
    else m :: collectEvidence ms nodes

/-- What the nodes of a height decided, once they were all stopped. -/
def verdict (height : Height) (timeout : Nat) (f : Floor) (finished : Bool) :
    Except NetworkFault (Block × Certificate) :=
  match f.nodes.findSome? (·.failure) with
  | some fault => .error (.node fault)
  | none =>
    match finished, f.completed with
    | true, (_, block, certificate) :: others =>
      match others.find? (fun other => other.2.1.hash != block.hash) with
      | some (member, other, _) => .error (.diverged member other.hash height block.hash)
      | none => .ok (block, certificate)
    | _, _ => .error (.undecided height timeout f.completed.length f.nodes.length)

/-- Decide the next height, if that can be done within the timeout. -/
def runHeight (budget : Nat) (now : Millis) (timeout : Nat) (n : Network) :
    Except NetworkFault HeightReport × Network :=
  let height := n.tipHeight + 1
  let online := n.members.filter (·.online)
  match online.mapM (nodeOf n.settings height) with
  | .error fault => (.error (.node fault), n)
  | .ok nodes =>
    let nobody : Ledger := { validators := ⟨[], 0⟩ }
    let worlds (index : Nat) : World :=
      ((online[index]?).elim nobody Member.ledger).world now
    let (floor, finished) :=
      if timeout = 0 then ({ nodes := nodes }, false)
      else Floor.run worlds budget timeout budget { nodes := nodes }
    let n := { n with members := collectEvidence n.members floor.nodes }
    match verdict height timeout floor finished with
    | .error fault => (.error fault, n)
    | .ok (block, certificate) =>
      match appendAll block certificate n.members with
      | .error fault => (.error (.ledger fault), n)
      | .ok members => (.ok ⟨height, certificate.round, block⟩, { n with members := members })

end Network

end Quorum
