/-
Many machines, one height, and a network that keeps no promises.

Every validator of a committee that is not faulty runs one machine. A step
of the whole is one input to one of them: a message, a start, or a timer.
Messages are whatever somebody cares to send, to whom and when he likes, so
loss, delay, repetition and reordering need no rules of their own, and a
faulty validator needs no state. A timer fires at any time after its
machine scheduled it.

# What is assumed

Three things are beyond the network, and they are the admission of an
input (`Committee.Admits`): nobody forges the vote of a correct validator,
nobody comes up with a block whose digest is the one that stands for
nothing, and timers are the machine's own. That the faulty weigh less than
a third is in the committee itself.

# What is kept

Each machine of a fleet lives by itself (`Faithful`): its life is one that
its own timers allow, and every well-signed vote it was given in the name
of a correct validator is among the votes of that validator's life, now and
ever after. From here on nothing depends on the order of steps.
-/
import Quorum.Proofs.Machine.Committing
import Quorum.Proofs.Validators.Weight

namespace Quorum

-- ======================================================= the committee

/-- The validators of one height, which of them are faulty, and how the
others run. -/
structure Committee where
  scope : Scope
  listed : List Validator
  built : ValidatorSet.ofList? listed = .ok scope.validators
  faulty : Address → Bool
  few : 3 * scope.validators.weight faulty < scope.validators.total.toNat
  setup : Address → Setup
  same_scope : ∀ address, (setup address).scope = scope
  own_name : ∀ address, (setup address).signer.address = address

/-- The machines of a fleet, each with its past, by their validators. -/
abbrev Fleet := Address → Life

namespace Committee

variable (c : Committee)

/-- A validator of the set that is not faulty. -/
def Correct (address : Address) : Prop :=
  address ∈ c.scope.validators.members.map (·.address)
    ∧ c.faulty address = false

instance (address : Address) : Decidable (c.Correct address) :=
  inferInstanceAs (Decidable (_ ∧ _))

/-- All validators before anything is given. -/
def atRest : Fleet := fun address => Life.initial (c.setup address)

variable [Crypto]

/-- A vote that, if it is signed at all, is one that its validator cast,
unless that one is faulty. -/
def Genuine (fleet : Fleet) (vote : Vote) : Prop :=
  vote.verify = true → c.Correct vote.body.validator →
    vote.body ∈ (fleet vote.body.validator).ballots

instance (fleet : Fleet) (vote : Vote) : Decidable (c.Genuine fleet vote) :=
  inferInstanceAs (Decidable (_ → _ → _))

/-- What can come: no forged vote of a correct validator, and no block that
is called nothing. -/
def Credible (fleet : Fleet) : Input → Prop
  | .message (.vote vote) => c.Genuine fleet vote
  | .message (.proposal proposal) => proposal.body.block.hash ≠ .nil
  | _ => True

/-- What may be given to one machine now: something credible, and of timers its
own. -/
def Admits (fleet : Fleet) (address : Address) (input : Input) : Prop :=
  ownTimers (fleet address) input ∧ c.Credible fleet input

/-- The fleet after one more input to one machine. -/
def next (fleet : Fleet) (address : Address) (w : World) (input : Input) :
    Fleet :=
  Function.update fleet address ((fleet address).next (c.setup address) w input)

/-- The fleets that come about, from all at rest, one input to one correct
validator after the other. -/
inductive Runs : Fleet → Prop
  | rest : Runs c.atRest
  | turn {fleet : Fleet} {address : Address} (w : World) (input : Input) :
      Runs fleet → c.Correct address → c.Admits fleet address input →
      Runs (c.next fleet address w input)

-- ============================================================= turns

variable {c} {fleet : Fleet} {address : Address} {w : World} {input : Input}

/-- The machine that was given something lives on. -/
theorem next_self : c.next fleet address w input address
    = (fleet address).next (c.setup address) w input :=
  Function.update_self ..

/-- The others do not notice. -/
theorem next_of_ne {other : Address} (ne : other ≠ address) :
    c.next fleet address w input other = fleet other :=
  Function.update_of_ne ne ..

/-- Votes that were cast stay cast. -/
theorem ballots_next (other : Address) :
    (fleet other).ballots ⊆ (c.next fleet address w input other).ballots := by
  by_cases same : other = address
  · subst same
    rw [next_self]
    intro ballot cast
    show ballot ∈ ballotsOf (_ ++ _)
    rw [ballotsOf_append]
    exact List.mem_append_left _ cast
  · rw [next_of_ne same]
    exact List.Subset.refl _

/-- A vote that is genuine now stays so, since nobody takes a ballot back. -/
theorem Genuine.next {vote : Vote} (h : c.Genuine fleet vote) :
    c.Genuine (c.next fleet address w input) vote :=
  fun signed correct => ballots_next _ (h signed correct)

-- ============================================================ faithful

/-- What is true of every fleet that comes about, without regard to how it
did. -/
structure Faithful (c : Committee) (fleet : Fleet) : Prop where
  lives : ∀ address, Reachable (c.setup address) ownTimers (fleet address)
  genuine : ∀ address vote, .message (.vote vote) ∈ (fleet address).given →
    c.Genuine fleet vote
  named : ∀ address proposal,
    .message (.proposal proposal) ∈ (fleet address).given →
    proposal.body.block.hash ≠ .nil

/-- One turn keeps a fleet faithful. -/
theorem Faithful.next (h : Faithful c fleet)
    (admitted : c.Admits fleet address input) :
    Faithful c (c.next fleet address w input) := by
  -- what anybody was given is what was given before, or the input
  have old_or_new : ∀ {other given},
      given ∈ (c.next fleet address w input other).given →
      given ∈ (fleet other).given ∨ given = input := by
    intro other given got
    by_cases same : other = address
    · subst same
      rw [next_self] at got
      exact (List.mem_append.1 got).imp_right List.mem_singleton.1
    · rw [next_of_ne same] at got
      exact Or.inl got
  constructor
  case lives =>
    intro other
    by_cases same : other = address
    · subst same
      rw [next_self]
      exact .next w input (h.lives other) admitted.1
    · rw [next_of_ne same]
      exact h.lives other
  case genuine =>
    intro other vote got
    rcases old_or_new got with before | rfl
    · exact (h.genuine other vote before).next
    · exact Genuine.next admitted.2
  case named =>
    intro other proposal got
    rcases old_or_new got with before | rfl
    · exact h.named other proposal before
    · exact admitted.2

/-- Every fleet that comes about is faithful. -/
theorem Runs.faithful (run : c.Runs fleet) : Faithful c fleet := by
  induction run with
  | rest => exact ⟨fun _ => .here, nofun, nofun⟩
  | turn w input _ _ admitted ih => exact ih.next admitted

-- ================================================================ runs

section

variable (c)

/-- Turns one after the other: whose, in what world, and with what. -/
def run (fleet : Fleet) (turns : List (Address × World × Input)) : Fleet :=
  turns.foldl (fun fleet turn => c.next fleet turn.1 turn.2.1 turn.2.2) fleet

/-- Each turn can be taken when it comes. -/
def AdmitsAll (fleet : Fleet) : List (Address × World × Input) → Prop
  | [] => True
  | (address, w, input) :: turns =>
    c.Correct address ∧ c.Admits fleet address input
      ∧ AdmitsAll (c.next fleet address w input) turns

instance (fleet : Fleet) (input : Input) : Decidable (c.Credible fleet input) :=
  match input with
  | .message (.vote vote) => inferInstanceAs (Decidable (c.Genuine fleet vote))
  | .message (.proposal proposal) =>
    inferInstanceAs (Decidable (proposal.body.block.hash ≠ .nil))
  | .message (.claim _) | .message (.holdings _) | .start | .timer _ =>
    inferInstanceAs (Decidable True)

instance (fleet : Fleet) (address : Address) (input : Input) :
    Decidable (c.Admits fleet address input) :=
  inferInstanceAs (Decidable (_ ∧ _))

instance decidableAdmitsAll (fleet : Fleet) :
    (turns : List (Address × World × Input)) →
    Decidable (c.AdmitsAll fleet turns)
  | [] => inferInstanceAs (Decidable True)
  | (address, w, input) :: turns =>
    have := decidableAdmitsAll (c.next fleet address w input) turns
    inferInstanceAs (Decidable (_ ∧ _ ∧ _))

end

/-- Turns that can be taken make a run. -/
theorem Runs.run {turns : List (Address × World × Input)} (run : c.Runs fleet)
    (admitted : c.AdmitsAll fleet turns) : c.Runs (c.run fleet turns) := by
  induction turns generalizing fleet with
  | nil => exact run
  | cons turn turns ih =>
    obtain ⟨correct, admits, rest⟩ := admitted
    exact ih (.turn turn.2.1 turn.2.2 run correct admits) rest

end Committee

end Quorum
