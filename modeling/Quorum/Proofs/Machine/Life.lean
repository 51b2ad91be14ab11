/-
The life of a machine: everything it was given and everything it asked
for, from rest on.

A claim about runs compares moments of one life, so a life keeps its past:
the inputs in the order they were handled, and the effects in the order
they were asked for. What inputs a machine can meet is a parameter. Some
facts hold whatever it is given (`anything`); others need its timers to
be its own (`ownTimers`), fired as late and as often as one likes.

`Leads.keeps` is the one induction over lives: what every act of every
admitted input keeps is kept between any two moments. The world may
answer differently at every input. What rests on those answers is kept by
`Life.after_keeps`, the same induction over the turns of a life.
-/
import Quorum.Proofs.Machine.Handling

namespace Quorum

-- =============================================================== lives

/-- A machine, what it was given and what it asked for, first one first. -/
structure Life where
  machine : Machine
  given : List Input
  asked : List Effect

namespace Life

/-- At rest, with nothing given and nothing asked for. -/
def initial (s : Setup) : Life := ⟨Machine.initial s, [], []⟩

/-- One input more. -/
def next [Crypto] (s : Setup) (w : World) (l : Life) (input : Input) :
    Life where
  machine := (l.machine.handle s w input).machine
  given := l.given ++ [input]
  asked := l.asked ++ (l.machine.handle s w input).effects

/-- The life after these inputs, each with what the world answers to it. -/
def run [Crypto] (s : Setup) (l : Life) (turns : List (World × Input)) : Life :=
  turns.foldl (fun l turn => l.next s turn.1 turn.2) l

/-- The life from rest on through these inputs. -/
def after [Crypto] (s : Setup) (turns : List (World × Input)) : Life :=
  (initial s).run s turns

end Life

-- ========================================================== admissions

/-- No input is ruled out: forged timers and repeated starts come, too. -/
def anything : Life → Input → Prop := fun _ _ => True

/-- A timer was scheduled in this list of effects. -/
def Scheduled (asked : List Effect) (timer : Timer) : Prop :=
  ∃ delay, .schedule timer delay ∈ asked

instance (asked : List Effect) (timer : Timer) :
    Decidable (Scheduled asked timer) :=
  decidable_of_iff ((asked.any fun effect =>
      match effect with
      | .schedule scheduled _ => scheduled == timer
      | _ => false) = true) <| by
    rw [List.any_eq_true]
    constructor
    · intro any
      obtain ⟨effect, asks, same⟩ := any
      cases effect with
      | schedule scheduled delay => exact ⟨delay, eq_of_beq same ▸ asks⟩
      | _ => cases same
    · intro scheduled
      obtain ⟨delay, asks⟩ := scheduled
      exact ⟨_, asks, beq_self_eq_true timer⟩

/-- Timers that fire are those the machine scheduled itself, at any time
after that and any number of times. -/
def ownTimers : Life → Input → Prop :=
  fun l input => ∀ timer, input = .timer timer → Scheduled l.asked timer

instance (l : Life) (input : Input) : Decidable (ownTimers l input) :=
  match input with
  | .timer timer =>
    decidable_of_iff (Scheduled l.asked timer)
      ⟨fun scheduled _ fired => Input.timer.inj fired ▸ scheduled,
        fun own => own timer rfl⟩
  | .start => .isTrue nofun
  | .message _ => .isTrue nofun

/-- Whether it is a timer that fires. -/
def Input.isTimer : Input → Bool
  | .timer _ => true
  | _ => false

/-- An input that is no timer is never ruled out. -/
theorem ownTimers_of_untimed {input : Input} (untimed : input.isTimer = false)
    (l : Life) : ownTimers l input := by
  intro timer fired
  rw [fired] at untimed
  cases untimed

/-- One moment of a life leads to another by admitted inputs. -/
inductive Leads [Crypto] (s : Setup) (admits : Life → Input → Prop) (l : Life) :
    Life → Prop
  | here : Leads s admits l l
  | next {l' : Life} (w : World) (input : Input) :
      Leads s admits l l' → admits l' input →
      Leads s admits l (l'.next s w input)

/-- A life that began at rest. -/
def Reachable [Crypto] (s : Setup) (admits : Life → Input → Prop) (l : Life) :
    Prop :=
  Leads s admits (Life.initial s) l

-- ========================================================== inductions

variable [Crypto] {s : Setup} {w : World} {input : Input}
  {admits : Life → Input → Prop}

/-- What one act keeps, acts one after the other keep. -/
theorem Acts.keeps {P : Machine → List Effect → Prop}
    (step : ∀ {m m' es asked}, Act s w input m es m' → P m asked →
      P m' (asked ++ es))
    {m m' : Machine} {es asked : List Effect} (acts : Acts s w input m es m')
    (start : P m asked) : P m' (asked ++ es) := by
  induction acts generalizing asked with
  | rest m =>
    rw [List.append_nil]
    exact start
  | act first _ ih =>
    rw [← List.append_assoc]
    exact ih (step first start)

/-- What the acts of every admitted input keep holds as long as it lives.
An act may rely on its input having been admitted before it, and on all
that was given up to there. -/
theorem Leads.keeps {P : List Input → Machine → List Effect → Prop}
    (step : ∀ {l w input m m' es asked}, admits l input → l.asked <+: asked →
      Act s w input m es m' → P (l.given ++ [input]) m asked →
      P (l.given ++ [input]) m' (asked ++ es))
    (more : ∀ {given m asked} (input : Input), P given m asked →
      P (given ++ [input]) m asked)
    {l l' : Life} (leads : Leads s admits l l')
    (start : P l.given l.machine l.asked) :
    P l'.given l'.machine l'.asked := by
  induction leads with
  | here => exact start
  | @next l' w input _ admitted ih =>
    have kept := Acts.keeps (P := fun m asked => l'.asked <+: asked
        ∧ P (l'.given ++ [input]) m asked)
      (fun act held => ⟨held.1.trans (List.prefix_append _ _),
        step admitted held.1 act held.2⟩)
      (l'.machine.handle_acts s w input) ⟨List.prefix_refl _, more input ih⟩
    exact kept.2

/-- Nothing that was given or asked for is taken back. -/
theorem Leads.extends {l l' : Life} (leads : Leads s admits l l') :
    l.given <+: l'.given ∧ l.asked <+: l'.asked := by
  induction leads with
  | here => exact ⟨List.prefix_refl _, List.prefix_refl _⟩
  | next w input _ _ ih =>
    exact ⟨ih.1.trans (List.prefix_append _ _),
      ih.2.trans (List.prefix_append _ _)⟩

theorem Leads.trans {l l' l'' : Life} (h : Leads s admits l l')
    (h' : Leads s admits l' l'') :
    Leads s admits l l'' := by
  induction h' with
  | here => exact h
  | next w input _ admitted ih => exact .next w input ih admitted

/-- Inputs that are never ruled out lead on. -/
theorem leads_run (s : Setup) (l : Life) (turns : List (World × Input))
    (admitted : ∀ turn ∈ turns, ∀ l, admits l turn.2) :
    Leads s admits l (l.run s turns) := by
  induction turns generalizing l with
  | nil => exact .here
  | cons turn turns ih =>
    have first : Leads s admits l (l.next s turn.1 turn.2) :=
      .next turn.1 turn.2 .here (admitted turn List.mem_cons_self l)
    exact first.trans (ih _ fun t ht => admitted t (List.mem_cons_of_mem _ ht))

/-- Any inputs whatever make a life. -/
theorem reachable_after (s : Setup) (turns : List (World × Input)) :
    Reachable s anything (Life.after s turns) :=
  leads_run s _ turns fun _ _ _ => trivial

-- =============================================================== turns

namespace Life

theorem after_append (s : Setup) (turns more : List (World × Input)) :
    after s (turns ++ more) = (after s turns).run s more :=
  List.foldl_append

theorem given_run (s : Setup) (l : Life) (turns : List (World × Input)) :
    (l.run s turns).given = l.given ++ turns.map (·.2) := by
  induction turns generalizing l with
  | nil => exact (List.append_nil _).symm
  | cons turn turns ih =>
    show ((l.next s turn.1 turn.2).run s turns).given = _
    rw [ih]
    exact List.append_assoc l.given [turn.2] _

theorem given_after (s : Setup) (turns : List (World × Input)) :
    (after s turns).given = turns.map (·.2) :=
  given_run s (initial s) turns

/-- Every turn's input is admitted when it comes. -/
def Admits (s : Setup) (admits : Life → Input → Prop) :
    Life → List (World × Input) → Prop
  | _, [] => True
  | l, turn :: turns =>
    admits l turn.2 ∧ Admits s admits (l.next s turn.1 turn.2) turns

instance decidableAdmits (s : Setup) (admits : Life → Input → Prop)
    [∀ l input, Decidable (admits l input)] :
    (l : Life) → (turns : List (World × Input)) →
    Decidable (Admits s admits l turns)
  | _, [] => inferInstanceAs (Decidable True)
  | l, turn :: turns =>
    have := decidableAdmits s admits (l.next s turn.1 turn.2) turns
    inferInstanceAs (Decidable (_ ∧ _))

theorem admits_append {l : Life} {turns more : List (World × Input)} :
    Admits s admits l (turns ++ more)
      ↔ Admits s admits l turns ∧ Admits s admits (l.run s turns) more := by
  induction turns generalizing l with
  | nil => exact ⟨fun h => ⟨trivial, h⟩, fun h => h.2⟩
  | cons turn turns ih =>
    show admits l turn.2
        ∧ Admits s admits (l.next s turn.1 turn.2) (turns ++ more)
      ↔ (_ ∧ _) ∧ _
    rw [ih, and_assoc]
    exact Iff.rfl

/-- Turns that are admitted one by one lead on. -/
theorem Admits.leads {l : Life} {turns : List (World × Input)}
    (admitted : Admits s admits l turns) :
    Leads s admits l (l.run s turns) := by
  induction turns generalizing l with
  | nil => exact .here
  | cons turn turns ih =>
    have first : Leads s admits l (l.next s turn.1 turn.2) :=
      .next turn.1 turn.2 .here admitted.1
    exact first.trans (ih admitted.2)

/-- What the acts of every turn keep, all turns together keep. An act may
rely on its turn being one of those taken so far, and on the world's
answers to the earlier ones. -/
theorem after_keeps {P : List (World × Input) → Machine → List Effect → Prop}
    (step : ∀ {turns w input m m' es asked}, Act s w input m es m' →
      P (turns ++ [(w, input)]) m asked →
      P (turns ++ [(w, input)]) m' (asked ++ es))
    (more : ∀ {turns m asked} (turn : World × Input), P turns m asked →
      P (turns ++ [turn]) m asked)
    (start : P [] (Machine.initial s) []) (turns : List (World × Input)) :
    P turns (after s turns).machine (after s turns).asked := by
  -- the induction is on the turns to come, after any that are past
  have go : ∀ (turns past : List (World × Input)),
      P past (after s past).machine (after s past).asked →
      P (past ++ turns) (after s (past ++ turns)).machine
        (after s (past ++ turns)).asked := by
    intro turns
    induction turns with
    | nil =>
      intro past held
      rw [List.append_nil]
      exact held
    | cons turn turns ih =>
      intro past held
      rw [List.append_cons]
      refine ih _ ?_
      rw [after_append]
      exact Acts.keeps (P := P (past ++ [turn])) (fun act held => step act held)
        ((after s past).machine.handle_acts s turn.1 turn.2) (more turn held)
  exact go turns [] start

end Life

end Quorum
