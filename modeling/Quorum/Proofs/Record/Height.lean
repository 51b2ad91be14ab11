/-
What the record of a height keeps.

Whatever is done to the rounds of a height, votes are only added to their
tallies and majorities stay (`HeightLog.Grows`), every tally is that of
its round and kind with votes that may be counted there, and every
proposal is one of its round that was taken up (`HeightLog.Sound`). The
armed timers and other marks may change freely.

A stored round replaces the one of its number, so both are shown for one
round that is put in place, and every operation is that or a sequence of
it.
-/
import Quorum.Proofs.Record.Tally
import Quorum.Record.Height

namespace Quorum

-- ============================================================= looking

namespace HeightLog

/-- The tally of a round and kind, if the round exists. -/
def tallyOf? (h : HeightLog) (round : Round) (kind : VoteKind) : Option Tally :=
  (h.get? round).bind (·.tally? kind)

/-- What is found under a number has that number. -/
theorem round_of_get? {h : HeightLog} {round : Round} {l : RoundLog}
    (found : h.get? round = some l) : l.round = round := by
  simpa using List.find?_some found

/-- A record has the number it was looked for under, found or fresh. -/
theorem round_getOrFresh (h : HeightLog) (round : Round) :
    (h.getOrFresh round).round = round := by
  unfold getOrFresh
  cases found : h.get? round with
  | none => rfl
  | some l => exact round_of_get? found

/-- A stored round is read with the tallies it was stored with. -/
theorem tallyOf?_put_self (h : HeightLog) (l : RoundLog) (kind : VoteKind) :
    (h.put l).tallyOf? l.round kind = l.tally? kind := by
  unfold tallyOf?
  rw [get?_put_self]
  rfl

/-- The tallies of other rounds are read as before. -/
theorem tallyOf?_put_of_ne (h : HeightLog) {l : RoundLog} {round : Round}
    (ne : round ≠ l.round) (kind : VoteKind) :
    (h.put l).tallyOf? round kind = h.tallyOf? round kind := by
  unfold tallyOf?
  rw [get?_put_of_ne h ne]

/-- A tally that is there is that of the record, fresh or not. -/
theorem tally?_getOrFresh {h : HeightLog} {round : Round} {kind : VoteKind}
    {t : Tally} (found : h.tallyOf? round kind = some t) :
    (h.getOrFresh round).tally? kind = some t := by
  unfold tallyOf? at found
  unfold getOrFresh
  cases here : h.get? round with
  | none =>
    rw [here] at found
    cases found
  | some l =>
    rw [here] at found
    exact found

-- ============================================================== growth

/-- Every tally is still there, with its votes and its majority. -/
def Grows (h h' : HeightLog) : Prop :=
  ∀ round kind t, h.tallyOf? round kind = some t →
    ∃ t', h'.tallyOf? round kind = some t' ∧ t.Grows t'

theorem Grows.refl (h : HeightLog) : h.Grows h :=
  fun _ _ t found => ⟨t, found, .refl t⟩

/-- Growth adds up over any stretch. -/
theorem Grows.trans {h h' h'' : HeightLog} (first : h.Grows h')
    (second : h'.Grows h'') : h.Grows h'' := by
  intro round kind t found
  obtain ⟨t', found', grows⟩ := first round kind t found
  obtain ⟨t'', found'', grows'⟩ := second round kind t' found'
  exact ⟨t'', found'', grows.trans grows'⟩

/-- A round that is there stays there. -/
theorem Grows.exists_get? {h h' : HeightLog} (grows : h.Grows h') {round : Round}
    {l : RoundLog} (here : h.get? round = some l) : ∃ l, h'.get? round = some l := by
  have stored : h.tallyOf? round .prevote = some l.prevotes := by
    unfold tallyOf?
    rw [here]
    rfl
  obtain ⟨_, stored', -⟩ := grows _ _ _ stored
  obtain ⟨l', here', -⟩ := Option.bind_eq_some_iff.1 stored'
  exact ⟨l', here'⟩

/-- A round may be replaced by one whose tallies have grown. -/
theorem grows_put {h : HeightLog} {l : RoundLog}
    (step : ∀ kind t, (h.getOrFresh l.round).tally? kind = some t →
      ∃ t', l.tally? kind = some t' ∧ t.Grows t') : h.Grows (h.put l) := by
  intro round kind t found
  by_cases here : round = l.round
  · subst here
    obtain ⟨t', found', grows⟩ := step kind t (tally?_getOrFresh found)
    exact ⟨t', (tallyOf?_put_self h l kind).trans found', grows⟩
  · exact ⟨t, (tallyOf?_put_of_ne h here kind).trans found, .refl t⟩

-- =========================================================== soundness

end HeightLog

/-- What is true of the record of a round, when the votes that came in are
among those `heard` and the proposals taken up are among those
`offered`. -/
structure RoundLog.Sound (s : Scope) (heard : Vote → Prop)
    (offered : Proposal → Prop) (l : RoundLog) : Prop where
  tally : ∀ kind t, l.tally? kind = some t → t.Sound s heard l.round kind
  proposal : ∀ p, l.proposal = some p → p.body.round = l.round ∧ offered p

/-- Of a round without votes and proposals everything holds. -/
theorem RoundLog.sound_fresh (s : Scope) (heard : Vote → Prop)
    (offered : Proposal → Prop) (round : Round) :
    (RoundLog.fresh round).Sound s heard offered where
  tally kind t found := by
    cases kind with
    | null => cases found
    | prevote =>
      cases found
      exact Tally.sound_empty s heard round .prevote
    | precommit =>
      cases found
      exact Tally.sound_empty s heard round .precommit
  proposal _ none_ := by cases none_

namespace HeightLog

/-- The record of every round is sound. -/
def Sound (s : Scope) (heard : Vote → Prop) (offered : Proposal → Prop)
    (h : HeightLog) : Prop :=
  ∀ round l, h.get? round = some l → l.Sound s heard offered

variable {s : Scope} {heard : Vote → Prop} {offered : Proposal → Prop}
  {h : HeightLog}

/-- Any tally that can be found is sound. -/
theorem Sound.tallyOf? (sound : h.Sound s heard offered) {round : Round}
    {kind : VoteKind} {t : Tally} (found : h.tallyOf? round kind = some t) :
    t.Sound s heard round kind := by
  obtain ⟨l, here, tally⟩ := Option.bind_eq_some_iff.1 found
  rw [← round_of_get? here]
  exact (sound round l here).tally kind t tally

/-- A sound log stays sound as more is heard and offered. -/
theorem Sound.mono {heard' : Vote → Prop} {offered' : Proposal → Prop}
    (sound : h.Sound s heard offered) (more : ∀ vote, heard vote → heard' vote)
    (more' : ∀ p, offered p → offered' p) : h.Sound s heard' offered' := by
  intro round l found
  refine ⟨fun kind t ht => ((sound round l found).tally kind t ht).mono more,
    fun p hp => ?_⟩
  exact ((sound round l found).proposal p hp).imp_right (more' p)

/-- A round is sound before it exists, too. -/
theorem Sound.getOrFresh (sound : h.Sound s heard offered) (round : Round) :
    (h.getOrFresh round).Sound s heard offered := by
  unfold HeightLog.getOrFresh
  cases here : h.get? round with
  | none => exact RoundLog.sound_fresh s heard offered round
  | some l => exact sound round l here

/-- A sound round may be stored in a sound log. -/
theorem Sound.put (sound : h.Sound s heard offered) {l : RoundLog}
    (replaced : l.Sound s heard offered) : (h.put l).Sound s heard offered := by
  intro round m found
  by_cases here : round = l.round
  · subst here
    rw [get?_put_self] at found
    cases found
    exact replaced
  · rw [get?_put_of_ne h here] at found
    exact sound round m found

-- ============================================================ keeping

/-- What an operation may do to a log: add to it, and nothing unsound but
votes that are `news` and proposals that are `fresh`. -/
structure Keeps (s : Scope) (news : Vote → Prop) (fresh : Proposal → Prop)
    (h h' : HeightLog) : Prop where
  grows : h.Grows h'
  sound : ∀ heard offered, (∀ vote, news vote → heard vote) →
    (∀ p, fresh p → offered p) → h.Sound s heard offered →
    h'.Sound s heard offered

variable {news : Vote → Prop} {fresh : Proposal → Prop}

theorem Keeps.refl (h : HeightLog) : h.Keeps s news fresh h :=
  ⟨.refl h, fun _ _ _ _ sound => sound⟩

/-- One operation after another keeps what both keep. -/
theorem Keeps.trans {h' h'' : HeightLog} (first : h.Keeps s news fresh h')
    (second : h'.Keeps s news fresh h'') : h.Keeps s news fresh h'' where
  grows := first.grows.trans second.grows
  sound heard offered hn hf sound :=
    second.sound heard offered hn hf (first.sound heard offered hn hf sound)

/-- Nothing but the rounds is looked at. -/
theorem keeps_of_rounds_eq {h' : HeightLog} (same : h'.rounds = h.rounds) :
    h.Keeps s news fresh h' := by
  have looks : ∀ round, h'.get? round = h.get? round := by
    intro round
    unfold get?
    rw [same]
  constructor
  case grows =>
    intro round kind t found
    refine ⟨t, ?_, .refl t⟩
    unfold tallyOf?
    rw [looks]
    exact found
  case sound =>
    intro heard offered _ _ sound round l found
    rw [looks] at found
    exact sound round l found

/-- A round that has the tallies of the one it replaces, and its proposal
or none. -/
structure Remarks (h : HeightLog) (l : RoundLog) : Prop where
  tally : ∀ kind, l.tally? kind = (h.getOrFresh l.round).tally? kind
  proposal : ∀ p, l.proposal = some p → (h.getOrFresh l.round).proposal = some p

/-- New marks on a round, or its proposal dropped. -/
theorem keeps_put_marks {l : RoundLog} (same : h.Remarks l) :
    h.Keeps s news fresh (h.put l) := by
  constructor
  case grows =>
    exact grows_put fun kind t found =>
      ⟨t, (same.tally kind).trans found, .refl t⟩
  case sound =>
    intro heard offered _ _ sound
    have before := sound.getOrFresh l.round
    refine sound.put ⟨fun kind t found => ?_, fun p found => ?_⟩
    · have tally := before.tally kind t ((same.tally kind).symm.trans found)
      rw [round_getOrFresh] at tally
      exact tally
    · have proposal := before.proposal p (same.proposal p found)
      rw [round_getOrFresh] at proposal
      exact proposal

/-- A mark on a round leaves its number, its tallies and its proposal. -/
theorem remarks_of_marks {round : Round} {f : RoundLog → RoundLog}
    (keeps : ∀ l, (f l).round = l.round)
    (prevotes : ∀ l, (f l).prevotes = l.prevotes)
    (precommits : ∀ l, (f l).precommits = l.precommits)
    (proposal : ∀ l p, (f l).proposal = some p → l.proposal = some p) :
    h.Remarks (f (h.getOrFresh round)) := by
  constructor
  case tally =>
    intro kind
    rw [keeps, round_getOrFresh]
    cases kind with
    | null => rfl
    | prevote => exact congrArg some (prevotes _)
    | precommit => exact congrArg some (precommits _)
  case proposal =>
    intro p found
    rw [keeps, round_getOrFresh]
    exact proposal _ p found

-- ===================================================== opening rounds

/-- A round that is opened is what its absence was read as. -/
theorem remarks_fresh {round : Round} (absent : h.get? round = none) :
    h.Remarks (RoundLog.fresh round) := by
  have fresh : h.getOrFresh round = RoundLog.fresh round := by
    unfold HeightLog.getOrFresh
    rw [absent]
    rfl
  constructor
  case tally =>
    intro kind
    exact congrArg (·.tally? kind) fresh.symm
  case proposal =>
    intro p none_
    cases none_

/-- Opening a round is no move. -/
theorem round_openRound (h : HeightLog) (round : Round) :
    (h.openRound round).round = h.round := by
  unfold openRound
  split <;> rfl

/-- A round may be opened at any time. -/
theorem keeps_openRound (h : HeightLog) (round : Round) :
    h.Keeps s news fresh (h.openRound round) := by
  unfold openRound
  split
  case isTrue => exact .refl h
  case isFalse absent =>
    exact keeps_put_marks (remarks_fresh (by simpa using absent))

/-- And so may several. -/
theorem keeps_openRounds (h : HeightLog) (round count : Nat) :
    h.Keeps s news fresh (h.openRounds round count) := by
  induction count generalizing h round with
  | zero => exact .refl h
  | succ count ih => exact (keeps_openRound h _).trans (ih _ _)

/-- A move goes forward, and opens all rounds on the way. -/
theorem setRound_eq_ok_iff {round : Round} {h' : HeightLog} :
    h.setRound round = .ok h' ↔ h.round ≤ round
      ∧ h' = { h.openRounds h.round.toNat (round.toNat - h.round.toNat + 1) with
        round := round } := by
  unfold setRound
  split
  case isTrue back =>
    exact iff_of_false nofun fun moved => UInt32.not_lt.2 moved.1 back
  case isFalse forward =>
    rw [Except.ok.injEq, eq_comm]
    exact (and_iff_right (UInt32.not_lt.1 forward)).symm

/-- Moving to a round goes forward. -/
theorem round_setRound {round : Round} {h' : HeightLog}
    (moved : h.setRound round = .ok h') :
    h.round ≤ round ∧ h'.round = round := by
  obtain ⟨forward, rfl⟩ := setRound_eq_ok_iff.1 moved
  exact ⟨forward, rfl⟩

/-- A move opens the rounds passed over. -/
theorem keeps_setRound {round : Round} {h' : HeightLog}
    (moved : h.setRound round = .ok h') :
    h.Keeps s news fresh h' := by
  obtain ⟨-, rfl⟩ := setRound_eq_ok_iff.1 moved
  exact (keeps_openRounds h _ _).trans (keeps_of_rounds_eq rfl)

/-- To open a round for somebody is to open it, and to charge for it if it is far
ahead and was not there. -/
theorem openFor?_cases {round : Round} {author : Address} {h' : HeightLog}
    (opened : h.openFor? round author = some h') :
    h.get? round = none ∧ h.charged author < catchUpAllowance
        ∧ h' = { h.openRound round with charges := h.charges ++ [(author, round)] }
      ∨ (h.get? round = none → h.isAhead round = false) ∧ h' = h.openRound round := by
  unfold openFor? at opened
  split at opened
  case isTrue charged =>
    have absent := Option.isNone_iff_eq_none.1 (Bool.and_eq_true_iff.1 charged).2
    split at opened
    case isTrue => cases opened
    case isFalse left =>
      cases opened
      exact Or.inl ⟨absent, Nat.not_le.1 left, rfl⟩
  case isFalse free =>
    cases opened
    refine Or.inr ⟨fun absent => ?_, rfl⟩
    rw [absent] at free
    simpa using free

/-- To open a round for somebody is no move either, charged or not. -/
theorem round_openFor? {round : Round} {author : Address} {h' : HeightLog}
    (opened : h.openFor? round author = some h') : h'.round = h.round := by
  rcases openFor?_cases opened with ⟨-, -, rfl⟩ | ⟨-, rfl⟩
  · exact round_openRound h round
  · exact round_openRound h round

/-- What a charge pays for is one round that is opened. -/
theorem keeps_openFor? {round : Round} {author : Address} {h' : HeightLog}
    (opened : h.openFor? round author = some h') : h.Keeps s news fresh h' := by
  rcases openFor?_cases opened with ⟨-, -, rfl⟩ | ⟨-, rfl⟩
  · exact (keeps_openRound h round).trans (keeps_of_rounds_eq rfl)
  · exact keeps_openRound h round

-- ============================================================== tallies

/-- A round with one tally put in place of that of its kind. -/
theorem tally?_setTally {l : RoundLog} {kind : VoteKind} {t : Tally}
    (old : Tally) (found : l.tally? kind = some old) (other : VoteKind) :
    (l.setTally kind t).tally? other
      = if other = kind then some t else l.tally? other := by
  cases kind with
  | null => cases found
  | prevote => cases other <;> rfl
  | precommit => cases other <;> rfl

/-- A tally is put in its place within a round, which keeps its number. -/
theorem round_setTally (l : RoundLog) (kind : VoteKind) (t : Tally) :
    (l.setTally kind t).round = l.round := by
  cases kind <;> rfl

/-- The proposal of the round is not touched. -/
theorem proposal_setTally (l : RoundLog) (kind : VoteKind) (t : Tally) :
    (l.setTally kind t).proposal = l.proposal := by
  cases kind <;> rfl

/-- One tally of a round may be replaced by a larger one. -/
theorem keeps_put_setTally {round : Round} {kind : VoteKind} {t t' : Tally}
    (found : (h.getOrFresh round).tally? kind = some t) (grows : t.Grows t')
    (sound' : ∀ heard, (∀ vote, news vote → heard vote) →
      t.Sound s heard round kind → t'.Sound s heard round kind) :
    h.Keeps s news fresh (h.put ((h.getOrFresh round).setTally kind t')) := by
  constructor
  case grows =>
    refine grows_put fun other u hu => ?_
    rw [round_setTally, round_getOrFresh] at hu
    rw [tally?_setTally t found]
    -- the tally put in is read under its kind, and the other kind is as it was
    by_cases same : other = kind
    · subst same
      rw [found, Option.some.injEq] at hu
      rw [if_pos rfl, ← hu]
      exact ⟨t', rfl, grows⟩
    · rw [if_neg same]
      exact ⟨u, hu, .refl u⟩
  case sound =>
    intro heard offered hn _ sound
    have before := sound.getOrFresh round
    refine sound.put ⟨fun other u hu => ?_, fun p hp => ?_⟩
    · rw [round_setTally]
      rw [tally?_setTally t found] at hu
      by_cases same : other = kind
      · subst same
        rw [if_pos rfl, Option.some.injEq] at hu
        subst hu
        have held := before.tally other t found
        rw [round_getOrFresh] at held ⊢
        exact sound' heard hn held
      · rw [if_neg same] at hu
        exact before.tally other u hu
    · rw [proposal_setTally] at hp
      rw [round_setTally]
      exact before.proposal p hp

-- ============================================================= counting

/-- Votes of every kind but one are counted. -/
theorem null_of_uncounted {l : RoundLog} {kind : VoteKind}
    (uncounted : l.tally? kind = none) : kind = .null := by
  cases kind with
  | null => rfl
  | prevote => cases uncounted
  | precommit => cases uncounted

/-- What becomes of a vote. It is turned away before its round is opened; or the
round is open, and nothing of its kind is counted, or something keeps it out of
the tally of its kind, or it is recorded there. -/
inductive Counting (s : Scope) (h : HeightLog) (vote : Vote) (h' : HeightLog)
    (result : Except Fault Unit) : Prop
  | barred (cause : VoteFault)
      (bar : vote.body.height ≠ s.height
        ∨ s.validators.contains vote.body.validator = false
        ∨ h.openFor? vote.body.round vote.body.validator = none)
      (same : h' = h) (fails : result = .error (.vote cause))
  | uncounted (null : vote.body.kind = .null)
      (opens : h.openFor? vote.body.round vote.body.validator = some h')
      (fails : result = .error (.vote (.uncountable vote.body.kind)))
  | kept (t : Tally) (fault : Fault) (height : vote.body.height = s.height)
      (member : s.validators.contains vote.body.validator = true)
      (opens : h.openFor? vote.body.round vote.body.validator = some h')
      (found : (h'.getOrFresh vote.body.round).tally? vote.body.kind = some t)
      (refused : t.refusal? s vote = some fault) (fails : result = .error fault)
  | recorded (opened : HeightLog) (t : Tally)
      (opens : h.openFor? vote.body.round vote.body.validator = some opened)
      (found : (opened.getOrFresh vote.body.round).tally? vote.body.kind = some t)
      (admitted : t.refusal? s vote = none)
      (same : h' = opened.put ((opened.getOrFresh vote.body.round).setTally
        vote.body.kind (t.record s vote)))
      (counts : result = .ok ())

/-- Nothing else can become of a vote. -/
theorem counting_addVote (s : Scope) (h : HeightLog) (vote : Vote) :
    Counting s h vote (h.addVote s vote).1 (h.addVote s vote).2 := by
  unfold addVote
  dsimp only
  split
  case isTrue height => exact .barred _ (Or.inl height) rfl rfl
  case isFalse height =>
    split
    case isTrue outside =>
      exact .barred _ (Or.inr (Or.inl (by simpa using outside))) rfl rfl
    case isFalse inside =>
      split
      case h_1 spent => exact .barred _ (Or.inr (Or.inr spent)) rfl rfl
      case h_2 opened opens =>
        split
        case h_1 uncounted =>
          exact .uncounted (null_of_uncounted uncounted) opens rfl
        case h_2 t found =>
          unfold Tally.add
          cases kept : t.refusal? s vote with
          | some fault =>
            exact .kept t fault (Decidable.not_not.1 height) (by simpa using inside)
              opens found kept rfl
          | none => exact .recorded opened t opens found kept rfl rfl

/-- To count a vote is no move. -/
theorem round_addVote (s : Scope) (h : HeightLog) (vote : Vote) :
    (h.addVote s vote).1.round = h.round := by
  cases counting_addVote s h vote with
  | barred _ _ same => rw [same]
  | uncounted _ opens => exact round_openFor? opens
  | kept _ _ _ _ opens => exact round_openFor? opens
  | recorded opened t opens _ _ same =>
    rw [same]
    have kept : opened.round = h.round := round_openFor? opens
    exact kept

/-- Counting a vote keeps what is known; the one vote that may be new is
this one. -/
theorem keeps_addVote (h : HeightLog) {vote : Vote} (new : news vote) :
    h.Keeps s news fresh (h.addVote s vote).1 := by
  cases counting_addVote s h vote with
  | barred _ _ same =>
    rw [same]
    exact .refl h
  | uncounted _ opens => exact keeps_openFor? opens
  | kept _ _ _ _ opens => exact keeps_openFor? opens
  | recorded opened t opens found admitted same =>
    rw [same]
    refine .trans (keeps_openFor? opens) ?_
    refine keeps_put_setTally found (Tally.grows_record s t vote)
      fun heard hn sound => ?_
    exact sound.record (Tally.admits_of_refusal? admitted) (hn vote new)

/-- A claim that is recorded leaves votes, counters and majority. -/
theorem addClaim_eq {t t' : Tally} {peer : Address} {hash : BlockHash}
    (added : t.addClaim peer hash = .ok t') :
    t'.round = t.round ∧ t'.kind = t.kind ∧ t.Alike t' := by
  unfold Tally.addClaim at added
  split at added
  · split at added
    · cases added
      exact ⟨rfl, rfl, .refl t⟩
    · cases added
  · cases added
    exact ⟨rfl, rfl, rfl, rfl, rfl, rfl⟩

-- ============================================================= refusals

/-- To open a round that exists changes nothing. -/
theorem openFor?_of_exists {l : RoundLog} {round : Round} {author : Address}
    (here : h.get? round = some l) : h.openFor? round author = some h := by
  unfold openFor? openRound
  rw [here]
  simp

/-- A round that did not exist is fresh once it is opened. -/
theorem get?_openFor? {round : Round} {author : Address} {h' : HeightLog}
    (absent : h.get? round = none)
    (opened : h.openFor? round author = some h') :
    h'.get? round = some (RoundLog.fresh round) := by
  have found : (h.openRound round).get? round = some (RoundLog.fresh round) := by
    unfold openRound
    rw [absent]
    exact get?_put_self h (RoundLog.fresh round)
  rcases openFor?_cases opened with ⟨-, -, rfl⟩ | ⟨-, rfl⟩
  · exact found
  · exact found

/-- The tallies of a fresh round hold nothing. -/
theorem tally?_fresh {round : Round} {kind : VoteKind} {t : Tally}
    (found : (RoundLog.fresh round).tally? kind = some t) :
    t = { round := round, kind := kind } := by
  cases kind with
  | null => cases found
  | prevote => exact (Option.some.inj found).symm
  | precommit => exact (Option.some.inj found).symm

/-- A vote that is refused changes nothing, unless it opened its round and
then turned out to state another power than its validator has. -/
theorem addVote_refused {vote : Vote} {fault : Fault}
    (counts : vote.body.kind ≠ .null)
    (refused : (h.addVote s vote).2 = .error fault) :
    (h.addVote s vote).1 = h
      ∨ h.get? vote.body.round = none
        ∧ h.openFor? vote.body.round vote.body.validator
          = some (h.addVote s vote).1
        ∧ ∃ power, fault = .vote
          (.powerMismatch vote.body.validator vote.body.power power) := by
  cases counting_addVote s h vote with
  | barred _ _ same => exact Or.inl same
  | uncounted null => exact absurd null counts
  | recorded _ _ _ _ _ _ succeeds => cases refused.symm.trans succeeds
  | kept t _ height member opens found kept fails =>
    cases refused.symm.trans fails
    cases here : h.get? vote.body.round with
    | some l =>
      rw [openFor?_of_exists here] at opens
      exact Or.inl (Option.some.inj opens).symm
    | none =>
      refine Or.inr ⟨rfl, opens, ?_⟩
      unfold getOrFresh at found
      rw [get?_openFor? here opens] at found
      have empty := tally?_fresh found
      subst empty
      exact Tally.powerMismatch_of_empty rfl height rfl rfl member kept

end HeightLog

end Quorum
