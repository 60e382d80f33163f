import LSMIO.CollectiveTrace

namespace LSMIO

namespace Collective

variable {n : Nat}

namespace ServerPc

/-- The server has received the message of a client in this round and not handled it yet. -/
def Holds (i : Fin n) : ServerPc n → Prop
  | receiving j => i < j
  | handling j => j ≤ i
  | testing => False
  | exited => False

/-- The number of messages of a client handled in the round that is going on. -/
def turn (i : Fin n) : ServerPc n → Nat
  | handling j => if i < j then 1 else 0
  | _ => 0

theorem holds_afterRecv [NeZero n] {i j : Fin n} : (afterRecv j).Holds i ↔ i ≤ j := by
  unfold afterRecv
  split
  · simp only [Holds, Fin.lt_def, Fin.le_def]
    omega
  next last =>
    have bound := i.isLt
    refine iff_of_true (Fin.zero_le i) ?_
    rw [Fin.le_def]
    omega

theorem holds_afterHandle {i j : Fin n} : (afterHandle j).Holds i ↔ j < i := by
  unfold afterHandle
  split
  · simp only [Holds, Fin.lt_def, Fin.le_def]
    omega
  next last =>
    have bound := i.isLt
    simp only [Holds, Fin.lt_def, false_iff]
    omega

theorem turn_afterRecv [NeZero n] (i j : Fin n) : (afterRecv j).turn i = 0 := by
  unfold afterRecv
  split
  · rfl
  · simp [turn]

theorem turn_afterHandle (i j : Fin n) (loopCounter : Nat) :
    (if j.val + 1 < n then loopCounter else loopCounter + 1) + (afterHandle j).turn i =
      loopCounter + if i ≤ j then 1 else 0 := by
  unfold afterHandle
  split
  · simp only [turn, Fin.lt_def, Fin.le_def]
    split <;> split <;> omega
  next last =>
    have bound := i.isLt
    have all : i ≤ j := by
      rw [Fin.le_def]
      omega
    rw [if_pos all]
    rfl

end ServerPc

/-- How the server loop, the aggregator's own thread and the clients stand to each other. -/
structure Phases {σ : Type*} (s : State σ n) : Prop where
  recvBuf : ∀ i, (s.links i).recvBuf.isSome ↔ s.server.Holds i
  unfinished : ∀ j, s.server = .receiving j → ∃ i, (s.links i).eol = false
  finished : s.server = .exited → ∀ i, (s.links i).eol = true
  joined : s.main = .closing ∨ s.main = .passed → s.server = .exited
  passed : ∀ i, (s.links i).client = .passed ↔ s.main = .passed

namespace Phases

variable {σ : Type*} {s : State σ n}

theorem init (scripts : Fin n → List Command) (own : List (Command × Bool)) (initial : σ) :
    Phases (State.init scripts own initial) where
  recvBuf i := by simp [State.init, ServerPc.Holds]
  unfinished j at_ := by cases at_
  finished at_ := by cases at_
  joined at_ := by rcases at_ with at_ | at_ <;> cases at_
  passed i := by simp [State.init]

/-- A step of one client that does not pass the barrier. -/
theorem setLink (phases : Phases s) {i : Fin n} {l : Link} (recvBuf : l.recvBuf = (s.links i).recvBuf)
    (eol : l.eol = (s.links i).eol) (before : (s.links i).client ≠ .passed) (after : l.client ≠ .passed) :
    Phases (s.setLink i l) := by
  have same : ∀ j, ((s.setLink i l).links j).recvBuf = (s.links j).recvBuf ∧
      ((s.setLink i l).links j).eol = (s.links j).eol ∧
      (((s.setLink i l).links j).client = .passed ↔ (s.links j).client = .passed) := by
    intro j
    by_cases here : j = i
    · subst here
      rw [State.links_setLink_self]
      exact ⟨recvBuf, eol, iff_of_false after before⟩
    · rw [State.links_setLink_of_ne here]
      exact ⟨rfl, rfl, Iff.rfl⟩
  exact {
    recvBuf := fun j => (same j).1 ▸ phases.recvBuf j
    unfinished := fun j probing => by
      obtain ⟨k, still⟩ := phases.unfinished j probing
      exact ⟨k, (same k).2.1.trans still⟩
    finished := fun exited j => (same j).2.1.trans (phases.finished exited j)
    joined := phases.joined
    passed := fun j => (same j).2.2.trans (phases.passed j) }

/-- The aggregator joins the server thread before it closes, so a server that runs holds it back. -/
theorem running (phases : Phases s) (serving : s.server ≠ .exited) : ¬ (s.main = .closing ∨ s.main = .passed) :=
  mt phases.joined serving

theorem loop [NeZero n] (phases : Phases s) (test : s.server = .testing) :
    Phases { s with server := if ∀ i, (s.links i).eol = true then .exited else .receiving 0 } := by
  have running := phases.running (by simp [test])
  refine ⟨fun i => ?_, fun j probing => ?_, fun exited => ?_, fun closed => absurd closed running, phases.passed⟩
  · have empty := phases.recvBuf i
    rw [test] at empty
    rw [empty]
    split <;> simp [ServerPc.Holds]
  · split at probing
    next => cases probing
    next some_open => simpa using some_open
  · split at exited
    next all => exact all
    next => cases exited

theorem recv [NeZero n] (phases : Phases s) {i : Fin n} {buf : Bytes} {rest : List Bytes}
    (probing : s.server = .receiving i) :
    Phases { s.setLink i ((s.links i).fill buf rest) with server := .afterRecv i } := by
  have running := phases.running (by simp [probing])
  have same : ∀ j, ((s.setLink i ((s.links i).fill buf rest)).links j).eol = (s.links j).eol ∧
      ((s.setLink i ((s.links i).fill buf rest)).links j).client = (s.links j).client := by
    intro j
    rw [State.links_setLink]
    split
    next here =>
      rw [here]
      exact ⟨rfl, rfl⟩
    next => exact ⟨rfl, rfl⟩
  refine ⟨fun j => ?_, fun j _ => ?_, fun exited => ?_, fun closed => absurd closed running, fun j => ?_⟩
  · have before := phases.recvBuf j
    rw [probing] at before
    rw [ServerPc.holds_afterRecv, State.links_setLink]
    split
    next here => simp [Link.fill, here]
    next other => rw [before, ServerPc.Holds, le_iff_lt_or_eq, or_iff_left other]
  · obtain ⟨k, still⟩ := phases.unfinished i probing
    exact ⟨k, (same k).1.trans still⟩
  · unfold ServerPc.afterRecv at exited
    split at exited <;> cases exited
  · exact (same j).2 ▸ phases.passed j

theorem handle (phases : Phases s) {store : LSMIOStore σ} {alwaysFlush : Bool} {i : Fin n} {msg : Message}
    (turn : s.server = .handling i) : Phases (s.handleMessage store alwaysFlush i msg) := by
  have running := phases.running (by simp [turn])
  refine ⟨fun j => ?_, fun j probing => ?_, fun exited => ?_, fun closed => absurd closed running, fun j => ?_⟩
  · have before := phases.recvBuf j
    rw [turn] at before
    rw [State.server_handleMessage, ServerPc.holds_afterHandle]
    by_cases here : j = i
    · subst here
      rw [State.links_handleMessage_self]
      split <;> simp [Link.markEol, Link.answer]
    · rw [State.links_handleMessage_of_ne _ _ _ _ _ here, before, ServerPc.Holds, le_iff_lt_or_eq,
        or_iff_left (Ne.symm here)]
  · rw [State.server_handleMessage, ServerPc.afterHandle] at probing
    split at probing <;> cases probing
  · rw [State.server_handleMessage, ServerPc.afterHandle] at exited
    split at exited <;> cases exited
  · rw [State.main_handleMessage, ← phases.passed j]
    by_cases here : j = i
    · subst here
      rw [State.links_handleMessage_self]
      split <;> rfl
    · rw [State.links_handleMessage_of_ne _ _ _ _ _ here]

theorem next [NeZero n] {store : LSMIOStore σ} {alwaysFlush : Bool} (phases : Phases s) {s' : State σ n} {e : Event n}
    (taken : State.Next store alwaysFlush s e s') : Phases s' := by
  cases State.effect_of_next taken with
  | @send i c todo ready =>
    refine phases.setLink rfl rfl (by simp [ready]) ?_
    cases waits : c.waits <;> simp [Link.send, waits]
  | eol ready => exact phases.setLink rfl rfl (by simp [ready]) (by simp [Link.sendEol])
  | reply blocked _ _ => exact phases.setLink rfl rfl (by simp [blocked]) (by simp [Link.takeReply])
  | loop test => exact phases.loop test
  | recv probing _ => exact phases.recv probing
  | handle turn _ _ => exact phases.handle turn
  | own ready =>
    refine ⟨phases.recvBuf, phases.unfinished, phases.finished, ?_, fun i => ?_⟩
    · rintro (closed | closed) <;> cases closed
    · rw [phases.passed i, ready]
      simp
  | join finished exited =>
    refine ⟨phases.recvBuf, phases.unfinished, phases.finished, fun _ => exited, fun i => ?_⟩
    rw [phases.passed i, finished]
    simp
  | barrier entered _ =>
    exact ⟨phases.recvBuf, phases.unfinished, phases.finished, fun _ => phases.joined (.inl entered),
      fun _ => iff_of_true rfl rfl⟩

theorem of_run [NeZero n] {store : LSMIOStore σ} {alwaysFlush : Bool} {scripts : Fin n → List Command}
    {own : List (Command × Bool)} {initial : σ} {trace : List (Event n)}
    (run : Run (State.Next store alwaysFlush) (State.init scripts own initial) trace s) : Phases s :=
  run.invariant (P := fun _ s => Phases s) (Phases.init scripts own initial) fun _ _ _ _ _ phases taken =>
    phases.next taken

end Phases

section Runs

variable {σ : Type*} (store : LSMIOStore σ) (alwaysFlush : Bool) (initial : σ)

/-- The replies to a client that the operations of a trace lead to. -/
def due (i : Fin n) (trace : List (Event n)) : List Message :=
  outputsOf (rank i) (served n store alwaysFlush initial (operations trace)).2

variable {store alwaysFlush initial}

/-- An event that executes nothing for a client leads to no reply to it. -/
theorem due_concat_other {i : Fin n} {e : Event n} (other : ∀ op ∈ e.operation?, op.rank ≠ rank i)
    (trace : List (Event n)) :
    due store alwaysFlush initial i (trace ++ [e]) = due store alwaysFlush initial i trace := by
  rw [due, operations_concat]
  cases executed : e.operation? with
  | none => simp [due]
  | some op => rw [Option.toList_some, served, serve_concat, outputsOf_append_other (other op executed), due, served]

theorem due_concat_own {i : Fin n} {msg : Message} (operation : msg.command ≠ EOL_COMMAND) (trace : List (Event n)) :
    due store alwaysFlush initial i (trace ++ [.handle i msg]) = due store alwaysFlush initial i trace ++
      ((manager n).handleCommand store alwaysFlush (served n store alwaysFlush initial (operations trace)).1 (rank i)
        msg).2.toList := by
  rw [due, operations_concat, Event.operation?, if_neg operation, Option.toList_some, served, serve_concat]
  exact outputsOf_append_own _ _ _

theorem rank_injective : Function.Injective (rank : Fin n → Nat) := fun _ _ same => Fin.ext (Nat.succ.inj same)

variable {scripts : Fin n → List Command} {own : List (Command × Bool)}

/-- Every link keeps track of what was sent, read, answered and taken. -/
theorem tracks_of_run [NeZero n] {trace : List (Event n)} {s : State σ n}
    (run : Run (State.Next store alwaysFlush) (State.init scripts own initial) trace s) (i : Fin n) :
    ∃ handled flight back, (s.links i).Tracks (scripts i) (sent i trace) handled flight (read i trace)
      (taken i trace) back (due store alwaysFlush initial i trace) := by
  refine run.invariant (P := fun trace s => ∃ handled flight back, (s.links i).Tracks (scripts i) (sent i trace) handled
    flight (read i trace) (taken i trace) back (due store alwaysFlush initial i trace))
    ⟨[], [], [], .start (scripts i)⟩ ?_
  rintro trace s e s' run ⟨handled, flight, back, tracks⟩ step
  -- The link of a client changes with the client's own events alone.
  have kept (link : s'.links i = s.links i) (sends : e.sent? i = none) (reads : e.read? i = none)
      (takes : e.taken? i = none) (executes : ∀ op ∈ e.operation?, op.rank ≠ rank i) :
      ∃ handled flight back, (s'.links i).Tracks (scripts i) (sent i (trace ++ [e])) handled flight
        (read i (trace ++ [e])) (taken i (trace ++ [e])) back (due store alwaysFlush initial i (trace ++ [e])) := by
    refine ⟨handled, flight, back, ?_⟩
    rw [link, sent_concat, sends, read_concat, reads, taken_concat, takes, due_concat_other executes]
    simpa using tracks
  cases State.effect_of_next step with
  | @send j c todo ready =>
    by_cases mine : j = i
    · subst mine
      refine ⟨handled, flight ++ [c.message], back, ?_⟩
      rw [State.links_setLink_self, sent_concat, read_concat, taken_concat,
        due_concat_other (e := .send j c) (by simp [Event.operation?])]
      simpa [Event.sent?, Event.read?, Event.taken?] using tracks.send ready
    · exact kept (State.links_setLink_of_ne (Ne.symm mine) _ _) (if_neg mine) rfl rfl (by simp [Event.operation?])
  | @eol j ready =>
    by_cases mine : j = i
    · subst mine
      refine ⟨handled, flight ++ [eolMessage], back, ?_⟩
      rw [State.links_setLink_self, sent_concat, read_concat, taken_concat,
        due_concat_other (e := .eol j) (by simp [Event.operation?])]
      simpa [Event.sent?, Event.read?, Event.taken?] using tracks.sendEol ready
    · exact kept (State.links_setLink_of_ne (Ne.symm mine) _ _) rfl rfl rfl (by simp [Event.operation?])
  | @reply j c todo buf rest msg blocked arrived reads =>
    by_cases mine : j = i
    · subst mine
      obtain ⟨back', tracks'⟩ := tracks.takeReply blocked arrived reads
      refine ⟨handled, flight, back', ?_⟩
      rw [State.links_setLink_self, sent_concat, read_concat, taken_concat,
        due_concat_other (e := .reply j msg) (by simp [Event.operation?])]
      simpa [Event.sent?, Event.read?, Event.taken?] using tracks'
    · exact kept (State.links_setLink_of_ne (Ne.symm mine) _ _) rfl rfl (if_neg mine) (by simp [Event.operation?])
  | loop test => exact kept rfl rfl rfl rfl (by simp [Event.operation?])
  | @recv j buf rest probing arrived =>
    by_cases mine : j = i
    · subst mine
      have empty : (s.links j).recvBuf = none := by
        have holds := (Phases.of_run run).recvBuf j
        rw [probing, ServerPc.Holds, iff_false_intro (lt_irrefl j), iff_false, Bool.not_eq_true,
          Option.isSome_eq_false_iff, Option.isNone_iff_eq_none] at holds
        exact holds
      refine ⟨handled, flight, back, ?_⟩
      have link : ({ s.setLink j ((s.links j).fill buf rest) with server := .afterRecv j } : State σ n).links j =
          (s.links j).fill buf rest := State.links_setLink_self _ _ _
      rw [link, sent_concat, read_concat, taken_concat, due_concat_other (e := .recv j) (by simp [Event.operation?])]
      simpa [Event.sent?, Event.read?, Event.taken?] using tracks.fill empty arrived
    · exact kept (State.links_setLink_of_ne (Ne.symm mine) _ _) rfl rfl rfl (by simp [Event.operation?])
  | @handle j buf msg turn held reads =>
    by_cases mine : j = i
    · subst mine
      rw [State.links_handleMessage_self, sent_concat, read_concat, taken_concat]
      by_cases eol : msg.command = EOL_COMMAND
      · obtain ⟨handled', flight', tracks'⟩ := tracks.markEol held reads eol
        refine ⟨handled', flight', back, ?_⟩
        rw [if_pos eol, due_concat_other (by simp [Event.operation?, eol])]
        simpa [Event.sent?, Event.read?, Event.taken?] using tracks'
      · have reply : ((manager n).handleCommand store alwaysFlush s.store (rank j) msg).2.map Message.command =
            replyCommand msg.command := by simp [LSMIOManager.handleCommand, Function.comp_def]
        have key : ∀ m ∈ ((manager n).handleCommand store alwaysFlush s.store (rank j) msg).2, m.key = msg.key := by
          intro m member
          obtain ⟨back, -, rfl⟩ := Option.map_eq_some_iff.mp member
          rfl
        obtain ⟨handled', flight', back', tracks'⟩ := tracks.answer held reads eol reply key
        refine ⟨handled', flight', back', ?_⟩
        rw [if_neg eol, due_concat_own eol, ← store_eq_serve run]
        simpa [Event.sent?, Event.read?, Event.taken?] using tracks'
    · refine kept (State.links_handleMessage_of_ne _ _ _ _ _ (Ne.symm mine)) rfl (if_neg mine) rfl ?_
      intro op member
      rw [Event.operation?] at member
      split at member
      next => cases member
      next =>
        cases member
        exact fun same => mine (rank_injective same)
  | own ready =>
    refine kept rfl rfl rfl rfl ?_
    rintro op ⟨⟩
    exact (Nat.succ_ne_zero _).symm
  | join finished exited => exact kept rfl rfl rfl rfl (by simp [Event.operation?])
  | barrier entered clients =>
    refine ⟨handled, flight, back, ?_⟩
    rw [sent_concat, read_concat, taken_concat, due_concat_other (e := .barrier) (by simp [Event.operation?])]
    simpa [Event.sent?, Event.read?, Event.taken?] using tracks.pass (clients i)

/-- The server has read as many messages of a client as it has made rounds, with the one of this round. -/
theorem rounds_of_run [NeZero n] {trace : List (Event n)} {s : State σ n}
    (run : Run (State.Next store alwaysFlush) (State.init scripts own initial) trace s) (i : Fin n) :
    (read i trace).length = s.loopCounter + s.server.turn i := by
  refine run.invariant (P := fun trace s => (read i trace).length = s.loopCounter + s.server.turn i) rfl ?_
  intro trace s e s' _ sofar taken
  rw [read_concat, List.length_append, sofar]
  cases State.effect_of_next taken with
  | loop test =>
    rw [test]
    split <;> rfl
  | recv probing _ =>
    rw [probing]
    exact congrArg (s.loopCounter + ·) (ServerPc.turn_afterRecv i _).symm
  | @handle j buf msg turn _ _ =>
    rw [turn, State.server_handleMessage, State.loopCounter_handleMessage, ServerPc.turn_afterHandle, Event.read?,
      ServerPc.turn]
    by_cases mine : j = i
    · subst mine
      simp
    · have strict : i < j ↔ i ≤ j := ⟨le_of_lt, fun le => lt_of_le_of_ne le (Ne.symm mine)⟩
      simp [mine, strict]
  | _ => rfl

end Runs

end Collective

end LSMIO
